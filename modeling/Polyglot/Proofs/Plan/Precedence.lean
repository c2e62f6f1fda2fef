import Polyglot.Proofs.Analysis.Origin
import Polyglot.Proofs.Plan.Partition
import Polyglot.Proofs.Run.Expansion

/-!
# Which name comes first

Lists of names are put together in many ways: added to one another, thinned out, made of
the bindings of a segment or of the blocks that the segment is cut into. All of them keep
to the order in which the segment first binds the names.
-/
namespace Polyglot

namespace Names

def Precedes (names : List Text) (m n : Text) : Prop := names.idxOf m < names.idxOf n

instance (names : List Text) (m n : Text) : Decidable (Precedes names m n) :=
  inferInstanceAs (Decidable (_ < _))

variable {names extra : List Text} {m n : Text}

theorem precedes_append_of_mem (hn : n ∈ names) :
    Precedes (names ++ extra) m n ↔ Precedes names m n := by
  have hlt := List.idxOf_lt_length_of_mem hn
  unfold Precedes
  rw [List.idxOf_append, List.idxOf_append, if_pos hn]
  by_cases hm : m ∈ names
  · rw [if_pos hm]
  · rw [if_neg hm, List.idxOf_eq_length hm]
    omega

theorem precedes_append_of_not_mem (hn : n ∉ names) :
    Precedes (names ++ extra) m n ↔ m ∈ names ∨ Precedes extra m n := by
  unfold Precedes
  rw [List.idxOf_append, List.idxOf_append, if_neg hn]
  by_cases hm : m ∈ names
  · have hlt := List.idxOf_lt_length_of_mem hm
    rw [if_pos hm]
    exact ⟨fun _ => .inl hm, fun _ => by omega⟩
  · rw [if_neg hm]
    simp only [hm, false_or]
    omega

theorem precedes_cons {x : Text} (hn : x ≠ n) :
    Precedes (x :: names) m n ↔ m = x ∨ Precedes names m n := by
  have hx : n ∉ [x] := fun h => hn (List.mem_singleton.1 h).symm
  rw [← List.singleton_append, precedes_append_of_not_mem hx, List.mem_singleton]

theorem not_precedes_head : ¬ Precedes (n :: names) m n := by
  unfold Precedes
  rw [List.idxOf_cons_self]
  exact Nat.not_lt_zero _

theorem prefix_insert (names : List Text) (n : Text) : names <+: insert names n := by
  unfold insert
  split
  · exact List.prefix_rfl
  · exact List.prefix_append names [n]

theorem prefix_extend (names extra : List Text) : names <+: extend names extra := by
  induction extra generalizing names with
  | nil => exact List.prefix_rfl
  | cons x r ih => exact (prefix_insert names x).trans (ih _)

theorem precedes_extend_of_mem (hn : n ∈ names) :
    Precedes (extend names extra) m n ↔ Precedes names m n := by
  obtain ⟨r, hr⟩ := prefix_extend names extra
  rw [← hr, precedes_append_of_mem hn]

theorem precedes_extend_of_not_mem (hn : n ∉ names) :
    Precedes (extend names extra) m n ↔ m ∈ names ∨ Precedes extra m n := by
  induction extra generalizing names with
  | nil =>
    have h : Precedes names m n ↔ m ∈ names ∨ Precedes [] m n := by
      rw [← precedes_append_of_not_mem hn, List.append_nil]
    exact h
  | cons x r ih =>
    rw [show extend names (x :: r) = extend (insert names x) r from rfl]
    by_cases hx : x = n
    · subst hx
      have hins : insert names x = names ++ [x] := if_neg hn
      rw [hins, precedes_extend_of_mem (List.mem_append_right _ List.mem_cons_self),
        precedes_append_of_not_mem hn]
      simp only [not_precedes_head]
    · have hins : n ∉ insert names x := by
        rw [mem_insert, not_or]
        exact ⟨hn, Ne.symm hx⟩
      rw [ih hins, mem_insert, precedes_cons hx, or_assoc]

theorem precedes_distinct : Precedes (distinct names) m n ↔ Precedes names m n := by
  rw [distinct, precedes_extend_of_not_mem List.not_mem_nil]
  exact or_iff_right List.not_mem_nil

theorem precedes_filter {q : Text → Bool} (hm : q m = true) (hn : q n = true) :
    Precedes (names.filter q) m n ↔ Precedes names m n := by
  induction names with
  | nil => exact Iff.rfl
  | cons x r ih =>
    by_cases hx : x = n
    · subst hx
      rw [List.filter_cons_of_pos hn]
      exact iff_of_false not_precedes_head not_precedes_head
    · rw [precedes_cons hx, ← ih]
      by_cases hq : q x = true
      · rw [List.filter_cons_of_pos hq, precedes_cons hx]
      · have hne : m ≠ x := fun e => hq (e ▸ hm)
        rw [List.filter_cons_of_neg hq]
        exact (or_iff_right hne).symm

theorem sublist_pair_iff (hd : names.Nodup) (hn : n ∈ names) :
    [m, n].Sublist names ↔ Precedes names m n := by
  induction names with
  | nil => cases hn
  | cons x r ih =>
    rw [List.nodup_cons] at hd
    by_cases hx : x = n
    · subst hx
      refine iff_of_false (fun hs => ?_) not_precedes_head
      cases hs with
      | cons _ hs => exact hd.1 (hs.subset (List.mem_cons_of_mem _ List.mem_cons_self))
      | cons_cons _ hs => exact hd.1 (List.singleton_sublist.1 hs)
    · have hr : n ∈ r := (List.mem_cons.1 hn).resolve_left (Ne.symm hx)
      rw [precedes_cons hx, ← ih hd.2 hr]
      constructor
      · intro hs
        cases hs with
        | cons _ hs => exact .inr hs
        | cons_cons _ hs => exact .inl rfl
      · rintro (rfl | hs)
        · exact (List.singleton_sublist.2 hr).cons_cons _
        · exact hs.cons _

theorem extend_insert (names seen : List Text) (n : Text) :
    extend names (insert seen n) = insert (extend names seen) n := by
  by_cases h : n ∈ seen
  · have hn : n ∈ extend names seen := mem_extend.2 (.inr h)
    rw [insert, insert, if_pos h, if_pos hn]
  · rw [insert, if_neg h, ← extend_append]
    rfl

theorem extend_extend (names seen extra : List Text) :
    extend names (extend seen extra) = extend (extend names seen) extra := by
  induction extra generalizing seen with
  | nil => rfl
  | cons x r ih =>
    have h := ih (insert seen x)
    rw [extend_insert] at h
    exact h

theorem extend_distinct (names extra : List Text) :
    extend names (distinct extra) = extend names extra :=
  extend_extend names [] extra

end Names

namespace Analysis
variable {s : Segment} {a : Analysis}

theorem map_name_latest (bs : List Binding) :
    (latest bs).map (·.name) = Names.distinct (bs.map (·.name)) := by
  suffices h : ∀ out : List Binding,
      (bs.foldl (fun out b => Catalog.putIn Binding.name b out) out).map (·.name) =
        Names.extend (out.map (·.name)) (bs.map (·.name)) from h []
  induction bs with
  | nil => exact fun out => rfl
  | cons b r ih =>
    intro out
    have hput : (Catalog.putIn Binding.name b out).map (·.name) =
        Names.insert (out.map (·.name)) b.name := Catalog.map_putIn b out
    rw [List.foldl_cons, ih, hput]
    rfl

theorem filter_append_filter {bs : List Binding} (ho : bs.Pairwise fun b c => b.line ≤ c.line)
    {q r : Binding → Bool} (h : ∀ b c, q b = true → r c = true → b.line < c.line) :
    bs.filter q ++ bs.filter r = bs.filter fun b => q b || r b := by
  induction bs with
  | nil => rfl
  | cons b rest ih =>
    rw [List.pairwise_cons] at ho
    have ih := ih ho.2
    by_cases hq : q b = true
    · have hr : ¬ r b = true := fun hr => Nat.lt_irrefl _ (h b b hq hr)
      rw [List.filter_cons_of_pos hq, List.filter_cons_of_neg hr,
        List.filter_cons_of_pos (by rw [hq]; rfl), List.cons_append, ih]
    · by_cases hr : r b = true
      · have hnone : rest.filter q = [] := by
          refine List.filter_eq_nil_iff.2 fun c hc hqc => ?_
          exact absurd (ho.1 c hc) (Nat.not_le_of_lt (h c b hqc hr))
        rw [hnone, List.nil_append] at ih
        rw [List.filter_cons_of_neg hq, hnone, List.filter_cons_of_pos hr,
          List.filter_cons_of_pos (by rw [hr, Bool.or_true]), List.nil_append, ih]
      · rw [List.filter_cons_of_neg hq, List.filter_cons_of_neg hr,
          List.filter_cons_of_neg (by simp [hq, hr]), ih]

def namesBefore (a : Analysis) (line : Nat) : List Text :=
  (a.bindings.filter (·.line < line)).map (·.name)

theorem mem_namesBefore {line : Nat} {n : Text} {b : Binding}
    (h : a.lastBefore? line n = some b) : n ∈ a.namesBefore line := by
  obtain ⟨hm, hline, rfl⟩ := lastBefore?_mem h
  exact List.mem_map_of_mem (List.mem_filter.2 ⟨hm, decide_eq_true hline⟩)

theorem map_name_bindingsBefore (a : Analysis) (line : Nat) :
    (a.bindingsBefore line).map (·.name) = Names.distinct (a.namesBefore line) :=
  map_name_latest _

theorem precedes_namesBefore (ha : ofSegment s = .ok a) {line : Nat} {m n : Text}
    (hn : n ∈ a.namesBefore line) :
    Names.Precedes (a.namesBefore line) m n ↔ Names.Precedes (a.bindings.map (·.name)) m n := by
  have hsplit : a.bindings.filter (·.line < line) ++ a.bindings.filter (line ≤ ·.line) =
      a.bindings := by
    rw [filter_append_filter (pairwise_bindings ha)]
    · refine List.filter_eq_self.2 fun b _ => ?_
      simpa using Nat.lt_or_ge b.line line
    · intro b c hb hc
      exact Nat.lt_of_lt_of_le (of_decide_eq_true hb) (of_decide_eq_true hc)
  rw [← hsplit, List.map_append]
  exact (Names.precedes_append_of_mem hn).symm

end Analysis

namespace Plan
variable {functions : FunctionTable} {s : Segment} {a : Analysis} {plan : Plan}

def spans (g : Block × List Line) (b : Binding) : Bool :=
  g.1.firstLine ≤ b.line && g.2.any (b.line ≤ ·.number)

theorem spans_iff {g : Block × List Line} {b : Binding} :
    spans g b = true ↔ g.1.firstLine ≤ b.line ∧ ∃ x ∈ g.2, b.line ≤ x.number := by
  simp [spans]

theorem le_last {ls : List Line} (ho : ls.Pairwise fun x z => x.number < z.number) {z : Line}
    (hz : ls.getLast? = some z) {k : Nat} : (∃ x ∈ ls, k ≤ x.number) ↔ k ≤ z.number := by
  refine ⟨?_, fun h => ⟨z, List.mem_of_getLast? hz, h⟩⟩
  rintro ⟨x, hx, hk⟩
  obtain ⟨r, rfl⟩ := List.getLast?_eq_some_iff.1 hz
  rcases List.mem_append.1 hx with hx | hx
  · have hlt := (List.pairwise_append.1 ho).2.2 x hx z (List.mem_singleton.2 rfl)
    exact Nat.le_of_lt (Nat.lt_of_le_of_lt hk hlt)
  · rwa [List.mem_singleton.1 hx] at hk

theorem bound_eq_of_madeOf {g : Block × List Line} (h : g.1.MadeOf a g.2)
    (ho : g.2.Pairwise fun x z => x.number < z.number) :
    g.1.bound = Names.distinct ((a.bindings.filter (spans g)).map (·.name)) := by
  have hrange : ∃ z, g.2.getLast? = some z ∧
      g.1.bound = a.boundBetween g.1.firstLine z.number := by
    obtain ⟨b, ls⟩ := g
    replace h : b.MadeOf a ls := h
    cases h with
    | code hx hz => exact ⟨_, hz, rfl⟩
    | call hc => exact ⟨_, rfl, rfl⟩
  obtain ⟨z, hz, hbound⟩ := hrange
  rw [hbound, Analysis.boundBetween]
  congr 2
  refine List.filter_congr fun b _ => ?_
  rw [Bool.eq_iff_iff, spans_iff, le_last ho hz, Bool.and_eq_true, decide_eq_true_eq,
    decide_eq_true_eq]

theorem flatMap_filter_spans (ha : Analysis.ofSegment s = .ok a)
    {gs : List (Block × List Line)} (hh : ∀ g ∈ gs, g.1.MadeOf a g.2)
    (ho : (gs.flatMap Prod.snd).Pairwise fun x z => x.number < z.number) :
    gs.flatMap (fun g => a.bindings.filter (spans g)) =
      a.bindings.filter fun b => gs.any (spans · b) := by
  induction gs with
  | nil => exact (List.filter_false _).symm
  | cons g r ih =>
    rw [List.flatMap_cons, List.pairwise_append] at ho
    have ih := ih (fun k hk => hh k (List.mem_cons_of_mem g hk)) ho.2.1
    rw [List.flatMap_cons, ih, Analysis.filter_append_filter (Analysis.pairwise_bindings ha)]
    · rfl
    · intro b c hb hc
      obtain ⟨-, x, hx, hbx⟩ := spans_iff.1 hb
      obtain ⟨k, hk, hc⟩ := List.any_eq_true.1 hc
      obtain ⟨z, hz, hfirst⟩ := (hh k (List.mem_cons_of_mem g hk)).exists_first
      have hlt := ho.2.2 x hx z (List.mem_flatMap.2 ⟨k, hk, hz⟩)
      have hkc := (spans_iff.1 hc).1
      omega

theorem any_spans_iff (ha : Analysis.ofSegment s = .ok a)
    {pre post : List (Block × List Line)} {c : Block × List Line}
    (hh : ∀ g ∈ pre ++ c :: post, g.1.MadeOf a g.2)
    (ht : Thinned ((pre ++ c :: post).flatMap Prod.snd) (keptLines s.language a.lines))
    {b : Binding} (hb : b ∈ a.bindings) :
    pre.any (spans · b) = true ↔ b.line < c.1.firstLine := by
  have ho := (pairwise_keptLines ha).sublist ht.sublist
  have hc : c ∈ pre ++ c :: post := List.mem_append_right _ List.mem_cons_self
  have hfirst := pairwise_firstLine hh ho
  obtain ⟨g, hg, x, hx, hline⟩ := exists_grouped_line ha ht hb
  have hle := (hh g hg).firstLine_le ((List.pairwise_flatMap.1 ho).1 g hg) hx
  rw [List.flatMap_append, List.pairwise_append] at ho
  constructor
  · intro h
    obtain ⟨k, hk, hs⟩ := List.any_eq_true.1 h
    obtain ⟨-, y, hy, hby⟩ := spans_iff.1 hs
    obtain ⟨z, hz, hcz⟩ := (hh c hc).exists_first
    have hlt := ho.2.2 y (List.mem_flatMap.2 ⟨k, hk, hy⟩) z
      (List.mem_flatMap.2 ⟨c, List.mem_cons_self, hz⟩)
    omega
  · intro hlt
    rcases List.mem_append.1 hg with hg | hg
    · refine List.any_eq_true.2 ⟨g, hg, spans_iff.2 ⟨by omega, x, hx, by omega⟩⟩
    · -- The line of the binding would not be ahead of the block.
      rcases List.mem_cons.1 hg with rfl | hg
      · omega
      · have hcg := (List.pairwise_cons.1 (List.pairwise_append.1 hfirst).2.1).1 g hg
        omega

theorem knownAfter_eq_extend (known : List Text) (pre : List Block) :
    Template.knownAfter known pre = Names.extend known (pre.flatMap Block.bound) := by
  unfold Template.knownAfter
  induction pre generalizing known with
  | nil => rfl
  | cons b r ih => rw [List.foldl_cons, ih, Names.extend_append, List.flatMap_cons]

theorem extend_bound_eq {gs : List (Block × List Line)} (hh : ∀ g ∈ gs, g.1.MadeOf a g.2)
    (ho : ∀ g ∈ gs, g.2.Pairwise fun x z => x.number < z.number) (known : List Text) :
    Names.extend known ((gs.map Prod.fst).flatMap Block.bound) = Names.extend known
      ((gs.flatMap fun g => a.bindings.filter (spans g)).map (·.name)) := by
  induction gs generalizing known with
  | nil => rfl
  | cons g r ih =>
    have hb := bound_eq_of_madeOf (hh g List.mem_cons_self) (ho g List.mem_cons_self)
    rw [List.map_cons, List.flatMap_cons, List.flatMap_cons, List.map_append, hb,
      ← Names.extend_append, ← Names.extend_append, Names.extend_distinct]
    exact ih (fun k hk => hh k (List.mem_cons_of_mem g hk))
      (fun k hk => ho k (List.mem_cons_of_mem g hk)) _

theorem knownAfter_eq (ha : Analysis.ofSegment s = .ok a)
    (h : ofSegment functions s a = .ok plan) {pre post : List Block} {c : Block}
    (hs : plan.blocks = pre ++ c :: post) (known : List Text) :
    Template.knownAfter known pre = Names.extend known (a.namesBefore c.firstLine) := by
  obtain ⟨blocks, hf, rfl⟩ := exists_blocksFrom h
  obtain ⟨gs, rfl, hh, ht⟩ := (cut_of_blocksFrom hf).exists_groups
  rw [List.nil_append] at ht
  rw [ofBlocks] at hs
  split at hs
  · obtain ⟨gpre, rest, rfl, rfl, hrest⟩ := List.map_eq_append_iff.1 hs
    obtain ⟨g, gpost, rfl, rfl, -⟩ := List.map_eq_cons_iff.1 hrest
    have ho := (pairwise_keptLines ha).sublist ht.sublist
    have hpre : ∀ k ∈ gpre, k.1.MadeOf a k.2 := fun k hk => hh k (List.mem_append_left _ hk)
    have hlines := (List.pairwise_append.1 ((List.flatMap_append ..) ▸ ho)).1
    rw [knownAfter_eq_extend, extend_bound_eq hpre (List.pairwise_flatMap.1 hlines).1,
      flatMap_filter_spans ha hpre hlines, Analysis.namesBefore]
    congr 2
    refine List.filter_congr fun b hb => ?_
    rw [Bool.eq_iff_iff, any_spans_iff ha hh ht hb, decide_eq_true_eq]
  · exact absurd hs.symm (by simp [blocks])

end Plan
end Polyglot
