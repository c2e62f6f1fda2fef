import Polyglot.Analysis
import Polyglot.Proofs.Function.Cover
import Polyglot.Proofs.Text.Pieces
import Polyglot.Proofs.Token.Place

/-!
# What an analysis says of the lines

The analysis of a segment keeps its lines. Each import and each binding stands on one
of them, and the functions, each with the lines of its source, take up exactly the live
lines that have the role of function lines.
-/
namespace Polyglot

theorem length_numberFrom (n : Nat) (ts : List Text) : (numberFrom n ts).length = ts.length := by
  induction ts generalizing n with
  | nil => rfl
  | cons t r ih => rw [numberFrom, List.length_cons, List.length_cons, ih]

theorem map_fst_numberFrom (n : Nat) (ts : List Text) :
    (numberFrom n ts).map Prod.fst = List.range' n ts.length := by
  induction ts generalizing n with
  | nil => rfl
  | cons t r ih => rw [numberFrom, List.map_cons, ih, List.length_cons, List.range'_succ]

theorem map_snd_numberFrom (n : Nat) (ts : List Text) :
    (numberFrom n ts).map Prod.snd = ts := by
  induction ts generalizing n with
  | nil => rfl
  | cons t r ih => rw [numberFrom, List.map_cons, ih]

namespace Segment

theorem numbers_lines (s : Segment) :
    s.lines.map (·.number) = List.range' s.firstLine s.lines.length := by
  have hl : s.lines.length = (Text.splitOn '\n' s.source).length := by
    rw [lines, List.length_map, numbered, length_numberFrom]
  rw [hl, ← map_fst_numberFrom, lines, List.map_map]
  rfl

theorem texts_lines (s : Segment) : s.lines.map (·.text) = Text.splitOn '\n' s.source := by
  rw [lines, List.map_map]
  exact map_snd_numberFrom _ _

theorem feed_not_mem {s : Segment} {x : Line} (h : x ∈ s.lines) : '\n' ∉ x.text :=
  Text.not_mem_of_mem_splitOn (s.texts_lines ▸ List.mem_map_of_mem h)

theorem tokens_of_mem {s : Segment} {x : Line} (h : x ∈ s.lines) :
    x.tokens = Token.tokenize s.language x.text := by
  obtain ⟨p, -, rfl⟩ := List.mem_map.1 h
  rfl

end Segment

theorem pairwise_of_numbers {α : Type} {f : α → Nat} {xs : List α} {n k : Nat}
    (h : xs.map f = List.range' n k) : xs.Pairwise (fun a b => f a < f b) := by
  have hp := List.pairwise_lt_range' (s := n) (n := k)
  rw [← h, List.pairwise_map] at hp
  exact hp

namespace Analysis
variable {s : Segment} {a : Analysis}

theorem exists_layout (h : ofSegment s = .ok a) :
    ∃ y, Layout.ofLines s.language s.lines = .ok y ∧ a = ofLayout s y := by
  unfold ofSegment at h
  cases hy : Layout.ofLines s.language s.lines with
  | error e => rw [hy] at h; cases h
  | ok y => rw [hy] at h; cases h; exact ⟨y, rfl, rfl⟩

theorem map_fst_lines (h : ofSegment s = .ok a) : a.lines.map Prod.fst = s.lines := by
  obtain ⟨y, hy, rfl⟩ := exists_layout h
  exact (Layout.tracked_of_ofLines hy).2

theorem numbers (h : ofSegment s = .ok a) :
    a.lines.map (·.1.number) = List.range' s.firstLine a.lines.length := by
  have hn := s.numbers_lines
  rw [← map_fst_lines h, List.map_map, List.length_map] at hn
  exact hn

theorem pairwise_lines (h : ofSegment s = .ok a) :
    a.lines.Pairwise fun p q => p.1.number < q.1.number := pairwise_of_numbers (numbers h)

theorem mem_lines_of_mem (h : ofSegment s = .ok a) {p : Line × Role} (hp : p ∈ a.lines) :
    p.1 ∈ s.lines := map_fst_lines h ▸ List.mem_map_of_mem hp

theorem eq_of_number (h : ofSegment s = .ok a) {p q : Line × Role} (hp : p ∈ a.lines)
    (hq : q ∈ a.lines) (hn : p.1.number = q.1.number) : p = q := by
  have hd := pairwise_lines h
  generalize a.lines = rs at hd hp hq
  induction rs with
  | nil => cases hp
  | cons x r ih =>
    rw [List.pairwise_cons] at hd
    rcases List.mem_cons.1 hp with hpx | hp <;> rcases List.mem_cons.1 hq with hqx | hq
    · rw [hpx, hqx]
    · exact absurd hn (Nat.ne_of_lt (hpx ▸ hd.1 q hq))
    · exact absurd hn.symm (Nat.ne_of_lt (hqx ▸ hd.1 p hp))
    · exact ih hd.2 hp hq

theorem exists_line_of_binding (h : ofSegment s = .ok a) {b : Binding} (hb : b ∈ a.bindings) :
    ∃ p ∈ a.lines, p.2 = .topLevel ∧ isImport s.language p = false ∧ b.line = p.1.number ∧
      b.Placed p.1.text (Token.code (Token.tokenize s.language p.1.text)) := by
  obtain ⟨y, hy, rfl⟩ := exists_layout h
  obtain ⟨p, hp, hb⟩ := List.mem_flatMap.1 hb
  have ht := Segment.tokens_of_mem (mem_lines_of_mem h hp)
  unfold bindingsOf at hb
  split at hb
  · next hc =>
    simp only [Bool.and_eq_true, beq_iff_eq, Bool.not_eq_true'] at hc
    obtain ⟨hl, hb⟩ := Binding.placed_of_mem hb
    exact ⟨p, hp, hc.1, hc.2, hl, ht ▸ hb⟩
  · cases hb

theorem isWord_of_binding (h : ofSegment s = .ok a) {b : Binding} (hb : b ∈ a.bindings) :
    b.name ≠ [] ∧ ∀ c ∈ b.name, Placeholder.isWordChar c = true := by
  obtain ⟨p, -, -, -, -, ⟨t, ht, hi, hn⟩, -⟩ := exists_line_of_binding h hb
  rw [hn]
  exact Token.isWord_of_isIdent (List.mem_filter.1 ht).1 hi

theorem live_of_placed {b : Binding} {line : Text} {ts : List Token}
    (h : b.Placed line (Token.code ts)) : Token.isDead ts = false := by
  obtain ⟨⟨t, ht, hi, -⟩, -⟩ := h
  rw [Token.code, List.mem_filter, Bool.not_eq_true'] at ht
  cases hd : Token.isDead ts with
  | false => rfl
  | true => exact absurd (List.all_eq_true.1 hd t ht.1) (by rw [ht.2]; exact Bool.false_ne_true)

theorem countP_imports (h : ofSegment s = .ok a) {p : Line × Role} (hp : p ∈ a.lines) :
    a.imports.countP (·.line == p.1.number) = if isImport s.language p = true then 1 else 0 := by
  have hd := pairwise_lines h
  have hi : a.imports = a.lines.filterMap (importOf s.language) := by
    obtain ⟨y, -, rfl⟩ := exists_layout h
    rfl
  rw [hi]
  generalize a.lines = rs at hd hp
  have hz : ∀ r : List (Line × Role), (∀ q ∈ r, q.1.number ≠ p.1.number) →
      (r.filterMap (importOf s.language)).countP (·.line == p.1.number) = 0 := by
    intro r hr
    rw [List.countP_eq_zero]
    intro i hi hc
    obtain ⟨q, hq, hi⟩ := List.mem_filterMap.1 hi
    unfold importOf at hi
    split at hi
    · cases hi
      exact hr q hq (by simpa using hc)
    · cases hi
  induction rs with
  | nil => cases hp
  | cons q r ih =>
    rw [List.pairwise_cons] at hd
    rcases List.mem_cons.1 hp with rfl | hp
    · have hr := hz r fun q hq => Nat.ne_of_gt (hd.1 q hq)
      by_cases hc : isImport s.language p = true
      · have ho : importOf s.language p = some ⟨p.1.number, Text.trimEnd p.1.text⟩ := if_pos hc
        rw [List.filterMap_cons, ho, if_pos hc]
        simp [hr]
      · have ho : importOf s.language p = none := if_neg hc
        rw [List.filterMap_cons, ho, if_neg hc]
        exact hr
    · have hne : q.1.number ≠ p.1.number := Nat.ne_of_lt (hd.1 p hp)
      have hq := hz [q] fun x hx => by rw [List.mem_singleton.1 hx]; exact hne
      rw [← List.singleton_append, List.filterMap_append, List.countP_append, hq, Nat.zero_add]
      exact ih hd.2 hp

end Analysis

namespace FunctionDef

/-- The lines that the source of a function takes up. -/
def covers (n : Nat) (f : FunctionDef) : Bool :=
  f.line ≤ n && n < f.line + (Text.splitOn '\n' f.source).length

def last (f : FunctionDef) : Nat := f.line + (Text.splitOn '\n' f.source).length - 1

theorem covers_iff {n : Nat} {f : FunctionDef} :
    covers n f = true ↔ f.line ≤ n ∧ n ≤ f.last := by
  have hpos := List.length_pos_iff.2 (Text.splitOn_ne_nil '\n' f.source)
  simp only [covers, last, Bool.and_eq_true, decide_eq_true_eq]
  omega

end FunctionDef

section
variable {α : Type} {f : α → Nat} {xs : List α}

theorem suffix_filter_le (h : xs.Pairwise fun a b => f a < f b) (n : Nat) :
    xs.filter (n ≤ f ·) <:+ xs := by
  induction xs with
  | nil => exact List.suffix_rfl
  | cons x r ih =>
    rw [List.pairwise_cons] at h
    by_cases hx : n ≤ f x
    · have hall : ∀ y ∈ x :: r, decide (n ≤ f y) = true :=
        List.forall_mem_cons.2 ⟨decide_eq_true hx, fun y hy =>
          decide_eq_true (Nat.le_trans hx (Nat.le_of_lt (h.1 y hy)))⟩
      exact ⟨[], List.filter_eq_self.2 hall⟩
    · rw [List.filter_cons_of_neg (by simpa using hx)]
      exact (ih h.2).trans (List.suffix_cons x r)

theorem prefix_filter_ge (h : xs.Pairwise fun a b => f a < f b) (n : Nat) :
    xs.filter (f · ≤ n) <+: xs := by
  induction xs with
  | nil => exact List.prefix_rfl
  | cons x r ih =>
    rw [List.pairwise_cons] at h
    by_cases hx : f x ≤ n
    · rw [List.filter_cons_of_pos (by simpa using hx)]
      exact List.cons_prefix_cons.2 ⟨rfl, ih h.2⟩
    · have hnone : ∀ y ∈ x :: r, ¬ decide (f y ≤ n) = true := by
        refine List.forall_mem_cons.2 ⟨by simpa using hx, fun y hy => ?_⟩
        have hlt := h.1 y hy
        rw [decide_eq_true_eq]
        omega
      rw [List.filter_eq_nil_iff.2 hnone]
      exact List.nil_prefix

theorem infix_filter_between (h : xs.Pairwise fun a b => f a < f b) (first last : Nat) :
    (xs.filter fun x => first ≤ f x && f x ≤ last) <:+: xs := by
  have hsplit : (xs.filter fun x => first ≤ f x && f x ≤ last) =
      (xs.filter (first ≤ f ·)).filter (f · ≤ last) := by
    rw [List.filter_filter]
    exact List.filter_congr fun x _ => Bool.and_comm _ _
  rw [hsplit]
  exact (prefix_filter_ge (h.sublist List.filter_sublist) last).isInfix.trans
    (suffix_filter_le h first).isInfix

end

theorem length_filter_between {n k first last : Nat} (hf : n ≤ first) (ho : first ≤ last)
    (hl : last < n + k) :
    ((List.range' n k).filter fun m => first ≤ m && m ≤ last).length = last + 1 - first := by
  have hs : List.range' n k = List.range' n (first - n) ++
      (List.range' first (last + 1 - first) ++ List.range' (last + 1) (n + k - (last + 1))) := by
    have h₁ : first = n + (first - n) := by omega
    have h₂ : last + 1 = first + (last + 1 - first) := by omega
    have hrest : List.range' first (last + 1 - first) ++
        List.range' (last + 1) (n + k - (last + 1)) = List.range' first (n + k - first) := by
      have hk : n + k - first = last + 1 - first + (n + k - (last + 1)) := by omega
      rw [hk, ← List.range'_append_1, ← h₂]
    have hk : k = first - n + (n + k - first) := by omega
    rw [hrest]
    conv => lhs; rw [hk, ← List.range'_append_1, ← h₁]
  have hbefore : (List.range' n (first - n)).filter (fun m => first ≤ m && m ≤ last) = [] := by
    rw [List.filter_eq_nil_iff]
    intro m hm
    rw [List.mem_range'_1] at hm
    simp only [Bool.and_eq_true, decide_eq_true_eq]
    omega
  have hwithin : (List.range' first (last + 1 - first)).filter
      (fun m => first ≤ m && m ≤ last) = List.range' first (last + 1 - first) := by
    rw [List.filter_eq_self]
    intro m hm
    rw [List.mem_range'_1] at hm
    simp only [Bool.and_eq_true, decide_eq_true_eq]
    omega
  have hafter : (List.range' (last + 1) (n + k - (last + 1))).filter
      (fun m => first ≤ m && m ≤ last) = [] := by
    rw [List.filter_eq_nil_iff]
    intro m hm
    rw [List.mem_range'_1] at hm
    simp only [Bool.and_eq_true, decide_eq_true_eq]
    omega
  rw [hs, List.filter_append, List.filter_append, hbefore, hwithin, hafter, List.nil_append,
    List.append_nil, List.length_range']

namespace Analysis
variable {s : Segment} {a : Analysis}

theorem length_sourceBetween {rs : List (Line × Role)} {n first last : Nat}
    (hn : rs.map (·.1.number) = List.range' n rs.length) (ht : ∀ p ∈ rs, '\n' ∉ p.1.text)
    (hf : n ≤ first) (ho : first ≤ last) (hl : last < n + rs.length) :
    (Text.splitOn '\n' (sourceBetween rs first last)).length = last + 1 - first := by
  have hlen := length_filter_between hf ho hl
  rw [← hn, List.filter_map, List.length_map] at hlen
  have hc : (rs.filter fun p => first ≤ p.1.number && p.1.number ≤ last).length =
      last + 1 - first := hlen
  rw [sourceBetween, Text.splitOn_unlines, List.length_map, hc]
  · intro he
    have hz := congrArg List.length he
    rw [List.length_map, hc, List.length_nil] at hz
    omega
  · intro t hm
    obtain ⟨p, hp, rfl⟩ := List.mem_map.1 hm
    exact ht p (List.mem_filter.1 hp).1

theorem exists_extents (h : ofSegment s = .ok a) :
    ∃ y, Layout.ofLines s.language s.lines = .ok y ∧ a = ofLayout s y ∧
      ∀ e ∈ y.extents, e.header.line ≤ e.last ∧ (functionOf s y.lines e).last = e.last := by
  have hn := numbers h
  have ht : ∀ q ∈ a.lines, '\n' ∉ q.1.text :=
    fun q hq => Segment.feed_not_mem (mem_lines_of_mem h hq)
  obtain ⟨y, hy, rfl⟩ := exists_layout h
  obtain ⟨hw, -⟩ := (Layout.tracked_of_ofLines hy).1.covers hn (View.before_none _)
  refine ⟨y, hy, rfl, fun e he => ?_⟩
  obtain ⟨h₁, h₂, h₃⟩ := hw e he
  have hlen := length_sourceBetween hn ht h₁ h₂ h₃
  have hlast : (functionOf s y.lines e).last = e.header.line +
      (Text.splitOn '\n' (sourceBetween y.lines e.header.line e.last)).length - 1 := rfl
  have hlines : (ofLayout s y).lines = y.lines := rfl
  rw [hlines] at hlen
  rw [hlast, hlen]
  omega

theorem line_le_last (h : ofSegment s = .ok a) {f : FunctionDef} (hf : f ∈ a.functions) :
    f.line ≤ f.last := by
  obtain ⟨y, -, rfl, hlast⟩ := exists_extents h
  obtain ⟨e, he, rfl⟩ := List.mem_map.1 hf
  rw [(hlast e he).2]
  exact (hlast e he).1

theorem source_of_function (h : ofSegment s = .ok a) {f : FunctionDef} (hf : f ∈ a.functions) :
    f.source = sourceBetween a.lines f.line f.last := by
  obtain ⟨y, -, rfl, hlast⟩ := exists_extents h
  obtain ⟨e, he, rfl⟩ := List.mem_map.1 hf
  rw [(hlast e he).2]
  rfl

/-- The source of a function is made of lines of the segment, and those of them that are
live have the role of function lines. -/
theorem exists_lines_of_function (h : ofSegment s = .ok a) {f : FunctionDef}
    (hf : f ∈ a.functions) :
    f.language = s.language ∧ ∃ ps : List (Line × Role),
      f.source = Text.unlines (ps.map (·.1.text)) ∧
      ∀ p ∈ ps, p ∈ a.lines ∧ (Token.isDead p.1.tokens = true ∨ p.2 = .inFunction) := by
  have hn := numbers h
  obtain ⟨y, hy, rfl⟩ := exists_layout h
  obtain ⟨e, he, rfl⟩ := List.mem_map.1 hf
  obtain ⟨-, hc⟩ := (Layout.tracked_of_ofLines hy).1.covers hn (View.before_none _)
  refine ⟨rfl, _, rfl, fun p hp => ?_⟩
  obtain ⟨hm, hp⟩ := List.mem_filter.1 hp
  refine ⟨hm, ?_⟩
  cases hl : Token.isDead p.1.tokens with
  | true => exact .inl rfl
  | false =>
    refine .inr (Decidable.byContradiction fun hr => ?_)
    have hcount := hc p hm hl
    rw [if_neg hr, List.countP_eq_zero] at hcount
    exact hcount e he hp

theorem infix_source {s : Segment} {a : Analysis} (h : ofSegment s = .ok a)
    {f : FunctionDef} (hf : f ∈ a.functions) : f.source <:+: s.source := by
  have ho := pairwise_lines h
  have hlines : a.lines.map (·.1.text) = Text.splitOn '\n' s.source := by
    rw [← s.texts_lines, ← map_fst_lines h, List.map_map]
    rfl
  have hwhole : s.source = Text.unlines (a.lines.map (·.1.text)) := by
    rw [hlines]
    exact (Text.unlines_splitOn s.source).symm
  obtain ⟨y, hy, rfl⟩ := exists_layout h
  obtain ⟨e, he, rfl⟩ := List.mem_map.1 hf
  rw [hwhole]
  refine Text.infix_unlines_of_infix ?_
  exact (infix_filter_between (f := fun p : Line × Role => p.1.number) ho
    e.header.line e.last).map _

theorem countP_functions (h : ofSegment s = .ok a) {p : Line × Role} (hp : p ∈ a.lines)
    (hl : Token.isDead p.1.tokens = false) :
    a.functions.countP (FunctionDef.covers p.1.number) = if p.2 = .inFunction then 1 else 0 := by
  have hn := numbers h
  obtain ⟨y, hy, rfl, hlast⟩ := exists_extents h
  obtain ⟨-, hc⟩ := (Layout.tracked_of_ofLines hy).1.covers hn (View.before_none _)
  rw [← hc p hp hl]
  refine List.countP_map.trans (List.countP_congr fun e he => ?_)
  rw [Function.comp_apply, FunctionDef.covers_iff, (hlast e he).2, Extent.covers, Bool.and_eq_true,
    decide_eq_true_eq, decide_eq_true_eq]
  rfl

end Analysis
end Polyglot
