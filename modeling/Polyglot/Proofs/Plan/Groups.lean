import Mathlib.Data.List.Chain
import Polyglot.Plan
import Polyglot.Proofs.Analysis.Lines

/-!
# The lines of the blocks

Each block is made of lines: a block of code of a run of them, a calling block of one.
Together, in order, these are the lines that are neither imports nor part of functions,
but for runs of blank lines between calls.
-/
namespace Polyglot

namespace Block

def text : Block → Text
  | code text _ _ => text
  | call text _ _ _ => text

/-- The lines that the block is made of. -/
inductive MadeOf (a : Analysis) : Block → List Line → Prop
  | code {x z : Line} {ls : List Line} (hx : ls.head? = some x) (hz : ls.getLast? = some z) :
      MadeOf a (.code (Text.unlines (ls.map (·.text))) x.number (a.boundBetween x.number z.number))
        ls
  | call {x : Line} {calls : List CallSite} (hc : calls ≠ []) :
      MadeOf a (.call x.text x.number calls (a.boundBetween x.number x.number)) [x]

variable {a : Analysis} {b : Block} {ls : List Line}

theorem MadeOf.ne_nil (h : b.MadeOf a ls) : ls ≠ [] := by
  cases h with
  | code hx hz => rintro rfl; cases hx
  | call hc => exact List.cons_ne_nil _ _

theorem MadeOf.splitOn_text (h : b.MadeOf a ls) (hl : ∀ x ∈ ls, '\n' ∉ x.text) :
    Text.splitOn '\n' b.text = ls.map (·.text) := by
  have hn := h.ne_nil
  cases h with
  | code hx hz =>
    refine Text.splitOn_unlines (by simpa using hn) fun t ht => ?_
    obtain ⟨x, hx, rfl⟩ := List.mem_map.1 ht
    exact hl x hx
  | @call x calls hc => exact Text.splitOn_of_not_mem (hl x List.mem_cons_self)

theorem MadeOf.calls_ne_nil (h : b.MadeOf a ls) (hb : b.isCall = true) : b.calls ≠ [] := by
  cases h with
  | code hx hz => cases hb
  | call hc => exact hc

theorem MadeOf.exists_first (h : b.MadeOf a ls) : ∃ x ∈ ls, b.firstLine = x.number := by
  cases h with
  | @code x z ls hx hz => exact ⟨x, List.mem_of_head? hx, rfl⟩
  | @call x calls hc => exact ⟨x, List.mem_cons_self, rfl⟩

theorem mem_boundBetween {first last : Nat} {n : Text} :
    n ∈ a.boundBetween first last ↔
      ∃ e ∈ a.bindings, first ≤ e.line ∧ e.line ≤ last ∧ e.name = n := by
  simp only [Analysis.boundBetween, Names.mem_distinct, List.mem_map, List.mem_filter,
    Bool.and_eq_true, decide_eq_true_eq]
  constructor
  · rintro ⟨e, ⟨he, hf, hl⟩, hn⟩
    exact ⟨e, he, hf, hl, hn⟩
  · rintro ⟨e, he, hf, hl, hn⟩
    exact ⟨e, ⟨he, hf, hl⟩, hn⟩

theorem MadeOf.bound_call {text : Text} {line : Nat} {calls : List CallSite} {bound : List Text}
    (h : (Block.call text line calls bound).MadeOf a ls) : bound = a.boundBetween line line := by
  cases h
  rfl

theorem MadeOf.exists_binding (h : b.MadeOf a ls) {n : Text} (hn : n ∈ b.bound) :
    ∃ e ∈ a.bindings, b.firstLine ≤ e.line ∧ e.name = n := by
  cases h with
  | code hx hz =>
    obtain ⟨e, he, hf, -, hn⟩ := mem_boundBetween.1 hn
    exact ⟨e, he, hf, hn⟩
  | call hc =>
    obtain ⟨e, he, hf, -, hn⟩ := mem_boundBetween.1 hn
    exact ⟨e, he, hf, hn⟩

theorem MadeOf.exists_line_of_bound (h : b.MadeOf a ls) {n : Text} (hn : n ∈ b.bound) :
    ∃ e ∈ a.bindings, e.name = n ∧ ∃ x ∈ ls, e.line ≤ x.number := by
  cases h with
  | @code x z ls hx hz =>
    obtain ⟨e, he, -, hl, hn⟩ := mem_boundBetween.1 hn
    exact ⟨e, he, hn, z, List.mem_of_getLast? hz, hl⟩
  | @call x calls hc =>
    obtain ⟨e, he, -, hl, hn⟩ := mem_boundBetween.1 hn
    exact ⟨e, he, hn, x, List.mem_cons_self, hl⟩

theorem MadeOf.firstLine_le (h : b.MadeOf a ls)
    (ho : ls.Pairwise fun x z => x.number < z.number) {x : Line} (hx : x ∈ ls) :
    b.firstLine ≤ x.number := by
  cases h with
  | @code f z ls hf hz =>
    obtain ⟨r, rfl⟩ := List.head?_eq_some_iff.1 hf
    rw [List.pairwise_cons] at ho
    rcases List.mem_cons.1 hx with rfl | hx
    · exact Nat.le_refl _
    · exact Nat.le_of_lt (ho.1 x hx)
  | @call y calls hc =>
    rw [List.mem_singleton.1 hx]
    exact Nat.le_refl _

theorem MadeOf.mem_bound (h : b.MadeOf a ls) (ho : ls.Pairwise fun x z => x.number < z.number)
    {e : Binding} (he : e ∈ a.bindings) {x : Line} (hx : x ∈ ls) (hl : e.line = x.number) :
    e.name ∈ b.bound := by
  have hfirst := h.firstLine_le ho hx
  cases h with
  | @code f z ls hf hz =>
    refine mem_boundBetween.2 ⟨e, he, hl ▸ hfirst, ?_, rfl⟩
    · obtain ⟨r, rfl⟩ := List.getLast?_eq_some_iff.1 hz
      rw [List.pairwise_append] at ho
      rcases List.mem_append.1 hx with hx | hx
      · exact hl ▸ Nat.le_of_lt (ho.2.2 x hx z (List.mem_singleton.2 rfl))
      · rw [List.mem_singleton.1 hx] at hl
        exact Nat.le_of_eq hl
  | @call y calls hc =>
    rw [List.mem_singleton.1 hx] at hl
    exact mem_boundBetween.2 ⟨e, he, Nat.le_of_eq hl.symm, Nat.le_of_eq hl, rfl⟩

end Block

def Line.isBlank (x : Line) : Bool := Text.allBlank x.text

/-- The first list is the second without some of its blank lines. -/
structure Thinned (xs ys : List Line) : Prop where
  sublist : xs.Sublist ys
  solid : xs.filter (!·.isBlank) = ys.filter (!·.isBlank)

namespace Thinned

theorem refl (xs : List Line) : Thinned xs xs := ⟨List.Sublist.refl xs, rfl⟩

theorem append {xs ys xs' ys' : List Line} (h : Thinned xs ys) (h' : Thinned xs' ys') :
    Thinned (xs ++ xs') (ys ++ ys') :=
  ⟨h.sublist.append h'.sublist, by rw [List.filter_append, List.filter_append, h.solid, h'.solid]⟩

theorem nil {ys : List Line} (h : ys.all Line.isBlank = true) : Thinned [] ys := by
  refine ⟨List.nil_sublist ys, ?_⟩
  symm
  rw [List.filter_nil, List.filter_eq_nil_iff]
  intro x hx
  rw [List.all_eq_true.1 h x hx]
  exact Bool.false_ne_true

theorem mem {xs ys : List Line} (h : Thinned xs ys) {x : Line} (hx : x ∈ ys)
    (hb : x.isBlank = false) : x ∈ xs := by
  have hm : x ∈ ys.filter (!·.isBlank) := List.mem_filter.2 ⟨hx, by rw [hb]; rfl⟩
  rw [← h.solid] at hm
  exact (List.mem_filter.1 hm).1

end Thinned

namespace Plan

def keeps (l : Language) (p : Line × Role) : Bool :=
  !Analysis.isImport l p && p.2 != .inFunction

def keptLines (l : Language) (ps : List (Line × Role)) : List Line :=
  (ps.filter (keeps l)).map Prod.fst

variable {l : Language} {functions : FunctionTable} {own : List Text} {a : Analysis}

theorem topLevel_of_callsOf {p : Line × Role} {calls : List CallSite}
    (h : callsOf l functions own p = .ok calls) (hc : calls ≠ []) : p.2 = .topLevel := by
  unfold callsOf at h
  cases ho : CallSite.onLine l functions own p.1.number p.1.text with
  | error e => rw [ho] at h; cases h
  | ok cs =>
    rw [ho] at h
    cases cs with
    | nil => cases h; exact absurd rfl hc
    | cons c cs =>
      dsimp only at h
      split at h
      · cases h
      · next hp =>
        simp only [Bool.or_eq_true, bne_iff_ne, ne_eq, not_or, Decidable.not_not] at hp
        exact hp.1

theorem onLine_of_callsOf {p : Line × Role} {calls : List CallSite}
    (h : callsOf l functions own p = .ok calls) :
    CallSite.onLine l functions own p.1.number p.1.text = .ok calls := by
  unfold callsOf at h
  cases ho : CallSite.onLine l functions own p.1.number p.1.text with
  | error e => rw [ho] at h; cases h
  | ok cs =>
    rw [ho] at h
    cases cs with
    | nil => cases h; rfl
    | cons c cs =>
      dsimp only at h
      split at h
      · cases h
      · cases ha : checkArities functions (c :: cs) with
        | ok u => rw [ha] at h; cases h; rfl
        | error e => rw [ha] at h; cases h

theorem flush_cases (a : Analysis) (pending : List Line) :
    (flush a pending = [] ∧ pending.all Line.isBlank = true) ∨
      ∃ b, flush a pending = [b] ∧ b.isCall = false ∧ b.MadeOf a pending := by
  unfold flush
  cases pending with
  | nil => exact .inl ⟨rfl, rfl⟩
  | cons x r =>
    obtain ⟨z, hz⟩ : ∃ z, (x :: r).getLast? = some z :=
      ⟨_, List.getLast?_eq_some_getLast (List.cons_ne_nil x r)⟩
    simp only [List.head?_cons, hz]
    split
    · next hb => exact .inl ⟨rfl, hb⟩
    · exact .inr ⟨_, rfl, rfl, .code rfl hz⟩

theorem exists_group_flush (a : Analysis) (pending : List Line) :
    ∃ gs : List (Block × List Line), gs.map Prod.fst = flush a pending ∧
      (∀ g ∈ gs, g.1.MadeOf a g.2) ∧ Thinned (gs.flatMap Prod.snd) pending := by
  rcases flush_cases a pending with ⟨hf, hb⟩ | ⟨b, hf, -, hb⟩
  · exact ⟨[], hf.symm, fun _ hg => (nomatch hg), Thinned.nil hb⟩
  · refine ⟨[(b, pending)], hf.symm, fun g hg => ?_, ?_⟩
    · rw [List.mem_singleton.1 hg]
      exact hb
    · rw [List.flatMap_singleton]
      exact .refl pending

/-- How the blocks come of the lines: a line is passed over, waits for its block, or is
a calling block of its own. -/
inductive Cut (l : Language) (functions : FunctionTable) (own : List Text) (a : Analysis) :
    List Line → List (Line × Role) → List Block → Prop
  | done {pending : List Line} : Cut l functions own a pending [] (flush a pending)
  | skip {pending : List Line} {p : Line × Role} {r : List (Line × Role)} {blocks : List Block}
      (hk : keeps l p = false)
      (hc : Analysis.isImport l p = false → callsOf l functions own p = .ok [])
      (h : Cut l functions own a pending r blocks) : Cut l functions own a pending (p :: r) blocks
  | wait {pending : List Line} {p : Line × Role} {r : List (Line × Role)} {blocks : List Block}
      (hk : keeps l p = true) (hc : callsOf l functions own p = .ok [])
      (h : Cut l functions own a (pending ++ [p.1]) r blocks) :
      Cut l functions own a pending (p :: r) blocks
  | call {pending : List Line} {p : Line × Role} {r : List (Line × Role)} {rest : List Block}
      {c : CallSite} {cs : List CallSite} (hk : keeps l p = true)
      (hc : callsOf l functions own p = .ok (c :: cs)) (h : Cut l functions own a [] r rest) :
      Cut l functions own a pending (p :: r)
        (flush a pending ++ callBlock a p.1 (c :: cs) :: rest)

theorem cut_of_blocksFrom {pending : List Line} {ps : List (Line × Role)} {blocks : List Block}
    (h : blocksFrom l functions own a pending ps = .ok blocks) :
    Cut l functions own a pending ps blocks := by
  induction ps generalizing pending blocks with
  | nil => cases h; exact .done
  | cons p r ih =>
    rw [blocksFrom] at h
    cases hi : Analysis.isImport l p with
    | true =>
      rw [hi, if_pos rfl] at h
      refine .skip ?_ (fun hn => ?_) (ih h)
      · rw [keeps, hi]
        rfl
      · rw [hi] at hn
        cases hn
    | false =>
      rw [hi, if_neg Bool.false_ne_true] at h
      cases hc : callsOf l functions own p with
      | error e => rw [hc] at h; cases h
      | ok calls =>
        simp only [hc] at h
        cases calls with
        | nil =>
          dsimp only at h
          by_cases hr : p.2 = .inFunction
          · rw [if_pos hr] at h
            exact .skip (by simp [keeps, hr]) (fun _ => hc) (ih h)
          · rw [if_neg hr] at h
            exact .wait (by simp [keeps, hi, hr]) hc (ih h)
        | cons c cs =>
          dsimp only at h
          have hr := topLevel_of_callsOf hc (List.cons_ne_nil c cs)
          cases hb : blocksFrom l functions own a [] r with
          | error e => rw [hb] at h; cases h
          | ok rest =>
            rw [hb] at h
            cases h
            exact .call (by simp [keeps, hi, hr]) hc (ih hb)

theorem keptLines_of_skip {p : Line × Role} (h : keeps l p = false) (r : List (Line × Role)) :
    keptLines l (p :: r) = keptLines l r := by
  rw [keptLines, List.filter_cons_of_neg (Bool.eq_false_iff.1 h)]
  rfl

theorem keptLines_of_keep {p : Line × Role} (h : keeps l p = true) (r : List (Line × Role)) :
    keptLines l (p :: r) = p.1 :: keptLines l r := by
  rw [keptLines, List.filter_cons_of_pos h]
  rfl

/-- Every block with its lines, and what all of them come to. -/
theorem Cut.exists_groups {pending : List Line} {ps : List (Line × Role)} {blocks : List Block}
    (h : Cut l functions own a pending ps blocks) :
    ∃ gs : List (Block × List Line), gs.map Prod.fst = blocks ∧ (∀ g ∈ gs, g.1.MadeOf a g.2) ∧
      Thinned (gs.flatMap Prod.snd) (pending ++ keptLines l ps) := by
  induction h with
  | done =>
    rw [keptLines, List.filter_nil, List.map_nil, List.append_nil]
    exact exists_group_flush a _
  | skip hk _ _ ih =>
    rw [keptLines_of_skip hk]
    exact ih
  | wait hk _ _ ih =>
    rw [keptLines_of_keep hk, List.append_cons]
    exact ih
  | @call pending p r rest c cs hk _ _ ih =>
    obtain ⟨gs, hg, hh, ht⟩ := ih
    obtain ⟨gs₀, hg₀, hh₀, ht₀⟩ := exists_group_flush a pending
    refine ⟨gs₀ ++ (callBlock a p.1 (c :: cs), [p.1]) :: gs, ?_, fun g hm => ?_, ?_⟩
    · rw [List.map_append, List.map_cons, hg₀, hg]
    · rcases List.mem_append.1 hm with hm | hm
      · exact hh₀ g hm
      · rcases List.mem_cons.1 hm with rfl | hm
        · exact .call (List.cons_ne_nil c cs)
        · exact hh g hm
    · rw [keptLines_of_keep hk, List.flatMap_append, List.flatMap_cons]
      exact ht₀.append ((Thinned.refl [p.1]).append ht)

theorem Cut.mem_of_callsOf {pending : List Line} {ps : List (Line × Role)} {blocks : List Block}
    (h : Cut l functions own a pending ps blocks) {p : Line × Role} (hp : p ∈ ps)
    (hi : Analysis.isImport l p = false) :
    ∃ calls, callsOf l functions own p = .ok calls ∧
      (calls ≠ [] → callBlock a p.1 calls ∈ blocks) := by
  induction h with
  | done => cases hp
  | skip _ hc _ ih =>
    rcases List.mem_cons.1 hp with rfl | hp
    · exact ⟨[], hc hi, fun hn => absurd rfl hn⟩
    · exact ih hp
  | wait _ hc _ ih =>
    rcases List.mem_cons.1 hp with rfl | hp
    · exact ⟨[], hc, fun hn => absurd rfl hn⟩
    · exact ih hp
  | call _ hc _ ih =>
    rcases List.mem_cons.1 hp with rfl | hp
    · exact ⟨_, hc, fun _ => List.mem_append_right _ List.mem_cons_self⟩
    · obtain ⟨calls, hcalls, hm⟩ := ih hp
      exact ⟨calls, hcalls, fun hn => List.mem_append_right _ (List.mem_cons_of_mem _ (hm hn))⟩

theorem Cut.exists_of_isCall {pending : List Line} {ps : List (Line × Role)} {blocks : List Block}
    (h : Cut l functions own a pending ps blocks) {b : Block} (hb : b ∈ blocks)
    (hc : b.isCall = true) :
    ∃ p ∈ ps, callsOf l functions own p = .ok b.calls ∧ b = callBlock a p.1 b.calls := by
  have hflush : ∀ pending, b ∉ flush a pending := by
    intro pending hm
    rcases flush_cases a pending with ⟨hf, -⟩ | ⟨x, hf, hx, -⟩
    · rw [hf] at hm
      cases hm
    · rw [hf, List.mem_singleton] at hm
      rw [hm, hx] at hc
      cases hc
  induction h with
  | done => exact absurd hb (hflush _)
  | skip _ _ _ ih =>
    obtain ⟨p, hp, h⟩ := ih hb
    exact ⟨p, List.mem_cons_of_mem _ hp, h⟩
  | wait _ _ _ ih =>
    obtain ⟨p, hp, h⟩ := ih hb
    exact ⟨p, List.mem_cons_of_mem _ hp, h⟩
  | @call pending p r rest c cs _ hcalls _ ih =>
    rcases List.mem_append.1 hb with hb | hb
    · exact absurd hb (hflush pending)
    · rcases List.mem_cons.1 hb with rfl | hb
      · exact ⟨p, List.mem_cons_self, hcalls, rfl⟩
      · obtain ⟨q, hq, h⟩ := ih hb
        exact ⟨q, List.mem_cons_of_mem _ hq, h⟩

theorem Cut.isChain {pending : List Line} {ps : List (Line × Role)} {blocks : List Block}
    (h : Cut l functions own a pending ps blocks) :
    blocks.IsChain fun b c => b.isCall = true ∨ c.isCall = true := by
  induction h with
  | @done pending =>
    rcases flush_cases a pending with ⟨hf, -⟩ | ⟨b, hf, -, -⟩
    · rw [hf]; exact .nil
    · rw [hf]; exact .singleton b
  | skip _ _ _ ih => exact ih
  | wait _ _ _ ih => exact ih
  | @call pending p r rest c cs _ _ _ ih =>
    have hrest : (callBlock a p.1 (c :: cs) :: rest).IsChain
        fun b c => b.isCall = true ∨ c.isCall = true :=
      List.isChain_cons.2 ⟨fun b _ => .inl rfl, ih⟩
    rcases flush_cases a pending with ⟨hf, -⟩ | ⟨b, hf, -, -⟩
    · rw [hf]; exact hrest
    · rw [hf]
      refine List.isChain_cons.2 ⟨fun d hd => ?_, hrest⟩
      cases hd
      exact .inr rfl

theorem exists_blocksFrom {s : Segment} {plan : Plan}
    (h : ofSegment functions s a = .ok plan) :
    ∃ blocks, blocksFrom s.language functions (ownNames functions s) a [] a.lines = .ok blocks ∧
      plan = ofBlocks (ownNames functions s) blocks := by
  unfold ofSegment at h
  cases hb : blocksFrom s.language functions (ownNames functions s) a [] a.lines with
  | error e => rw [hb] at h; cases h
  | ok blocks =>
    rw [hb] at h
    exact ⟨blocks, rfl, (Except.ok.inj h).symm⟩

theorem blocks_ofBlocks {own : List Text} {blocks : List Block} {b : Block}
    (h : b ∈ (ofBlocks own blocks).blocks) : b ∈ blocks := by
  unfold ofBlocks at h
  split at h
  · exact h
  · cases h

theorem madeOf_of_mem {s : Segment} {plan : Plan} (h : ofSegment functions s a = .ok plan)
    {b : Block} (hb : b ∈ plan.blocks) : ∃ ls, b.MadeOf a ls := by
  obtain ⟨blocks, hf, rfl⟩ := exists_blocksFrom h
  obtain ⟨gs, rfl, hh, -⟩ := (cut_of_blocksFrom hf).exists_groups
  obtain ⟨g, hg, rfl⟩ := List.mem_map.1 (blocks_ofBlocks hb)
  exact ⟨g.2, hh g hg⟩

end Plan
end Polyglot
