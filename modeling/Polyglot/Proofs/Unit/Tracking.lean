import Mathlib.Data.List.Forall2
import Polyglot.Proofs.Analysis.Origin
import Polyglot.Proofs.Plan.Partition
import Polyglot.Proofs.Run.Expansion
import Polyglot.Proofs.Unit.Filling

/-!
# Declared and written back

The names that a unit declares before its body, against the names that its closing code
writes back. They agree but in two places: a continuation declares what its segment
bound before and writes only part of it back, and a name that reads as a placeholder is
itself replaced in the preamble of a template.
-/
namespace Polyglot

section
variable {α β ε : Type} {f : α → Except ε β} {xs : List α} {ys : List β}

theorem mapM_ok_iff :
    xs.mapM f = .ok ys ↔ List.Forall₂ (fun x y => f x = .ok y) xs ys := by
  induction xs generalizing ys with
  | nil =>
    rw [List.mapM_nil, List.forall₂_nil_left_iff]
    exact ⟨fun h => by cases h; rfl, fun h => by rw [h]; rfl⟩
  | cons x r ih =>
    rw [List.mapM_cons, List.forall₂_cons_left_iff]
    constructor
    · intro h
      cases hx : f x with
      | error e => rw [hx] at h; cases h
      | ok y =>
        cases hr : r.mapM f with
        | error e => rw [hx, hr] at h; cases h
        | ok rest => rw [hx, hr] at h; cases h; exact ⟨y, rest, rfl, ih.1 hr, rfl⟩
    · rintro ⟨y, rest, hx, hr, rfl⟩
      rw [hx, ih.2 hr]
      rfl

theorem mem_of_mapM (h : xs.mapM f = .ok ys) {y : β} : y ∈ ys ↔ ∃ x ∈ xs, f x = .ok y := by
  replace h := mapM_ok_iff.1 h
  induction h with
  | nil => simp
  | @cons x b _ _ hx _ ih =>
    have hb : y = b ↔ f x = .ok y := by rw [hx, Except.ok.injEq, eq_comm]
    rw [List.mem_cons, hb, List.exists_mem_cons_iff]
    exact or_congr_right ih

theorem exists_of_mapM (h : xs.mapM f = .ok ys) {x : α} (hx : x ∈ xs) : ∃ y, f x = .ok y := by
  replace h := mapM_ok_iff.1 h
  induction h with
  | nil => cases hx
  | cons hd _ ih =>
    rcases List.mem_cons.1 hx with rfl | hx
    · exact ⟨_, hd⟩
    · exact ih hx

theorem exists_mapM (h : ∀ x ∈ xs, ∃ y, f x = .ok y) : ∃ ys, xs.mapM f = .ok ys := by
  induction xs with
  | nil => exact ⟨[], rfl⟩
  | cons x r ih =>
    obtain ⟨y, hy⟩ := h x List.mem_cons_self
    obtain ⟨ys, hys⟩ := ih fun z hz => h z (List.mem_cons_of_mem x hz)
    refine ⟨y :: ys, ?_⟩
    rw [List.mapM_cons, hy, hys]
    rfl

end

namespace Globals

def declared (g : Globals) (l : Language) (skip : List Text) : List (Text × Text) :=
  (l.declarable skip (g.visible l)).map fun n => (n, g.rendered l n)

theorem preamble_eq_declared (g : Globals) (l : Language) (skip : List Text) :
    g.preamble l skip = Placeholder.declareLines l (g.declared l skip) := by
  rw [Placeholder.declareLines, declared, List.map_map]
  rfl

theorem map_fst_declared (g : Globals) (l : Language) (skip : List Text) :
    (g.declared l skip).map Prod.fst = l.declarable skip (g.visible l) := by
  rw [declared, List.map_map]
  exact List.map_id' _

theorem mem_declared {g : Globals} {l : Language} {skip : List Text} {n : Text}
    (h : n ∈ (g.declared l skip).map Prod.fst) : n ∈ g.visible l := by
  rw [map_fst_declared] at h
  exact (List.mem_filter.1 h).1

theorem nodup_visible (g : Globals) (l : Language) : (g.visible l).Nodup := g.nodup.filter _

end Globals

namespace Template

theorem mem_knownAfter {known : List Text} {pre : List Block} {n : Text} :
    n ∈ knownAfter known pre ↔ n ∈ known ∨ ∃ b ∈ pre, n ∈ b.bound := by
  unfold knownAfter
  induction pre generalizing known with
  | nil => simp
  | cons b r ih => simp [ih, Names.mem_extend, or_assoc]

theorem nodup_knownAfter {known : List Text} (h : known.Nodup) (pre : List Block) :
    (knownAfter known pre).Nodup := by
  unfold knownAfter
  induction pre generalizing known with
  | nil => exact h
  | cons b r ih => exact ih (Names.nodup_extend h b.bound)

theorem isWord_of_placeholder {ctx : SegmentContext} {l : Language} {g : Globals}
    {pre : List Block} (hb : ∀ b ∈ pre, ∀ n ∈ b.bound, Placeholder.IsWord n) {text : Text}
    {line : Nat} {bound : List Text} :
    ∀ n ∈ (ofCode ctx (knownAfter (g.visible l) pre) text line bound).placeholders,
      Placeholder.IsWord n := by
  intro n hn
  rcases mem_knownAfter.1 (List.mem_filter.1 hn).1 with hn | ⟨b, hm, hn⟩
  · exact Token.isWord_of_validName (List.mem_filter.1 hn).2
  · exact hb b hm n hn

end Template

theorem Plan.isWord_of_bound {functions : FunctionTable} {s : Segment} {a : Analysis}
    {plan : Plan} (ha : Analysis.ofSegment s = .ok a) (h : ofSegment functions s a = .ok plan)
    {b : Block} (hb : b ∈ plan.blocks) {n : Text} (hn : n ∈ b.bound) : Placeholder.IsWord n := by
  obtain ⟨ls, hh⟩ := madeOf_of_mem h hb
  obtain ⟨e, he, -, rfl⟩ := hh.exists_binding hn
  exact Analysis.isWord_of_binding ha he

structure Template.Sound (t : Template) : Prop where
  preamble : t.preamble = t.language.declareAll Placeholder.ofName t.placeholders
  postamble : t.postamble = t.language.postamble t.tracked

namespace Placeholder

theorem exists_fillPair {lookup : Text → Except Undefined Text} {n : Text} {d : Text × Text}
    (h : fillPair lookup n = .ok d) :
    lookup n = .ok d.2 ∧
      ((nameAt n = [] ∧ d.1 = n) ∨ (nameAt n ≠ [] ∧ lookup (nameAt n) = .ok d.1)) := by
  unfold fillPair spelled at h
  by_cases hn : nameAt n = []
  · rw [if_pos hn] at h
    cases hv : lookup n with
    | error e => rw [hv] at h; cases h
    | ok v => rw [hv] at h; cases h; exact ⟨rfl, .inl ⟨hn, rfl⟩⟩
  · rw [if_neg hn] at h
    cases hx : lookup (nameAt n) with
    | error e => rw [hx] at h; cases h
    | ok x =>
      cases hv : lookup n with
      | error e => rw [hx, hv] at h; cases h
      | ok v => rw [hx, hv] at h; cases h; exact ⟨rfl, .inr ⟨hn, rfl⟩⟩

end Placeholder

theorem Template.exists_fill {t : Template} {g : Globals} (hs : t.Sound)
    (hw : ∀ n ∈ t.placeholders, Placeholder.IsWord n)
    (hn : ∀ n ∈ t.placeholders, Placeholder.nameAt n = [])
    (hv : ∀ n ∈ t.placeholders, ∃ x, t.valueOf g n = .ok x) : ∃ u, t.fill g = .ok u := by
  have hpairs : ∀ n ∈ t.placeholders, ∃ d, Placeholder.fillPair (t.valueOf g) n = .ok d := by
    intro n hm
    obtain ⟨x, hx⟩ := hv n hm
    refine ⟨(n, x), ?_⟩
    rw [Placeholder.fillPair, Placeholder.spelled_plain _ (hn n hm), hx]
    rfl
  obtain ⟨ds, hds⟩ := exists_mapM hpairs
  rw [fill, hs.preamble, Placeholder.fill_declareAll _ _ hw, hds]
  exact ⟨_, rfl⟩

namespace Task
open Placeholder (IsWord fillPair declareLines)

/-- What the unit declares in its preamble, and after that among what it carries over. -/
def declared? (gen : Generator) (p : Part) (g : Globals) :
    Task → Except Undefined (List (Text × Text) × List (Text × Text))
  | segment => .ok (g.declared p.segment.language p.analysis.bound, [])
  | code t => (t.placeholders.mapM (fillPair (t.valueOf g))).map fun ds => (ds, [])
  | call _ f => .ok (g.declared f.language [], [])
  | continuation _ line _ _ bound =>
    .ok (g.declared p.segment.language bound,
      Generator.carriedBindings (p.context gen) line bound g)

theorem pairs_of_declared {gen : Generator} {p : Part} {g : Globals} {t : Template}
    {ds es : List (Text × Text)} (hd : (code t).declared? gen p g = .ok (ds, es)) :
    t.placeholders.mapM (fillPair (t.valueOf g)) = .ok ds ∧ es = [] := by
  rw [declared?] at hd
  cases hm : t.placeholders.mapM (fillPair (t.valueOf g)) with
  | error e => rw [hm] at hd; cases hd
  | ok fs => rw [hm] at hd; cases hd; exact ⟨rfl, rfl⟩

def Loses (g : Globals) (p : Part) (x : Text) : Task → Prop
  | segment => False
  | code t => ∃ n ∈ t.placeholders, Placeholder.nameAt n ≠ [] ∧
      t.valueOf g (Placeholder.nameAt n) = .ok x ∧ x ∉ t.tracked
  | call _ _ => False
  | continuation _ line _ _ bound =>
      (∃ b ∈ p.analysis.bindings, b.line < line ∧ b.name = x) ∧ x ∉ g.names ∧ x ∉ bound

variable {gen : Generator} {p : Part} {g : Globals}

theorem fallback?_ofCode (known : List Text) (text : Text) (line : Nat) (bound : List Text)
    (n : Text) :
    (Template.ofCode (p.context gen) known text line bound).fallback? n =
      (p.analysis.lastBefore? line n).map (·.expression) := by
  rw [← Analysis.find?_bindingsBefore, Template.fallback?]
  simp only [Template.ofCode, SegmentContext.fallbacks, List.find?_map, Option.map_map]
  rfl

theorem isWord_of_planned (ha : Analysis.ofSegment p.segment = .ok p.analysis)
    (hp : Plan.ofSegment gen.functions p.segment p.analysis = .ok p.plan) {t : Template}
    (ht : (code t).Planned gen p) : ∀ n ∈ t.placeholders, IsWord n := by
  obtain ⟨g', pre, text, line, bound, post, hb, rfl⟩ := ht
  refine Template.isWord_of_placeholder fun b hbp n hn => ?_
  exact Plan.isWord_of_bound ha hp (hb ▸ List.mem_append_left _ hbp) hn

theorem exists_draft {task : Task} (hw : ∀ t, task = code t → ∀ n ∈ t.placeholders, IsWord n)
    (hl : ∀ t, task = code t → t.Sound) {u : GuestUnit} (hu : task.unit? gen p g = .ok u) :
    ∃ d ds es, task.draft? gen p g = .ok d ∧ u.source = d.text ∧
      task.declared? gen p g = .ok (ds, es) ∧ d.preamble = declareLines u.language ds ∧
      d.carried = declareLines u.language es ∧ d.postamble = u.language.postamble u.tracked := by
  cases task with
  | segment =>
    cases hu
    exact ⟨_, _, _, rfl, rfl, rfl, g.preamble_eq_declared _ _, rfl, rfl⟩
  | call c f =>
    cases hu
    exact ⟨_, _, _, rfl, rfl, rfl, g.preamble_eq_declared _ _, rfl, rfl⟩
  | continuation text line calls returns bound =>
    cases hu
    exact ⟨_, _, _, rfl, rfl, rfl, g.preamble_eq_declared _ _, rfl, rfl⟩
  | code t =>
    obtain ⟨hpre, hpost⟩ := hl t rfl
    have hf := Placeholder.fill_declareAll (t.valueOf g) t.language (hw t rfl)
    rw [← hpre] at hf
    simp only [unit?, Template.fill, draft?, declared?, hf] at hu ⊢
    cases hm : t.placeholders.mapM (fillPair (t.valueOf g)) with
    | error e => rw [hm] at hu; cases hu
    | ok ds =>
      rw [hm] at hu
      cases hu
      exact ⟨_, ds, [], rfl, rfl, rfl, rfl, rfl, hpost⟩

theorem sound_of_planned {t : Template} (ht : (code t).Planned gen p) : t.Sound := by
  obtain ⟨g', pre, text, line, bound, post, -, rfl⟩ := ht
  exact ⟨rfl, rfl⟩

theorem exists_draft_of_planned (ha : Analysis.ofSegment p.segment = .ok p.analysis)
    (hp : Plan.ofSegment gen.functions p.segment p.analysis = .ok p.plan) {task : Task}
    (ht : ∀ t, task = code t → task.Planned gen p) {u : GuestUnit}
    (hu : task.unit? gen p g = .ok u) :
    ∃ d ds es, task.draft? gen p g = .ok d ∧ u.source = d.text ∧
      task.declared? gen p g = .ok (ds, es) ∧ d.preamble = declareLines u.language ds ∧
      d.carried = declareLines u.language es ∧ d.postamble = u.language.postamble u.tracked :=
  exists_draft (fun t e => isWord_of_planned ha hp (e ▸ ht t e))
    (fun t e => sound_of_planned (e ▸ ht t e)) hu

theorem tracked_of_planned {t : Template} (ht : (code t).Planned gen p) :
    t.tracked.Nodup ∧ ∀ n ∈ t.placeholders, n ∈ t.tracked := by
  obtain ⟨g', pre, text, line, bound, post, -, rfl⟩ := ht
  refine ⟨?_, fun n hn => ?_⟩
  · exact Names.nodup_extend (Template.nodup_knownAfter (g'.nodup_visible _) pre) bound
  · exact Names.mem_extend.2 (.inl (List.mem_filter.1 hn).1)

theorem nodup_tracked {h : History} {task : Task}
    (ht : ∀ t, task = code t → task.Planned gen p) {u : GuestUnit}
    (hu : task.unit? gen p h.table = .ok u) : u.tracked.Nodup := by
  cases task with
  | segment => cases hu; exact Names.nodup_extend (h.table.nodup_visible _) _
  | continuation text line calls returns bound =>
    cases hu
    exact Names.nodup_extend (h.table.nodup_visible _) _
  | call c f =>
    cases hu
    refine List.nodup_append.2 ⟨h.table.nodup_visible _, by simp, ?_⟩
    intro n hn m hm e
    rw [List.mem_singleton.1 hm] at e
    exact h.returnKey_not_mem_table (e ▸ (List.mem_filter.1 hn).1)
  | code t =>
    obtain ⟨preamble, rfl⟩ := Template.eq_of_fill hu
    exact (tracked_of_planned (ht t rfl)).1

theorem declared_code_iff {t : Template} (ht : (code t).Planned gen p)
    {ds : List (Text × Text)} (hd : t.placeholders.mapM (fillPair (t.valueOf g)) = .ok ds)
    (x : Text) :
    (x ∈ ds.map Prod.fst ∧ x ∉ t.tracked) ↔ (code t).Loses g p x := by
  constructor
  · rintro ⟨hx, hu⟩
    obtain ⟨d, hm, rfl⟩ := List.mem_map.1 hx
    obtain ⟨n, hn, hf⟩ := (mem_of_mapM hd).1 hm
    obtain ⟨-, ⟨-, he⟩ | ⟨hne, hv⟩⟩ := Placeholder.exists_fillPair hf
    · rw [he] at hu
      exact absurd ((tracked_of_planned ht).2 n hn) hu
    · exact ⟨n, hn, hne, hv, hu⟩
  · rintro ⟨n, hn, hne, hv, hu⟩
    obtain ⟨d, hf⟩ := exists_of_mapM hd hn
    obtain ⟨-, ⟨he, -⟩ | ⟨-, hx⟩⟩ := Placeholder.exists_fillPair hf
    · exact absurd he hne
    · rw [hv] at hx
      cases hx
      exact ⟨List.mem_map_of_mem ((mem_of_mapM hd).2 ⟨n, hn, hf⟩), hu⟩

/-- What a continuation carries over: the last bindings before the line of names that
are in no result, but for those that the line itself binds where that can be done only
once. -/
theorem mem_carriedBindings {line : Nat} {bound : List Text} {n x : Text} :
    (n, x) ∈ Generator.carriedBindings (p.context gen) line bound g ↔
      (∃ b, p.analysis.lastBefore? line n = some b ∧ b.expression = x) ∧ n ∉ g.names ∧
        ¬ (p.segment.language.declaresOnce = true ∧ n ∈ bound) := by
  have hg : g.contains n = false ↔ n ∉ g.names := by
    rw [← Catalog.find?_isSome, Bool.not_eq_true, Catalog.contains]
  have hs : (p.segment.language.declaresOnce && bound.contains n) = false ↔
      ¬ (p.segment.language.declaresOnce = true ∧ n ∈ bound) := by
    rw [← Bool.not_eq_true, Bool.and_eq_true, List.contains_iff_mem]
  rw [← hg, ← hs]
  constructor
  · intro hm
    obtain ⟨hf, hc⟩ := List.mem_filter.1 hm
    obtain ⟨b, hb, he⟩ := List.mem_map.1 hf
    cases he
    rw [Bool.and_eq_true, Bool.not_eq_true', Bool.not_eq_true'] at hc
    exact ⟨⟨b, Analysis.mem_bindingsBefore.1 hb, rfl⟩, hc⟩
  · rintro ⟨⟨b, hb, rfl⟩, hc⟩
    obtain ⟨-, -, rfl⟩ := Analysis.lastBefore?_mem hb
    refine List.mem_filter.2 ⟨List.mem_map.2 ⟨b, Analysis.mem_bindingsBefore.2 hb, rfl⟩, ?_⟩
    rw [Bool.and_eq_true, Bool.not_eq_true', Bool.not_eq_true']
    exact hc

theorem declared_continuation_iff {text : Text} {line : Nat} {calls : List CallSite}
    {returns : List Value} {bound : List Text} (x : Text) :
    (x ∈ (g.declared p.segment.language bound ++
        Generator.carriedBindings (p.context gen) line bound g).map Prod.fst ∧
      x ∉ Names.extend (g.visible p.segment.language) bound) ↔
      (continuation text line calls returns bound).Loses g p x := by
  rw [List.map_append, List.mem_append, Names.mem_extend, not_or, Loses,
    ← Analysis.lastBefore?_isSome]
  constructor
  · rintro ⟨hx | hx, hv, hu⟩
    · exact absurd (Globals.mem_declared hx) hv
    · obtain ⟨⟨n, y⟩, hm, rfl⟩ := List.mem_map.1 hx
      obtain ⟨⟨b, hb, -⟩, hg, -⟩ := mem_carriedBindings.1 hm
      exact ⟨⟨b, hb⟩, hg, hu⟩
  · rintro ⟨⟨b, hb⟩, hg, hu⟩
    have hm : (x, b.expression) ∈ Generator.carriedBindings (p.context gen) line bound g :=
      mem_carriedBindings.2 ⟨⟨b, hb, rfl⟩, hg, fun hd => hu hd.2⟩
    exact ⟨.inr (List.mem_map.2 ⟨_, hm, rfl⟩), fun hv => hg (List.mem_filter.1 hv).1, hu⟩

/-- The names that a unit declares and does not write back, for every unit that can be
generated from a segment, its analysis and its plan. -/
theorem lost_iff (gen : Generator) {p : Part}
    (ha : Analysis.ofSegment p.segment = .ok p.analysis)
    (hp : Plan.ofSegment gen.functions p.segment p.analysis = .ok p.plan) (h : History)
    (task : Task) (ht : ∀ t, task = code t → task.Planned gen p) {u : GuestUnit}
    (hu : task.unit? gen p h.table = .ok u) :
    ∃ d ds es, task.draft? gen p h.table = .ok d ∧ u.source = d.text ∧
      task.declared? gen p h.table = .ok (ds, es) ∧
      d.preamble = declareLines u.language ds ∧ d.carried = declareLines u.language es ∧
      d.postamble = u.language.postamble u.tracked ∧ u.tracked.Nodup ∧
      ∀ x, (x ∈ (ds ++ es).map Prod.fst ∧ x ∉ u.tracked) ↔ task.Loses h.table p x := by
  obtain ⟨d, ds, es, hd, hs, hds, hpre, hcar, hpost⟩ := exists_draft_of_planned ha hp ht hu
  refine ⟨d, ds, es, hd, hs, hds, hpre, hcar, hpost, nodup_tracked ht hu, fun x => ?_⟩
  cases task with
  | segment =>
    cases hu
    cases hds
    rw [List.append_nil]
    exact ⟨fun ⟨hx, hn⟩ => hn (Names.mem_extend.2 (.inl (Globals.mem_declared hx))), False.elim⟩
  | call c f =>
    cases hu
    cases hds
    rw [List.append_nil]
    exact ⟨fun ⟨hx, hn⟩ => hn (List.mem_append_left _ (Globals.mem_declared hx)), False.elim⟩
  | continuation text line calls returns bound =>
    cases hu
    cases hds
    exact declared_continuation_iff x
  | code t =>
    obtain ⟨preamble, rfl⟩ := Template.eq_of_fill hu
    obtain ⟨hm, rfl⟩ := pairs_of_declared hds
    rw [List.append_nil]
    exact declared_code_iff (ht t rfl) hm x

/-- A binding without a value that JSON can hold, and then a call for the same name. -/
def rebindingSource : Text := "[py]\ndef g(n):\n    return n\n[js]\nlet a = undefined\na = g(1)"

theorem lost_iff_rebindingSource :
    ∃ p part text calls bound u d ds es,
      Program.compile .standard rebindingSource = .ok p ∧ part ∈ p.parts ∧
      .call text 6 calls bound ∈ part.plan.blocks ∧
      (continuation text 6 calls [.number "1"] bound).unit? (Execution.generatorOf p) part
        (History.table []) = .ok u ∧
      (continuation text 6 calls [.number "1"] bound).draft? (Execution.generatorOf p) part
        (History.table []) = .ok d ∧
      u.source = d.text ∧ d.preamble = declareLines u.language ds ∧
      d.carried = declareLines u.language es ∧
      "a".toList ∈ (ds ++ es).map Prod.fst ∧ "a".toList ∉ u.tracked := by
  have h : (Program.compile .standard rebindingSource).toOption.map (fun p => p.parts.any fun part =>
      part.analysis.bindings.contains ⟨"a", "undefined", 5⟩ &&
        part.plan.blocks.any fun b => b.isCall && b.firstLine == 6 && b.bound.isEmpty) =
      some true := by
    decide +kernel
  cases hc : Program.compile .standard rebindingSource with
  | error e => rw [hc] at h; cases h
  | ok p =>
    rw [hc] at h
    obtain ⟨part, hp, hk⟩ := List.any_eq_true.1 (Option.some.inj h)
    obtain ⟨hb, hk⟩ := Bool.and_eq_true_iff.1 hk
    obtain ⟨b, hbm, hk⟩ := List.any_eq_true.1 hk
    cases b with
    | code text line bound => cases hk
    | call text line calls bound =>
      obtain ⟨rfl, rfl⟩ : line = 6 ∧ bound = [] := by
        simpa [Block.isCall, Block.firstLine, Block.bound] using hk
      have hcp := Program.compiled_of_compile hc
      obtain ⟨d, ds, es, hd, hs, -, hpre, hcar, -, -, hx⟩ := lost_iff (Execution.generatorOf p)
        (hcp.analyzed part hp) (hcp.planned part hp) []
        (continuation text 6 calls [.number "1"] []) (fun t e => nomatch e) rfl
      have hlost := (hx "a".toList).2 ⟨⟨⟨"a", "undefined", 5⟩, List.contains_iff_mem.1 hb,
        by decide, rfl⟩, List.not_mem_nil, List.not_mem_nil⟩
      exact ⟨p, part, text, calls, [], _, d, ds, es, rfl, hp, hbm, rfl, hd, hs, hpre, hcar,
        hlost.1, hlost.2⟩

end Task
end Polyglot
