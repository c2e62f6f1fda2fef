import Polyglot.Proofs.Run.Expansion
import Polyglot.Proofs.Unit.Invocation

/-!
# What a unit contains

A unit is put together from texts that it holds unchanged, and so it contains the whole
definition of each function that it brings along: those of its segment, or for a call the
functions that the call needs.
-/
namespace Polyglot

namespace Draft

theorem infix_assemble {x : Text} {parts : List Text} (h : x ∈ parts) : x <:+: assemble parts := by
  by_cases hx : x = []
  · rw [hx]
    exact List.nil_infix
  · have hm : x ∈ parts.filter (!·.isEmpty) := by
      refine List.mem_filter.2 ⟨h, ?_⟩
      simpa using hx
    exact (Text.infix_unlines hm).trans (List.prefix_append _ _).isInfix

theorem infix_definitions (d : Draft) : d.definitions <:+: d.text :=
  infix_assemble (by simp)

theorem infix_body (d : Draft) : d.body <:+: d.text := infix_assemble (by simp)

end Draft

theorem Template.prefix_trimNewlines {a b : Text} {c : Char} (hc : c ≠ '\n') :
    a ++ [c] <+: trimNewlines (a ++ c :: b) := by
  have hrev : (a ++ c :: b).reverse = b.reverse ++ c :: a.reverse := by simp
  rw [trimNewlines, hrev, List.dropWhile_append]
  split
  · rw [List.dropWhile_cons_of_neg (by simpa using hc)]
    simp
  · simp only [List.reverse_append, List.reverse_cons, List.reverse_reverse, List.append_assoc]
    exact (List.prefix_append_right_inj a).2 (List.prefix_append [c] _)

theorem Template.infix_body {definitions text : Text} {c : Char} (hm : c ∈ text)
    (hc : c ≠ '\n') : definitions <:+: trimNewlines (Draft.assemble [definitions, text]) := by
  by_cases hd : definitions = []
  · rw [hd]
    exact List.nil_infix
  · obtain ⟨x, y, rfl⟩ := List.append_of_mem hm
    have hwhole : Draft.assemble [definitions, x ++ c :: y] =
        (definitions ++ '\n' :: x) ++ c :: (y ++ ['\n']) := by
      have hdrop : [definitions, x ++ c :: y].filter (!·.isEmpty) =
          [definitions, x ++ c :: y] := by simpa using hd
      rw [Draft.assemble, hdrop, Text.unlines_cons_cons, Text.unlines_singleton]
      simp
    have htrim := prefix_trimNewlines (a := definitions ++ '\n' :: x) (b := y ++ ['\n']) hc
    rw [hwhole]
    refine List.IsPrefix.isInfix (List.IsPrefix.trans ?_ htrim)
    rw [List.append_assoc]
    exact List.prefix_append _ _

namespace Plan
variable {l : Language} {functions : FunctionTable} {own : List Text} {a : Analysis}

theorem Cut.exists_flush {pending : List Line} {ps : List (Line × Role)} {blocks : List Block}
    (h : Cut l functions own a pending ps blocks) {b : Block} (hb : b ∈ blocks)
    (hc : b.isCall = false) : ∃ pending, b ∈ flush a pending := by
  induction h with
  | done => exact ⟨_, hb⟩
  | skip _ _ _ ih => exact ih hb
  | wait _ _ _ ih => exact ih hb
  | call _ _ _ ih =>
    rcases List.mem_append.1 hb with hb | hb
    · exact ⟨_, hb⟩
    · rcases List.mem_cons.1 hb with rfl | hb
      · cases hc
      · exact ih hb

theorem exists_solid_of_flush {pending : List Line} {text : Text} {line : Nat}
    {bound : List Text} (h : .code text line bound ∈ flush a pending) :
    ∃ c ∈ text, Text.isBlank c = false := by
  unfold flush at h
  split at h
  · split at h
    · cases h
    · next hb =>
      rw [List.mem_singleton] at h
      cases h
      rw [List.all_eq_true] at hb
      push Not at hb
      obtain ⟨x, hx, hblank⟩ := hb
      rw [ne_eq, Text.allBlank, List.all_eq_true] at hblank
      push Not at hblank
      obtain ⟨c, hc, hcb⟩ := hblank
      refine ⟨c, ?_, Bool.eq_false_iff.2 hcb⟩
      exact (Text.infix_unlines (List.mem_map_of_mem hx)).subset hc
  · cases h

theorem exists_solid_of_code {s : Segment} {plan : Plan} (h : ofSegment functions s a = .ok plan)
    {text : Text} {line : Nat} {bound : List Text} (hb : .code text line bound ∈ plan.blocks) :
    ∃ c ∈ text, c ≠ '\n' := by
  obtain ⟨blocks, hf, rfl⟩ := exists_blocksFrom h
  obtain ⟨pending, hp⟩ := (cut_of_blocksFrom hf).exists_flush (blocks_ofBlocks hb) rfl
  obtain ⟨c, hc, hblank⟩ := exists_solid_of_flush hp
  refine ⟨c, hc, ?_⟩
  rintro rfl
  exact absurd hblank (by decide)

end Plan

/-- The functions whose definitions the unit contains. -/
def Task.defines (gen : Generator) (p : Part) : Task → List FunctionDef
  | segment => p.analysis.functions
  | code _ => p.analysis.functions
  | call c f => gen.carriedFor c f p.segment.language
  | continuation _ _ _ _ _ => p.analysis.functions

namespace Program
variable {p : Program} {part : Part}

theorem Compiled.find?_of_mem (h : p.Compiled) (hp : part ∈ p.parts) {f : FunctionDef}
    (hf : f ∈ part.analysis.functions) : p.functions.find? f.name = some f :=
  Catalog.find?_eq_some.2 ⟨h.mem_functions hp hf, rfl⟩

theorem Compiled.definitions_context (h : p.Compiled) (hp : part ∈ p.parts) {b : Block}
    (hb : b ∈ part.plan.blocks) : (part.context (Execution.generatorOf p)).definitions =
      Text.unlines (part.analysis.functions.map (·.source)) := by
  have hown : part.plan.own = part.analysis.functions.map (·.name) := by
    rw [Plan.own_of_mem (h.planned part hp) hb, Plan.ownNames, h.inSegment hp]
  have hfound : part.plan.own.filterMap p.functions.find? = part.analysis.functions := by
    rw [hown, List.filterMap_map]
    have hsome : ∀ f ∈ part.analysis.functions,
        (p.functions.find? ∘ (·.name)) f = some f := fun f hf => h.find?_of_mem hp hf
    rw [List.filterMap_congr hsome, List.filterMap_some]
  change Text.unlines ((part.plan.own.filterMap p.functions.find?).map (·.source)) = _
  rw [hfound]

theorem Compiled.contains_of_defines (h : p.Compiled) (hp : part ∈ p.parts) {task : Task}
    (ht : task.Planned (Execution.generatorOf p) part) {g : Globals} {u : GuestUnit}
    (hu : task.unit? (Execution.generatorOf p) part g = .ok u) {f : FunctionDef}
    (hf : f ∈ task.defines (Execution.generatorOf p) part) :
    f ∈ p.functions.items ∧ f.language = u.language ∧ f.source <:+: u.source := by
  have hmem : ∀ fs : List FunctionDef, f ∈ fs →
      f.source <:+: Text.unlines (fs.map (·.source)) :=
    fun fs hf => Text.infix_unlines (List.mem_map_of_mem hf)
  have ha := h.analyzed part hp
  cases task with
  | segment =>
    cases hu
    refine ⟨h.mem_functions hp hf, (Analysis.exists_lines_of_function ha hf).1, ?_⟩
    exact (Analysis.infix_source ha hf).trans
      (Draft.infix_body (Generator.simpleDraft part.segment part.analysis.bound g))
  | call c k =>
    cases hu
    have hs := (Execution.generatorOf p).selection_carriedFor c k part.segment.language
    refine ⟨hs.sublist.subset hf, hs.language f hf, (hmem _ hf).trans ?_⟩
    exact Draft.infix_definitions
      ((Execution.generatorOf p).invocationDraft c k part.segment.language g)
  | continuation text line calls returns bound =>
    cases hu
    have hdefs := h.definitions_context hp ht.1
    refine ⟨h.mem_functions hp hf, (Analysis.exists_lines_of_function ha hf).1, ?_⟩
    refine (hdefs ▸ hmem _ hf).trans ?_
    exact Draft.infix_definitions (Generator.continuationDraft
      (part.context (Execution.generatorOf p)) text line calls returns bound g)
  | code t =>
    obtain ⟨preamble, rfl⟩ := Template.eq_of_fill hu
    obtain ⟨g', pre, text, line, bound, post, hb, rfl⟩ := ht
    have hcode : .code text line bound ∈ part.plan.blocks :=
      hb ▸ List.mem_append_right _ List.mem_cons_self
    obtain ⟨c, hc, hne⟩ := Plan.exists_solid_of_code (h.planned part hp) hcode
    have hdefs := h.definitions_context hp hcode
    refine ⟨h.mem_functions hp hf, (Analysis.exists_lines_of_function ha hf).1, ?_⟩
    refine (hdefs ▸ hmem _ hf).trans ((Template.infix_body hc hne).trans ?_)
    exact Draft.infix_body ((Template.ofCode (part.context (Execution.generatorOf p))
      (Template.knownAfter (g'.visible part.segment.language) pre) text line bound).draft preamble)

end Program
end Polyglot
