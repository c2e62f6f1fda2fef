import Polyglot.Proofs.Plan.Partition
import Polyglot.Proofs.Run.Course
import Polyglot.Proofs.Run.Dispatch
import Polyglot.Proofs.Unit.Tracking

/-!
# What a template asks for

The placeholders of a template are fixed when its segment begins, and filled when its
block comes. A global that was known at the beginning still has a value then, and a name
that the segment bound since has its expression. So no run misses a placeholder.
-/
namespace Polyglot

namespace Execution
variable {gen : Generator} {p : Part} {s : RunState} {t : Turn} {tpl : Template}

theorem call_of_mem_callTurns {cs : List CallSite} (h : t ∈ callTurns gen p s cs) :
    ∃ c f, t.task = .call c f := by
  induction cs generalizing s with
  | nil => cases h
  | cons c r ih =>
    rw [callTurns, List.mem_append] at h
    rcases h with h | h
    · unfold callTurn at h
      cases hf : gen.functions.find? c.callee with
      | none => rw [hf] at h; cases h
      | some f =>
        rw [hf, List.mem_singleton] at h
        exact ⟨c, f, by rw [h]⟩
    · obtain ⟨_, -, h⟩ := mem_follow h
      exact ih h

theorem template_of_mem_blockTurns {b : Block × Option Template} (h : t ∈ blockTurns gen p s b)
    (ht : t.task = .code tpl) : b.2 = some tpl := by
  obtain ⟨b, o⟩ := b
  cases b with
  | code text line bound =>
    cases o with
    | none => cases h
    | some x =>
      rw [blockTurns, List.mem_singleton] at h
      rw [h] at ht
      exact congrArg some (Task.code.inj ht)
  | call text line calls bound =>
    rw [blockTurns, List.mem_append] at h
    rcases h with h | h
    · obtain ⟨c, f, hc⟩ := call_of_mem_callTurns h
      rw [hc] at ht
      cases ht
    · obtain ⟨vs, -, h⟩ := mem_follow h
      unfold continuationTurn at h
      split at h
      · cases h
      · rw [List.mem_singleton] at h
        rw [h] at ht
        cases ht

theorem exists_block_of_template {bs : List (Block × Option Template)}
    (h : t ∈ blocksTurns gen p s bs) (ht : t.task = .code tpl) : ∃ b, (b, some tpl) ∈ bs := by
  induction bs generalizing s with
  | nil => cases h
  | cons b r ih =>
    rw [blocksTurns, List.mem_append] at h
    rcases h with h | h
    · rw [← template_of_mem_blockTurns h ht]
      exact ⟨b.1, List.mem_cons_self⟩
    · obtain ⟨_, -, h⟩ := mem_follow h
      obtain ⟨b, hb⟩ := ih h
      exact ⟨b, List.mem_cons_of_mem _ hb⟩

theorem template_of_partTurns (h : t ∈ partTurns gen s p) (ht : t.task = .code tpl) :
    some tpl ∈ Template.plan (p.context gen) p.plan.blocks s.globals := by
  have hg := (quiet_enterPart p s).globals
  unfold partTurns at h
  cases hp : p.plan with
  | simple =>
    simp only [hp, List.mem_singleton] at h
    rw [h] at ht
    cases ht
  | split blocks own =>
    simp only [hp, hg] at h
    obtain ⟨b, hb⟩ := exists_block_of_template h ht
    exact (List.of_mem_zip hb).2

theorem planned_from_partTurns (h : t ∈ partTurns gen s p) (ht : t.task = .code tpl) :
    ∃ g : Globals, (∀ n ∈ g.names, n ∈ t.state.globals.names) ∧
      ∃ pre text line bound post, p.plan.blocks = pre ++ .code text line bound :: post ∧
        tpl = .ofCode (p.context gen)
          (Template.knownAfter (g.visible p.segment.language) pre) text line bound :=
  ⟨s.globals, fun _ hn => (journey_part gen p s).names_of_mem h hn,
    Template.exists_block_of_mem (template_of_partTurns h ht)⟩

theorem planned_from_partsTurns {ps : List Part} (h : t ∈ partsTurns gen s ps)
    (ht : t.task = .code tpl) :
    ∃ g : Globals, (∀ n ∈ g.names, n ∈ t.state.globals.names) ∧
      ∃ pre text line bound post, t.part.plan.blocks = pre ++ .code text line bound :: post ∧
        tpl = .ofCode (t.part.context gen)
          (Template.knownAfter (g.visible t.part.segment.language) pre) text line bound := by
  induction ps generalizing s with
  | nil => cases h
  | cons p r ih =>
    rw [partsTurns, List.mem_append] at h
    rcases h with h | h
    · rw [(planned_partTurns h).1]
      exact planned_from_partTurns h ht
    · obtain ⟨_, -, h⟩ := mem_follow h
      exact ih h

end Execution

namespace Template
variable {t : Template} {g : Globals}

theorem valueOf_eq_error {n : Text} {e : Undefined} (h : t.valueOf g n = .error e) :
    e.name = n ∧ g.value? n = none ∧ t.fallback? n = none := by
  unfold valueOf at h
  cases hv : g.value? n with
  | some v => rw [hv] at h; cases h
  | none =>
    cases hx : t.fallback? n with
    | some x => rw [hv, hx] at h; cases h
    | none => rw [hv, hx] at h; cases h; exact ⟨rfl, rfl, rfl⟩

theorem missing_of_fill {e : Undefined} (h : t.fill g = .error e) :
    g.value? e.name = none ∧ t.fallback? e.name = none := by
  unfold fill at h
  cases hf : Placeholder.fill (t.valueOf g) t.preamble with
  | ok preamble => rw [hf] at h; cases h
  | error e' =>
    rw [hf] at h
    cases h
    obtain ⟨n, hn⟩ := Placeholder.exists_of_fillFrom hf
    obtain ⟨he, hv⟩ := valueOf_eq_error hn
    rw [he]
    exact hv

end Template

theorem Task.code_of_unit_error {gen : Generator} {p : Part} {g : Globals} {task : Task}
    {e : Undefined} (h : task.unit? gen p g = .error e) :
    ∃ t, task = .code t ∧ t.fill g = .error e := by
  cases task with
  | segment => cases h
  | call c f => cases h
  | continuation text line calls returns bound => cases h
  | code t => exact ⟨t, rfl, h⟩

namespace Program
variable {p : Program}

theorem Compiled.value_or_fallback (h : p.Compiled) {s : Scheduler} {t : Turn}
    (ht : t ∈ p.turns s) {tpl : Template} (htask : t.task = .code tpl) {n : Text}
    (hn : n ∈ tpl.placeholders) :
    (∃ v, t.state.globals.value? n = some v) ∨ ∃ x, tpl.fallback? n = some x := by
  obtain ⟨g, hg, pre, text, line, bound, post, hs, rfl⟩ :=
    Execution.planned_from_partsTurns ht htask
  have hp := (planned_of_mem ht).1
  rcases Template.mem_knownAfter.1 (List.mem_filter.1 hn).1 with hn | ⟨b, hb, hn⟩
  · left
    exact Option.isSome_iff_exists.1 (Globals.value?_isSome.2 (hg n (List.mem_filter.1 hn).1))
  · right
    have hbind := Plan.exists_binding_before (h.analyzed _ hp) (h.planned _ hp) hs hb hn
    obtain ⟨e, he⟩ := Analysis.lastBefore?_isSome.2 hbind
    have he : t.part.analysis.lastBefore? line n = some e := he
    rw [Task.fallback?_ofCode, he]
    exact ⟨e.expression, rfl⟩

/-- Every call site of a compiled program calls a function of the table, and whenever a
run comes to fill a template, each placeholder has a value or a fallback. A run that ends
for want of a name ends at a template which does not list that name. -/
theorem placeholders_resolve {e : Engine} {source : Text} {p : Program}
    (hc : compile e source = .ok p) :
    (∀ part ∈ p.parts, ∀ b ∈ part.plan.blocks, ∀ c ∈ b.calls,
      ∃ f, p.functions.find? c.callee = some f) ∧
    ∀ s : Scheduler,
      (∀ t ∈ p.turns s, ∀ tpl, t.task = .code tpl → ∀ n ∈ tpl.placeholders,
        (∃ v, t.state.globals.value? n = some v) ∨ ∃ x, tpl.fallback? n = some x) ∧
      ∀ u, (p.run s).result = .error (.undefined u) →
        ∃ t tpl, (p.turns s).getLast? = some t ∧ t.task = .code tpl ∧
          tpl.fill t.state.globals = .error u ∧ u.name ∉ tpl.placeholders := by
  have h := compiled_of_compile hc
  refine ⟨fun part hp b hb c hcall => (Plan.known_of_call (h.planned part hp) hb hcall).1,
    fun s => ⟨fun t ht tpl htask n hn => h.value_or_fallback ht htask hn, fun u hu => ?_⟩⟩
  have hcourse := h.course s
  rw [hu] at hcourse
  obtain ⟨before, t, hts, -, hstop⟩ := Stopped.last hcourse
  have hlast : (p.turns s).getLast? = some t := by rw [hts, List.getLast?_concat]
  cases hstop with
  | unfilled hfill =>
    obtain ⟨tpl, htask, hfill⟩ := Task.code_of_unit_error hfill
    obtain ⟨hv, hx⟩ := Template.missing_of_fill hfill
    refine ⟨t, tpl, hlast, htask, hfill, fun hn => ?_⟩
    rcases h.value_or_fallback (List.mem_of_getLast? hlast) htask hn with ⟨v, hvv⟩ | ⟨x, hxx⟩
    · rw [hv] at hvv; cases hvv
    · rw [hx] at hxx; cases hxx

/-- A program with a template, whose placeholder is bound by the block before the call. -/
theorem placeholders_resolve_callingSource :
    ∃ p, compile .standard callingSource = .ok p ∧
      (∃ part ∈ p.parts, ∃ b ∈ part.plan.blocks, b.calls ≠ []) ∧
      (∀ part ∈ p.parts, ∀ b ∈ part.plan.blocks, ∀ c ∈ b.calls,
        ∃ f, p.functions.find? c.callee = some f) ∧
      ∀ t ∈ p.turns (.start .standard .bare []), ∀ tpl, t.task = .code tpl →
        ∀ n ∈ tpl.placeholders,
          (∃ v, t.state.globals.value? n = some v) ∨ ∃ x, tpl.fallback? n = some x := by
  have h : (compile .standard callingSource).toOption.map (fun p =>
      p.parts.any fun part => part.plan.blocks.any fun b => !b.calls.isEmpty) = some true := by
    decide +kernel
  obtain ⟨p, hc, h⟩ := exists_of_compile h
  obtain ⟨part, hp, h⟩ := List.any_eq_true.1 h
  obtain ⟨b, hb, h⟩ := List.any_eq_true.1 h
  have hne : b.calls ≠ [] := by simpa using h
  obtain ⟨hfound, hruns⟩ := placeholders_resolve hc
  exact ⟨p, hc, ⟨part, hp, b, hb, hne⟩, hfound, (hruns _).1⟩

end Program
end Polyglot
