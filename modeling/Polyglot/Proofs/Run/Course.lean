import Polyglot.Proofs.Program.Compiled
import Polyglot.Proofs.Run.Expansion
import Polyglot.Proofs.Run.Threading
import Polyglot.Proofs.Unit.Invocation

/-!
# The course of a run

The turns of a run, held against the stages of its program. As long as every unit gives
a result the turns take up the slots of the stages one by one; the turn without a result
is the last, and it ends the run. Courses are put together as the driver puts together
its steps.
-/
namespace Polyglot

namespace Turn

def slot (t : Turn) : Slot := t.task.slot t.part

def Completes (gen : Generator) (t : Turn) : Prop := (t.values? gen).isSome = true

/-- The error with which a turn without a result ends the run. -/
inductive Stops (gen : Generator) (t : Turn) : EngineError → Prop
  | failed {u : GuestUnit} {e : RuntimeError} (hu : t.unit? gen = .ok u)
      (hv : t.values? gen = none)
      (he : (t.state.scheduler.dispatch u t.state.globals t.state.order).result = .error e) :
      Stops gen t (.runtime e)
  | unfilled {e : Undefined} (hu : t.unit? gen = .error e) : Stops gen t (.undefined e)

theorem Stops.values {gen : Generator} {t : Turn} {e : EngineError} (h : t.Stops gen e) :
    t.values? gen = none := by
  cases h with
  | failed hu hv he => exact hv
  | unfilled hu =>
    rw [values?, hu]

end Turn

namespace Scheduler

theorem dispatch_result (s : Scheduler) (u : GuestUnit) (g : Globals) (order : List Text) :
    (∃ r, s.values? u = some r ∧ (s.dispatch u g order).result = .ok (Globals.returned r)) ∨
      (∃ e, s.values? u = none ∧ (s.dispatch u g order).result = .error e) := by
  cases h : (Passage.travel ⟨s.workshop, .ofUnit u, []⟩ s.engine u).result with
  | ok r => exact .inl ⟨r, by rw [values?, h]; rfl, by simp only [dispatch, h, succeed]⟩
  | error e => exact .inr ⟨e, by rw [values?, h]; rfl, by simp only [dispatch, h, fail]⟩

end Scheduler

theorem Turn.execute_cases {gen : Generator} {t : Turn} {u : GuestUnit}
    (hu : t.unit? gen = .ok u) :
    (∃ r, t.values? gen = some r ∧ (t.state.execute u).result = .ok (Globals.returned r)) ∨
      ∃ e, t.Stops gen e ∧ (t.state.execute u).result = .error e := by
  rcases t.state.scheduler.dispatch_result u t.state.globals t.state.order with
    ⟨r, hr, hx⟩ | ⟨e, hr, hx⟩
  · refine .inl ⟨r, ?_, ?_⟩
    · rw [values?, hu]; exact hr
    · rw [RunState.execute, RunState.ofDispatched, hx]; rfl
  · refine .inr ⟨.runtime e, .failed hu ?_ hx, ?_⟩
    · rw [values?, hu]; exact hr
    · rw [RunState.execute, RunState.ofDispatched, hx]; rfl

theorem History.ofTurns_append (gen : Generator) (ts ts' : List Turn) :
    History.ofTurns gen (ts ++ ts') = History.ofTurns gen ts ++ History.ofTurns gen ts' :=
  List.filterMap_append

theorem History.length_ofTurns {gen : Generator} {ts : List Turn}
    (h : ∀ t ∈ ts, t.Completes gen) : (History.ofTurns gen ts).length = ts.length := by
  induction ts with
  | nil => rfl
  | cons t r ih =>
    obtain ⟨v, hv⟩ := Option.isSome_iff_exists.1 (h t List.mem_cons_self)
    have hr := ih fun x hx => h x (List.mem_cons_of_mem t hx)
    rw [History.ofTurns, List.filterMap_cons, hv, List.length_cons, List.length_cons]
    exact congrArg (· + 1) hr

/-- All turns give results, and their slots are those of the stages. -/
structure Completed (gen : Generator) (ts : List Turn) (stages : List Stage) : Prop where
  completes : ∀ t ∈ ts, t.Completes gen
  slots : ∀ more later, Stage.expand (stages ++ more) (History.ofTurns gen ts ++ later) =
    ts.map Turn.slot ++ Stage.expand more later

/-- The last turn, and no other, gives no result. Up to it the slots are those of the
stages. -/
structure Stopped (gen : Generator) (ts : List Turn) (stages : List Stage) (e : EngineError) :
    Prop where
  last : ∃ before t, ts = before ++ [t] ∧ (∀ x ∈ before, x.Completes gen) ∧ t.Stops gen e
  slots : ∀ more, ts.map Turn.slot <+: Stage.expand (stages ++ more) (History.ofTurns gen ts)

def Course {α : Type} (gen : Generator) (ts : List Turn) (r : Except EngineError α)
    (stages : List Stage) : Prop :=
  match r with
  | .ok _ => Completed gen ts stages
  | .error e => Stopped gen ts stages e

variable {gen : Generator}

theorem Completed.nil : Completed gen [] [] := ⟨fun _ h => (nomatch h), fun _ _ => rfl⟩

theorem Completed.append {ts ts' : List Turn} {stages stages' : List Stage}
    (h : Completed gen ts stages) (h' : Completed gen ts' stages') :
    Completed gen (ts ++ ts') (stages ++ stages') := by
  refine ⟨fun t ht => (List.mem_append.1 ht).elim (h.completes t) (h'.completes t),
    fun more later => ?_⟩
  rw [History.ofTurns_append, List.append_assoc, List.append_assoc, h.slots, h'.slots,
    List.map_append, List.append_assoc]

theorem Completed.append_stopped {ts ts' : List Turn} {stages stages' : List Stage}
    {e : EngineError} (h : Completed gen ts stages) (h' : Stopped gen ts' stages' e) :
    Stopped gen (ts ++ ts') (stages ++ stages') e := by
  obtain ⟨before, t, rfl, hb, ht⟩ := h'.last
  refine ⟨⟨ts ++ before, t, (List.append_assoc ..).symm, fun x hx =>
    (List.mem_append.1 hx).elim (h.completes x) (hb x), ht⟩, fun more => ?_⟩
  rw [History.ofTurns_append, List.append_assoc, h.slots, List.map_append]
  exact (List.prefix_append_right_inj _).2 (h'.slots more)

theorem Stopped.append {ts : List Turn} {stages : List Stage} {e : EngineError}
    (h : Stopped gen ts stages e) (stages' : List Stage) :
    Stopped gen ts (stages ++ stages') e :=
  ⟨h.last, fun more => by rw [List.append_assoc]; exact h.slots _⟩

theorem Course.andThen {α β : Type} {ts : List Turn} {o : Running α}
    {next : RunState → α → Running β} {more : RunState → α → List Turn}
    {stages stages' : List Stage} (h : Course gen ts o.result stages)
    (k : ∀ s a, o.result = .ok a → Course gen (more s a) (next s a).result stages') :
    Course gen (ts ++ Execution.follow o more) (o.andThen next).result (stages ++ stages') := by
  obtain ⟨s, r⟩ := o
  cases r with
  | error e =>
    have hs : Stopped gen ts stages e := h
    rw [Execution.follow, List.append_nil]
    exact hs.append stages'
  | ok a =>
    have hs : Completed gen ts stages := h
    have hk := k s a rfl
    change Course gen (ts ++ more s a) (next s a).result _
    cases hr : (next s a).result with
    | ok b => rw [hr] at hk; exact hs.append hk
    | error e => rw [hr] at hk; exact hs.append_stopped hk

theorem course_map {α β : Type} (f : α → β) {ts : List Turn} {o : Running α}
    {stages : List Stage} (h : Course gen ts o.result stages) :
    Course gen ts (o.map f).result stages := by
  obtain ⟨s, r⟩ := o
  cases r with
  | ok a => exact h
  | error e => exact h

theorem stopped_single {t : Turn} {e : EngineError} (h : t.Stops gen e) :
    Stopped gen [t] [.unit t.slot] e :=
  ⟨⟨[], t, rfl, fun _ hx => (nomatch hx), h⟩, fun more => by
    rw [List.map_singleton, List.singleton_append, Stage.expand]
    exact List.prefix_append [t.slot] _⟩

theorem course_unit {t : Turn} {u : GuestUnit} (hu : t.unit? gen = .ok u) :
    Course gen [t] (t.state.execute u).result [.unit t.slot] := by
  rcases Turn.execute_cases hu with ⟨r, hr, hx⟩ | ⟨e, he, hx⟩
  · rw [hx]
    refine ⟨fun x hm => ?_, fun more later => ?_⟩
    · rw [List.mem_singleton.1 hm, Turn.Completes, hr]
      rfl
    · rw [History.ofTurns, List.filterMap_cons, hr]
      rfl
  · rw [hx]
    exact stopped_single he

theorem Completed.map_slot {ts : List Turn} {xs : List Slot}
    (h : Completed gen ts (xs.map Stage.unit)) : ts.map Turn.slot = xs := by
  have hs := h.slots [] []
  rw [Stage.expand_units, Stage.expand_nil, Stage.expand_nil, List.append_nil,
    List.append_nil] at hs
  exact hs.symm

theorem Completed.calls {ts : List Turn} {xs : List Slot} (h : Completed gen ts (xs.map Stage.unit))
    {k : Slot} {ts' : List Turn} {stages : List Stage}
    (hk : stages =
      if (History.ofTurns gen ts).all (Catalog.contains · Globals.returnKey) then [.unit k] else [])
    (h' : Completed gen ts' stages) : Completed gen (ts ++ ts') [.calls xs k] := by
  have hl : (History.ofTurns gen ts).length = xs.length := by
    rw [History.length_ofTurns h.completes, ← h.map_slot, List.length_map]
  refine ⟨fun t ht => (List.mem_append.1 ht).elim (h.completes t) (h'.completes t),
    fun more later => ?_⟩
  rw [History.ofTurns_append, List.append_assoc, List.singleton_append, Stage.expand_calls hl,
    List.map_append, h.map_slot, List.append_assoc, ← h'.slots, hk]
  split <;> rfl

theorem Completed.calls_stopped {ts : List Turn} {xs : List Slot}
    (h : Completed gen ts (xs.map Stage.unit)) {k : Slot} {ts' : List Turn} {e : EngineError}
    (hk : (History.ofTurns gen ts).all (Catalog.contains · Globals.returnKey) = true)
    (h' : Stopped gen ts' [.unit k] e) : Stopped gen (ts ++ ts') [.calls xs k] e := by
  have hl : (History.ofTurns gen ts).length = xs.length := by
    rw [History.length_ofTurns h.completes, ← h.map_slot, List.length_map]
  refine ⟨(h.append_stopped h').last, fun more => ?_⟩
  rw [History.ofTurns_append, List.singleton_append, Stage.expand_calls hl, if_pos hk,
    List.map_append, h.map_slot]
  exact (List.prefix_append_right_inj _).2 (h'.slots more)

theorem Stopped.calls {ts : List Turn} {xs : List Slot} {e : EngineError}
    (h : Stopped gen ts (xs.map Stage.unit) e) (k : Slot) : Stopped gen ts [.calls xs k] e := by
  have hs := h.slots []
  rw [Stage.expand_units, Stage.expand_nil, List.append_nil] at hs
  exact ⟨h.last, fun more => hs.trans (Stage.isPrefix_expand_calls xs k more _)⟩

theorem History.all_returned (h : History) :
    h.all (Catalog.contains · Globals.returnKey) = true ↔
      (h.filterMap Globals.returned).length = h.length := by
  rw [List.all_eq_true, List.filterMap_length_eq_length]
  have hr : ∀ r : Globals, (Globals.returned r).isSome = r.contains Globals.returnKey :=
    fun r => Option.isSome_map
  simp only [hr]

namespace Execution

def FindsAll (functions : FunctionTable) (cs : List CallSite) : Prop :=
  ∀ c ∈ cs, ∃ f, functions.find? c.callee = some f

theorem course_call (p : Part) {s : RunState} {c : CallSite} {f : FunctionDef}
    (hf : gen.functions.find? c.callee = some f) :
    Course gen (callTurn gen p s c) (runCall gen p.segment.language s c).result
      [.unit (c.slot gen.functions p.segment.language)] := by
  have hx : c.slot gen.functions p.segment.language = ⟨.invocation, f.language, c.line⟩ := by
    rw [CallSite.slot, hf]
    rfl
  rw [callTurn, runCall, hf, hx]
  exact course_unit (t := ⟨p, .call c f, sayInvocation (s.noteHidden f.language c.line) c f⟩) rfl

theorem course_calls (p : Part) {cs : List CallSite} (hf : FindsAll gen.functions cs)
    (s : RunState) :
    Course gen (callTurns gen p s cs) (runCalls gen p.segment.language s cs).result
      ((cs.map (CallSite.slot gen.functions p.segment.language)).map Stage.unit) := by
  induction cs generalizing s with
  | nil => exact Completed.nil
  | cons c r ih =>
    obtain ⟨f, hc⟩ := hf c List.mem_cons_self
    exact (course_call p hc).andThen fun s v _ =>
      course_map _ (ih (fun x hx => hf x (List.mem_cons_of_mem c hx)) s)

theorem returned_runCall (p : Part) {s : RunState} {c : CallSite} {v : Option Value}
    (h : (runCall gen p.segment.language s c).result = .ok v) :
    ∃ r, History.ofTurns gen (callTurn gen p s c) = [r] ∧ v = Globals.returned r := by
  unfold runCall at h
  unfold callTurn
  cases hf : gen.functions.find? c.callee with
  | none => rw [hf] at h; cases h
  | some f =>
    simp only [hf] at h
    have hu : Turn.unit? gen ⟨p, .call c f, sayInvocation (s.noteHidden f.language c.line) c f⟩ =
        .ok (gen.invocationUnit c f p.segment.language (s.noteHidden f.language c.line).globals) :=
      rfl
    rcases Turn.execute_cases hu with ⟨r, hr, hx⟩ | ⟨e, -, hx⟩
    · refine ⟨r, ?_, ?_⟩
      · rw [History.ofTurns, List.filterMap_cons, hr]
        rfl
      · exact Except.ok.inj (h.symm.trans hx)
    · cases h.symm.trans hx

theorem returned_runCalls (p : Part) {s : RunState} {cs : List CallSite} {vs : List Value}
    (h : (runCalls gen p.segment.language s cs).result = .ok vs) :
    vs = (History.ofTurns gen (callTurns gen p s cs)).filterMap Globals.returned := by
  induction cs generalizing s vs with
  | nil => cases h; rfl
  | cons c r ih =>
    unfold runCalls Outcome.andThen at h
    rw [callTurns, follow]
    cases hc : (runCall gen p.segment.language s c).result with
    | error e => rw [hc] at h; cases h
    | ok v =>
      simp only [hc, Outcome.map] at h
      cases hr : (runCalls gen p.segment.language (runCall gen p.segment.language s c).state
          r).result with
      | error e => rw [hr] at h; cases h
      | ok ws =>
        rw [hr] at h
        cases h
        obtain ⟨x, hx, rfl⟩ := returned_runCall p hc
        rw [History.ofTurns_append, hx, List.filterMap_append, ← ih hr]
        cases hv : Globals.returned x <;> simp [hv]

theorem course_continuation (p : Part) (text : Text) (line : Nat) {calls : List CallSite}
    (bound : List Text) (s : RunState) {vs : List Value} (hv : calls.length ≤ vs.length) :
    Course gen (continuationTurn p text line calls bound s vs)
      (runContinuation (p.context gen) text line calls bound s vs).result
      [.unit ⟨.continuation, p.segment.language, line⟩] := by
  rw [continuationTurn, if_neg (Nat.not_lt.2 hv)]
  exact course_map _ (course_unit (t := ⟨p, .continuation text line calls vs bound, _⟩) rfl)

theorem all_returned_iff (p : Part) {s : RunState} {calls : List CallSite} {vs : List Value}
    {xs : List Slot} (h : Completed gen (callTurns gen p s calls) (xs.map Stage.unit))
    (hx : xs.length = calls.length)
    (hr : (runCalls gen p.segment.language s calls).result = .ok vs) :
    (History.ofTurns gen (callTurns gen p s calls)).all (Catalog.contains · Globals.returnKey) =
      true ↔ vs.length = calls.length := by
  have hl : (History.ofTurns gen (callTurns gen p s calls)).length = calls.length := by
    rw [History.length_ofTurns h.completes, ← List.length_map, h.map_slot, hx]
  rw [History.all_returned, ← returned_runCalls p hr, hl]

theorem course_afterCalls (p : Part) (text : Text) (line : Nat) {calls : List CallSite}
    (bound : List Text) {s : RunState} {vs : List Value} {xs : List Slot}
    (h : Completed gen (callTurns gen p s calls) (xs.map Stage.unit))
    (hx : xs.length = calls.length)
    (hr : (runCalls gen p.segment.language s calls).result = .ok vs) (s' : RunState) :
    Course gen (callTurns gen p s calls ++ continuationTurn p text line calls bound s' vs)
      (afterCalls (p.context gen) text line calls bound s' vs).result
      [.calls xs ⟨.continuation, p.segment.language, line⟩] := by
  have hall := all_returned_iff p h hx hr
  by_cases hlt : vs.length < calls.length
  · rw [continuationTurn, afterCalls, if_pos hlt, if_pos hlt]
    exact h.calls (if_neg fun hc => Nat.ne_of_lt hlt (hall.1 hc)).symm Completed.nil
  · have hk : Course gen _ _ _ :=
      course_continuation p text line bound s' (Nat.le_of_not_lt hlt)
    have hc := hall.2 (Nat.le_antisymm (length_runCalls_le hr) (Nat.le_of_not_lt hlt))
    rw [afterCalls, if_neg hlt]
    cases hres : (runContinuation (p.context gen) text line calls bound s' vs).result with
    | ok a => rw [hres] at hk; exact h.calls (if_pos hc).symm hk
    | error e => rw [hres] at hk; exact h.calls_stopped hc hk

theorem course_callBlock (p : Part) (text : Text) (line : Nat) {calls : List CallSite}
    (bound : List Text) (hf : FindsAll gen.functions calls) (s : RunState) (o : Option Template) :
    Course gen (blockTurns gen p s (.call text line calls bound, o))
      (runBlock gen (p.context gen) s (.call text line calls bound, o)).result
      [(Block.call text line calls bound).stage gen.functions p.segment.language] := by
  have h := course_calls p hf s
  rw [blockTurns, runBlock, Block.stage]
  change Course gen (_ ++ follow (runCalls gen p.segment.language s calls) _)
    ((runCalls gen p.segment.language s calls).andThen _).result _
  rw [follow, Outcome.andThen]
  cases hr : (runCalls gen p.segment.language s calls).result with
  | error e =>
    rw [hr] at h
    rw [List.append_nil]
    exact Stopped.calls h _
  | ok vs =>
    rw [hr] at h
    exact course_afterCalls p text line bound h (List.length_map _) hr _

theorem course_template (p : Part) (s : RunState) {line : Nat} {t : Template}
    (hl : t.language = p.segment.language) (hline : t.firstLine = line) :
    Course gen [⟨p, .code t, s.noteHidden p.segment.language line⟩]
      (runTemplate p.segment.language s line t).result
      [.unit ⟨.segment, p.segment.language, line⟩] := by
  have hx : Turn.slot ⟨p, .code t, s.noteHidden p.segment.language line⟩ =
      ⟨.segment, p.segment.language, line⟩ := by rw [← hl, ← hline]; rfl
  rw [← hx, runTemplate]
  cases hf : t.fill (s.noteHidden p.segment.language line).globals with
  | error e => exact stopped_single (.unfilled hf)
  | ok u =>
    exact course_map _ (course_unit
      (t := ⟨p, .code t, s.noteHidden p.segment.language line⟩) hf)

theorem course_blocks (p : Part) {blocks : List Block}
    (hf : ∀ b ∈ blocks, FindsAll gen.functions b.calls) (known : List Text) (s : RunState) :
    Course gen
      (blocksTurns gen p s (blocks.zip (Template.ofBlocks (p.context gen) known blocks)))
      (runBlocks gen (p.context gen) s
        (blocks.zip (Template.ofBlocks (p.context gen) known blocks))).result
      (blocks.map (Block.stage gen.functions p.segment.language)) := by
  induction blocks generalizing known s with
  | nil => exact Completed.nil
  | cons b r ih =>
    have hr : ∀ b ∈ r, FindsAll gen.functions b.calls :=
      fun x hx => hf x (List.mem_cons_of_mem b hx)
    cases b with
    | code text line bound =>
      have ht : Course gen _ _ _ := course_template p s
        (t := .ofCode (p.context gen) known text line bound) rfl rfl
      exact ht.andThen fun s _ _ => ih hr _ s
    | call text line calls bound =>
      exact (course_callBlock p text line bound (hf _ List.mem_cons_self) s none).andThen
        fun s _ _ => ih hr _ s

theorem course_part {p : Part} (hf : ∀ b ∈ p.plan.blocks, FindsAll gen.functions b.calls)
    (s : RunState) :
    Course gen (partTurns gen s p) (runPart gen s p).result (p.stages gen.functions) := by
  unfold partTurns runPart Part.stages
  cases hp : p.plan with
  | simple =>
    exact course_map _ (course_unit (t := ⟨p, .segment, _⟩) rfl)
  | split blocks own =>
    rw [hp] at hf
    have hc : contextOf gen p own = p.context gen := by rw [Part.context, hp]; rfl
    simp only [hc]
    exact course_blocks p hf _ _

theorem course_parts {ps : List Part}
    (hf : ∀ p ∈ ps, ∀ b ∈ p.plan.blocks, FindsAll gen.functions b.calls) (s : RunState) :
    Course gen (partsTurns gen s ps) (runParts gen s ps).result
      (ps.flatMap (Part.stages gen.functions)) := by
  induction ps generalizing s with
  | nil => exact Completed.nil
  | cons p r ih =>
    rw [List.flatMap_cons]
    exact (course_part (hf p List.mem_cons_self) s).andThen
      fun s _ _ => ih (fun x hx => hf x (List.mem_cons_of_mem p hx)) s

end Execution

theorem Program.Compiled.course {p : Program} (h : p.Compiled) (s : Scheduler) :
    Course (Execution.generatorOf p) (p.turns s) (p.run s).result p.stages :=
  Execution.course_parts (fun part hp _ hb _ hc =>
    (Plan.known_of_call (h.planned part hp) hb hc).1) _

end Polyglot
