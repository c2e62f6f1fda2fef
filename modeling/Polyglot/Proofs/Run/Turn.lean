import Polyglot.Proofs.Run.Expansion

/-!
# The turns of a run

A run generates its units one at a time, each from the globals of that moment. A
turn is such a moment: the part of the program, what the unit is for, and the state
in which it is generated and dispatched. `Program.turns` lists the turns of a run by
following its driver, and `journey_turns` says that nothing else moves the run on:
between two turns only notices are written. `planned_of_mem` says that each turn
stands where the plan of its part has it.
-/
namespace Polyglot

structure Turn where
  part : Part
  task : Task
  state : RunState

namespace Turn

def unit? (gen : Generator) (t : Turn) : Except Undefined GuestUnit :=
  t.task.unit? gen t.part t.state.globals

def draft? (gen : Generator) (t : Turn) : Except Undefined Draft :=
  t.task.draft? gen t.part t.state.globals

/-- The run after the turn; a unit that cannot be generated leaves it where it was. -/
def after (gen : Generator) (t : Turn) : RunState :=
  match t.unit? gen with
  | .ok u => (t.state.execute u).state
  | .error _ => t.state

end Turn

namespace Execution

def follow {α : Type} (o : Running α) (next : RunState → α → List Turn) : List Turn :=
  match o.result with
  | .ok a => next o.state a
  | .error _ => []

def callTurn (gen : Generator) (p : Part) (s : RunState) (c : CallSite) : List Turn :=
  match gen.functions.find? c.callee with
  | none => []
  | some f => [⟨p, .call c f, sayInvocation (s.noteHidden f.language c.line) c f⟩]

def callTurns (gen : Generator) (p : Part) : RunState → List CallSite → List Turn
  | _, [] => []
  | s, c :: r =>
    callTurn gen p s c
      ++ follow (runCall gen p.segment.language s c) fun s _ => callTurns gen p s r

def continuationTurn (p : Part) (text : Text) (line : Nat) (calls : List CallSite)
    (bound : List Text) (s : RunState) (returns : List Value) : List Turn :=
  if returns.length < calls.length then []
  else
    [⟨p, .continuation text line calls returns bound,
      sayContinuation (s.noteHidden p.segment.language line) line
        (Generator.spliceReturns p.segment.language text calls returns)⟩]

def blockTurns (gen : Generator) (p : Part) (s : RunState) : Block × Option Template → List Turn
  | (.code _ line _, some t) => [⟨p, .code t, s.noteHidden p.segment.language line⟩]
  | (.code _ _ _, none) => []
  | (.call text line calls bound, _) =>
    callTurns gen p s calls
      ++ follow (runCalls gen p.segment.language s calls) (continuationTurn p text line calls bound)

def blocksTurns (gen : Generator) (p : Part) :
    RunState → List (Block × Option Template) → List Turn
  | _, [] => []
  | s, b :: r =>
    blockTurns gen p s b
      ++ follow (runBlock gen (p.context gen) s b) fun s _ => blocksTurns gen p s r

theorem blocksTurns_skip {gen : Generator} {p : Part} {s : RunState} {text : Text} {line : Nat}
    {calls : List CallSite} {bound : List Text} {o : Option Template} {vs : List Value}
    (hr : (runCalls gen p.segment.language s calls).result = .ok vs)
    (hv : vs.length < calls.length) (r : List (Block × Option Template)) :
    blocksTurns gen p s ((.call text line calls bound, o) :: r) =
      callTurns gen p s calls ++ blocksTurns gen p
        ((runCalls gen p.segment.language s calls).state.warn (skipMessage line)) r := by
  have hl : (p.context gen).language = p.segment.language := rfl
  rw [blocksTurns, blockTurns, runBlock, hl, follow, Outcome.andThen, hr]
  dsimp only
  rw [continuationTurn, if_pos hv, afterCalls, if_pos hv, List.append_nil]
  rfl

def enterPart (s : RunState) (p : Part) : RunState :=
  (saySegment s p.segment).noteHidden p.segment.language p.segment.firstLine

def partTurns (gen : Generator) (s : RunState) (p : Part) : List Turn :=
  let s := enterPart s p
  match p.plan with
  | .simple =>
    [⟨p, .segment, saySimple s p (Generator.simpleUnit p.segment p.analysis.bound s.globals)⟩]
  | .split blocks _ =>
    blocksTurns gen p s (blocks.zip (Template.plan (p.context gen) blocks s.globals))

def partsTurns (gen : Generator) : RunState → List Part → List Turn
  | _, [] => []
  | s, p :: r => partTurns gen s p ++ follow (runPart gen s p) fun s _ => partsTurns gen s r

end Execution

def Program.turns (p : Program) (s : Scheduler) : List Turn :=
  Execution.partsTurns (Execution.generatorOf p) (Execution.opening p s) p.parts

/-- The second state differs from the first in notices alone. -/
structure Quiet (s s' : RunState) : Prop where
  globals : s'.globals = s.globals
  order : s'.order = s.order
  engine : s'.scheduler.engine = s.scheduler.engine
  records : s'.scheduler.records = s.scheduler.records
  stdout : s'.scheduler.stdout = s.scheduler.stdout
  scratch : s'.scheduler.workshop.scratch = s.scheduler.workshop.scratch
  machine : s'.scheduler.workshop.machine = s.scheduler.workshop.machine
  printed : s'.scheduler.chronicle.printed = s.scheduler.chronicle.printed

namespace Quiet

theorem refl (s : RunState) : Quiet s s := ⟨rfl, rfl, rfl, rfl, rfl, rfl, rfl, rfl⟩

theorem trans {a b c : RunState} (h : Quiet a b) (k : Quiet b c) : Quiet a c :=
  ⟨k.globals.trans h.globals, k.order.trans h.order, k.engine.trans h.engine,
    k.records.trans h.records, k.stdout.trans h.stdout, k.scratch.trans h.scratch,
    k.machine.trans h.machine, k.printed.trans h.printed⟩

theorem foldl {α : Type} {f : RunState → α → RunState} (hf : ∀ s a, Quiet s (f s a))
    (s : RunState) (l : List α) : Quiet s (l.foldl f s) := by
  induction l generalizing s with
  | nil => exact refl s
  | cons a r ih => exact (hf s a).trans (ih (f s a))

end Quiet

namespace RunState

theorem quiet_say (s : RunState) (l : LogLine) : Quiet s (s.say l) :=
  ⟨rfl, rfl, rfl, rfl, rfl, rfl, rfl, Chronicle.printed_say _ l⟩

theorem quiet_record (s : RunState) (message : Text) : Quiet s (s.record message) :=
  ⟨rfl, rfl, rfl, rfl, rfl, rfl, rfl,
    (Chronicle.printed_push _ _).trans (List.append_nil _)⟩

theorem quiet_warn (s : RunState) (message : Text) : Quiet s (s.warn message) :=
  (quiet_say s _).trans (quiet_record _ message)

theorem quiet_noteName (l : Language) (line : Nat) (s : RunState) (name : Text) :
    Quiet s (noteName l line s name) := by
  unfold noteName
  split
  · exact .refl s
  · have hs : Quiet s { s with hidden := s.hidden ++ [(name, l)] } :=
      ⟨rfl, rfl, rfl, rfl, rfl, rfl, rfl, rfl⟩
    exact hs.trans (quiet_warn _ _)

theorem quiet_noteHidden (s : RunState) (l : Language) (line : Nat) :
    Quiet s (s.noteHidden l line) :=
  Quiet.foldl (quiet_noteName l line) s _

end RunState

/-- The turns lead from one state to the other, with nothing but notices in between. -/
inductive Journey (gen : Generator) : RunState → List Turn → RunState → Prop
  | rest {s s' : RunState} : Quiet s s' → Journey gen s [] s'
  | turn {s s' : RunState} {t : Turn} {ts : List Turn} :
      Quiet s t.state → Journey gen (t.after gen) ts s' → Journey gen s (t :: ts) s'

namespace Journey
variable {gen : Generator} {s s' s'' : RunState}

theorem quiet_left {ts : List Turn} (h : Quiet s s') (j : Journey gen s' ts s'') :
    Journey gen s ts s'' := by
  cases j with
  | rest k => exact .rest (h.trans k)
  | turn k j => exact .turn (h.trans k) j

theorem append {ts ts' : List Turn} (j : Journey gen s ts s') (k : Journey gen s' ts' s'') :
    Journey gen s (ts ++ ts') s'' := by
  induction j with
  | rest h => exact quiet_left h k
  | turn h _ ih => exact .turn h (ih k)

theorem single {t : Turn} (h : Quiet s t.state) : Journey gen s [t] (t.after gen) :=
  .turn h (.rest (.refl _))

theorem until_turn {pre : List Turn} {t : Turn} {post : List Turn}
    (j : Journey gen s (pre ++ t :: post) s') : Journey gen s pre t.state := by
  induction pre generalizing s with
  | nil =>
    cases j with
    | turn h _ => exact .rest h
  | cons a pre ih =>
    cases j with
    | turn h j => exact .turn h (ih j)

theorem andThen {α β : Type} {ts : List Turn} {o : Running α} {next : RunState → α → Running β}
    {more : RunState → α → List Turn} (j : Journey gen s ts o.state)
    (k : ∀ s a, Journey gen s (more s a) (next s a).state) :
    Journey gen s (ts ++ Execution.follow o more) (o.andThen next).state := by
  cases o with
  | mk s₁ r =>
    cases r with
    | ok a => exact j.append (k s₁ a)
    | error e => simpa [Execution.follow, Outcome.andThen] using j

end Journey

namespace Execution
variable (gen : Generator) (p : Part)

theorem journey_unit {s : RunState} (task : Task) {u : GuestUnit}
    (hu : task.unit? gen p s.globals = .ok u) :
    Journey gen s [⟨p, task, s⟩] (s.execute u).state := by
  have ha : Turn.after gen ⟨p, task, s⟩ = (s.execute u).state := by
    simp only [Turn.after, Turn.unit?, hu]
  exact ha ▸ Journey.single (.refl s)

theorem journey_call (s : RunState) (c : CallSite) :
    Journey gen s (callTurn gen p s c) (runCall gen p.segment.language s c).state := by
  unfold callTurn runCall
  cases gen.functions.find? c.callee with
  | none => exact .rest (.refl s)
  | some f =>
    have hq : Quiet s (sayInvocation (s.noteHidden f.language c.line) c f) :=
      (s.quiet_noteHidden f.language c.line).trans (RunState.quiet_say _ _)
    exact (journey_unit gen p (.call c f) rfl).quiet_left hq

theorem journey_calls (s : RunState) (cs : List CallSite) :
    Journey gen s (callTurns gen p s cs) (runCalls gen p.segment.language s cs).state := by
  induction cs generalizing s with
  | nil => exact .rest (.refl s)
  | cons c r ih => exact (journey_call gen p s c).andThen fun s _ => ih s

theorem journey_continuation (text : Text) (line : Nat) (calls : List CallSite)
    (bound : List Text) (s : RunState) (returns : List Value) :
    Journey gen s (continuationTurn p text line calls bound s returns)
      (afterCalls (p.context gen) text line calls bound s returns).state := by
  unfold continuationTurn afterCalls
  split
  · exact .rest (s.quiet_warn _)
  · have hq := (s.quiet_noteHidden p.segment.language line).trans (RunState.quiet_say _
      (generated "continuation unit" [("line", Text.decimal line), ("body",
        Generator.spliceReturns p.segment.language text calls returns)]))
    exact (journey_unit gen p (.continuation text line calls returns bound) rfl).quiet_left
      hq

theorem journey_template (s : RunState) (line : Nat) (t : Template) :
    Journey gen s [⟨p, .code t, s.noteHidden p.segment.language line⟩]
      (runTemplate p.segment.language s line t).state := by
  have hq := s.quiet_noteHidden p.segment.language line
  cases hf : t.fill (s.noteHidden p.segment.language line).globals with
  | error e =>
    simp only [runTemplate, hf, Outcome.failed]
    refine .turn hq (.rest ?_)
    simp only [Turn.after, Turn.unit?, Task.unit?, hf]
    exact .refl _
  | ok u =>
    simp only [runTemplate, hf, Outcome.map]
    exact (journey_unit gen p (.code t) hf).quiet_left hq

theorem journey_block (s : RunState) (b : Block × Option Template) :
    Journey gen s (blockTurns gen p s b) (runBlock gen (p.context gen) s b).state := by
  obtain ⟨b, t⟩ := b
  cases b with
  | code text line bound =>
    cases t with
    | none => exact .rest (.refl s)
    | some t => exact journey_template gen p s line t
  | call text line calls bound =>
    exact (journey_calls gen p s calls).andThen (journey_continuation gen p text line calls bound)

theorem journey_blocks (s : RunState) (bs : List (Block × Option Template)) :
    Journey gen s (blocksTurns gen p s bs) (runBlocks gen (p.context gen) s bs).state := by
  induction bs generalizing s with
  | nil => exact .rest (.refl s)
  | cons b r ih => exact (journey_block gen p s b).andThen fun s _ => ih s

theorem quiet_enterPart (s : RunState) : Quiet s (enterPart s p) :=
  (s.quiet_say _).trans (RunState.quiet_noteHidden _ _ _)

theorem journey_part (s : RunState) :
    Journey gen s (partTurns gen s p) (runPart gen s p).state := by
  refine Journey.quiet_left (quiet_enterPart p s) ?_
  unfold partTurns runPart
  cases hp : p.plan with
  | simple =>
    exact (journey_unit gen p .segment rfl).quiet_left (RunState.quiet_say _ _)
  | split blocks own =>
    have hc : contextOf gen p own = p.context gen := by rw [Part.context, hp]; rfl
    simp only [hc]
    exact journey_blocks gen p _ _

theorem journey_parts (s : RunState) (ps : List Part) :
    Journey gen s (partsTurns gen s ps) (runParts gen s ps).state := by
  induction ps generalizing s with
  | nil => exact .rest (.refl s)
  | cons p r ih => exact (journey_part gen p s).andThen fun s _ => ih s

end Execution

def Turn.Planned (gen : Generator) (t : Turn) : Prop := t.task.Planned gen t.part

namespace Execution
variable {gen : Generator}

theorem mem_follow {α : Type} {o : Running α} {next : RunState → α → List Turn} {t : Turn}
    (h : t ∈ follow o next) : ∃ a, o.result = .ok a ∧ t ∈ next o.state a := by
  unfold follow at h
  cases ho : o.result with
  | ok a => rw [ho] at h; exact ⟨a, rfl, h⟩
  | error e => rw [ho] at h; cases h

theorem planned_callTurns {p : Part} {b : Block} (hb : b ∈ p.plan.blocks) {cs : List CallSite}
    (hc : ∀ c ∈ cs, c ∈ b.calls) {s : RunState} {t : Turn} (h : t ∈ callTurns gen p s cs) :
    t.part = p ∧ t.Planned gen := by
  induction cs generalizing s with
  | nil => cases h
  | cons c r ih =>
    rw [callTurns, List.mem_append] at h
    rcases h with h | h
    · unfold callTurn at h
      cases hf : gen.functions.find? c.callee with
      | none => rw [hf] at h; cases h
      | some f =>
        rw [hf, List.mem_singleton] at h
        subst h
        exact ⟨rfl, ⟨b, hb, hc c List.mem_cons_self⟩, hf⟩
    · obtain ⟨_, -, h⟩ := mem_follow h
      exact ih (fun c hr => hc c (List.mem_cons_of_mem _ hr)) h

theorem length_runCalls_le {caller : Language} {s : RunState} {cs : List CallSite}
    {vs : List Value} (h : (runCalls gen caller s cs).result = .ok vs) :
    vs.length ≤ cs.length := by
  induction cs generalizing s vs with
  | nil => cases h; exact Nat.le_refl 0
  | cons c r ih =>
    unfold runCalls Outcome.andThen at h
    cases hc : (runCall gen caller s c).result with
    | error e => rw [hc] at h; cases h
    | ok v =>
      simp only [hc, Outcome.map] at h
      cases hr : (runCalls gen caller (runCall gen caller s c).state r).result with
      | error e => rw [hr] at h; cases h
      | ok ws =>
        rw [hr] at h
        cases h
        have hw := ih hr
        cases v <;> simp <;> omega

theorem planned_blockTurns {p : Part} {s : RunState} {b : Block × Option Template} {g : Globals}
    (hb : b ∈ p.plan.blocks.zip (Template.plan (p.context gen) p.plan.blocks g)) {t : Turn}
    (h : t ∈ blockTurns gen p s b) : t.part = p ∧ t.Planned gen := by
  obtain ⟨b, tpl⟩ := b
  cases b with
  | code text line bound =>
    cases tpl with
    | none => cases h
    | some tpl =>
      rw [blockTurns, List.mem_singleton] at h
      subst h
      exact ⟨rfl, g, Template.exists_block_of_mem (List.of_mem_zip hb).2⟩
  | call text line calls bound =>
    have hm := (List.of_mem_zip hb).1
    rw [blockTurns, List.mem_append] at h
    rcases h with h | h
    · exact planned_callTurns hm (fun c hc => hc) h
    · obtain ⟨vs, hv, h⟩ := mem_follow h
      unfold continuationTurn at h
      split at h
      · cases h
      · next hlt =>
        rw [List.mem_singleton] at h
        subst h
        have hle := length_runCalls_le hv
        exact ⟨rfl, hm, by omega⟩

theorem planned_blocksTurns {p : Part} {s : RunState} {bs : List (Block × Option Template)}
    {g : Globals}
    (hb : ∀ b ∈ bs, b ∈ p.plan.blocks.zip (Template.plan (p.context gen) p.plan.blocks g))
    {t : Turn} (h : t ∈ blocksTurns gen p s bs) : t.part = p ∧ t.Planned gen := by
  induction bs generalizing s with
  | nil => cases h
  | cons b r ih =>
    rw [blocksTurns, List.mem_append] at h
    rcases h with h | h
    · exact planned_blockTurns (hb b List.mem_cons_self) h
    · obtain ⟨_, -, h⟩ := mem_follow h
      exact ih (fun b hr => hb b (List.mem_cons_of_mem _ hr)) h

theorem planned_partTurns {p : Part} {s : RunState} {t : Turn} (h : t ∈ partTurns gen s p) :
    t.part = p ∧ t.Planned gen := by
  unfold partTurns at h
  cases hp : p.plan with
  | simple =>
    simp only [hp, List.mem_singleton] at h
    subst h
    exact ⟨rfl, hp⟩
  | split blocks own =>
    simp only [hp] at h
    have hb : blocks = p.plan.blocks := by rw [hp]; rfl
    exact planned_blocksTurns (fun b hm => hb ▸ hm) h

theorem planned_partsTurns {s : RunState} {ps : List Part} {t : Turn}
    (h : t ∈ partsTurns gen s ps) : t.part ∈ ps ∧ t.Planned gen := by
  induction ps generalizing s with
  | nil => cases h
  | cons p r ih =>
    rw [partsTurns, List.mem_append] at h
    rcases h with h | h
    · obtain ⟨hp, ht⟩ := planned_partTurns h
      exact ⟨hp ▸ List.mem_cons_self, ht⟩
    · obtain ⟨_, -, h⟩ := mem_follow h
      obtain ⟨hp, ht⟩ := ih h
      exact ⟨List.mem_cons_of_mem _ hp, ht⟩

def simpleTurn (s : RunState) (p : Part) : Turn :=
  ⟨p, .segment, saySimple (enterPart s p) p
    (Generator.simpleUnit p.segment p.analysis.bound (enterPart s p).globals)⟩

theorem quiet_simpleTurn (s : RunState) (p : Part) : Quiet s (simpleTurn s p).state :=
  (quiet_enterPart p s).trans (RunState.quiet_say _ _)

theorem partTurns_simple (gen : Generator) {p : Part} (h : p.plan = .simple) (s : RunState) :
    partTurns gen s p = [simpleTurn s p] ∧
      runPart gen s p = ((simpleTurn s p).state.execute
        (Generator.simpleUnit p.segment p.analysis.bound (enterPart s p).globals)).map
          fun _ => () := by
  unfold partTurns runPart
  rw [h]
  exact ⟨rfl, rfl⟩

end Execution

namespace Program

theorem journey_turns (p : Program) (s : Scheduler) :
    Journey (Execution.generatorOf p) (Execution.opening p s) (p.turns s) (p.run s).state :=
  Execution.journey_parts _ _ _

theorem planned_of_mem {p : Program} {s : Scheduler} {t : Turn} (h : t ∈ p.turns s) :
    t.part ∈ p.parts ∧ t.Planned (Execution.generatorOf p) :=
  Execution.planned_partsTurns h

theorem simpleTurn_mem {p : Program} {part : Part} {rest : List Part} (hp : p.parts = part :: rest)
    (h : part.plan = .simple) (s : Scheduler) :
    Execution.simpleTurn (Execution.opening p s) part ∈ p.turns s := by
  rw [turns, hp, Execution.partsTurns, (Execution.partTurns_simple _ h _).1]
  exact List.mem_append_left _ List.mem_cons_self

end Program
end Polyglot
