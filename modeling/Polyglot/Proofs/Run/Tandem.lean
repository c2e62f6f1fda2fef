import Polyglot.Run.Execution

/-!
# Runs in tandem

Two runs of one program go the same way as long as their states stay related, for a
relation that shows the driver nothing but what the two have in common: the globals, and
the names already reported. Main statement: if every dispatch keeps such a relation, then
so does the whole run, and both runs end in the same way.
-/
namespace Polyglot

namespace Outcome
variable {σ τ ε δ α β : Type} {R R' S : σ → σ → Prop} {Q T : τ → τ → Prop} {E : ε → ε → Prop}
  {F : δ → δ → Prop} {o o' : Outcome σ ε α}

/-- Both steps go well, with one value and states related by `R`, or both fail, with
states related by `S`. -/
inductive Tandem (R S : σ → σ → Prop) (E : ε → ε → Prop) :
    Outcome σ ε α → Outcome σ ε α → Prop
  | done {s s' : σ} {a : α} (h : R s s') : Tandem R S E (.done s a) (.done s' a)
  | failed {s s' : σ} {e e' : ε} (h : S s s') (he : E e e') :
      Tandem R S E (.failed s e) (.failed s' e')

namespace Tandem

theorem state (h : Tandem R R E o o') : R o.state o'.state := by
  cases h with
  | done h => exact h
  | failed h he => exact h

theorem result (h : Tandem R S E o o') :
    (∃ a, o.result = .ok a ∧ o'.result = .ok a) ∨
      ∃ e e', o.result = .error e ∧ o'.result = .error e' ∧ E e e' := by
  cases h with
  | done h => exact .inl ⟨_, rfl, rfl⟩
  | failed h he => exact .inr ⟨_, _, rfl, rfl, he⟩

theorem andThen {next next' : σ → α → Outcome σ ε β} (h : Tandem R S E o o')
    (k : ∀ s s' a, o = .done s a → R s s' → Tandem R' S E (next s a) (next' s' a)) :
    Tandem R' S E (o.andThen next) (o'.andThen next') := by
  cases h with
  | done h => exact k _ _ _ rfl h
  | failed h he => exact .failed h he

theorem mono {S' : σ → σ → Prop} {E' : ε → ε → Prop} (h : Tandem R S E o o')
    (hr : ∀ s s', R s s' → R' s s') (hs : ∀ s s', S s s' → S' s s')
    (he : ∀ e e', E e e' → E' e e') :
    Tandem R' S' E' o o' := by
  cases h with
  | done h => exact .done (hr _ _ h)
  | failed h hf => exact .failed (hs _ _ h) (he _ _ hf)

theorem map (h : Tandem R S E o o') (f : α → β) : Tandem R S E (o.map f) (o'.map f) := by
  cases h with
  | done h => exact .done h
  | failed h he => exact .failed h he

theorem mapState {f f' : σ → τ} (h : Tandem R S E o o') (hr : ∀ s s', R s s' → Q (f s) (f' s'))
    (hs : ∀ s s', S s s' → T (f s) (f' s')) : Tandem Q T E (o.mapState f) (o'.mapState f') := by
  cases h with
  | done h => exact .done (hr _ _ h)
  | failed h he => exact .failed (hs _ _ h) he

end Tandem
end Outcome

namespace Execution
open Outcome (Tandem)

/-- A relation between the states of two runs that every notice and every dispatch keeps. -/
structure Simulation (R : RunState → RunState → Prop) (E : EngineError → EngineError → Prop) :
    Prop where
  globals : ∀ {s s'}, R s s' → s'.globals = s.globals
  hidden : ∀ {s s'}, R s s' → s'.hidden = s.hidden
  say : ∀ {s s'}, R s s' → ∀ l, R (s.say l) (s'.say l)
  record : ∀ {s s'}, R s s' → ∀ t, R (s.record t) (s'.record t)
  hide : ∀ {s s' : RunState}, R s s' → ∀ x,
    R { s with hidden := s.hidden ++ [x] } { s' with hidden := s'.hidden ++ [x] }
  execute : ∀ {s s'}, R s s' → ∀ u, Tandem R R E (s.execute u) (s'.execute u)
  same : ∀ e, E e e

namespace Simulation
variable {R : RunState → RunState → Prop} {E : EngineError → EngineError → Prop}
  {s s' : RunState} {gen : Generator}

theorem warn (h : Simulation R E) (hs : R s s') (t : Text) : R (s.warn t) (s'.warn t) :=
  h.record (h.say hs _) t

theorem noteHidden (h : Simulation R E) (hs : R s s') (l : Language) (line : Nat) :
    R (s.noteHidden l line) (s'.noteHidden l line) := by
  unfold RunState.noteHidden
  rw [h.globals hs]
  generalize s.globals.hidden l = names
  induction names generalizing s s' with
  | nil => exact hs
  | cons n r ih =>
    apply ih
    unfold RunState.noteName
    rw [h.hidden hs]
    split
    · exact hs
    · have hw := h.warn (h.hide hs (n, l)) (RunState.hiddenMessage n l line)
      rwa [h.hidden hs] at hw

theorem tandem_call (h : Simulation R E) (hs : R s s') (caller : Language) (c : CallSite) :
    Tandem R R E (runCall gen caller s c) (runCall gen caller s' c) := by
  unfold runCall
  cases gen.functions.find? c.callee with
  | none => exact .failed hs (h.same _)
  | some f =>
    have hn := h.noteHidden hs f.language c.line
    dsimp only
    rw [h.globals hn]
    exact h.execute (h.say hn _) _

theorem tandem_calls (h : Simulation R E) (hs : R s s') (caller : Language)
    (calls : List CallSite) :
    Tandem R R E (runCalls gen caller s calls) (runCalls gen caller s' calls) := by
  induction calls generalizing s s' with
  | nil => exact .done hs
  | cons c r ih =>
    apply (h.tandem_call hs caller c).andThen
    intro t t' value _ ht
    exact (ih ht).map _

theorem tandem_afterCalls (h : Simulation R E) (hs : R s s') (ctx : SegmentContext) (text : Text)
    (line : Nat) (calls : List CallSite) (bound : List Text) (returns : List Value) :
    Tandem R R E (afterCalls ctx text line calls bound s returns)
      (afterCalls ctx text line calls bound s' returns) := by
  unfold afterCalls
  split
  · exact .done (h.warn hs _)
  · have hn := h.noteHidden hs ctx.language line
    dsimp only [runContinuation]
    rw [h.globals hn]
    exact (h.execute (h.say hn _) _).map _

theorem tandem_template (h : Simulation R E) (hs : R s s') (l : Language) (line : Nat)
    (t : Template) : Tandem R R E (runTemplate l s line t) (runTemplate l s' line t) := by
  have hn := h.noteHidden hs l line
  dsimp only [runTemplate]
  rw [h.globals hn]
  cases t.fill (s.noteHidden l line).globals with
  | error e => exact .failed hn (h.same _)
  | ok u => exact (h.execute hn u).map _

theorem tandem_block (h : Simulation R E) (hs : R s s') (ctx : SegmentContext)
    (b : Block × Option Template) :
    Tandem R R E (runBlock gen ctx s b) (runBlock gen ctx s' b) := by
  obtain ⟨b, t⟩ := b
  cases b with
  | code text line bound =>
    cases t with
    | none => exact .done hs
    | some t => exact h.tandem_template hs ctx.language line t
  | call text line calls bound =>
    apply (h.tandem_calls hs ctx.language calls).andThen
    intro t t' returns _ ht
    exact h.tandem_afterCalls ht ctx text line calls bound returns

theorem tandem_blocks (h : Simulation R E) (hs : R s s') (ctx : SegmentContext)
    (bs : List (Block × Option Template)) :
    Tandem R R E (runBlocks gen ctx s bs) (runBlocks gen ctx s' bs) := by
  induction bs generalizing s s' with
  | nil => exact .done hs
  | cons b r ih =>
    apply (h.tandem_block hs ctx b).andThen
    intro t t' _ _ ht
    exact ih ht

theorem tandem_part (h : Simulation R E) (hs : R s s') (p : Part) :
    Tandem R R E (runPart gen s p) (runPart gen s' p) := by
  have hn := h.noteHidden (h.say hs
    ⟨.info, .phase .run, "segment", [("ordinal", Text.decimal p.segment.ordinal),
      ("language", p.segment.language.name), ("line", Text.decimal p.segment.firstLine)]⟩)
    p.segment.language p.segment.firstLine
  unfold runPart
  cases p.plan with
  | simple =>
    dsimp only [runSimple]
    rw [saySegment, saySegment, h.globals hn]
    exact (h.execute (h.say hn _) _).map _
  | split blocks own =>
    dsimp only [runSplit]
    rw [saySegment, saySegment, h.globals hn]
    exact h.tandem_blocks hn _ _

theorem tandem_parts (h : Simulation R E) (hs : R s s') (ps : List Part) :
    Tandem R R E (runParts gen s ps) (runParts gen s' ps) := by
  induction ps generalizing s s' with
  | nil => exact .done hs
  | cons p r ih =>
    apply (h.tandem_part hs p).andThen
    intro t t' _ _ ht
    exact ih ht

theorem tandem_run (h : Simulation R E) {sched sched' : Scheduler}
    (hs : R (.start sched) (.start sched')) (p : Program) :
    Tandem R R E (p.run sched) (p.run sched') := by
  apply h.tandem_parts
  unfold opening
  generalize p.warnings.map (·.message) = messages
  generalize RunState.start sched = s at hs
  generalize RunState.start sched' = s' at hs
  induction messages generalizing s s' with
  | nil => exact hs
  | cons t r ih => exact ih (s.record t) (s'.record t) (h.record hs t)

end Simulation
end Execution
end Polyglot
