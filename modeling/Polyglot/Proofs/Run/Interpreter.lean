import Polyglot.Proofs.Program.Compiled
import Polyglot.Proofs.Run.Dispatch
import Polyglot.Proofs.Run.Expansion
import Polyglot.Proofs.Run.Telling
import Polyglot.Proofs.Segment.Lossless
import Polyglot.Proofs.Unit.Invocation

/-!
# Interpreters and tags

A segment is matched with a spec by its tag, and a unit by its language. So a unit is run
as the first spec of its language says, and as the spec of its own tag says only where the
two agree. Main statement: which part a unit comes from, which spec the tag of that part
stands for, and which spec its process is started with.
-/
namespace Polyglot

def Workshop.Starts (w w' : Workshop) : Prop :=
  ∃ x, w'.machine.spawns = w.machine.spawns ++ [x]

/-- The process that was started is this program, with these arguments and then a script
that is the source of the unit. -/
def Workshop.Runs (w w' : Workshop) (u : GuestUnit) (program : Text) (args : List Text) : Prop :=
  ∃ script dir, w'.chronicle.starts = w.chronicle.starts ++ [(program, script)] ∧
    w'.machine.spawns = w.machine.spawns ++ [⟨"1", dir, args ++ [script]⟩] ∧
    w'.machine.files.read script = .ok (Text.Utf8.encode u.source)

namespace Workshop
variable {w w' : Workshop} {u : GuestUnit} {program program' : Text} {args args' : List Text}

theorem Runs.unique (h : w.Runs w' u program args) (k : w.Runs w' u program' args') :
    program' = program ∧ args' = args := by
  obtain ⟨script, dir, hc, hs, -⟩ := h
  obtain ⟨script', dir', hc', hs', -⟩ := k
  rw [hc, List.append_cancel_left_eq] at hc'
  rw [hs, List.append_cancel_left_eq] at hs'
  cases hc'
  simp only [List.cons.injEq, Spawn.mk.injEq, and_true, true_and] at hs'
  exact ⟨rfl, (List.append_cancel_right hs'.2).symm⟩

end Workshop

theorem Passage.runs_travel {e : Engine} {u : GuestUnit} {w : Workshop} {o : Step Globals}
    (h : Ends e u w o) (ht : Tells e u w o) (hs : w.Starts o.state.workshop) :
    ∃ spec, e.specFor? u.language = some spec ∧
      w.Runs o.state.workshop u spec.interpreter spec.args := by
  have hnot : o.state.workshop.machine.spawns ≠ w.machine.spawns := by
    obtain ⟨x, hx⟩ := hs
    rw [hx]
    simp
  have hruns : ∀ {w' root r}, Workshop.Launched e u w root r w'.machine →
      w' = o.state.workshop → ∃ spec, e.specFor? u.language = some spec ∧
        w.Runs o.state.workshop u spec.interpreter spec.args := by
    rintro w' root r hl rfl
    obtain ⟨-, spec, fs, dir, hspec, hprep, hm⟩ := hl.exists_machine
    obtain ⟨w₁, hp, -, -⟩ := hprep.persist
    refine ⟨spec, hspec, Path.join root u.sourceName, dir, ?_, by rw [hm], hl.source⟩
    cases ht with
    | silent hc hr hno => exact absurd hp (hno spec w₁ _ hspec)
    | process hspec' hp' hc hc' hr =>
      rw [hspec] at hspec'
      rw [hp] at hp'
      cases hspec'
      cases hp'
      rw [hc'.starts, Chronicle.starts_append, hc.starts, Chronicle.starts_process]
  cases h with
  | unequipped hspec => exact absurd rfl hnot
  | unprepared hspec hp hm => exact absurd (spawns_of_sameButFiles hm) hnot
  | unlaunched hspec hp hl hm => exact absurd (spawns_of_sameButFiles ⟨_, hm⟩) hnot
  | exited hl hscratch hr => exact hruns hl rfl
  | answered hl hscratch hr => exact hruns hl rfl

namespace Scheduler

/-- A dispatch is a passage, and asides. -/
theorem workshop_dispatch (s : Scheduler) (u : GuestUnit) (g : Globals) (order : List Text) :
    (s.dispatch u g order).scheduler.workshop.machine =
        (Passage.travel ⟨s.workshop, .ofUnit u, []⟩ s.engine u).state.workshop.machine ∧
      Chronicle.Continues
        (Passage.travel ⟨s.workshop, .ofUnit u, []⟩ s.engine u).state.workshop.chronicle
        (s.dispatch u g order).scheduler.workshop.chronicle := by
  simp only [dispatch]
  generalize Passage.travel ⟨s.workshop, .ofUnit u, []⟩ s.engine u = o
  cases o.result with
  | ok values =>
    refine ⟨rfl, (o.state.continues_advance .completed).trans ?_⟩
    exact Chronicle.continues_say _ (by decide)
  | error err =>
    refine ⟨rfl, (o.state.continues_advance .failed).trans ?_⟩
    exact Chronicle.continues_say _ (by decide)

theorem engine_dispatch (s : Scheduler) (u : GuestUnit) (g : Globals) (order : List Text) :
    (s.dispatch u g order).scheduler.engine = s.engine := by
  simp only [dispatch]
  generalize Passage.travel ⟨s.workshop, .ofUnit u, []⟩ s.engine u = o
  cases o.result <;> rfl

theorem starts_of_result {s : Scheduler} {u : GuestUnit} {g : Globals} {order : List Text}
    {v : Option Value} (h : (s.dispatch u g order).result = .ok v) :
    s.workshop.Starts (s.dispatch u g order).scheduler.workshop := by
  obtain ⟨hm, -⟩ := s.workshop_dispatch u g order
  cases hr : (Passage.travel ⟨s.workshop, .ofUnit u, []⟩ s.engine u).result with
  | error err => simp only [dispatch, hr, fail, reduceCtorEq] at h
  | ok values =>
    rw [Workshop.Starts, hm]
    exact ((Passage.ends_travel s.engine u s.workshop).answered_of_ok hr).2.2

theorem runs_of_starts {s : Scheduler} {u : GuestUnit} {g : Globals} {order : List Text}
    (h : s.workshop.Starts (s.dispatch u g order).scheduler.workshop) :
    ∃ spec, s.engine.specFor? u.language = some spec ∧
      s.workshop.Runs (s.dispatch u g order).scheduler.workshop u spec.interpreter spec.args := by
  obtain ⟨hm, hc⟩ := s.workshop_dispatch u g order
  have hstarts : s.workshop.Starts
      (Passage.travel ⟨s.workshop, .ofUnit u, []⟩ s.engine u).state.workshop := by
    rw [Workshop.Starts, ← hm]
    exact h
  obtain ⟨spec, hs, script, dir, hstart, hspawns, hsource⟩ := Passage.runs_travel
    (Passage.ends_travel s.engine u s.workshop) (Passage.tells_travel s.engine u s.workshop) hstarts
  refine ⟨spec, hs, script, dir, ?_, ?_, ?_⟩
  · rw [hc.starts, hstart]
  · rw [hm, hspawns]
  · rw [hm, hsource]

end Scheduler

namespace Turn
variable {gen : Generator} {t : Turn} {u : GuestUnit}

def Starts (gen : Generator) (t : Turn) : Prop :=
  t.state.scheduler.workshop.Starts (t.after gen).scheduler.workshop

/-- The turn runs its unit with this program and these arguments. -/
def Runs (gen : Generator) (t : Turn) (u : GuestUnit) (program : Text) (args : List Text) : Prop :=
  t.state.scheduler.workshop.Runs (t.after gen).scheduler.workshop u program args

theorem starts_of_result (hu : t.unit? gen = .ok u) {v : Option Value}
    (h : (t.state.execute u).result = .ok v) : t.Starts gen := by
  rw [Starts, after, hu]
  cases hr : (t.state.scheduler.dispatch u t.state.globals t.state.order).result with
  | ok w => exact Scheduler.starts_of_result hr
  | error err => rw [RunState.execute, RunState.ofDispatched, hr] at h; cases h

theorem runs_of_starts (hu : t.unit? gen = .ok u) (h : t.Starts gen) :
    ∃ spec, t.state.scheduler.engine.specFor? u.language = some spec ∧
      t.Runs gen u spec.interpreter spec.args := by
  have hafter : (t.after gen).scheduler =
      (t.state.scheduler.dispatch u t.state.globals t.state.order).scheduler := by
    rw [after, hu]
    rfl
  rw [Starts, hafter] at h
  obtain ⟨spec, hs, hr⟩ := Scheduler.runs_of_starts h
  exact ⟨spec, hs, by rw [Runs, hafter]; exact hr⟩

end Turn

theorem Turn.engine_after (gen : Generator) (t : Turn) :
    (t.after gen).scheduler.engine = t.state.scheduler.engine := by
  unfold Turn.after
  cases t.unit? gen with
  | ok u => exact t.state.scheduler.engine_dispatch u t.state.globals t.state.order
  | error err => rfl

theorem Journey.engine {gen : Generator} {s s' : RunState} {ts : List Turn}
    (j : Journey gen s ts s') : s'.scheduler.engine = s.scheduler.engine := by
  induction j with
  | rest h => exact h.engine
  | @turn s s' t ts h _ ih => rw [ih, t.engine_after gen, h.engine]

theorem Program.engine_of_mem {p : Program} {s : Scheduler} {t : Turn} (h : t ∈ p.turns s) :
    t.state.scheduler.engine = s.engine := by
  obtain ⟨pre, post, hs⟩ := List.append_of_mem h
  have j := p.journey_turns s
  rw [hs] at j
  exact j.until_turn.engine.trans (Execution.quiet_opening p s).engine

def Task.callee? : Task → Option FunctionDef
  | call _ f => some f
  | _ => none

/-- The part that a unit comes from: for a call the one that defines the callee. -/
def Task.ComesFrom (part home : Part) (task : Task) : Prop :=
  match task.callee? with
  | some f => f ∈ home.analysis.functions
  | none => home = part

/-- The segment stands in the source behind a line of its tag. -/
def Segment.FollowsTag (s : Segment) (source : Text) : Prop :=
  ∃ m line, s.firstLine = m + 1 ∧ source.LineAt m line ∧ Segmentation.parseTag line = some s.tag

namespace Program
variable {e : Engine} {source : Text} {p : Program}

theorem exists_spec_of_part (h : compile e source = .ok p) {part : Part} (hp : part ∈ p.parts) :
    part.segment.FollowsTag source ∧
      ∃ own, e.specOfTag? part.segment.tag = some own ∧ own.language = part.segment.language := by
  obtain ⟨g, t, hg, ha, hparts, -⟩ := exists_stages h
  have hmem : part.segment ∈ g.segments :=
    segments_of_stages ha hparts ▸ List.mem_map_of_mem hp
  obtain ⟨m, hf, pre, line, post, hl, ⟨ht, own, hs, ho⟩, -⟩ :=
    Segmentation.stretch_of_ofSource hg _ hmem
  refine ⟨⟨m, line, hf, ?_, ht⟩, own, hs, ho⟩
  rw [Text.LineAt, hl]
  exact List.mem_append_right _ List.mem_cons_self

theorem Compiled.exists_home (h : p.Compiled) {s : Scheduler} {t : Turn} (ht : t ∈ p.turns s)
    {u : GuestUnit} (hu : t.unit? (Execution.generatorOf p) = .ok u) :
    ∃ home ∈ p.parts, t.task.ComesFrom t.part home ∧ u.language = home.segment.language := by
  obtain ⟨hp, hplanned⟩ := planned_of_mem ht
  have hslot : u.language = (t.task.slot t.part).language :=
    congrArg Slot.language (Task.slot_of_unit hu)
  rw [hslot]
  obtain ⟨part, task, state⟩ := t
  cases task with
  | segment => exact ⟨part, hp, rfl, rfl⟩
  | code template =>
    obtain ⟨g, pre, text, line, bound, post, -, htemplate⟩ := hplanned
    exact ⟨part, hp, rfl, congrArg Template.language htemplate⟩
  | call c f =>
    obtain ⟨home, hm, hf⟩ := h.exists_part (Catalog.find?_eq_some.1 hplanned.2).1
    exact ⟨home, hm, hf, (Analysis.exists_lines_of_function (h.analyzed home hm) hf).1⟩
  | continuation text line calls returns bound => exact ⟨part, hp, rfl, rfl⟩

end Program

/-- The spec is in the list, and no other spec of its language stands before it. -/
def Engine.IsFirst (e : Engine) (spec : TagSpec) : Prop :=
  ∃ pre post, e.languages = pre ++ spec :: post ∧ ∀ x ∈ pre, x.language ≠ spec.language

theorem Engine.isFirst_of_specFor {e : Engine} {l : Language} {spec : TagSpec}
    (h : e.specFor? l = some spec) : spec.language = l ∧ e.IsFirst spec := by
  obtain ⟨hl, pre, post, he, hpre⟩ := List.find?_eq_some_iff_append.1 h
  have hl : spec.language = l := beq_iff_eq.1 hl
  refine ⟨hl, pre, post, he, fun x hx hxl => ?_⟩
  have hne := hpre x hx
  rw [hxl, hl, beq_self_eq_true] at hne
  cases hne

theorem Engine.isSome_specFor {e : Engine} {tag : Text} {own : TagSpec}
    (h : e.specOfTag? tag = some own) : (e.specFor? own.language).isSome = true :=
  List.find?_isSome.2 ⟨own, List.mem_of_find?_eq_some h, beq_self_eq_true _⟩

namespace Program

/-- Every unit comes from a part whose tag stands for a spec of the unit's language. But
if the unit is run, it is run as the first spec of that language says; so the spec of the
tag has its way exactly if it has the same program and the same arguments. -/
theorem interpreter_of_tag {e : Engine} {source : Text} {p : Program} {s : Scheduler}
    (hc : compile e source = .ok p) (he : s.engine = e) {t : Turn} (ht : t ∈ p.turns s)
    {u : GuestUnit} (hu : t.unit? (Execution.generatorOf p) = .ok u) :
    ∃ home ∈ p.parts, t.task.ComesFrom t.part home ∧ home.segment.FollowsTag source ∧
      ∃ own first, e.specOfTag? home.segment.tag = some own ∧ own.language = u.language ∧
        first.language = u.language ∧ e.IsFirst first ∧
        (t.Starts (Execution.generatorOf p) →
          t.Runs (Execution.generatorOf p) u first.interpreter first.args ∧
          (t.Runs (Execution.generatorOf p) u own.interpreter own.args ↔
            own.interpreter = first.interpreter ∧ own.args = first.args)) := by
  obtain ⟨home, hm, hhome, hl⟩ := (compiled_of_compile hc).exists_home ht hu
  obtain ⟨hfollows, own, hown, hol⟩ := exists_spec_of_part hc hm
  obtain ⟨first, hfirst⟩ := Option.isSome_iff_exists.1 (Engine.isSome_specFor hown)
  rw [hol, ← hl] at hfirst
  obtain ⟨hfl, hisFirst⟩ := Engine.isFirst_of_specFor hfirst
  refine ⟨home, hm, hhome, hfollows, own, first, hown, hol.trans hl.symm, hfl, hisFirst, ?_⟩
  intro hstarts
  obtain ⟨spec, hs, hruns⟩ := Turn.runs_of_starts hu hstarts
  rw [engine_of_mem ht, he, hfirst] at hs
  cases hs
  refine ⟨hruns, fun hr => hruns.unique hr, ?_⟩
  rintro ⟨hi, ha⟩
  rw [hi, ha]
  exact hruns

end Program

def twinEngine : Engine where
  languages := [⟨"py", .python, "python3", ["-A"]⟩, ⟨"py2", .python, "python3", ["-B"]⟩]
  scratchDir := Engine.defaultScratch
  workingDir := none

def twinSource : Text := "[py2]\ny = 2"

def twinStart : Scheduler := .start twinEngine .bare []

theorem Engine.IsFirst.eq_of_twin {first : TagSpec} (h : twinEngine.IsFirst first)
    (hl : first.language = .python) : first = ⟨"py", .python, "python3", ["-A"]⟩ := by
  obtain ⟨pre, post, he, hpre⟩ := h
  cases pre with
  | nil => exact (List.cons.inj he).1.symm
  | cons x r =>
    have hx : x.language = .python := congrArg TagSpec.language (List.cons.inj he).1.symm
    exact absurd (hx.trans hl.symm) (hpre x List.mem_cons_self)

/-- The turn runs a unit of its own segment, and the segment has this tag. -/
def Turn.RunsOwn (gen : Generator) (tag : Text) (t : Turn) : Prop :=
  t.part.segment.tag = tag ∧ t.task.callee? = none ∧ t.Starts gen

namespace Program

/-- The segment of the second tag is run with the arguments of the first. -/
theorem interpreter_of_tag_twin : ∃ p t u, compile twinEngine twinSource = .ok p ∧
    t ∈ p.turns twinStart ∧ t.unit? (Execution.generatorOf p) = .ok u ∧
    t.RunsOwn (Execution.generatorOf p) "py2" ∧
    t.Runs (Execution.generatorOf p) u "python3" ["-A"] ∧
    ¬ t.Runs (Execution.generatorOf p) u "python3" ["-B"] := by
  have h : (compile twinEngine twinSource).toOption.map (fun p => p.parts.map fun part =>
      (part.plan, part.segment.tag, part.segment.language)) =
        some [(Plan.simple, "py2".toList, Language.python)] := by
    decide +kernel
  obtain ⟨p, hc, hparts⟩ := exists_of_compile h
  obtain ⟨part, rest, hp, hpart, -⟩ := List.map_eq_cons_iff.1 hparts
  simp only [Prod.mk.injEq] at hpart
  obtain ⟨hplan, htag, hl⟩ := hpart
  have hq := (Execution.quiet_opening p twinStart).trans
    (Execution.quiet_simpleTurn (Execution.opening p twinStart) part)
  have ht := simpleTurn_mem hp hplan twinStart
  have hspec : twinEngine.specFor? part.segment.language =
      some ⟨"py", .python, "python3", ["-A"]⟩ := by
    rw [hl]
    decide
  have htwin : twinStart.Unhindered part.segment.language :=
    ⟨Workshop.tidy_bare rfl rfl, rfl, _, hspec, rfl, rfl, rfl⟩
  obtain ⟨hresult, -⟩ := RunState.execute_unhindered
    (htwin.congr hq.engine hq.scratch hq.machine)
    (by rw [hq.machine]; exact Reply.values?_default)
    (u := Generator.simpleUnit part.segment part.analysis.bound
      (Execution.enterPart (Execution.opening p twinStart) part).globals)
  have hstarts : (Execution.simpleTurn (Execution.opening p twinStart) part).Starts
      (Execution.generatorOf p) := Turn.starts_of_result rfl hresult
  obtain ⟨home, -, hhome, -, own, first, hown, hol, hfl, hfirst, hruns⟩ :=
    interpreter_of_tag hc rfl ht rfl
  have hhome : home = part := hhome
  have hpy2 : twinEngine.specOfTag? "py2" = some ⟨"py2", .python, "python3", ["-B"]⟩ := by
    decide
  rw [hhome, htag, hpy2] at hown
  cases hown
  have hfirst := hfirst.eq_of_twin (hfl.trans hol.symm)
  subst hfirst
  obtain ⟨hrun, hiff⟩ := hruns hstarts
  refine ⟨p, _, _, hc, ht, rfl, ⟨htag, rfl, hstarts⟩, hrun, fun hr => ?_⟩
  have hargs := (hiff.1 hr).2
  exact absurd hargs (by decide)

end Program
end Polyglot
