import Polyglot.Proofs.Program.Compiled
import Polyglot.Proofs.Run.Twins

/-!
# Leftover files

Main statement: two runs whose files differ in the scratch directory alone look the same,
and end in the same error if they end in one, if no program that the engine launches lies
there; only the text of a failed launch may differ, where the programs are to start at a
name in the scratch directory.
-/
namespace Polyglot
open Outcome (Tandem)

/-- The two errors are the same, but if `P` is so the text of a failed launch may differ. -/
inductive EngineError.SameBut (P : Prop) : EngineError → EngineError → Prop
  | same (e : EngineError) : SameBut P e e
  | runtime {e e' : RuntimeError} (h : e.SameBut P e') : SameBut P (.runtime e) (.runtime e')

namespace RunState

/-- The two states are the same to whoever does not look into the files. -/
structure Agree (s s' : RunState) : Prop where
  stdout : s'.scheduler.stdout = s.scheduler.stdout
  order : s'.order = s.order
  globals : s'.globals = s.globals
  warnings : s'.warnings = s.warnings
  records : s'.scheduler.records = s.scheduler.records
  entries : s'.scheduler.chronicle.entries = s.scheduler.chronicle.entries
  spawns : s'.scheduler.workshop.machine.spawns = s.scheduler.workshop.machine.spawns

structure Twin (e : Engine) (here : Location) (made : Files) (s s' : RunState) : Prop where
  engine : s.scheduler.engine = e ∧ s'.scheduler.engine = e
  workshop : Workshop.TwinOnceMade e.scratchDir here made s.scheduler.workshop s'.scheduler.workshop
  records : s'.scheduler.records = s.scheduler.records
  stdout : s'.scheduler.stdout = s.scheduler.stdout
  globals : s'.globals = s.globals
  order : s'.order = s.order
  warnings : s'.warnings = s.warnings
  hidden : s'.hidden = s.hidden

variable {e : Engine} {here : Location} {made : Files} {s s' : RunState}

theorem Twin.agree (h : Twin e here made s s') : s.Agree s' where
  stdout := h.stdout
  order := h.order
  globals := h.globals
  warnings := h.warnings
  records := h.records
  entries := h.workshop.entries
  spawns := h.workshop.spawns

theorem Twin.finish {p p' : Passage} (h : Twin e here made s s')
    (hp : p.Paired (Workshop.TwinOnceMade e.scratchDir here made) p') (next : UnitState)
    (l l' : LogLine) (g : Globals) (order : List Text) :
    Twin e here made
      { s with
        scheduler := s.scheduler.finish (p.advance next) { (p.advance next).workshop with
          chronicle := (p.advance next).workshop.chronicle.say l }
        globals := g
        order := order }
      { s' with
        scheduler := s'.scheduler.finish (p'.advance next) { (p'.advance next).workshop with
          chronicle := (p'.advance next).workshop.chronicle.say l' }
        globals := g
        order := order } where
  engine := h.engine
  workshop := by
    apply hp.workshop.tell
    simp only [Passage.advance, Chronicle.entries_say, hp.workshop.entries]
  records := by
    simp only [Scheduler.finish, Passage.advance, h.records, hp.record]
  stdout := by
    simp only [Scheduler.finish, Passage.advance, h.stdout, hp.printed]
  globals := rfl
  order := rfl
  warnings := h.warnings
  hidden := h.hidden

theorem Twin.execute
    (he : ∀ spec ∈ e.languages, ¬ made.LaunchesFrom here e.workingDir spec.interpreter)
    (h : Twin e here made s s') (u : GuestUnit) :
    Tandem (Twin e here made) (Twin e here made)
      (EngineError.SameBut (made.StartsIn here e.workingDir)) (s.execute u) (s'.execute u) := by
  have ht := Passage.tandem_travel he h.workshop u (.ofUnit u) []
  simp only [RunState.execute, Scheduler.dispatch, h.engine.1, h.engine.2, h.globals, h.order]
  generalize Passage.travel ⟨s.scheduler.workshop, .ofUnit u, []⟩ e u = o at ht
  generalize Passage.travel ⟨s'.scheduler.workshop, .ofUnit u, []⟩ e u = o' at ht
  cases ht with
  | done hp => exact .done (h.finish hp .completed _ _ _ _)
  | failed hp he => exact .failed (h.finish hp .failed _ _ _ _) (.runtime he)

end RunState

theorem Execution.simulation_leftovers {e : Engine} {here : Location} {made : Files}
    (he : ∀ spec ∈ e.languages, ¬ made.LaunchesFrom here e.workingDir spec.interpreter) :
    Simulation (RunState.Twin e here made)
      (EngineError.SameBut (made.StartsIn here e.workingDir)) where
  globals h := h.globals
  hidden h := h.hidden
  say h l := { h with workshop := h.workshop.tell (by
    rw [Chronicle.entries_say, Chronicle.entries_say, h.workshop.entries]) }
  record h t := { h with
    workshop := h.workshop.tell (by
      rw [Chronicle.entries_push, Chronicle.entries_push, h.workshop.entries])
    warnings := congrArg (· ++ [t]) h.warnings }
  hide h x := { h with hidden := congrArg (· ++ [x]) h.hidden }
  execute h u := h.execute he u
  same e := .same e

namespace Files
variable {fs : Files} {n : Text}

structure IsFlat (fs : Files) : Prop extends fs.Flat Engine.defaultScratch [Engine.defaultScratch]
    where
  cwd : fs.cwd = "/"

theorem isFlat_scratchOnly : scratchOnly.IsFlat :=
  ⟨⟨rfl, rfl, by decide, flat_scratchOnly.flat⟩, rfl⟩

theorem IsFlat.houses (h : fs.IsFlat) :
    fs.Houses Engine.defaultScratch [Engine.defaultScratch] fs :=
  houses_of_dir h.located h.dir

theorem IsFlat.set (h : fs.IsFlat) (n : Text) (content : Text.Utf8.Bytes) (executable : Bool) :
    (fs.set ([Engine.defaultScratch] ++ [n]) (.file content executable)).IsFlat :=
  ⟨h.of_keeps (keeps_set (h.flat n) content executable), h.cwd⟩

theorem IsFlat.sameBesides (h : fs.IsFlat) (n : Text) (content : Text.Utf8.Bytes)
    (executable : Bool) :
    SameBesides Engine.defaultScratch [Engine.defaultScratch] fs
      (fs.set ([Engine.defaultScratch] ++ [n]) (.file content executable)) fs := by
  refine ⟨h.houses, _, (h.set n content executable).houses, keeps_set (h.flat n) content executable,
    fun l hl => ?_⟩
  rw [at?_set (ne_nil_of_at? (h.flat n)), if_neg (hl n)]

end Files

namespace Program

/-- A program of one segment that calls nothing, and that compiled without a warning. -/
structure IsSingle (p : Program) (part : Part) : Prop where
  parts : p.parts = [part]
  plan : part.plan = .simple
  warnings : p.warnings = []

def straySource : Text := "[py]\nx = 1"

theorem compile_straySource {e : Engine}
    (h : (compile e straySource).toOption.map (fun p => (p.parts.map fun part =>
      (part.plan, part.segment.language), p.warnings.isEmpty)) =
        some ([(.simple, .python)], true)) :
    ∃ p part, compile e straySource = .ok p ∧ p.IsSingle part ∧
      part.segment.language = .python := by
  obtain ⟨p, hc, hp⟩ := exists_of_compile h
  obtain ⟨hparts, hw⟩ := Prod.mk.inj hp
  obtain ⟨part, hparts, hpart⟩ := List.map_eq_singleton_iff.1 hparts
  obtain ⟨hplan, hl⟩ := Prod.mk.inj hpart
  exact ⟨p, part, hc, ⟨hparts, hplan, List.isEmpty_iff.1 hw⟩, hl⟩

/-- Two runs whose files differ in the scratch directory alone leave states that agree, and
end alike; only the text of a failed launch can differ, where the engine starts programs at
a name in this directory. And a unit whose process exits well without a result fails for
just that cause, whatever lies in the directory. -/
theorem run_leftovers (p : Program) (e : Engine) (m : Machine) (c : Chronicle) {fs' made : Files}
    {here : Location} (h : Files.SameBesides e.scratchDir here m.files fs' made)
    (he : ∀ spec ∈ e.languages, ¬ made.LaunchesFrom here e.workingDir spec.interpreter) :
    (p.run (.start e m c)).state.Agree (p.run (.start e { m with files := fs' } c)).state ∧
    ((∃ v, (p.run (.start e m c)).result = .ok v ∧
        (p.run (.start e { m with files := fs' } c)).result = .ok v) ∨
      ∃ err err', (p.run (.start e m c)).result = .error err ∧
        (p.run (.start e { m with files := fs' } c)).result = .error err' ∧
        err.SameBut (made.StartsIn here e.workingDir) err') ∧
    ∀ (s : Scheduler) (u : GuestUnit) (g : Globals) (order : List Text),
      s.ExitsWell u → s.workshop.machine.nextReply.result = none →
      ∃ path cause, (s.dispatch u g order).result = .error (.missingResult u.hash path cause) := by
  have hsim := Execution.simulation_leftovers he
  have hstart : RunState.Twin e here made (.start (.start e m c))
      (.start (.start e { m with files := fs' } c)) :=
    ⟨⟨rfl, rfl⟩, .fresh rfl rfl rfl h rfl, rfl, rfl, rfl, rfl, rfl, rfl⟩
  have ht := hsim.tandem_run hstart p
  exact ⟨ht.state.agree, ht.result,
    fun _ _ g order hx hr => Scheduler.missing_of_exit g order hx hr⟩

theorem not_launchesFrom {made : Files} {here : Location} {dir : Option Text} {program : Text}
    (h : program.contains '/' = false) : ¬ made.LaunchesFrom here dir program := by
  rintro ⟨d, -, hc, -⟩
  rw [h] at hc
  cases hc

/-- A stale result of the program's own unit, which is not read. -/
theorem run_leftovers_stale : ∃ p part, compile .standard straySource = .ok p ∧
    p.IsSingle part ∧ ∃ stale : Files,
      stale = Files.scratchOnly.set ([Engine.defaultScratch] ++
        [(Generator.simpleUnit part.segment part.analysis.bound Catalog.empty).resultName])
        (.file (Text.Utf8.encode "\x7b\"x\":2\x7d")) ∧
      Files.SameBesides Engine.standard.scratchDir [Engine.defaultScratch] Files.scratchOnly stale
        Files.scratchOnly ∧
      (∀ spec ∈ Engine.standard.languages, ¬ Files.scratchOnly.LaunchesFrom
        [Engine.defaultScratch] Engine.standard.workingDir spec.interpreter) ∧
      (p.run (.start .standard { Machine.bare with files := .scratchOnly } [])).state.Agree
        (p.run (.start .standard { Machine.bare with files := stale } [])).state := by
  obtain ⟨p, part, hc, hsingle, -⟩ := compile_straySource (e := .standard) (by decide +kernel)
  have hsame := Files.isFlat_scratchOnly.sameBesides
    (Generator.simpleUnit part.segment part.analysis.bound Catalog.empty).resultName
    (Text.Utf8.encode "\x7b\"x\":2\x7d") false
  have hprograms : ∀ spec ∈ Engine.standard.languages, ¬ Files.scratchOnly.LaunchesFrom
      [Engine.defaultScratch] Engine.standard.workingDir spec.interpreter := by
    have hplain : ∀ spec ∈ Engine.standard.languages, spec.interpreter.contains '/' = false := by
      decide
    exact fun spec hs => not_launchesFrom (hplain spec hs)
  refine ⟨p, part, hc, hsingle, _, rfl, hsame, hprograms, ?_⟩
  exact (run_leftovers p .standard { Machine.bare with files := .scratchOnly } [] hsame hprograms).1

end Program

def Files.strayName : Text := "x"

def Files.strayPath : Text := ".mixl/x"

/-- The standard engine, told to start its programs at a name in the scratch directory. -/
def Engine.startingAtStray : Engine :=
  { Engine.standard with workingDir := some Files.strayPath }

/-- An engine whose program is a file in the scratch directory. -/
def Engine.launchingStray : Engine :=
  { Engine.standard with languages := [⟨"py", .python, Files.strayPath, []⟩] }

def Files.withStray : Files :=
  Files.scratchOnly.set ([Engine.defaultScratch] ++ [strayName]) (.file [] true)

theorem Files.IsFlat.locate_stray {fs : Files} (h : fs.IsFlat) :
    fs.locate strayPath = .ok ([Engine.defaultScratch] ++ [strayName]) := by
  have hwalk := walk_name h.dir (n := strayName)
    ⟨by decide, by decide, by decide, by decide, by decide⟩
  rw [locate, follow, h.cwd]
  exact hwalk

theorem GuestUnit.strayName_ne (u : GuestUnit) (t : Text) : Files.strayName ≠ u.stem ++ t := by
  intro he
  have hlength := congrArg List.length he
  rw [List.length_append] at hlength
  have hstem := u.stem_plain.1.1
  have hone : Files.strayName.length = 1 := rfl
  omega

theorem Workshop.exists_prepared_stray {w : Workshop} (h : w.machine.files.IsFlat)
    (hs : w.scratch = .ofRoot Engine.defaultScratch) (u : GuestUnit) :
    ∃ root fs, w.Prepared u root fs ∧ fs.IsFlat ∧
      fs.at? ([Engine.defaultScratch] ++ [Files.strayName]) =
        w.machine.files.at? ([Engine.defaultScratch] ++ [Files.strayName]) := by
  have hhoused : w.Housed (Location.path [Engine.defaultScratch]) w.machine.files := by
    refine .made ?_ ?_ ?_
    · rw [hs]
      rfl
    · rw [hs]
      exact h.houses.makes
    · rw [hs]
      exact h.houses.canonical
  have hflat : w.machine.files.Flat (Location.path [Engine.defaultScratch])
      [Engine.defaultScratch] := ⟨rfl, h.dir, by decide, h.flat⟩
  obtain ⟨root, fs, here, hp, -⟩ :=
    Tidy.exists_prepared ⟨_, _, _, hhoused, hflat⟩ u
  obtain rfl : root = Location.path [Engine.defaultScratch] := by
    obtain ⟨hh, -, -⟩ := hp
    exact (hhoused.unique hh).1
  have hk := hp.keeps hhoused
  have hsource : Files.strayName ≠ u.sourceName := by
    rw [GuestUnit.sourceName, List.append_assoc]
    exact u.strayName_ne _
  exact ⟨_, fs, hp, ⟨h.of_keeps hk, hk.cwd.trans h.cwd⟩,
    hp.at?_eq hhoused hsource (u.strayName_ne _) _⟩

namespace Program

theorem IsSingle.run_of_fate {p : Program} {part : Part} (h : p.IsSingle part) :
    ∃ u : GuestUnit, u.language = part.segment.language ∧ ∀ (e : Engine) (m : Machine)
      (c : Chronicle), ∃ w : Workshop, w.scratch = .ofRoot e.scratchDir ∧ w.machine = m ∧
        ∀ o, Passage.Fate e u w o →
          (p.run (.start e m c)).result = (o.map fun _ => ()).mapError .runtime := by
  refine ⟨Generator.simpleUnit part.segment part.analysis.bound Catalog.empty, rfl,
    fun e m c => ?_⟩
  refine ⟨(Execution.saySimple (Execution.saySegment (.start (.start e m c)) part.segment) part
    (Generator.simpleUnit part.segment part.analysis.bound Catalog.empty)).scheduler.workshop,
    rfl, rfl, fun o ho => ?_⟩
  have hopen : Execution.opening p (.start e m c) = .start (.start e m c) := by
    rw [Execution.opening, h.warnings]
    rfl
  have hexecute : ∀ (s : RunState) (u : GuestUnit),
      (((s.execute u).map fun _ => ()).andThen fun s _ =>
        Execution.runParts (Execution.generatorOf p) s []).result =
      (((Passage.travel ⟨s.scheduler.workshop, .ofUnit u, []⟩ s.scheduler.engine u).result.map
        fun _ => ()).mapError .runtime) := by
    intro s u
    simp only [RunState.execute, Scheduler.dispatch]
    cases (Passage.travel ⟨s.scheduler.workshop, .ofUnit u, []⟩ s.scheduler.engine u).result with
    | ok values => rfl
    | error err => rfl
  rw [run, h.parts, hopen, Execution.runParts, Execution.runPart, h.plan]
  have hfate := ho.unique (Passage.ends_travel e _ _).fate
  exact (hexecute _ _).trans (congrArg (fun r : Except RuntimeError Globals =>
    (r.map fun _ => ()).mapError EngineError.runtime) hfate)

theorem IsSingle.run_startingAtStray {p : Program} {part : Part} (h : p.IsSingle part) :
    ∃ program unit, ∀ m : Machine, m.files.IsFlat →
      (p.run (.start .startingAtStray m [])).result = .error (.runtime (.launch program unit
        (if (m.files.at? ([Engine.defaultScratch] ++ [Files.strayName])).isSome then
          IoError.notDirectory else IoError.notFound).message)) := by
  obtain ⟨u, -, hrun⟩ := h.run_of_fate
  have hspec : Engine.startingAtStray.specFor? u.language =
      some (.ofLanguage u.language.tag u.language) := by
    cases u.language <;> rfl
  refine ⟨u.language.interpreter, u.hash, fun m hm => ?_⟩
  obtain ⟨w, hs, rfl, hres⟩ := hrun .startingAtStray m []
  obtain ⟨root, fs, hp, hflat, hx⟩ := Workshop.exists_prepared_stray hm hs u
  have hnul : (Engine.startingAtStray.workingDir.toList ++
      (TagSpec.ofLanguage u.language.tag u.language).interpreter ::
        (TagSpec.ofLanguage u.language.tag u.language).args).any Files.hasNul = false := by
    cases u.language <;> decide
  have hdir : (w.setFiles fs).machine.enterDir Engine.startingAtStray.workingDir = .error
      (if (w.machine.files.at? ([Engine.defaultScratch] ++ [Files.strayName])).isSome then
        .notDirectory else .notFound) := by
    have hne := hflat.flat Files.strayName
    simp only [Machine.enterDir, Engine.startingAtStray, Workshop.setFiles, Files.entry?,
      hflat.locate_stray, ← hx]
    cases ha : fs.at? ([Engine.defaultScratch] ++ [Files.strayName]) with
    | none => rfl
    | some x =>
      cases x with
      | dir => exact absurd ha hne
      | file content executable => rfl
  refine hres _ (.unlaunched hspec hp ?_)
  simp only [Machine.launch, hnul, hdir, Bool.false_eq_true, if_false]

theorem IsSingle.run_launchingStray {p : Program} {part : Part} (h : p.IsSingle part)
    (hl : part.segment.language = .python) :
    ∃ unit, ∀ m : Machine, m.files.IsFlat → m.programs = Machine.bare.programs → m.replies = [] →
      (m.files.at? ([Engine.defaultScratch] ++ [Files.strayName]) = none →
        (p.run (.start .launchingStray m [])).result = .error (.runtime
          (.launch Files.strayPath unit IoError.notFound.message))) ∧
      (m.files.at? ([Engine.defaultScratch] ++ [Files.strayName]) = some (.file [] true) →
        (p.run (.start .launchingStray m [])).result = .ok ()) := by
  obtain ⟨u, hu, hrun⟩ := h.run_of_fate
  have hspec : Engine.launchingStray.specFor? u.language =
      some ⟨"py", .python, Files.strayPath, []⟩ := by
    rw [hu, hl]
    rfl
  refine ⟨u.hash, fun m hm hprograms hreplies => ?_⟩
  obtain ⟨w, hs, rfl, hres⟩ := hrun .launchingStray m []
  obtain ⟨root, fs, hp, hflat, hx⟩ := Workshop.exists_prepared_stray hm hs u
  have hcwd : (w.setFiles fs).machine.enterDir Engine.launchingStray.workingDir = .ok "/" :=
    congrArg Except.ok hflat.cwd
  have hfiles : { fs with cwd := "/" } = fs := by
    rw [← hflat.cwd]
  have hunknown : w.machine.programs.contains Files.strayPath = false := by
    rw [hprograms]
    decide
  have hfault := @Machine.launchFault?_of_path (w.setFiles fs).machine "/" Files.strayPath
    hunknown (by decide)
  rw [show ({ (w.setFiles fs).machine.files with cwd := "/" } : Files) = fs from hfiles] at hfault
  rw [Files.entry?, hflat.locate_stray] at hfault
  dsimp only at hfault
  rw [hx] at hfault
  have hnul : (Engine.launchingStray.workingDir.toList ++ [Files.strayPath]).any Files.hasNul =
      false := by
    decide
  constructor
  · intro hnone
    rw [hnone] at hfault
    have hlaunch : (w.setFiles fs).machine.launch Files.strayPath []
        (Path.join root u.sourceName) Engine.launchingStray.workingDir = .error .notFound := by
      simp only [Machine.launch, hnul, hcwd, hfault, Bool.false_eq_true, if_false]
    exact hres _ (.unlaunched hspec hp hlaunch)
  · intro hthere
    rw [hthere] at hfault
    have hreply : (w.setFiles fs).machine.nextReply = {} := by
      rw [Machine.nextReply, Workshop.setFiles, hreplies]
      rfl
    have hlaunch : (w.setFiles fs).machine.launch Files.strayPath [] (Path.join root u.sourceName)
        Engine.launchingStray.workingDir =
        .ok ({}, (w.setFiles fs).machine.afterLaunch "/" (Path.join root u.sourceName) []) := by
      simp only [Machine.launch, hnul, hcwd, hfault, hreply, List.any_nil, Bool.false_eq_true,
        if_false]
    exact hres _ (.answered ⟨_, fs, hspec, hp, hlaunch⟩ rfl)

/-- What was left at a name in the scratch directory decides how a run ends: where programs
are to start there, and where the program itself is to be found there. -/
theorem run_stray_differs :
    Files.SameBesides Engine.defaultScratch [Engine.defaultScratch] Files.scratchOnly
      Files.withStray Files.scratchOnly ∧
    (∃ p program unit, compile .startingAtStray straySource = .ok p ∧
      (p.run (.start .startingAtStray { Machine.bare with files := .scratchOnly } [])).result =
        .error (.runtime (.launch program unit "No such file or directory (os error 2)")) ∧
      (p.run (.start .startingAtStray { Machine.bare with files := .withStray } [])).result =
        .error (.runtime (.launch program unit "Not a directory (os error 20)"))) ∧
    ∃ p unit, compile .launchingStray straySource = .ok p ∧
      (p.run (.start .launchingStray { Machine.bare with files := .scratchOnly } [])).result =
        .error (.runtime (.launch Files.strayPath unit "No such file or directory (os error 2)")) ∧
      (p.run (.start .launchingStray { Machine.bare with files := .withStray } [])).result =
        .ok () := by
  have hflat := Files.isFlat_scratchOnly
  have hstray := hflat.set Files.strayName [] true
  refine ⟨hflat.sameBesides _ _ _, ?_, ?_⟩
  · obtain ⟨p, part, hc, hsingle, -⟩ :=
      compile_straySource (e := .startingAtStray) (by decide +kernel)
    obtain ⟨program, unit, hrun⟩ := hsingle.run_startingAtStray
    exact ⟨p, program, unit, hc, hrun _ hflat, hrun _ hstray⟩
  · obtain ⟨p, part, hc, hsingle, hl⟩ :=
      compile_straySource (e := .launchingStray) (by decide +kernel)
    obtain ⟨unit, hrun⟩ := hsingle.run_launchingStray hl
    have habsent := hrun { Machine.bare with files := .scratchOnly } hflat rfl rfl
    have hthere := hrun { Machine.bare with files := .withStray } hstray rfl rfl
    exact ⟨p, unit, hc, habsent.1 rfl, hthere.2 rfl⟩

end Program
end Polyglot
