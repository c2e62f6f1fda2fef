import Polyglot.Proofs.Run.Passage

/-!
# Dispatching a unit

Main statement: a dispatch leaves one truthful record, and it changes the globals and the
order of execution only if the unit completed; whether it does is the unit's fate, which
the system and the reply of its process decide. A workshop is `Tidy` if its scratch
directory can be used and holds no directories: there, a unit that can be launched has
the values that its process gives back.
-/
namespace Polyglot

namespace Scheduler
open Workshop (Launched)
variable {s : Scheduler} {u : GuestUnit} {o : Passage.Step Globals}

/-- The process of the unit is launched and exits with success. -/
def ExitsWell (s : Scheduler) (u : GuestUnit) : Prop :=
  ∃ root r m, Launched s.engine u s.workshop root r m ∧ r.status.succeeded = true

def Fated (s : Scheduler) (u : GuestUnit) (r : Except RuntimeError Globals) : Prop :=
  Passage.Fate s.engine u s.workshop r

/-- The dispatch left this one record, and everything else is as the record and the fate
of the unit say. -/
structure Truthful (s : Scheduler) (u : GuestUnit) (g : Globals) (order : List Text)
    (d : Dispatched) (r : UnitRecord) : Prop where
  records : d.scheduler.records = s.records ++ [r]
  unit : r.hash = u.hash ∧ r.kind = u.kind ∧ r.language = u.language ∧ r.firstLine = u.firstLine
  advances : r.Advances
  succeeds_iff : (∃ v, d.result = .ok v) ↔ r.state = .completed
  completed_iff : r.state = .completed ↔ d.order = order ++ [u.hash]
  fated : ∃! o, s.Fated u o
  completed : ∀ values, s.Fated u (.ok values) →
    d.result = .ok values.returned ∧ d.globals = g.merge values
  failed : ∀ err, s.Fated u (.error err) →
    d.result = .error err ∧ r.state = .failed ∧ d.globals = g ∧ d.order = order
  path_iff : ∀ path, r.path = some path ↔ Passage.Persists s.engine u s.workshop path
  source : ∀ path, r.path = some path →
    d.scheduler.workshop.machine.files.read path = .ok (Text.Utf8.encode u.source)
  printed : s.ExitsWell u → d.scheduler.stdout = s.stdout ++ s.workshop.machine.nextReply.printed
  silent : ¬ s.ExitsWell u → d.scheduler.stdout = s.stdout

theorem exitsWell_of_launched {root : Text} {r : Reply} {m : Machine}
    (h : Launched s.engine u s.workshop root r m) :
    s.ExitsWell u ↔ r.status.succeeded = true := by
  constructor
  · rintro ⟨root', r', m', h', hr⟩
    obtain ⟨rfl, -⟩ := h.exists_machine
    obtain ⟨rfl, -⟩ := h'.exists_machine
    exact hr
  · exact fun hr => ⟨root, r, m, h, hr⟩

theorem stdout_of_ends (h : Passage.Ends s.engine u s.workshop o) :
    (s.ExitsWell u → o.state.printed = s.workshop.machine.nextReply.printed) ∧
      (¬ s.ExitsWell u → o.state.printed = []) := by
  have hlaunched : ∀ {root r m}, Launched s.engine u s.workshop root r m →
      r = s.workshop.machine.nextReply := fun hl => hl.exists_machine.1
  have hunlaunched : (∀ {root r m}, ¬ Launched s.engine u s.workshop root r m) →
      ¬ s.ExitsWell u := by
    rintro hn ⟨root, r, m, hl, -⟩
    exact hn hl
  cases h with
  | unequipped hs =>
    refine ⟨fun hx => absurd hx (hunlaunched ?_), fun _ => rfl⟩
    rintro root r m ⟨spec, fs, hs', -, -⟩
    rw [hs] at hs'
    cases hs'
  | unprepared hs hp hm =>
    refine ⟨fun hx => absurd hx (hunlaunched ?_), fun _ => rfl⟩
    rintro root r m ⟨spec, fs, -, hp', -⟩
    exact hp'.not_unprepared hp
  | unlaunched hs hp hl hm =>
    refine ⟨fun hx => absurd hx (hunlaunched ?_), fun _ => rfl⟩
    rintro root r m ⟨spec, fs, hs', hp', hl'⟩
    obtain ⟨rfl, rfl⟩ := hp.unique hp'
    obtain rfl := Option.some.inj (hs'.symm.trans hs)
    rw [hl] at hl'
    cases hl'
  | exited hl hs hr =>
    refine ⟨fun hx => ?_, fun _ => rfl⟩
    rw [exitsWell_of_launched hl, hr] at hx
    cases hx
  | answered hl hs hr =>
    refine ⟨fun _ => congrArg Reply.printed (hlaunched hl), fun hx => ?_⟩
    exact absurd ((exitsWell_of_launched hl).2 hr) hx

theorem truthful_succeed (h : Passage.Ends s.engine u s.workshop o) {values : Globals}
    (hv : o.result = .ok values)
    (hn : o.state.record.state.canAdvance .completed = true) (g : Globals) (order : List Text) :
    s.Truthful u g order (s.succeed o.state u values g order)
      (o.state.advance .completed).record := by
  have hf := h.faithful.advance hn
  have hfate : s.Fated u (.ok values) := hv ▸ h.fate
  obtain ⟨hprinted, hsilent⟩ := stdout_of_ends h
  have hstate : (o.state.advance .completed).record.state = .completed :=
    UnitRecord.state_enter _ _
  exact {
    records := rfl
    unit := hf.unit
    advances := hf.advances
    succeeds_iff := ⟨fun _ => hstate, fun _ => ⟨_, rfl⟩⟩
    completed_iff := ⟨fun _ => rfl, fun _ => hstate⟩
    fated := ⟨_, hfate, fun _ => hfate.unique⟩
    completed := by
      intro values' hx
      obtain rfl := Except.ok.inj (hfate.unique hx)
      exact ⟨rfl, rfl⟩
    failed := fun err hx => nomatch hfate.unique hx
    path_iff := hf.path_iff
    source := hf.source
    printed := fun hx => congrArg (s.stdout ++ ·) (hprinted hx)
    silent := fun hx => (congrArg (s.stdout ++ ·) (hsilent hx)).trans (List.append_nil _) }

theorem truthful_fail (h : Passage.Ends s.engine u s.workshop o) {err : RuntimeError}
    (hv : o.result = .error err)
    (hn : o.state.record.state.canAdvance .failed = true) (g : Globals) (order : List Text) :
    s.Truthful u g order (s.fail o.state u err g order) (o.state.advance .failed).record := by
  have hf := h.faithful.advance hn
  have hfate : s.Fated u (.error err) := hv ▸ h.fate
  obtain ⟨hprinted, hsilent⟩ := stdout_of_ends h
  have hstate : (o.state.advance .failed).record.state = .failed := UnitRecord.state_enter _ _
  have hnot : (o.state.advance .failed).record.state ≠ .completed := by
    rw [hstate]
    nofun
  exact {
    records := rfl
    unit := hf.unit
    advances := hf.advances
    succeeds_iff := ⟨nofun, fun hc => absurd hc hnot⟩
    completed_iff := by
      refine ⟨fun hc => absurd hc hnot, fun ho => ?_⟩
      have hlen := congrArg List.length ho
      simp [fail] at hlen
    fated := ⟨_, hfate, fun _ => hfate.unique⟩
    completed := fun values hx => nomatch hfate.unique hx
    failed := by
      intro err' hx
      obtain rfl := Except.error.inj (hfate.unique hx)
      exact ⟨rfl, hstate, rfl, rfl⟩
    path_iff := hf.path_iff
    source := hf.source
    printed := fun hx => congrArg (s.stdout ++ ·) (hprinted hx)
    silent := fun hx => (congrArg (s.stdout ++ ·) (hsilent hx)).trans (List.append_nil _) }

/-- Every dispatch, whatever becomes of it, leaves one record that is true of it. -/
theorem exists_truthful (s : Scheduler) (u : GuestUnit) (g : Globals) (order : List Text) :
    ∃ r, s.Truthful u g order (s.dispatch u g order) r := by
  have h := Passage.ends_travel s.engine u s.workshop
  simp only [dispatch]
  generalize Passage.travel ⟨s.workshop, .ofUnit u, []⟩ s.engine u = o at h
  obtain ⟨⟨err, hv⟩, hn⟩ | ⟨⟨values, hv⟩, hn⟩ := h.canAdvance
  · simp only [hv]
    exact ⟨_, truthful_fail h hv hn g order⟩
  · simp only [hv]
    exact ⟨_, truthful_succeed h hv hn g order⟩

theorem fated_of_error {g : Globals} {order : List Text} {err : RuntimeError}
    (h : (s.dispatch u g order).result = .error err) : s.Fated u (.error err) := by
  obtain ⟨r, ht⟩ := s.exists_truthful u g order
  obtain ⟨o, ho, -⟩ := ht.fated
  cases o with
  | ok values => cases h.symm.trans (ht.completed values ho).1
  | error err' =>
    rw [(ht.failed err' ho).1] at h
    exact Except.error.inj h ▸ ho

theorem missing_of_exit (g : Globals) (order : List Text) (hx : s.ExitsWell u)
    (hr : s.workshop.machine.nextReply.result = none) :
    ∃ path cause, (s.dispatch u g order).result = .error (.missingResult u.hash path cause) := by
  obtain ⟨root, r, m, hl, hs⟩ := hx
  have hfate : s.Fated u (r.answer u (Path.join root u.resultName)) := .answered hl hs
  obtain ⟨rfl, -⟩ := hl.exists_machine
  rw [Reply.answer, hr] at hfate
  obtain ⟨record, ht⟩ := s.exists_truthful u g order
  exact ⟨_, _, (ht.failed _ hfate).1⟩

end Scheduler

structure Files.Flat (fs : Files) (root : Text) (here : Location) : Prop where
  located : fs.locate root = .ok here
  dir : fs.at? here = some .dir
  fits : Text.size root + 1 + GuestUnit.longestName < Files.maxPath
  flat : ∀ n, fs.at? (here ++ [n]) ≠ some .dir

namespace Files.Flat
variable {fs fs' : Files} {root n : Text} {here : Location}

theorem of_keeps (h : fs.Flat root here) (hk : Files.Keeps fs fs') : fs'.Flat root here where
  located := hk.locate h.located
  dir := (hk.dirs here).2 h.dir
  fits := h.fits
  flat := fun n hd => h.flat n ((hk.dirs _).1 hd)

theorem locate_join (h : fs.Flat root here)
    (hn : Path.IsName n ∧ Text.size n ≤ GuestUnit.longestName) :
    fs.locate (Path.join root n) = .ok (here ++ [n]) :=
  Files.locate_join h.located h.dir hn.1 (Nat.lt_of_le_of_lt (Nat.add_le_add_left hn.2 _) h.fits)

theorem exists_write (h : fs.Flat root here)
    (hn : Path.IsName n ∧ Text.size n ≤ GuestUnit.longestName) (content : Text.Utf8.Bytes) :
    ∃ fs', fs.write (Path.join root n) content = .ok fs' := by
  have ht := Files.target_of_locate (h.locate_join hn) (Files.getLast?_join hn.1) (h.flat n)
  exact ⟨fs.put (here ++ [n]) content, by rw [Files.write, ht]; rfl⟩

end Files.Flat

namespace Workshop
variable {w w' : Workshop} {u : GuestUnit}

/-- The scratch directory can be used, and there are no directories in it. -/
structure Tidy (w : Workshop) : Prop where
  housed : ∃ root fs here, w.Housed root fs ∧ fs.Flat root here

theorem Housed.congr {root : Text} {fs : Files} (h : w.Housed root fs)
    (hs : w'.scratch = w.scratch) (hf : w'.machine.files = w.machine.files) :
    w'.Housed root fs := by
  cases h with
  | found hr =>
    rw [← hs, ← hf]
    exact .found (hs ▸ hr)
  | made hr hm hc => exact .made (hs ▸ hr) (by rw [hs, hf]; exact hm) (by rw [hs]; exact hc)

theorem Tidy.congr (h : w.Tidy) (hs : w'.scratch = w.scratch)
    (hf : w'.machine.files = w.machine.files) : w'.Tidy := by
  obtain ⟨root, fs, here, hh, hflat⟩ := h.housed
  exact ⟨root, fs, here, hh.congr hs hf, hflat⟩

theorem Tidy.of_found {root : Text} {here : Location} (hs : w.scratch = ⟨root, true⟩)
    (hf : w.machine.files.Flat root here) : w.Tidy := by
  have hh := Housed.found (w := w) (by rw [hs])
  rw [hs] at hh
  exact ⟨root, _, here, hh, hf⟩

theorem Tidy.exists_prepared (h : w.Tidy) (u : GuestUnit) :
    ∃ root fs here, w.Prepared u root fs ∧ fs.Flat root here := by
  obtain ⟨root, fs, here, hh, hf⟩ := h.housed
  obtain ⟨g, hc, -⟩ := Files.exists_cleared (hf.locate_join u.isName_result) (hf.flat _)
  have hg := hf.of_keeps hc.keeps
  obtain ⟨g', hw⟩ := hg.exists_write u.isName_source (Text.Utf8.encode u.source)
  exact ⟨root, g', here, .written hh hc hw, hg.of_keeps (Files.keeps_of_write hw)⟩

end Workshop

namespace Machine
variable {m : Machine} {spec : TagSpec}

structure Launches (m : Machine) (spec : TagSpec) : Prop where
  known : m.programs.contains spec.interpreter = true
  nul : (spec.interpreter :: spec.args).any Files.hasNul = false
  fits : spec.args.any (maxArgument < Text.size ·) = false

theorem launch_eq (h : m.Launches spec) (script : Text) :
    m.launch spec.interpreter spec.args script none =
      .ok (m.nextReply, m.afterLaunch m.files.cwd script spec.args) := by
  have hn : ((none : Option Text).toList ++ spec.interpreter :: spec.args).any Files.hasNul =
      false := h.nul
  have hk : m.launchFault? m.files.cwd spec.interpreter = none := by
    rw [launchFault?, if_pos h.known]
  simp only [launch, hn, enterDir, hk, h.fits, Bool.false_eq_true, if_false]

theorem keeps_writeResult (fs : Files) (script : Text) (result : Option Text.Utf8.Bytes) :
    Files.Keeps fs (writeResult fs script result) := by
  cases result with
  | none => exact Files.Keeps.refl fs
  | some content =>
    rw [writeResult]
    cases hw : fs.write (resultOf script) content with
    | ok fs' => exact Files.keeps_of_write hw
    | error e => exact Files.Keeps.refl fs

end Machine

structure Engine.Serves (e : Engine) (m : Machine) (l : Language) : Prop where
  dir : e.workingDir = none
  spec : ∃ spec, e.specFor? l = some spec ∧ m.Launches spec

namespace Workshop
variable {e : Engine} {w : Workshop} {u : GuestUnit}

theorem Tidy.exists_launched (h : w.Tidy) (hl : e.Serves w.machine u.language) :
    ∃ root m, Launched e u w root w.machine.nextReply m := by
  obtain ⟨root, fs, here, hp, -⟩ := h.exists_prepared u
  obtain ⟨spec, hs, hlaunch⟩ := hl.spec
  have hlaunches : (w.setFiles fs).machine.Launches spec :=
    ⟨hlaunch.known, hlaunch.nul, hlaunch.fits⟩
  have heq := Machine.launch_eq hlaunches (Path.join root u.sourceName)
  rw [← hl.dir] at heq
  exact ⟨root, _, ⟨spec, fs, hs, hp, heq⟩⟩

theorem Tidy.of_launched {w' : Workshop} {root : Text} {r : Reply} (h : w.Tidy)
    (hl : Launched e u w root r w'.machine) (hs : w'.scratch = ⟨root, true⟩) :
    w'.Tidy ∧ w'.machine.replies = w.machine.replies.drop 1 ∧
      w'.machine.programs = w.machine.programs := by
  obtain ⟨root', fs', here, hp', hf⟩ := h.exists_prepared u
  obtain ⟨-, spec, fs, dir, -, hp, hm⟩ := hl.exists_machine
  obtain ⟨rfl, rfl⟩ := hp'.unique hp
  have hfiles : w'.machine.files.Flat root here := by
    rw [hm]
    exact hf.of_keeps (Machine.keeps_writeResult _ _ _)
  exact ⟨.of_found hs hfiles, by rw [hm], by rw [hm]⟩

end Workshop

namespace Passage
variable {e : Engine} {u : GuestUnit} {w : Workshop} {o : Step Globals}

theorem Ends.of_tidy (h : Ends e u w o) (ht : w.Tidy) (hl : e.Serves w.machine u.language)
    {values : Globals} (hv : w.machine.nextReply.values? = some values) :
    o.result = .ok values ∧ o.state.workshop.Tidy ∧
      o.state.workshop.machine.replies = w.machine.replies.drop 1 ∧
      o.state.workshop.machine.programs = w.machine.programs := by
  obtain ⟨root, m, hlaunched⟩ := ht.exists_launched hl
  obtain ⟨hr, hanswer⟩ :=
    (Reply.values?_eq_some u (Path.join root u.resultName)).1 hv
  have hresult : o.result = .ok values := by
    have hfate := Fate.answered hlaunched hr
    rw [hanswer] at hfate
    exact hfate.unique h.fate
  cases h with
  | unequipped hs => cases hresult
  | unprepared hs hp hm => cases hresult
  | unlaunched hs hp hl hm => cases hresult
  | exited hl hs hr => cases hresult
  | answered hl hs hr => exact ⟨hresult, ht.of_launched hl hs⟩

end Passage

namespace Scheduler
variable {s s' : Scheduler} {u : GuestUnit} {l : Language} {values : Globals}

/-- Nothing is in the way of a unit of the language. -/
structure Unhindered (s : Scheduler) (l : Language) : Prop where
  tidy : s.workshop.Tidy
  serves : s.engine.Serves s.workshop.machine l

theorem Unhindered.congr (h : s.Unhindered l) (he : s'.engine = s.engine)
    (hs : s'.workshop.scratch = s.workshop.scratch)
    (hm : s'.workshop.machine = s.workshop.machine) : s'.Unhindered l :=
  ⟨h.tidy.congr hs (congrArg Machine.files hm), by rw [he, hm]; exact h.serves⟩

/-- The unit has the values of the reply, and leaves the way clear for the next. -/
theorem Unhindered.dispatch (h : s.Unhindered u.language)
    (hv : s.workshop.machine.nextReply.values? = some values) (g : Globals)
    (order : List Text) :
    (s.dispatch u g order).result = .ok values.returned ∧
      (s.dispatch u g order).globals = g.merge values ∧
      (s.dispatch u g order).scheduler.workshop.machine.replies =
        s.workshop.machine.replies.drop 1 ∧
      ∀ l, s.Unhindered l → (s.dispatch u g order).scheduler.Unhindered l := by
  obtain ⟨hresult, htidy, hreplies, hprograms⟩ :=
    (Passage.ends_travel s.engine u s.workshop).of_tidy h.tidy h.serves hv
  rw [Scheduler.dispatch, hresult]
  refine ⟨rfl, rfl, hreplies, fun l hl => ⟨htidy.congr rfl rfl, hl.serves.dir, ?_⟩⟩
  obtain ⟨spec, hs, hlaunch⟩ := hl.serves.spec
  have hknown := hlaunch.known
  rw [← hprograms] at hknown
  exact ⟨spec, hs, hknown, hlaunch.nul, hlaunch.fits⟩

end Scheduler

theorem RunState.execute_unhindered {s : RunState} {u : GuestUnit} {values : Globals}
    (h : s.scheduler.Unhindered u.language)
    (hv : s.scheduler.workshop.machine.nextReply.values? = some values) :
    (s.execute u).result = .ok values.returned ∧
      (s.execute u).state.globals = s.globals.merge values := by
  obtain ⟨hresult, hglobals, -⟩ := h.dispatch hv s.globals s.order
  rw [execute, ofDispatched, hresult]
  exact ⟨rfl, hglobals⟩

/-- Both interpreters, no files, and processes that leave empty results. -/
def Machine.bare : Machine := ⟨⟨[], "/"⟩, ["node", "python3"], [], []⟩

def Files.scratchOnly : Files := ⟨[([Engine.defaultScratch], .dir)], "/"⟩

theorem Files.flat_scratchOnly : scratchOnly.Flat "/.mixl" [Engine.defaultScratch] :=
  ⟨rfl, rfl, by decide, fun n => by simp [at?, scratchOnly]⟩

theorem Workshop.tidy_bare {w : Workshop} (hs : w.scratch = .ofRoot Engine.defaultScratch)
    (hf : w.machine.files = Machine.bare.files) : w.Tidy := by
  refine ⟨"/.mixl", .scratchOnly, _, .made ?_ ?_ ?_, Files.flat_scratchOnly⟩
  · rw [hs]
    rfl
  · rw [hs, hf]
    rfl
  · rw [hs]
    rfl

theorem Engine.serves_standard {m : Machine} (h : m.programs = Machine.bare.programs)
    (l : Language) : standard.Serves m l := by
  refine ⟨rfl, .ofLanguage l.tag l, by cases l <;> rfl, ?_⟩
  cases l <;> exact ⟨by rw [h]; rfl, rfl, rfl⟩

namespace Scheduler

/-- The standard engine on a machine with no files, whose processes reply this. -/
def replying (rs : List Reply) : Scheduler :=
  .start .standard { Machine.bare with replies := rs } []

theorem unhindered_replying (rs : List Reply) (l : Language) : (replying rs).Unhindered l :=
  ⟨Workshop.tidy_bare rfl rfl, Engine.serves_standard (m := (replying rs).workshop.machine) rfl l⟩

/-- A process that gives a value back, and one that fails. -/
def twoReplies : List Reply :=
  [{ result := some (Text.Utf8.encode "\x7b\"x\":2\x7d") }, { status := .code 1 }]

def assignment : GuestUnit where
  language := .python
  kind := .segment
  source := "x = 2"
  tracked := ["x"]
  firstLine := 1
  pendingCall := none

/-- The unit completes with the first reply, and fails with the second. -/
theorem exists_truthful_assignment : ∃ values d d' r r',
    d = (replying twoReplies).dispatch assignment Catalog.empty [] ∧
    d' = d.scheduler.dispatch assignment d.globals d.order ∧
    (replying twoReplies).Truthful assignment Catalog.empty [] d r ∧
    d.scheduler.Truthful assignment d.globals d.order d' r' ∧
    values.names = ["x".toList] ∧ d.result = .ok none ∧
    d.globals = Globals.merge Catalog.empty values ∧ r.state = .completed ∧
    d'.result = .error (.exit assignment.hash "exit code 1" []) ∧ d'.globals = d.globals ∧
    r'.state = .failed := by
  have hvalues : ((replying twoReplies).workshop.machine.nextReply.values?.map fun g =>
      (g.names, g.returned.isNone)) = some (["x".toList], true) := by
    decide +kernel
  obtain ⟨values, hv, hx⟩ := Option.map_eq_some_iff.1 hvalues
  obtain ⟨hnames, hx⟩ := Prod.mk.inj hx
  have hreturned := Option.isNone_iff_eq_none.1 hx
  have hclear := unhindered_replying twoReplies
  obtain ⟨hresult, hglobals, hreplies, hnext⟩ := (hclear assignment.language).dispatch
    (u := assignment) hv Catalog.empty []
  obtain ⟨r, ht⟩ := (replying twoReplies).exists_truthful assignment Catalog.empty []
  generalize (replying twoReplies).dispatch assignment Catalog.empty [] = d at *
  obtain ⟨r', ht'⟩ := d.scheduler.exists_truthful assignment d.globals d.order
  have hclear' := hnext _ (hclear assignment.language)
  obtain ⟨root, m, hl⟩ := hclear'.tidy.exists_launched hclear'.serves
  have hreply : d.scheduler.workshop.machine.nextReply = { status := .code 1 } := by
    rw [Machine.nextReply, hreplies]
    rfl
  rw [hreply] at hl
  obtain ⟨hfail, hstate, hsame, -⟩ := ht'.failed _ (.exited hl rfl)
  exact ⟨values, d, _, r, r', rfl, rfl, ht, ht', hnames, hreturned ▸ hresult, hglobals,
    ht.succeeds_iff.1 ⟨_, hresult⟩, hfail, hsame, hstate⟩

end Scheduler
end Polyglot
