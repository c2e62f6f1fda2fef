import Polyglot.Proofs.World.Scratch
import Polyglot.Proofs.World.Writing

/-!
# The workshop

What the system and the guest do to a unit. `Prepared` says that its source can be put
where its process finds it, with no result there, and `Unprepared` for which cause it
cannot; one of the two holds, and persisting the unit goes by it. `Launched` says that the
process has run. The reply of the process tells what is read as the result of the unit.
-/
namespace Polyglot

theorem Outcome.cases_result {σ ε α : Type} (o : Outcome σ ε α) :
    (∃ s a, o = .done s a) ∨ ∃ s e, o = .failed s e := by
  cases o with
  | mk s r =>
    cases r with
    | ok a => exact .inl ⟨s, a, rfl⟩
    | error e => exact .inr ⟨s, e, rfl⟩

def Machine.SameButFiles (m m' : Machine) : Prop := ∃ fs, m' = { m with files := fs }

namespace Workshop
variable {w w' : Workshop} {u : GuestUnit} {root root' path : Text} {fs fs' : Files}
  {err err' : RuntimeError}

inductive Housed (w : Workshop) : Text → Files → Prop
  | found (hr : w.scratch.ready = true) : Housed w w.scratch.root w.machine.files
  | made {root : Text} {fs : Files} (hr : w.scratch.ready = false)
      (hm : w.machine.files.makeDirs w.scratch.root = .ok fs)
      (hc : fs.canonical w.scratch.root = .ok root) : Housed w root fs

/-- A stale result of the unit has been removed, its source is written, and the files
are `fs`. -/
inductive Prepared (w : Workshop) (u : GuestUnit) (root : Text) (fs : Files) : Prop
  | written {housed cleared : Files} (hh : w.Housed root housed)
      (hc : housed.Cleared cleared (Path.join root u.resultName))
      (hw : cleared.write (Path.join root u.sourceName) (Text.Utf8.encode u.source) = .ok fs)

/-- What keeps the unit from being prepared, and the error that tells of it. -/
inductive Unprepared (w : Workshop) (u : GuestUnit) : RuntimeError → Prop
  | unmade {e : IoError} (hr : w.scratch.ready = false)
      (hm : w.machine.files.makeDirs w.scratch.root = .error e) :
      Unprepared w u (.persist w.scratch.root e.message)
  | unresolved {fs : Files} {e : IoError} (hr : w.scratch.ready = false)
      (hm : w.machine.files.makeDirs w.scratch.root = .ok fs)
      (hc : fs.canonical w.scratch.root = .error e) :
      Unprepared w u (.persist w.scratch.root e.message)
  | uncleared {root : Text} {fs : Files} {e : IoError} (hh : w.Housed root fs)
      (hr : fs.remove (Path.join root u.resultName) = .error e) (he : e ≠ .notFound) :
      Unprepared w u (.persist (Path.join root u.resultName) e.message)
  | unwritten {root : Text} {housed cleared : Files} {e : IoError} (hh : w.Housed root housed)
      (hc : housed.Cleared cleared (Path.join root u.resultName))
      (hw : cleared.write (Path.join root u.sourceName) (Text.Utf8.encode u.source) = .error e) :
      Unprepared w u (.persist (Path.join root u.sourceName) e.message)

theorem prepared_or_unprepared (w : Workshop) (u : GuestUnit) :
    (∃ root fs, w.Prepared u root fs) ∨ ∃ err, w.Unprepared u err := by
  have hhoused : (∃ root fs, w.Housed root fs) ∨ ∃ err, w.Unprepared u err := by
    cases hr : w.scratch.ready with
    | true => exact .inl ⟨_, _, .found hr⟩
    | false =>
      cases hm : w.machine.files.makeDirs w.scratch.root with
      | error e => exact .inr ⟨_, .unmade hr hm⟩
      | ok fs =>
        cases hc : fs.canonical w.scratch.root with
        | error e => exact .inr ⟨_, .unresolved hr hm hc⟩
        | ok root => exact .inl ⟨root, fs, .made hr hm hc⟩
  obtain ⟨root, fs, hh⟩ | h := hhoused
  · have hcleared : (∃ g, fs.Cleared g (Path.join root u.resultName)) ∨
        ∃ err, w.Unprepared u err := by
      cases hr : fs.remove (Path.join root u.resultName) with
      | ok g => exact .inl ⟨g, .inl hr⟩
      | error e =>
        by_cases he : e = .notFound
        · exact .inl ⟨fs, .inr ⟨he ▸ hr, rfl⟩⟩
        · exact .inr ⟨_, .uncleared hh hr he⟩
    obtain ⟨g, hc⟩ | h := hcleared
    · cases hw : g.write (Path.join root u.sourceName) (Text.Utf8.encode u.source) with
      | ok g' => exact .inl ⟨root, g', .written hh hc hw⟩
      | error e => exact .inr ⟨_, .unwritten hh hc hw⟩
    · exact .inr h
  · exact .inr h

theorem Housed.ensure (h : w.Housed root fs) : ∃ w', w.ensure = .done w' () ∧
    w'.scratch = ⟨root, true⟩ ∧ w'.machine = (w.setFiles fs).machine := by
  cases h with
  | found hr => exact ⟨w, by rw [Workshop.ensure, if_pos hr], by rw [← hr], rfl⟩
  | made hr hm hc =>
    refine ⟨w.settle fs root, ?_, rfl, rfl⟩
    simp only [Workshop.ensure, hr, hm, hc, Bool.false_eq_true, if_false]

theorem clearResult_of_cleared {g : Files}
    (h : Files.Cleared w.machine.files g (w.scratch.resultPath u)) :
    ∃ c, w.clearResult u = .done { w.setFiles g with chronicle := c } () ∧
      c.entries = w.chronicle.entries := by
  simp only [clearResult]
  obtain hr | ⟨hr, rfl⟩ := h
  · simp only [hr]
    exact ⟨_, rfl, Chronicle.entries_say _ _⟩
  · simp only [hr]
    exact ⟨w.chronicle, rfl, rfl⟩

theorem Housed.persist {cleared : Files} (hh : w.Housed root fs)
    (hc : fs.Cleared cleared (Path.join root u.resultName)) :
    ∃ w' : Workshop, w.persist u = w'.writeSource u ∧ w'.scratch = ⟨root, true⟩ ∧
      w'.machine = (w.setFiles cleared).machine := by
  obtain ⟨w₁, hensure, hs, hm⟩ := hh.ensure
  have hfiles : w₁.machine.files = fs := congrArg Machine.files hm
  have hresult : w₁.scratch.resultPath u = Path.join root u.resultName := by rw [hs]; rfl
  rw [← hfiles, ← hresult] at hc
  obtain ⟨c, hclear, -⟩ := clearResult_of_cleared hc
  refine ⟨{ w₁.setFiles cleared with chronicle := c }, ?_, hs, ?_⟩
  · rw [Workshop.persist, hensure, Outcome.andThen_done, hclear, Outcome.andThen_done]
  · simp only [setFiles, hm]

theorem Prepared.persist (h : w.Prepared u root fs) :
    ∃ w', w.persist u = .done w' (Path.join root u.sourceName) ∧ w'.scratch = ⟨root, true⟩ ∧
      w'.machine = (w.setFiles fs).machine := by
  obtain ⟨hh, hc, hw⟩ := h
  obtain ⟨w₁, hp, hs, hm⟩ := hh.persist hc
  have hsource : w₁.scratch.sourcePath u = Path.join root u.sourceName := by rw [hs]; rfl
  refine ⟨w₁.setFiles fs, ?_, hs, by simp only [setFiles, hm]⟩
  rw [hp]
  simp only [writeSource, hsource, hm, setFiles, hw]

theorem Unprepared.persist (h : w.Unprepared u err) :
    ∃ w', w.persist u = .failed w' err ∧ w.machine.SameButFiles w'.machine := by
  cases h with
  | unmade hr hm =>
    refine ⟨w, ?_, w.machine.files, rfl⟩
    simp only [Workshop.persist, Workshop.ensure, hr, hm, Bool.false_eq_true, if_false]
    rfl
  | @unresolved fs e hr hm hc =>
    refine ⟨w.setFiles fs, ?_, fs, rfl⟩
    simp only [Workshop.persist, Workshop.ensure, hr, hm, hc, Bool.false_eq_true, if_false]
    rfl
  | @uncleared root fs e hh hr he =>
    obtain ⟨w₁, hensure, hs, hm⟩ := hh.ensure
    refine ⟨w₁, ?_, fs, hm⟩
    have hresult : w₁.scratch.resultPath u = Path.join root u.resultName := by rw [hs]; rfl
    rw [Workshop.persist, hensure, Outcome.andThen_done]
    simp only [clearResult, hresult, hm, setFiles, hr]
    rfl
  | @unwritten root housed cleared e hh hc hw =>
    obtain ⟨w₁, hp, hs, hm⟩ := hh.persist hc
    have hsource : w₁.scratch.sourcePath u = Path.join root u.sourceName := by rw [hs]; rfl
    refine ⟨w₁, ?_, cleared, hm⟩
    rw [hp]
    simp only [writeSource, hsource, hm, setFiles, hw]

theorem persist_machine (w : Workshop) (u : GuestUnit) :
    w.machine.SameButFiles (w.persist u).state.machine := by
  obtain ⟨root, fs, h⟩ | ⟨err, h⟩ := w.prepared_or_unprepared u
  · obtain ⟨w', hp, -, hm⟩ := h.persist
    rw [hp]
    exact ⟨fs, hm⟩
  · obtain ⟨w', hp, hm⟩ := h.persist
    rw [hp]
    exact hm

theorem Prepared.unique (h : w.Prepared u root fs) (k : w.Prepared u root' fs') :
    root' = root ∧ fs' = fs := by
  obtain ⟨w₁, hp, hs, hm⟩ := h.persist
  obtain ⟨w₂, hp', hs', hm'⟩ := k.persist
  obtain rfl : w₂ = w₁ := congrArg Outcome.state (hp'.symm.trans hp)
  rw [hs] at hs'
  rw [hm] at hm'
  exact ⟨(congrArg Scratch.root hs').symm, (congrArg Machine.files hm').symm⟩

theorem Unprepared.unique (h : w.Unprepared u err) (k : w.Unprepared u err') : err' = err := by
  obtain ⟨w₁, hp, -⟩ := h.persist
  obtain ⟨w₂, hp', -⟩ := k.persist
  exact Except.error.inj (congrArg Outcome.result (hp'.symm.trans hp))

theorem Prepared.not_unprepared (h : w.Prepared u root fs) : ¬ w.Unprepared u err := by
  intro k
  obtain ⟨w₁, hp, -⟩ := h.persist
  obtain ⟨w₂, hp', -⟩ := k.persist
  exact nomatch congrArg Outcome.result (hp'.symm.trans hp)

theorem Housed.unique {housed housed' : Files} (h : w.Housed root housed)
    (k : w.Housed root' housed') : root' = root ∧ housed' = housed := by
  obtain ⟨w₁, he, hs, hm⟩ := h.ensure
  obtain ⟨w₂, he', hs', hm'⟩ := k.ensure
  obtain rfl : w₂ = w₁ := congrArg Outcome.state (he'.symm.trans he)
  rw [hs] at hs'
  rw [hm] at hm'
  exact ⟨(congrArg Scratch.root hs').symm, (congrArg Machine.files hm').symm⟩

theorem Prepared.keeps {housed : Files} (hh : w.Housed root housed) (h : w.Prepared u root fs) :
    Files.Keeps housed fs := by
  obtain ⟨hh', hc, hw⟩ := h
  obtain ⟨-, rfl⟩ := hh.unique hh'
  exact hc.keeps.trans (Files.keeps_of_write hw)

theorem Prepared.at?_eq {housed : Files} (hh : w.Housed root housed) (h : w.Prepared u root fs)
    {n : Text} (hs : n ≠ u.sourceName) (hr : n ≠ u.resultName) (l : Location) :
    fs.at? (l ++ [n]) = housed.at? (l ++ [n]) := by
  have hne : ∀ {fs : Files} {m : Text} {l' : Location}, Path.IsName m → n ≠ m →
      fs.locate (Path.join root m) = .ok l' → l ++ [n] ≠ l' := by
    rintro fs m l' hm hne hl he
    obtain ⟨here, rfl⟩ := Files.exists_of_locate_join hm hl
    exact hne (List.append_inj_right' he rfl |> List.singleton_inj.1)
  obtain ⟨hh', hc, hw⟩ := h
  obtain ⟨-, rfl⟩ := hh.unique hh'
  obtain ⟨l', hl', hd', rfl⟩ := Files.exists_of_write hw
  rw [Files.at?_put hd', if_neg (hne u.isName_source.1 hs hl')]
  obtain hremove | ⟨-, rfl⟩ := hc
  · obtain ⟨l'', content, executable, hl, ha, rfl⟩ := Files.exists_of_remove hremove
    have hnil : l'' ≠ [] := Files.ne_nil_of_at? (by rw [ha]; nofun)
    rw [Files.at?_erase hnil, if_neg (hne u.isName_result.1 hr hl)]
  · rfl

theorem prepared_of_persist (h : w.persist u = .done w' path) : ∃ root fs, w.Prepared u root fs ∧
    path = Path.join root u.sourceName ∧ w'.scratch = ⟨root, true⟩ ∧
      w'.machine = (w.setFiles fs).machine := by
  obtain ⟨root, fs, hp⟩ | ⟨err, hp⟩ := w.prepared_or_unprepared u
  · obtain ⟨w₁, h₁, hs, hm⟩ := hp.persist
    rw [h] at h₁
    cases h₁
    exact ⟨root, fs, hp, rfl, hs, hm⟩
  · obtain ⟨w₁, h₁, -⟩ := hp.persist
    exact nomatch congrArg Outcome.result (h.symm.trans h₁)

theorem apart_names (u : GuestUnit) (root : Text) :
    Files.Apart (Path.join root u.sourceName) (Path.join root u.resultName) := by
  apply Files.apart_join u.isName_source.1 u.isName_result.1
  intro he
  rw [GuestUnit.sourceName, GuestUnit.resultName, List.append_assoc] at he
  have hrest := List.append_cancel_left he
  cases hl : u.language <;> rw [hl] at hrest <;> exact absurd hrest (by decide)

theorem Prepared.read_source (h : w.Prepared u root fs) :
    fs.read (Path.join root u.sourceName) = .ok (Text.Utf8.encode u.source) := by
  obtain ⟨-, -, hw⟩ := h
  exact Files.read_of_write hw

theorem Prepared.locate_result (h : w.Prepared u root fs) :
    ∃ l, fs.locate (Path.join root u.resultName) = .ok l ∧ fs.at? l = none := by
  obtain ⟨-, hc, hw⟩ := h
  have hn := u.isName_result.1
  have hne : Path.join root u.resultName ≠ [] := by
    obtain ⟨start, hs⟩ := Path.exists_join root
    rw [hs _ hn]
    exact List.append_ne_nil_of_right_ne_nil _ hn.ne_nil
  obtain ⟨l, hl, -, -⟩ := Files.exists_of_write hw
  obtain ⟨here, -, hloc⟩ :=
    Files.locate_sibling u.isName_source.1 hn hl (hc.pathFault? hne)
  have hloc' := (Files.keeps_of_write hw).locate hloc
  exact ⟨_, hloc', (hc.absent.of_write hw (apart_names u root)) _ hloc'⟩

end Workshop

namespace Reply

def printed (r : Reply) : Text := (Workshop.chunksOf r.output).flatten

/-- What the unit's result is, by what the reply leaves in the result file. -/
def answer (r : Reply) (u : GuestUnit) (path : Text) : Except RuntimeError Globals :=
  match r.result with
  | none => .error (.missingResult u.hash path IoError.notFound.message)
  | some content =>
    match Text.Utf8.decode? content with
    | none => .error (.missingResult u.hash path IoError.notUtf8.message)
    | some t =>
      match Globals.read? t with
      | none => .error (.invalidResult u.hash path Value.fault)
      | some values => .ok values

/-- The values that a process gives back: it has ended well, and its result file is the
text of a flat object. -/
def values? (r : Reply) : Option Globals :=
  if r.status.succeeded then (r.result.bind Text.Utf8.decode?).bind Globals.read? else none

theorem values?_default : ({} : Reply).values? = some Catalog.empty := rfl

theorem values?_eq_some {r : Reply} {values : Globals} (u : GuestUnit) (path : Text) :
    r.values? = some values ↔ r.status.succeeded = true ∧ r.answer u path = .ok values := by
  unfold values? answer
  cases r.status.succeeded with
  | false => simp
  | true =>
    cases r.result with
    | none => simp
    | some content =>
      cases hd : Text.Utf8.decode? content with
      | none => simp [hd]
      | some t => cases hg : Globals.read? t <;> simp [hd, hg]

end Reply

namespace Machine

theorem exists_of_launch {m m' : Machine} {program script : Text} {args : List Text}
    {dir : Option Text} {r : Reply} (h : m.launch program args script dir = .ok (r, m')) :
    r = m.nextReply ∧ ∃ d, m' = m.afterLaunch d script args := by
  simp only [launch] at h
  split at h
  · cases h
  · cases hd : m.enterDir dir with
    | error e => rw [hd] at h; cases h
    | ok d =>
      simp only [hd] at h
      split at h
      · cases h
      · split at h
        · cases h
        · cases h
          exact ⟨rfl, d, rfl⟩

end Machine

namespace Workshop
variable {w w' : Workshop} {u : GuestUnit} {root : Text} {fs : Files}

theorem Prepared.readText (h : w.Prepared u root fs) (result : Option Text.Utf8.Bytes) :
    (Machine.writeResult fs (Path.join root u.sourceName) result).readText
        (Path.join root u.resultName) =
      result.elim (.error .notFound) fun content =>
        (Text.Utf8.decode? content).elim (.error .notUtf8) .ok := by
  obtain ⟨l, hl, ha⟩ := h.locate_result
  cases result with
  | none => simp only [Machine.writeResult, Files.readText, Files.read, Files.entry?, hl, ha,
      Option.elim]
  | some content =>
    have hpath : Machine.resultOf (Path.join root u.sourceName) = Path.join root u.resultName :=
      Machine.resultOf_sourcePath ⟨root, true⟩ u
    have hd : fs.at? l ≠ some .dir := by
      rw [ha]
      exact (Option.some_ne_none _).symm
    have hw : fs.write (Path.join root u.resultName) content = .ok (fs.put l content) := by
      rw [Files.write, Files.target_of_locate hl (Files.getLast?_join u.isName_result.1) hd]
      rfl
    simp only [Machine.writeResult, hpath, hw, Files.readText, Files.read_of_write hw,
      Option.elim]
    cases Text.Utf8.decode? content <;> simp only

theorem Prepared.readResult (h : w.Prepared u root fs) {r : Reply}
    (hs : w'.scratch = ⟨root, true⟩)
    (hf : w'.machine.files = Machine.writeResult fs (Path.join root u.sourceName) r.result) :
    w'.readResult u = r.answer u (Path.join root u.resultName) := by
  have hpath : w'.scratch.resultPath u = Path.join root u.resultName := by rw [hs]; rfl
  rw [Workshop.readResult, hpath, hf, h.readText, Reply.answer]
  cases r.result with
  | none => rfl
  | some content =>
    dsimp only [Option.elim]
    cases Text.Utf8.decode? content with
    | none => rfl
    | some t =>
      dsimp only
      rw [parseResult]
      cases Globals.read? t <;> rfl

/-- The unit is prepared in `root` and its process launched, with this reply and on a
machine that is `m` afterwards. -/
structure Launched (e : Engine) (u : GuestUnit) (w : Workshop) (root : Text) (r : Reply)
    (m : Machine) : Prop where
  launched : ∃ spec fs, e.specFor? u.language = some spec ∧ w.Prepared u root fs ∧
    (w.setFiles fs).machine.launch spec.interpreter spec.args (Path.join root u.sourceName)
      e.workingDir = .ok (r, m)

variable {e : Engine} {r : Reply} {m : Machine}

theorem Launched.exists_machine (h : Launched e u w root r m) :
    r = w.machine.nextReply ∧ ∃ spec fs dir, e.specFor? u.language = some spec ∧
      w.Prepared u root fs ∧ m = { w.machine with
        files := Machine.writeResult fs (Path.join root u.sourceName) r.result
        replies := w.machine.replies.drop 1
        spawns := w.machine.spawns ++
          [⟨"1", dir, spec.args ++ [Path.join root u.sourceName]⟩] } := by
  obtain ⟨spec, fs, hs, hp, hl⟩ := h.launched
  obtain ⟨rfl, dir, hm⟩ := Machine.exists_of_launch hl
  exact ⟨rfl, spec, fs, dir, hs, hp, hm⟩

theorem Launched.spawns (h : Launched e u w root r m) :
    ∃ x, m.spawns = w.machine.spawns ++ [x] := by
  obtain ⟨-, spec, fs, dir, -, -, rfl⟩ := h.exists_machine
  exact ⟨_, rfl⟩

theorem Launched.source (h : Launched e u w root r m) :
    m.files.read (Path.join root u.sourceName) = .ok (Text.Utf8.encode u.source) := by
  obtain ⟨-, spec, fs, dir, -, hp, rfl⟩ := h.exists_machine
  have hpath : Machine.resultOf (Path.join root u.sourceName) = Path.join root u.resultName :=
    Machine.resultOf_sourcePath ⟨root, true⟩ u
  cases r.result with
  | none => exact hp.read_source
  | some content =>
    simp only [Machine.writeResult, hpath]
    cases hw : fs.write (Path.join root u.resultName) content with
    | error e => exact hp.read_source
    | ok g =>
      apply Files.read_of_write_apart hp.read_source hw
      intro fs fs' l l' hl hl' he
      exact apart_names u root fs' fs l' l hl' hl he.symm

theorem Launched.readResult (h : Launched e u w root r w'.machine)
    (hs : w'.scratch = ⟨root, true⟩) :
    w'.readResult u = r.answer u (Path.join root u.resultName) := by
  obtain ⟨-, spec, fs, dir, -, hp, hm⟩ := h.exists_machine
  exact hp.readResult hs (congrArg Machine.files hm)

theorem pushChunks_same (w : Workshop) (unit : Text) (chunks : List Text) :
    (w.pushChunks unit chunks).scratch = w.scratch ∧
      (w.pushChunks unit chunks).machine = w.machine := by
  unfold pushChunks
  induction chunks generalizing w with
  | nil => exact ⟨rfl, rfl⟩
  | cons t r ih => exact ih (w.push (.stdout unit t))

theorem mentionErrors_same (w : Workshop) (u : GuestUnit) (errors : Text) :
    (w.mentionErrors u errors).scratch = w.scratch ∧
      (w.mentionErrors u errors).machine = w.machine := by
  unfold mentionErrors
  split <;> exact ⟨rfl, rfl⟩

theorem conclude_cases (w : Workshop) (u : GuestUnit) (r : Reply) :
    ∃ w', w'.scratch = w.scratch ∧ w'.machine = w.machine ∧
      w.conclude u r = if r.status.succeeded then .done w' r.printed
        else .failed w' (.exit u.hash r.status.describe (errorText r.errors)) := by
  obtain ⟨hs, hm⟩ := pushChunks_same w u.hash (chunksOf r.output)
  obtain ⟨hs', hm'⟩ :=
    mentionErrors_same (w.pushChunks u.hash (chunksOf r.output)) u (errorText r.errors)
  simp only [conclude]
  cases r.status.succeeded with
  | true => exact ⟨_, hs'.trans hs, hm'.trans hm, rfl⟩
  | false => exact ⟨_, hs, hm, rfl⟩

theorem launch_cases (w : Workshop) (spec : TagSpec) (dir : Option Text) (script : Text)
    (u : GuestUnit) :
    (∃ w' err, w'.machine = w.machine ∧
      w.machine.launch spec.interpreter spec.args script dir = .error err ∧
      w.launch spec dir script u = .failed w' (.launch spec.interpreter u.hash err.message)) ∨
    ∃ w' r, w'.scratch = w.scratch ∧
      w.machine.launch spec.interpreter spec.args script dir = .ok (r, w'.machine) ∧
      w.launch spec dir script u = if r.status.succeeded then .done w' r.printed
        else .failed w' (.exit u.hash r.status.describe (errorText r.errors)) := by
  simp only [launch]
  cases hl : w.machine.launch spec.interpreter spec.args script dir with
  | error err =>
    left
    refine ⟨w.say .debug "spawn" [("program", spec.interpreter), ("script", script)], err, rfl,
      rfl, ?_⟩
    simp only [say, hl]
  | ok done =>
    obtain ⟨r, m⟩ := done
    obtain ⟨w', hs, hm, hc⟩ := conclude_cases
      { w.say .debug "spawn" [("program", spec.interpreter), ("script", script)] with machine := m }
      u r
    exact .inr ⟨w', r, hs, by rw [hm], by simp only [say, hl]; exact hc⟩

end Workshop

end Polyglot
