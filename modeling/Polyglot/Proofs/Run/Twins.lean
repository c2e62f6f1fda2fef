import Polyglot.Proofs.Run.Dispatch
import Polyglot.Proofs.Run.Tandem
import Polyglot.Proofs.World.Leftovers

/-!
# Twin workshops

A unit's result is cleared before its process runs, so what lies in the scratch directory
beforehand is never read. A unit that goes through two workshops whose files differ there
alone does the same in both, if its program does not lie there as well; only the text of a
failed launch may differ, where the process is to start at a name in the directory.
-/
namespace Polyglot
open Outcome (Tandem)

namespace Files
variable {fs : Files} {here : Location}

/-- The process is told to start at a name in the directory. -/
def StartsIn (fs : Files) (here : Location) (dir : Option Text) : Prop :=
  ∃ d, dir = some d ∧ fs.Strays here d

/-- The program is a path that leads to a name in the directory, as seen from where the
process starts. -/
def LaunchesFrom (fs : Files) (here : Location) (dir : Option Text) (program : Text) : Prop :=
  ∃ d, Machine.enterDir ⟨fs, [], [], []⟩ dir = .ok d ∧ program.contains '/' = true ∧
    Files.Strays { fs with cwd := d } here program

end Files

namespace Machine
variable {here : Location} {made fs : Files} {m : Machine} {dir : Option Text} {program : Text}

theorem enterDir_cases (h : Files.SameBut here m.files fs) (dir : Option Text) :
    enterDir { m with files := fs } dir = m.enterDir dir ∨
      m.files.StartsIn here dir ∧ ∃ e e', m.enterDir dir = .error e ∧
        enterDir { m with files := fs } dir = .error e' := by
  cases dir with
  | none => exact .inl (congrArg _ h.cwd)
  | some d =>
    by_cases hs : m.files.Strays here d
    · have herr : ∀ m' : Machine, m'.files.entry? d ≠ .ok .dir →
          ∃ e, m'.enterDir (some d) = .error e := by
        intro m' hd
        simp only [enterDir]
        split
        · exact ⟨_, rfl⟩
        · exact ⟨_, rfl⟩
        · next he => exact absurd he hd
      obtain ⟨e, he⟩ := herr m ((Files.SameBut.refl here _).entry?_ne_dir hs)
      obtain ⟨e', he'⟩ := herr { m with files := fs } (h.entry?_ne_dir hs)
      exact .inr ⟨⟨d, rfl, hs⟩, e, e', he, he'⟩
    · left
      simp only [enterDir, h.entry?_eq hs, h.canonical_eq hs]

theorem enterDir_of_keeps (h : Files.Keeps made m.files) {d : Text}
    (hd : m.enterDir dir = .ok d) : enterDir ⟨made, [], [], []⟩ dir = .ok d := by
  cases dir with
  | none => exact (congrArg _ h.cwd.symm).trans hd
  | some t =>
    simp only [enterDir] at hd ⊢
    split at hd
    · cases hd
    · cases hd
    · next he =>
      obtain ⟨l, hl, ha⟩ := Files.exists_of_entry he
      have hl' := h.symm.locate hl
      have ha' := (h.dirs l).1 ha
      simp only [Files.canonical, hl, ha] at hd
      simp only [Files.at?_of_locate hl' ha', Files.canonical, hl', ha']
      exact hd

theorem startsIn_of_keeps (h : Files.Keeps made m.files) (hs : m.files.StartsIn here dir) :
    made.StartsIn here dir := by
  obtain ⟨d, hd, hp⟩ := hs
  exact ⟨d, hd, h.strays_iff.1 hp⟩

theorem launchFault?_eq (h : Files.SameBut here m.files fs) (hk : Files.Keeps made m.files)
    {d : Text} (hd : m.enterDir dir = .ok d) (hp : ¬ made.LaunchesFrom here dir program) :
    launchFault? { m with files := fs } d program = m.launchFault? d program := by
  unfold launchFault?
  by_cases hc : program.contains '/' = true
  · have hs : ¬ Files.Strays { m.files with cwd := d } here program := by
      intro hs
      have hk' : Files.Keeps { made with cwd := d } { m.files with cwd := d } := ⟨rfl, hk.dirs⟩
      exact hp ⟨d, enterDir_of_keeps hk hd, hc, hk'.strays_iff.1 hs⟩
    simp only [hc, (h.setCwd d).entry?_eq hs]
  · simp only [if_neg hc]

theorem launch_twin (h : Files.SameBut here m.files fs) (hk : Files.Keeps made m.files)
    (hp : ¬ made.LaunchesFrom here dir program) (args : List Text) (script : Text) :
    (∃ d, m.launch program args script dir = .ok (m.nextReply, m.afterLaunch d script args) ∧
      launch { m with files := fs } program args script dir =
        .ok (m.nextReply, afterLaunch { m with files := fs } d script args)) ∨
    ∃ e e', m.launch program args script dir = .error e ∧
      launch { m with files := fs } program args script dir = .error e' ∧
      (e' = e ∨ made.StartsIn here dir) := by
  simp only [launch]
  split
  · exact .inr ⟨_, _, rfl, rfl, .inl rfl⟩
  obtain heq | ⟨hs, e, e', he, he'⟩ := enterDir_cases h dir
  · rw [heq]
    cases hd : m.enterDir dir with
    | error e => exact .inr ⟨e, e, rfl, rfl, .inl rfl⟩
    | ok d =>
      simp only [launchFault?_eq h hk hd hp]
      cases m.launchFault? d program with
      | some e => exact .inr ⟨e, e, rfl, rfl, .inl rfl⟩
      | none =>
        dsimp only
        split
        · exact .inr ⟨_, _, rfl, rfl, .inl rfl⟩
        · exact .inl ⟨d, rfl, rfl⟩
  · rw [he, he']
    exact .inr ⟨e, e', rfl, rfl, .inr (startsIn_of_keeps hk hs)⟩

end Machine

namespace Workshop

/-- Two workshops whose files differ in the scratch directory alone, which is there. -/
structure Twin (here : Location) (made : Files) (w w' : Workshop) : Prop where
  ready : w.scratch = ⟨here.path, true⟩
  plain : here.Plain
  scratch : w'.scratch = w.scratch
  machine : w'.machine = { w.machine with files := w'.machine.files }
  files : Files.SameBut here w.machine.files w'.machine.files
  keeps : Files.Keeps made w.machine.files
  entries : w'.chronicle.entries = w.chronicle.entries

/-- The same before the first unit, when the directory may still have to be made. -/
inductive TwinOnceMade (root : Text) (here : Location) (made : Files) (w w' : Workshop) : Prop
  | fresh (hs : w.scratch = .ofRoot root) (hs' : w'.scratch = .ofRoot root)
      (hm : w'.machine = { w.machine with files := w'.machine.files })
      (hf : Files.SameBesides root here w.machine.files w'.machine.files made)
      (he : w'.chronicle.entries = w.chronicle.entries)
  | twin (h : Twin here made w w')

variable {root : Text} {here : Location} {made : Files} {w w' : Workshop} {u : GuestUnit}

theorem Twin.tell (h : Twin here made w w') {c c' : Chronicle} (hc : c'.entries = c.entries) :
    Twin here made { w with chronicle := c } { w' with chronicle := c' } :=
  ⟨h.ready, h.plain, h.scratch, h.machine, h.files, h.keeps, hc⟩

theorem Twin.setFiles (h : Twin here made w w') {fs fs' : Files} (hf : Files.SameBut here fs fs')
    (hk : Files.Keeps w.machine.files fs) : Twin here made (w.setFiles fs) (w'.setFiles fs') where
  ready := h.ready
  plain := h.plain
  scratch := h.scratch
  machine := by
    simp only [Workshop.setFiles]
    rw [h.machine]
  files := hf
  keeps := h.keeps.trans hk
  entries := h.entries

theorem TwinOnceMade.entries (h : TwinOnceMade root here made w w') :
    w'.chronicle.entries = w.chronicle.entries := by
  cases h with
  | fresh hs hs' hm hf he => exact he
  | twin h => exact h.entries

theorem TwinOnceMade.spawns (h : TwinOnceMade root here made w w') :
    w'.machine.spawns = w.machine.spawns := by
  cases h with
  | fresh hs hs' hm hf he => rw [hm]
  | twin h => rw [h.machine]

theorem TwinOnceMade.tell (h : TwinOnceMade root here made w w') {c c' : Chronicle}
    (hc : c'.entries = c.entries) :
    TwinOnceMade root here made { w with chronicle := c } { w' with chronicle := c' } := by
  cases h with
  | fresh hs hs' hm hf he => exact .fresh hs hs' hm hf hc
  | twin h => exact .twin (h.tell hc)

theorem ensure_houses (hs : w.scratch = .ofRoot root) (h : w.machine.files.Houses root here made) :
    w.ensure = .done (w.settle made here.path) () := by
  simp only [Workshop.ensure, hs, Scratch.ofRoot, h.makes, h.canonical]
  rfl

theorem TwinOnceMade.ensure (h : TwinOnceMade root here made w w') :
    ∃ v v', w.ensure = .done v () ∧ w'.ensure = .done v' () ∧ Twin here made v v' := by
  cases h with
  | fresh hs hs' hm hf he =>
    obtain ⟨hh, made', hh', hb⟩ := hf
    refine ⟨_, _, ensure_houses hs hh, ensure_houses hs' hh', ?_⟩
    exact {
      ready := rfl
      plain := Files.plain_of_locate hh.located
      scratch := rfl
      machine := by
        simp only [settle, Workshop.say, setScratch, Workshop.setFiles]
        rw [hm]
      files := hb
      keeps := Files.Keeps.refl made
      entries := by
        simp only [settle, Workshop.say, setScratch, Workshop.setFiles, Chronicle.entries_say]
        exact he }
  | twin h =>
    have hready : w.scratch.ready = true := by rw [h.ready]
    refine ⟨w, w', ?_, ?_, h⟩
    · rw [Workshop.ensure, if_pos hready]
    · rw [Workshop.ensure, h.scratch, if_pos hready]

def Clear (u : GuestUnit) (w w' : Workshop) : Prop :=
  Files.Agree (w.scratch.resultPath u) w.machine.files w'.machine.files

def Cleared (here : Location) (made : Files) (u : GuestUnit) (w w' : Workshop) : Prop :=
  Twin here made w w' ∧ Clear u w w'

variable {E : RuntimeError → RuntimeError → Prop}

theorem Twin.resultPath_eq (h : Twin here made w w') (u : GuestUnit) :
    w.scratch.resultPath u = Path.join here.path u.resultName := by
  rw [h.ready]
  rfl

theorem Twin.sourcePath_eq (h : Twin here made w w') (u : GuestUnit) :
    w.scratch.sourcePath u = Path.join here.path u.sourceName := by
  rw [h.ready]
  rfl

theorem Twin.clearResult (h : Twin here made w w') (he : ∀ e, E e e) (u : GuestUnit) :
    Tandem (Cleared here made u) (Twin here made) E (w.clearResult u) (w'.clearResult u) := by
  obtain ⟨e, hne, hr, hr'⟩ | ⟨g, g', hc, hc', hb, ha⟩ :=
    h.files.clear_join h.plain u.isName_result.1 (h.resultPath_eq u)
  · have hfail : ∀ {v : Workshop}, v.scratch = w.scratch →
        v.machine.files.remove (w.scratch.resultPath u) = .error e →
        v.clearResult u = .failed v (.persist (w.scratch.resultPath u) e.message) := by
      intro v hs hv
      simp only [Workshop.clearResult, hs, hv]
    rw [hfail rfl hr, hfail h.scratch hr']
    exact .failed h (he _)
  · obtain ⟨c, hd, hce⟩ := clearResult_of_cleared hc
    obtain ⟨c', hd', hce'⟩ := clearResult_of_cleared (w := w') (h.scratch ▸ hc')
    rw [hd, hd']
    exact .done ⟨(h.setFiles hb hc.keeps).tell (hce'.trans (h.entries.trans hce.symm)), ha⟩

theorem Twin.writeSource (h : Twin here made w w') (hc : Clear u w w') (he : ∀ e, E e e) :
    Tandem (Cleared here made u) (Twin here made) E (w.writeSource u) (w'.writeSource u) := by
  obtain ⟨e, hw, hw'⟩ | ⟨g, g', hw, hw', hb, ha⟩ := h.files.write_join h.plain
    u.isName_source.1 (h.sourcePath_eq u) (Text.Utf8.encode u.source)
  · simp only [Workshop.writeSource, h.scratch, hw, hw']
    exact .failed h (he _)
  · simp only [Workshop.writeSource, h.scratch, hw, hw']
    exact .done ⟨h.setFiles hb (Files.keeps_of_write hw), ha _ hc⟩

theorem TwinOnceMade.persist (h : TwinOnceMade root here made w w') (he : ∀ e, E e e)
    (u : GuestUnit) :
    Tandem (Cleared here made u) (Twin here made) E (w.persist u) (w'.persist u) := by
  obtain ⟨v, v', hv, hv', ht⟩ := h.ensure
  rw [Workshop.persist, Workshop.persist, hv, hv', Outcome.andThen_done, Outcome.andThen_done]
  apply (ht.clearResult he u).andThen
  rintro x x' _ - ⟨hx, hc⟩
  exact hx.writeSource hc he

theorem Cleared.tell (h : Cleared here made u w w') {c c' : Chronicle}
    (hc : c'.entries = c.entries) :
    Cleared here made u { w with chronicle := c } { w' with chronicle := c' } :=
  ⟨h.1.tell hc, h.2⟩

theorem Cleared.say (h : Cleared here made u w w') (level : Level) (message : Text)
    (fields : List (Text × Text)) :
    Cleared here made u (w.say level message fields) (w'.say level message fields) := by
  apply h.tell
  rw [Chronicle.entries_say, Chronicle.entries_say, h.1.entries]

theorem Cleared.pushChunks (h : Cleared here made u w w') (unit : Text) (chunks : List Text) :
    Cleared here made u (w.pushChunks unit chunks) (w'.pushChunks unit chunks) := by
  induction chunks generalizing w w' with
  | nil => exact h
  | cons t r ih =>
    apply ih
    apply h.tell
    rw [Chronicle.entries_push, Chronicle.entries_push, h.1.entries]

theorem Cleared.readResult (h : Cleared here made u w w') : w'.readResult u = w.readResult u := by
  have ht := h.1.files.readText_join h.1.plain u.isName_result.1 (h.1.resultPath_eq u) h.2
  simp only [Workshop.readResult, h.1.scratch, ht]

theorem Cleared.afterLaunch (h : Cleared here made u w w') (dir : Text) (args : List Text) :
    Cleared here made u
      { w with machine := w.machine.afterLaunch dir (w.scratch.sourcePath u) args }
      { w' with machine := w'.machine.afterLaunch dir (w.scratch.sourcePath u) args } := by
  obtain ⟨ht, hc⟩ := h
  have hreply : w'.machine.nextReply = w.machine.nextReply := by
    rw [ht.machine]
    rfl
  have hmachine : ∀ fs : Files, { w'.machine.afterLaunch dir (w.scratch.sourcePath u) args with
      files := fs } =
        { w.machine.afterLaunch dir (w.scratch.sourcePath u) args with files := fs } := by
    intro fs
    rw [ht.machine]
    rfl
  obtain ⟨g, g', hg, hg', hb, hk, ha⟩ : ∃ g g',
      (w.machine.afterLaunch dir (w.scratch.sourcePath u) args).files = g ∧
      (w'.machine.afterLaunch dir (w.scratch.sourcePath u) args).files = g' ∧
      Files.SameBut here g g' ∧ Files.Keeps w.machine.files g ∧
      Files.Agree (w.scratch.resultPath u) g g' := by
    simp only [Machine.afterLaunch, hreply]
    cases w.machine.nextReply.result with
    | none => exact ⟨_, _, rfl, rfl, ht.files, Files.Keeps.refl _, hc⟩
    | some content =>
      simp only [Machine.writeResult, Machine.resultOf_sourcePath]
      obtain ⟨e, hw, hw'⟩ | ⟨g, g', hw, hw', hb, ha⟩ := ht.files.write_join ht.plain
        u.isName_result.1 (ht.resultPath_eq u) content
      · simp only [hw, hw']
        exact ⟨_, _, rfl, rfl, ht.files, Files.Keeps.refl _, hc⟩
      · simp only [hw, hw']
        exact ⟨g, g', rfl, rfl, hb, Files.keeps_of_write hw, ha _ hc⟩
  refine ⟨⟨ht.ready, ht.plain, ht.scratch, ?_, ?_, ?_, ht.entries⟩, ?_⟩
  · exact hmachine _
  · change Files.SameBut here (w.machine.afterLaunch _ _ _).files
      (w'.machine.afterLaunch _ _ _).files
    rw [hg, hg']
    exact hb
  · change Files.Keeps made (w.machine.afterLaunch _ _ _).files
    rw [hg]
    exact ht.keeps.trans hk
  · change Files.Agree _ (w.machine.afterLaunch _ _ _).files (w'.machine.afterLaunch _ _ _).files
    rw [hg, hg']
    exact ha

theorem Cleared.conclude (h : Cleared here made u w w') (he : ∀ e, E e e) (r : Reply) :
    Tandem (Cleared here made u) (Twin here made) E (w.conclude u r) (w'.conclude u r) := by
  have hp := h.pushChunks u.hash (chunksOf r.output)
  simp only [Workshop.conclude]
  split
  · refine .done ?_
    unfold mentionErrors
    split
    · exact hp
    · exact hp.say _ _ _
  · exact .failed hp.1 (he _)

theorem Cleared.launch (h : Cleared here made u w w') (he : ∀ e, E e e) (spec : TagSpec)
    (dir : Option Text) {script : Text} (hs : script = w.scratch.sourcePath u)
    (hp : ¬ made.LaunchesFrom here dir spec.interpreter)
    (hl : made.StartsIn here dir → ∀ cause cause',
      E (.launch spec.interpreter u.hash cause) (.launch spec.interpreter u.hash cause')) :
    Tandem (Cleared here made u) (Twin here made) E (w.launch spec dir script u)
      (w'.launch spec dir script u) := by
  subst hs
  have hsay := h.say .debug "spawn"
    [("program", spec.interpreter), ("script", w.scratch.sourcePath u)]
  have hlaunch := Machine.launch_twin h.1.files h.1.keeps hp spec.args (w.scratch.sourcePath u)
  rw [← h.1.machine] at hlaunch
  simp only [Workshop.launch, Workshop.say]
  obtain ⟨d, hm, hm'⟩ | ⟨e, e', hm, hm', hsame⟩ := hlaunch
  · rw [hm, hm']
    exact (hsay.afterLaunch d spec.args).conclude he _
  · rw [hm, hm']
    refine .failed hsay.1 ?_
    obtain rfl | hstray := hsame
    · exact he _
    · exact hl hstray _ _

end Workshop

/-- The two errors are the same, but if `P` is so the text of a failed launch may differ. -/
inductive RuntimeError.SameBut (P : Prop) : RuntimeError → RuntimeError → Prop
  | same (e : RuntimeError) : SameBut P e e
  | launch (h : P) (program unit cause cause' : Text) :
      SameBut P (.launch program unit cause) (.launch program unit cause')

namespace Passage
variable {root : Text} {here : Location} {made : Files} {w w' : Workshop} {u : GuestUnit}
  {p p' : Passage}

structure Paired (R : Workshop → Workshop → Prop) (p p' : Passage) : Prop where
  workshop : R p.workshop p'.workshop
  record : p'.record = p.record
  printed : p'.printed = p.printed

theorem Paired.advance (h : Paired (Workshop.Cleared here made u) p p') (next : UnitState) :
    Paired (Workshop.Cleared here made u) (p.advance next) (p'.advance next) := by
  refine ⟨?_, congrArg (UnitRecord.enter · next) h.record, h.printed⟩
  apply h.workshop.tell
  rw [Chronicle.entries_say, Chronicle.entries_say, h.workshop.1.entries]

theorem Paired.written (h : Paired (Workshop.Cleared here made u) p p') (path : Text) :
    Paired (Workshop.Cleared here made u) (p.written path) (p'.written path) := by
  have hpath : Paired (Workshop.Cleared here made u) (p.setPath path) (p'.setPath path) :=
    ⟨h.workshop, congrArg (fun r : UnitRecord => { r with path := some path }) h.record, h.printed⟩
  exact (hpath.advance .written).advance .running

theorem Paired.work {α : Type} {R Q S : Workshop → Workshop → Prop}
    {E : RuntimeError → RuntimeError → Prop} (h : Paired R p p')
    (step step' : Workshop → Workshop.Step α)
    (hs : Tandem Q S E (step p.workshop) (step' p'.workshop)) :
    Tandem (Paired Q) (Paired S) E (p.work step) (p'.work step') :=
  hs.mapState (fun _ _ hw => ⟨hw, h.record, h.printed⟩) fun _ _ hw => ⟨hw, h.record, h.printed⟩

theorem Paired.collect {E : RuntimeError → RuntimeError → Prop} (he : ∀ e, E e e)
    (h : Paired (Workshop.Cleared here made u) p p') :
    Tandem (Paired (Workshop.Twin here made)) (Paired (Workshop.Twin here made)) E
      (p.collect u) (p'.collect u) := by
  simp only [Passage.collect, h.workshop.readResult]
  cases p.workshop.readResult u with
  | ok values => exact .done ⟨(h.workshop.say _ _ _).1, h.record, h.printed⟩
  | error e => exact .failed ⟨h.workshop.1, h.record, h.printed⟩ (he e)

theorem Paired.runScript (h : Paired (Workshop.Cleared here made u) p p') (spec : TagSpec)
    (dir : Option Text) (hp : ¬ made.LaunchesFrom here dir spec.interpreter) {script : Text}
    (hs : script = p.workshop.scratch.sourcePath u) :
    Tandem (Paired (Workshop.Twin here made)) (Paired (Workshop.Twin here made))
      (RuntimeError.SameBut (made.StartsIn here dir)) (p.runScript spec dir u script)
      (p'.runScript spec dir u script) := by
  have hl := h.workshop.launch .same spec dir hs hp fun hstarts cause cause' =>
    RuntimeError.SameBut.launch hstarts spec.interpreter u.hash cause cause'
  refine (h.work (·.launch spec dir script u) _ hl).andThen fun q q' printed _ hq => ?_
  have hprinted : Paired (Workshop.Cleared here made u) (q.setPrinted printed)
      (q'.setPrinted printed) := ⟨hq.workshop, hq.record, rfl⟩
  exact hprinted.collect .same

theorem tandem_travel {e : Engine}
    (he : ∀ spec ∈ e.languages, ¬ made.LaunchesFrom here e.workingDir spec.interpreter)
    (h : Workshop.TwinOnceMade root here made w w') (u : GuestUnit) (r : UnitRecord) (t : Text) :
    Tandem (Paired (Workshop.TwinOnceMade root here made))
      (Paired (Workshop.TwinOnceMade root here made))
      (RuntimeError.SameBut (made.StartsIn here e.workingDir)) (travel ⟨w, r, t⟩ e u)
      (travel ⟨w', r, t⟩ e u) := by
  unfold travel
  cases hspec : e.specFor? u.language with
  | none => exact .failed ⟨h, rfl, rfl⟩ (.same _)
  | some spec =>
    have hprogram := he spec (List.mem_of_find?_eq_some hspec)
    have hstart : Paired (Workshop.TwinOnceMade root here made) ⟨w, r, t⟩ ⟨w', r, t⟩ :=
      ⟨h, rfl, rfl⟩
    have hpersist := hstart.work (·.persist u) (·.persist u)
      (h.persist (E := RuntimeError.SameBut (made.StartsIn here e.workingDir)) .same u)
    have htwin : ∀ q q', Paired (Workshop.Twin here made) q q' →
        Paired (Workshop.TwinOnceMade root here made) q q' :=
      fun _ _ hq => ⟨.twin hq.workshop, hq.record, hq.printed⟩
    refine Tandem.mono (hpersist.andThen fun q q' path hq hpair => ?_) htwin htwin fun _ _ => id
    have hpath : path = q.workshop.scratch.sourcePath u := by
      obtain ⟨v, a, hv⟩ | ⟨v, err, hv⟩ := (w.persist u).cases_result
      · simp only [work, hv] at hq
        cases hq
        obtain ⟨root, fs, -, hplace, hs, -⟩ := Workshop.prepared_of_persist hv
        change _ = v.scratch.sourcePath u
        rw [hs]
        exact hplace
      · simp only [work, hv] at hq
        cases hq
    exact (hpair.written path).runScript spec e.workingDir hprogram hpath

end Passage

end Polyglot
