import Mathlib.Data.List.Chain
import Polyglot.Proofs.Run.Threading
import Polyglot.Proofs.Run.Workshop

/-!
# The passage of a unit

A dispatch takes its unit through the workshop: the source is persisted, its process
runs, and its result is read. `Passage.Fate` says how that ends by what the system and the
guest do: whether the files can be made, whether the program can be launched, and what the
reply of the process is. `Passage.Ends` adds the record and the output that go with it.
-/
namespace Polyglot

namespace UnitRecord

/-- The record began as pending, and each of its states may follow the one before. -/
def Advances (r : UnitRecord) : Prop :=
  r.states.head? = some .pending ∧ r.states.IsChain fun a b => a.canAdvance b = true

theorem Advances.enter {r : UnitRecord} (h : r.Advances) (next : UnitState)
    (hn : r.state.canAdvance next = true) : (r.enter next).Advances := by
  obtain ⟨hh, hc⟩ := h
  refine ⟨by rw [UnitRecord.enter, List.head?_append, hh]; rfl, ?_⟩
  apply hc.append (List.isChain_singleton next)
  rintro a ha b ⟨⟩
  rw [state, ha] at hn
  exact hn

theorem advances_ofUnit (u : GuestUnit) : (ofUnit u).Advances :=
  ⟨rfl, List.isChain_singleton _⟩

end UnitRecord

def UnitRecord.running (u : GuestUnit) (path : Text) : UnitRecord :=
  { ofUnit u with states := [.pending, .written, .running], path := some path }

theorem UnitRecord.advances_running (u : GuestUnit) (path : Text) : (running u path).Advances := by
  have h := (UnitRecord.advances_ofUnit u).enter .written rfl
  exact h.enter .running rfl

namespace Passage
open Workshop (Launched)

/-- How a unit ends: with an error for each stage that it can fail at, or with the answer
that its process leaves. -/
inductive Fate (e : Engine) (u : GuestUnit) (w : Workshop) : Except RuntimeError Globals → Prop
  | unequipped (hs : e.specFor? u.language = none) :
      Fate e u w (.error (.noInterpreter u.language.name))
  | unprepared {spec : TagSpec} {err : RuntimeError} (hs : e.specFor? u.language = some spec)
      (hp : w.Unprepared u err) : Fate e u w (.error err)
  | unlaunched {spec : TagSpec} {root : Text} {fs : Files} {err : IoError}
      (hs : e.specFor? u.language = some spec) (hp : w.Prepared u root fs)
      (hl : (w.setFiles fs).machine.launch spec.interpreter spec.args
        (Path.join root u.sourceName) e.workingDir = .error err) :
      Fate e u w (.error (.launch spec.interpreter u.hash err.message))
  | exited {root : Text} {r : Reply} {m : Machine} (hl : Launched e u w root r m)
      (hr : r.status.succeeded = false) :
      Fate e u w (.error (.exit u.hash r.status.describe (Workshop.errorText r.errors)))
  | answered {root : Text} {r : Reply} {m : Machine} (hl : Launched e u w root r m)
      (hr : r.status.succeeded = true) :
      Fate e u w (r.answer u (Path.join root u.resultName))

/-- The state and the result with which a passage ends. -/
inductive Ends (e : Engine) (u : GuestUnit) (w : Workshop) : Step Globals → Prop
  | unequipped (hs : e.specFor? u.language = none) :
      Ends e u w (.failed ⟨w, .ofUnit u, []⟩ (.noInterpreter u.language.name))
  | unprepared {spec : TagSpec} {w' : Workshop} {err : RuntimeError}
      (hs : e.specFor? u.language = some spec) (hp : w.Unprepared u err)
      (hm : w.machine.SameButFiles w'.machine) : Ends e u w (.failed ⟨w', .ofUnit u, []⟩ err)
  | unlaunched {spec : TagSpec} {w' : Workshop} {root : Text} {fs : Files} {err : IoError}
      (hs : e.specFor? u.language = some spec) (hp : w.Prepared u root fs)
      (hl : (w.setFiles fs).machine.launch spec.interpreter spec.args
        (Path.join root u.sourceName) e.workingDir = .error err)
      (hm : w'.machine = (w.setFiles fs).machine) :
      Ends e u w (.failed ⟨w', .running u (Path.join root u.sourceName), []⟩
        (.launch spec.interpreter u.hash err.message))
  | exited {w' : Workshop} {root : Text} {r : Reply} (hl : Launched e u w root r w'.machine)
      (hs : w'.scratch = ⟨root, true⟩) (hr : r.status.succeeded = false) :
      Ends e u w (.failed ⟨w', .running u (Path.join root u.sourceName), []⟩
        (.exit u.hash r.status.describe (Workshop.errorText r.errors)))
  | answered {w' : Workshop} {root : Text} {r : Reply} (hl : Launched e u w root r w'.machine)
      (hs : w'.scratch = ⟨root, true⟩) (hr : r.status.succeeded = true) :
      Ends e u w ⟨⟨w', .running u (Path.join root u.sourceName), r.printed⟩,
        r.answer u (Path.join root u.resultName)⟩

variable {e : Engine} {u : GuestUnit} {w : Workshop} {o : Step Globals}

theorem exists_collect (p : Passage) (u : GuestUnit) :
    ∃ w' : Workshop, w'.machine = p.workshop.machine ∧ w'.scratch = p.workshop.scratch ∧
      p.collect u = ⟨{ p with workshop := w' }, p.workshop.readResult u⟩ := by
  unfold collect
  cases p.workshop.readResult u with
  | ok values => exact ⟨(p.sayResult u values).workshop, rfl, rfl, rfl⟩
  | error err => exact ⟨p.workshop, rfl, rfl, rfl⟩

theorem ends_travel (e : Engine) (u : GuestUnit) (w : Workshop) :
    Ends e u w (travel ⟨w, .ofUnit u, []⟩ e u) := by
  cases hs : e.specFor? u.language with
  | none =>
    simp only [travel, hs]
    exact .unequipped hs
  | some spec =>
    simp only [travel, hs, work]
    obtain ⟨root, fs, hprep⟩ | ⟨err, hprep⟩ := w.prepared_or_unprepared u
    · obtain ⟨w₁, hp, hscratch, hmachine⟩ := hprep.persist
      rw [hp]
      -- The two advances of the record add to the chronicle and to nothing else.
      obtain ⟨w₂, hw₂, hm, hsc⟩ : ∃ w₂ : Workshop,
          written ⟨w₁, .ofUnit u, []⟩ (Path.join root u.sourceName) =
              ⟨w₂, .running u (Path.join root u.sourceName), []⟩ ∧
            w₂.machine = w₁.machine ∧ w₂.scratch = w₁.scratch := ⟨_, rfl, rfl, rfl⟩
      change Ends e u w ((written ⟨w₁, .ofUnit u, []⟩ (Path.join root u.sourceName)).runScript
        spec e.workingDir u (Path.join root u.sourceName))
      rw [hw₂, runScript, work]
      obtain ⟨w', err, hw', hl, hf⟩ | ⟨w', r, hw', hl, hc⟩ :=
        w₂.launch_cases spec e.workingDir (Path.join root u.sourceName) u
      · rw [hf]
        rw [hm, hmachine] at hl hw'
        exact .unlaunched hs hprep hl hw'
      · rw [hm, hmachine] at hl
        have hlaunched : Launched e u w root r w'.machine := ⟨spec, fs, hs, hprep, hl⟩
        have hroot : w'.scratch = ⟨root, true⟩ := hw'.trans (hsc.trans hscratch)
        rw [hc]
        cases hr : r.status.succeeded with
        | false => exact .exited hlaunched hroot hr
        | true =>
          change Ends e u w (collect ⟨w', .running u (Path.join root u.sourceName), r.printed⟩ u)
          obtain ⟨w'', hm'', hs'', hcollect⟩ :=
            exists_collect ⟨w', .running u (Path.join root u.sourceName), r.printed⟩ u
          rw [hcollect, hlaunched.readResult hroot]
          exact .answered (hm'' ▸ hlaunched) (hs''.trans hroot) hr
    · obtain ⟨w', hp, hm⟩ := hprep.persist
      rw [hp]
      exact .unprepared hs hprep hm

theorem Ends.fate (h : Ends e u w o) : Fate e u w o.result := by
  cases h with
  | unequipped hs => exact .unequipped hs
  | unprepared hs hp hm => exact .unprepared hs hp
  | unlaunched hs hp hl hm => exact .unlaunched hs hp hl
  | exited hl hs hr => exact .exited hl hr
  | answered hl hs hr => exact .answered hl hr

theorem Fate.unique {a b : Except RuntimeError Globals} (h : Fate e u w a) (k : Fate e u w b) :
    b = a := by
  have hprep := @Workshop.Prepared.unique w u
  have hunprep := @Workshop.Unprepared.unique w u
  have hnot := @Workshop.Prepared.not_unprepared w u
  cases h with
  | unequipped hs => cases k <;> grind [Launched]
  | unprepared hs hp => cases k <;> grind [Launched]
  | unlaunched hs hp hl => cases k <;> grind [Launched]
  | exited hl hr => cases k <;> grind [Launched]
  | answered hl hr => cases k <;> grind [Launched]

theorem exists_fate (e : Engine) (u : GuestUnit) (w : Workshop) : ∃! o, Fate e u w o :=
  ⟨_, (ends_travel e u w).fate, fun _ h => (ends_travel e u w).fate.unique h⟩

def Persists (e : Engine) (u : GuestUnit) (w : Workshop) (path : Text) : Prop :=
  (e.specFor? u.language).isSome = true ∧
    ∃ root fs, w.Prepared u root fs ∧ path = Path.join root u.sourceName

theorem Persists.iff {path : Text} (h : Persists e u w path) (path' : Text) :
    some path = some path' ↔ Persists e u w path' := by
  constructor
  · rintro ⟨⟩
    exact h
  · obtain ⟨-, root, fs, hp, rfl⟩ := h
    rintro ⟨-, root', fs', hp', rfl⟩
    rw [(hp.unique hp').1]

/-- The record is the unit's, has only advanced, and shows where the source is, once it
is there. -/
structure Faithful (e : Engine) (u : GuestUnit) (w : Workshop) (p : Passage) : Prop where
  unit : p.RecordsUnit u
  advances : p.record.Advances
  path_iff : ∀ path, p.record.path = some path ↔ Persists e u w path
  source : ∀ path, p.record.path = some path →
    p.workshop.machine.files.read path = .ok (Text.Utf8.encode u.source)

theorem Faithful.advance {p : Passage} (h : Faithful e u w p) {next : UnitState}
    (hn : p.record.state.canAdvance next = true) : Faithful e u w (p.advance next) :=
  ⟨h.unit, h.advances.enter next hn, h.path_iff, h.source⟩

theorem faithful_ofUnit {w' : Workshop} (h : ∀ path, ¬ Persists e u w path) :
    Faithful e u w ⟨w', .ofUnit u, []⟩ where
  unit := ⟨rfl, rfl, rfl, rfl⟩
  advances := UnitRecord.advances_ofUnit u
  path_iff := fun path => ⟨nofun, fun hp => absurd hp (h path)⟩
  source := nofun

theorem faithful_running {w' : Workshop} {path printed : Text} (h : Persists e u w path)
    (hs : w'.machine.files.read path = .ok (Text.Utf8.encode u.source)) :
    Faithful e u w ⟨w', .running u path, printed⟩ where
  unit := ⟨rfl, rfl, rfl, rfl⟩
  advances := UnitRecord.advances_running u path
  path_iff := h.iff
  source := by
    rintro path' ⟨⟩
    exact hs

theorem Faithful.of_launched {w' : Workshop} {root : Text} {r : Reply}
    (h : Launched e u w root r w'.machine) (printed : Text) :
    Faithful e u w ⟨w', .running u (Path.join root u.sourceName), printed⟩ := by
  obtain ⟨spec, fs, hs, hp, -⟩ := h.launched
  exact faithful_running ⟨by rw [hs]; rfl, root, fs, hp, rfl⟩ h.source

theorem spawns_of_sameButFiles {m m' : Machine} (h : m.SameButFiles m') : m'.spawns = m.spawns := by
  obtain ⟨fs, rfl⟩ := h
  rfl

namespace Ends

theorem faithful (h : Ends e u w o) : Faithful e u w o.state := by
  cases h with
  | unequipped hs =>
    apply faithful_ofUnit
    rintro path ⟨hsome, -⟩
    rw [hs] at hsome
    cases hsome
  | unprepared hs hp hm =>
    apply faithful_ofUnit
    rintro path ⟨-, root, fs, hp', -⟩
    exact hp'.not_unprepared hp
  | @unlaunched spec w' root fs err hs hp hl hm =>
    apply faithful_running ⟨by rw [hs]; rfl, root, fs, hp, rfl⟩
    rw [hm]
    exact hp.read_source
  | exited hl hs hr => exact Faithful.of_launched hl _
  | answered hl hs hr => exact Faithful.of_launched hl _

theorem canAdvance (h : Ends e u w o) :
    (∃ err, o.result = .error err) ∧ o.state.record.state.canAdvance .failed = true ∨
      (∃ values, o.result = .ok values) ∧ o.state.record.state.canAdvance .completed = true := by
  cases h with
  | unequipped hs => exact .inl ⟨⟨_, rfl⟩, rfl⟩
  | unprepared hs hp hm => exact .inl ⟨⟨_, rfl⟩, rfl⟩
  | unlaunched hs hp hl hm => exact .inl ⟨⟨_, rfl⟩, rfl⟩
  | exited hl hs hr => exact .inl ⟨⟨_, rfl⟩, rfl⟩
  | @answered w' root r hl hs hr =>
    cases r.answer u (Path.join root u.resultName) with
    | error err => exact .inl ⟨⟨_, rfl⟩, rfl⟩
    | ok values => exact .inr ⟨⟨_, rfl⟩, rfl⟩

/-- A unit completes with the values of its reply, and uses it up. -/
theorem answered_of_ok (h : Ends e u w o) {values : Globals} (hv : o.result = .ok values) :
    w.machine.nextReply.values? = some values ∧
      o.state.workshop.machine.replies = w.machine.replies.drop 1 ∧
      ∃ x, o.state.workshop.machine.spawns = w.machine.spawns ++ [x] := by
  cases h with
  | unequipped hs => cases hv
  | unprepared hs hp hm => cases hv
  | unlaunched hs hp hl hm => cases hv
  | exited hl hs hr => cases hv
  | @answered w' root r hl hs hr =>
    obtain ⟨rfl, spec, fs, dir, -, -, hm⟩ := hl.exists_machine
    exact ⟨(Reply.values?_eq_some u _).2 ⟨hr, hv⟩, congrArg Machine.replies hm, hl.spawns⟩

end Ends
end Passage
end Polyglot
