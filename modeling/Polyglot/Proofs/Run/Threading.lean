import Polyglot.Proofs.Run.Expansion
import Polyglot.Proofs.Run.Turn

/-!
# State threading

What a dispatch leaves behind, and from it what a unit finds: the globals of a turn
are the table of the results so far. The preamble of every unit but a filled template
declares each name of those results that its language can declare, once, in the order of
first appearance, with the latest value.
-/
namespace Polyglot

theorem Outcome.andThen_state {σ ε α β : Type} {P : σ → Prop} {o : Outcome σ ε α}
    {next : σ → α → Outcome σ ε β} (h : P o.state) (k : ∀ s a, P s → P (next s a).state) :
    P (o.andThen next).state := by
  cases o with
  | mk s r =>
    cases r with
    | ok a => exact k s a h
    | error e => exact h

namespace UnitRecord

/-- What tells the units of a run apart in its records, and how they ended. -/
def stamp (r : UnitRecord) : Text × UnitKind × Language × Nat × UnitState :=
  (r.hash, r.kind, r.language, r.firstLine, r.state)

theorem state_enter (r : UnitRecord) (next : UnitState) : (r.enter next).state = next := by
  simp [state, enter]

def completedHashes (rs : List UnitRecord) : List Text :=
  (rs.filter (·.state == .completed)).map (·.hash)

theorem completedHashes_append (rs rs' : List UnitRecord) :
    completedHashes (rs ++ rs') = completedHashes rs ++ completedHashes rs' := by
  rw [completedHashes, List.filter_append, List.map_append]
  rfl

theorem completedHashes_eq_map {rs : List UnitRecord} (h : ∀ r ∈ rs, r.state = .completed) :
    completedHashes rs = rs.map (·.hash) := by
  rw [completedHashes, List.filter_eq_self.2 fun r hr => by rw [h r hr]; rfl]

theorem completedHashes_failed {r : UnitRecord} (h : r.state = .failed) :
    completedHashes [r] = [] := by
  rw [completedHashes, List.filter_cons_of_neg (by rw [h]; exact Bool.false_ne_true)]
  rfl

end UnitRecord

namespace Passage

def RecordsUnit (p : Passage) (u : GuestUnit) : Prop :=
  p.record.hash = u.hash ∧ p.record.kind = u.kind ∧ p.record.language = u.language ∧
    p.record.firstLine = u.firstLine

variable {u : GuestUnit} {p : Passage}

theorem recordsUnit_work {α : Type} (h : p.RecordsUnit u) (step : Workshop → Workshop.Step α) :
    (p.work step).state.RecordsUnit u := h

theorem recordsUnit_collect (h : p.RecordsUnit u) : (p.collect u).state.RecordsUnit u := by
  unfold collect
  cases p.workshop.readResult u with
  | ok values => exact h
  | error e => exact h

theorem recordsUnit_runScript (h : p.RecordsUnit u) (spec : TagSpec) (dir : Option Text)
    (script : Text) : (p.runScript spec dir u script).state.RecordsUnit u :=
  Outcome.andThen_state (P := (RecordsUnit · u)) (recordsUnit_work h _) fun p printed hp =>
    recordsUnit_collect (p := p.setPrinted printed) hp

theorem recordsUnit_travel (h : p.RecordsUnit u) (e : Engine) :
    (p.travel e u).state.RecordsUnit u := by
  unfold travel
  cases e.specFor? u.language with
  | none => exact h
  | some spec =>
    exact Outcome.andThen_state (P := (RecordsUnit · u)) (recordsUnit_work h _) fun p path hp =>
      recordsUnit_runScript (p := p.written path) hp spec e.workingDir path

theorem stamp_advance (h : p.RecordsUnit u) (next : UnitState) :
    (p.advance next).record.stamp = (u.hash, u.kind, u.language, u.firstLine, next) := by
  obtain ⟨hh, hk, hl, hf⟩ := h
  simp only [UnitRecord.stamp, advance, UnitRecord.state_enter]
  simp only [UnitRecord.enter, hh, hk, hl, hf]

end Passage

namespace Scheduler

def values? (s : Scheduler) (u : GuestUnit) : Option Globals :=
  (Passage.travel ⟨s.workshop, .ofUnit u, []⟩ s.engine u).result.toOption

theorem dispatch_globals (s : Scheduler) (u : GuestUnit) (g : Globals) (order : List Text) :
    (s.dispatch u g order).globals = (s.values? u).elim g g.merge := by
  cases h : (Passage.travel ⟨s.workshop, .ofUnit u, []⟩ s.engine u).result with
  | ok values => simp only [dispatch, values?, h, succeed]; rfl
  | error e => simp only [dispatch, values?, h, fail]; rfl

def ending : Option Globals → UnitState
  | some _ => .completed
  | none => .failed

theorem exists_record (s : Scheduler) (u : GuestUnit) (g : Globals) (order : List Text) :
    ∃ r : UnitRecord, (s.dispatch u g order).scheduler.records = s.records ++ [r] ∧
      r.stamp = (u.hash, u.kind, u.language, u.firstLine, ending (s.values? u)) ∧
      (s.dispatch u g order).order = order ++ UnitRecord.completedHashes [r] := by
  have hp := Passage.recordsUnit_travel (u := u) (p := ⟨s.workshop, .ofUnit u, []⟩)
    ⟨rfl, rfl, rfl, rfl⟩ s.engine
  cases h : (Passage.travel ⟨s.workshop, .ofUnit u, []⟩ s.engine u).result with
  | ok values =>
    have hs := Passage.stamp_advance hp .completed
    simp only [dispatch, values?, h, succeed]
    refine ⟨_, rfl, hs, ?_⟩
    rw [UnitRecord.completedHashes_eq_map
      (List.forall_mem_singleton.2 (congrArg (·.2.2.2.2) hs)), List.map_singleton]
    exact congrArg (fun x => order ++ [x]) (congrArg Prod.fst hs).symm
  | error e =>
    have hs := Passage.stamp_advance hp .failed
    simp only [dispatch, values?, h, fail]
    refine ⟨_, rfl, hs, ?_⟩
    rw [UnitRecord.completedHashes_failed (congrArg (·.2.2.2.2) hs), List.append_nil]

end Scheduler

structure Recorded (s s' : RunState) (rs : List UnitRecord) : Prop where
  records : s'.scheduler.records = s.scheduler.records ++ rs
  order : s'.order = s.order ++ UnitRecord.completedHashes rs

theorem Recorded.trans {s s' s'' : RunState} {rs rs' : List UnitRecord} (h : Recorded s s' rs)
    (h' : Recorded s' s'' rs') : Recorded s s'' (rs ++ rs') :=
  ⟨by rw [h'.records, h.records, List.append_assoc],
    by rw [h'.order, h.order, UnitRecord.completedHashes_append, List.append_assoc]⟩

theorem Quiet.recorded {s s' : RunState} (h : Quiet s s') : Recorded s s' [] :=
  ⟨by rw [h.records, List.append_nil], by rw [h.order]; exact (List.append_nil _).symm⟩

namespace Turn

def values? (gen : Generator) (t : Turn) : Option Globals :=
  match t.unit? gen with
  | .ok u => t.state.scheduler.values? u
  | .error _ => none

theorem globals_after (gen : Generator) (t : Turn) :
    (t.after gen).globals = (t.values? gen).elim t.state.globals t.state.globals.merge := by
  unfold after values?
  cases t.unit? gen with
  | ok u => exact Scheduler.dispatch_globals _ u _ _
  | error e => rfl

def stamp? (gen : Generator) (t : Turn) : Option (Text × UnitKind × Language × Nat × UnitState) :=
  match t.unit? gen with
  | .ok u => some (u.hash, u.kind, u.language, u.firstLine, Scheduler.ending (t.values? gen))
  | .error _ => none

theorem exists_recorded (gen : Generator) (t : Turn) :
    ∃ rs, Recorded t.state (t.after gen) rs ∧
      rs.map UnitRecord.stamp = (t.stamp? gen).toList := by
  unfold after stamp? values?
  cases t.unit? gen with
  | ok u =>
    obtain ⟨r, hr, hs, ho⟩ := t.state.scheduler.exists_record u t.state.globals t.state.order
    exact ⟨[r], ⟨hr, ho⟩, congrArg (· :: []) hs⟩
  | error e => exact ⟨[], ⟨(List.append_nil _).symm, (List.append_nil _).symm⟩, rfl⟩

end Turn

def History.ofTurns (gen : Generator) (ts : List Turn) : History := ts.filterMap (Turn.values? gen)

namespace Journey
variable {gen : Generator} {s s' : RunState} {ts : List Turn}

theorem globals_eq (j : Journey gen s ts s') :
    s'.globals = (History.ofTurns gen ts).foldl Globals.merge s.globals := by
  induction j with
  | rest h => exact h.globals
  | @turn s s' t ts h _ ih =>
    rw [ih, Turn.globals_after, h.globals]
    cases hv : t.values? gen with
    | none => simp [History.ofTurns, hv]
    | some values => simp [History.ofTurns, hv]

theorem names_of_mem (j : Journey gen s ts s') {t : Turn} (ht : t ∈ ts) {n : Text}
    (hn : n ∈ s.globals.names) : n ∈ t.state.globals.names := by
  obtain ⟨pre, post, rfl⟩ := List.append_of_mem ht
  rw [j.until_turn.globals_eq, Globals.names_foldl_merge]
  exact Names.mem_extend.2 (.inl hn)

theorem exists_recorded (j : Journey gen s ts s') :
    ∃ rs, Recorded s s' rs ∧ rs.map UnitRecord.stamp = ts.filterMap (Turn.stamp? gen) := by
  induction j with
  | rest h => exact ⟨[], h.recorded, rfl⟩
  | @turn s s' t ts h _ ih =>
    obtain ⟨rs, hr, hs⟩ := t.exists_recorded gen
    obtain ⟨rs', hr', hs'⟩ := ih
    refine ⟨rs ++ rs', h.recorded.trans (hr.trans hr'), ?_⟩
    rw [List.map_append, hs, hs']
    cases hx : t.stamp? gen <;> simp [hx]

theorem records_eq (j : Journey gen s ts s') :
    s'.scheduler.records.map UnitRecord.stamp =
      s.scheduler.records.map UnitRecord.stamp ++ ts.filterMap (Turn.stamp? gen) := by
  obtain ⟨rs, hr, hs⟩ := j.exists_recorded
  rw [hr.records, List.map_append, hs]

end Journey

namespace Execution

theorem quiet_opening (p : Program) (s : Scheduler) : Quiet (.start s) (opening p s) :=
  Quiet.foldl RunState.quiet_record _ _

end Execution

namespace Program

/-- The results that the run has when the turn comes. -/
def past (p : Program) (s : Scheduler) (i : Nat) : History :=
  History.ofTurns (Execution.generatorOf p) ((p.turns s).take i)

theorem globals_turn (p : Program) (s : Scheduler) (i : Fin (p.turns s).length) :
    ((p.turns s).get i).state.globals = (p.past s i).table := by
  have hs : p.turns s =
      (p.turns s).take i ++ (p.turns s).get i :: (p.turns s).drop (i + 1) := by
    rw [List.get_eq_getElem, ← List.drop_eq_getElem_cons, List.take_append_drop]
  have j := (Execution.quiet_opening p s)
  have hj := hs ▸ p.journey_turns s
  rw [hj.until_turn.globals_eq, j.globals]
  rfl

end Program

namespace History

/-- The declarations of a preamble in a language: each name of the results that the
language can declare, but for the names `own` that the guest code binds where a name
can be declared only once. -/
structure Declares (h : History) (l : Language) (own : List Text) (preamble : Text)
    (ds : List (Text × Value)) : Prop where
  text : preamble = Text.unlines (ds.map fun d => l.declare d.1 (d.2.render l))
  once : (ds.map Prod.fst).Nodup
  mem_iff : ∀ n, n ∈ ds.map Prod.fst ↔
    (n ≠ Globals.returnKey ∧ ∃ r ∈ h, n ∈ Catalog.names r) ∧ l.validName n = true ∧
      ¬ (l.declaresOnce = true ∧ n ∈ own)
  inOrder : (ds.map Prod.fst).Sublist h.seen
  latest : ∀ d ∈ ds, h.latest? d.1 = some d.2

theorem latest?_isSome {h : History} {n : Text} (hn : n ∈ h.seen) :
    ∃ v, h.latest? n = some v := by
  have hv : (h.table.value? n).isSome = true := by
    rw [Globals.value?_isSome, names_table]
    exact hn
  rw [value?_table h (mem_seen.1 hn).1] at hv
  exact Option.isSome_iff_exists.1 hv

def declared (h : History) (l : Language) (own : List Text) : List (Text × Value) :=
  (l.declarable own (h.table.visible l)).filterMap fun n => (h.latest? n).map fun v => (n, v)

theorem declarable_subset (h : History) (l : Language) (own : List Text) {n : Text}
    (hn : n ∈ l.declarable own (h.table.visible l)) : n ∈ h.seen := by
  simp only [Language.declarable, Globals.visible, List.mem_filter, names_table] at hn
  exact hn.1.1

theorem map_fst_declared (h : History) (l : Language) (own : List Text) :
    (h.declared l own).map Prod.fst = l.declarable own (h.table.visible l) := by
  have hs : ∀ n ∈ l.declarable own (h.table.visible l), n ∈ h.seen :=
    fun n hn => h.declarable_subset l own hn
  unfold declared
  generalize l.declarable own (h.table.visible l) = names at hs
  induction names with
  | nil => rfl
  | cons n r ih =>
    obtain ⟨v, hv⟩ := latest?_isSome (hs n List.mem_cons_self)
    rw [List.filterMap_cons, hv]
    simpa using ih fun m hm => hs m (List.mem_cons_of_mem _ hm)

theorem preamble_eq (h : History) (l : Language) (own : List Text) :
    h.table.preamble l own =
      Text.unlines ((h.declared l own).map fun d => l.declare d.1 (d.2.render l)) := by
  have hs : ∀ n ∈ l.declarable own (h.table.visible l), n ∈ h.seen :=
    fun n hn => h.declarable_subset l own hn
  unfold Globals.preamble Language.declareAll declared
  congr 1
  generalize l.declarable own (h.table.visible l) = names at hs
  induction names with
  | nil => rfl
  | cons n r ih =>
    have hn := hs n List.mem_cons_self
    obtain ⟨v, hv⟩ := latest?_isSome hn
    have ht : h.table.rendered l n = v.render l := by
      rw [Globals.rendered, value?_table h (mem_seen.1 hn).1, hv]
    rw [List.filterMap_cons, hv, List.map_cons, ht]
    simpa using ih fun m hm => hs m (List.mem_cons_of_mem _ hm)

theorem declares_preamble (h : History) (l : Language) (own : List Text) :
    h.Declares l own (h.table.preamble l own) (h.declared l own) where
  text := h.preamble_eq l own
  once := by
    rw [map_fst_declared]
    unfold Language.declarable Globals.visible
    rw [names_table]
    exact ((Names.nodup_distinct _).filter _).filter _
  mem_iff n := by
    rw [map_fst_declared]
    simp only [Language.declarable, Globals.visible, List.mem_filter, names_table, mem_seen]
    cases l.declaresOnce <;> simp [and_assoc]
  inOrder := by
    rw [map_fst_declared]
    unfold Language.declarable Globals.visible
    rw [names_table]
    exact List.filter_sublist.trans List.filter_sublist
  latest d hd := by
    obtain ⟨n, -, hn⟩ := List.mem_filterMap.1 hd
    obtain ⟨v, hv, rfl⟩ := Option.map_eq_some_iff.1 hn
    exact hv

end History

theorem Task.exists_declares (gen : Generator) (p : Part) (h : History) {task : Task}
    (hc : task.isCode = false) :
    ∃ u d ds, task.unit? gen p h.table = .ok u ∧ task.draft? gen p h.table = .ok d ∧
      u.source = d.text ∧ h.Declares u.language (task.bound p) d.preamble ds ∧
      (task.isContinuation = true ∨ d.carried = []) := by
  cases task with
  | code t => cases hc
  | segment =>
    exact ⟨_, _, h.declared p.segment.language p.analysis.bound, rfl, rfl, rfl,
      h.declares_preamble _ _, .inr rfl⟩
  | call c f =>
    exact ⟨_, _, h.declared f.language [], rfl, rfl, rfl, h.declares_preamble _ _, .inr rfl⟩
  | continuation text line calls returns bound =>
    exact ⟨_, _, h.declared p.segment.language bound, rfl, rfl, rfl, h.declares_preamble _ _,
      .inl rfl⟩

end Polyglot
