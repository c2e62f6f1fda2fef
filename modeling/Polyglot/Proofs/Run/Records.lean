import Polyglot.Proofs.Plan.Partition
import Polyglot.Proofs.Run.Answers

/-!
# The records of a run

A run leaves one record for each unit that it dispatches, and the hashes of those that
completed as its order of execution. Main statement: the records follow the expansion of
the plans, up to the unit that fails or the template that cannot be filled.
-/
namespace Polyglot

namespace Turn
variable {gen : Generator} {t : Turn}

theorem stamp_of_completes (h : t.Completes gen) :
    ∃ hash, t.stamp? gen =
      some (hash, t.slot.kind, t.slot.language, t.slot.line, .completed) := by
  obtain ⟨r, hr⟩ := Option.isSome_iff_exists.1 h
  unfold stamp?
  cases hu : t.unit? gen with
  | ok u =>
    rw [hr, slot, ← Task.slot_of_unit hu]
    exact ⟨u.hash, rfl⟩
  | error e => rw [values?, hu] at hr; cases hr

theorem stamp_of_failed {u : GuestUnit} (hu : t.unit? gen = .ok u) (hv : t.values? gen = none) :
    t.stamp? gen = some (u.hash, t.slot.kind, t.slot.language, t.slot.line, .failed) := by
  rw [stamp?, hu, hv, slot, ← Task.slot_of_unit hu]
  rfl

end Turn

theorem slots_of_completes {gen : Generator} {ts : List Turn} {rs : List UnitRecord}
    (h : rs.map UnitRecord.stamp = ts.filterMap (Turn.stamp? gen))
    (hc : ∀ t ∈ ts, t.Completes gen) :
    rs.map UnitRecord.slot = ts.map Turn.slot ∧ ∀ r ∈ rs, r.state = .completed := by
  induction ts generalizing rs with
  | nil =>
    rw [List.filterMap_nil, List.map_eq_nil_iff] at h
    subst h
    exact ⟨rfl, fun _ hr => nomatch hr⟩
  | cons t more ih =>
    obtain ⟨hash, ht⟩ := Turn.stamp_of_completes (hc t List.mem_cons_self)
    rw [List.filterMap_cons, ht] at h
    obtain ⟨r, rest, rfl, hr, hrest⟩ := List.map_eq_cons_iff.1 h
    obtain ⟨hs, hd⟩ := ih hrest fun x hx => hc x (List.mem_cons_of_mem t hx)
    simp only [UnitRecord.stamp, Prod.mk.injEq] at hr
    obtain ⟨-, hk, hl, hf, hstate⟩ := hr
    refine ⟨?_, fun x hx => ?_⟩
    · rw [List.map_cons, List.map_cons, hs, UnitRecord.slot, hk, hl, hf]
    · rcases List.mem_cons.1 hx with rfl | hx
      · exact hstate
      · exact hd x hx

namespace Block

theorem line_of_mem_slots {functions : FunctionTable} {caller : Language} {b : Block}
    (hc : ∀ c ∈ b.calls, c.line = b.firstLine) {x : Slot}
    (hx : x ∈ (b.stage functions caller).slots) : x.line = b.firstLine := by
  cases b with
  | code text line bound =>
    rw [stage, Stage.slots, List.mem_singleton] at hx
    rw [hx]
    rfl
  | call text line calls bound =>
    rw [stage, Stage.slots, List.mem_append, List.mem_singleton] at hx
    rcases hx with hx | rfl
    · obtain ⟨c, hm, rfl⟩ := List.mem_map.1 hx
      exact hc c hm
    · rfl

end Block

namespace Program
variable {p : Program}

theorem Compiled.line_of_stage (h : p.Compiled) {part : Part} (hp : part ∈ p.parts) {b : Block}
    (hb : b ∈ part.plan.blocks) {x : Slot}
    (hx : x ∈ (b.stage p.functions part.segment.language).slots) : x.line = b.firstLine :=
  Block.line_of_mem_slots (fun _ hc => (Plan.known_of_call (h.planned part hp) hb hc).2) hx

theorem Compiled.lines_of_part (h : p.Compiled) {part : Part} (hp : part ∈ p.parts) :
    (∀ x ∈ (part.stages p.functions).flatMap Stage.slots,
      part.segment.firstLine ≤ x.line ∧ x.line < part.segment.stop) ∧
    ((part.stages p.functions).flatMap Stage.slots).Pairwise fun x y => x.line ≤ y.line := by
  have ha := h.analyzed part hp
  have hplan := h.planned part hp
  have hline := fun b hb x hx => h.line_of_stage hp (b := b) (x := x) hb hx
  unfold Part.stages
  cases hs : part.plan with
  | simple =>
    refine ⟨fun x hx => ?_, List.pairwise_singleton _ _⟩
    rw [List.flatMap_singleton, Stage.slots, List.mem_singleton] at hx
    rw [hx]
    exact ⟨Nat.le_refl _, part.segment.firstLine_lt_stop⟩
  | split blocks own =>
    have hb : part.plan.blocks = blocks := by rw [hs]; rfl
    rw [hb] at hline
    have ho := Plan.pairwise_blocks ha hplan
    rw [hb] at ho
    dsimp only
    rw [List.flatMap_map]
    refine ⟨fun x hx => ?_, List.pairwise_flatMap.2 ⟨fun b hm => ?_, ?_⟩⟩
    · obtain ⟨b, hm, hx⟩ := List.mem_flatMap.1 hx
      rw [hline b hm x hx]
      exact Plan.firstLine_mem_range ha hplan (hb ▸ hm)
    · refine List.pairwise_of_forall_mem_list fun x hx y hy => ?_
      rw [hline b hm x hx, hline b hm y hy]
    · refine ho.imp_of_mem fun {b c} hm hm' hlt x hx y hy => ?_
      rw [hline b hm x hx, hline c hm' y hy]
      exact Nat.le_of_lt hlt

theorem Compiled.pairwise_slots (h : p.Compiled) :
    (p.stages.flatMap Stage.slots).Pairwise fun x y => x.line ≤ y.line := by
  rw [stages, List.flatMap_assoc]
  refine List.pairwise_flatMap.2 ⟨fun part hp => (h.lines_of_part hp).2, ?_⟩
  refine h.ordered.imp_of_mem fun {a b} ha hb hlt x hx y hy => ?_
  have hx := ((h.lines_of_part ha).1 x hx).2
  have hy := ((h.lines_of_part hb).1 y hy).1
  omega

/-- How the records and the order of execution stand when the run ends so, after units
with these results. -/
def EndsSo (p : Program) (s : Scheduler) (h : History) (rs : List UnitRecord)
    (order : List Text) : Except EngineError Unit → Prop
  | .ok _ => rs.map UnitRecord.slot = Stage.expand p.stages h ∧
      (∀ r ∈ rs, r.state = .completed) ∧ order = rs.map (·.hash)
  | .error (.runtime err) => ∃ before last, rs = before ++ [last] ∧
      (∀ r ∈ before, r.state = .completed) ∧ last.state = .failed ∧
      order = before.map (·.hash) ∧
      ∃ t u, (p.turns s).getLast? = some t ∧ t.unit? (Execution.generatorOf p) = .ok u ∧
        last.hash = u.hash ∧ t.state.scheduler.Fated u (.error err)
  | .error (.undefined e) => (∀ r ∈ rs, r.state = .completed) ∧ order = rs.map (·.hash) ∧
      ∃ t, (p.turns s).getLast? = some t ∧ t.unit? (Execution.generatorOf p) = .error e ∧
        rs.map UnitRecord.slot ++ [t.slot] <+: Stage.expand p.stages h
  | .error _ => False

variable {s : Scheduler} {rs : List UnitRecord}

theorem endsSo_of_completed (hrs : rs.map UnitRecord.stamp =
      (p.turns s).filterMap (Turn.stamp? (Execution.generatorOf p)))
    (h : Completed (Execution.generatorOf p) (p.turns s) p.stages) (a : Unit) :
    let results := History.ofTurns (Execution.generatorOf p) (p.turns s)
    results.length = (UnitRecord.completedHashes rs).length ∧
      rs.map UnitRecord.slot <+: Stage.expand p.stages results ∧
      p.EndsSo s results rs (UnitRecord.completedHashes rs) (.ok a) := by
  intro results
  obtain ⟨hslots, hstates⟩ := slots_of_completes hrs h.completes
  have hx := h.slots [] []
  rw [List.append_nil, List.append_nil, Stage.expand_nil, List.append_nil, ← hslots] at hx
  have hhashes := UnitRecord.completedHashes_eq_map hstates
  refine ⟨?_, hx ▸ List.prefix_rfl, hx.symm, hstates, hhashes⟩
  rw [History.length_ofTurns h.completes, hhashes, List.length_map,
    ← List.length_map Turn.slot, ← hslots, List.length_map]

theorem endsSo_of_stopped (hrs : rs.map UnitRecord.stamp =
      (p.turns s).filterMap (Turn.stamp? (Execution.generatorOf p))) {e : EngineError}
    (h : Stopped (Execution.generatorOf p) (p.turns s) p.stages e) :
    let results := History.ofTurns (Execution.generatorOf p) (p.turns s)
    results.length = (UnitRecord.completedHashes rs).length ∧
      rs.map UnitRecord.slot <+: Stage.expand p.stages results ∧
      p.EndsSo s results rs (UnitRecord.completedHashes rs) (.error e) := by
  intro results
  obtain ⟨before, t, hts, hb, ht⟩ := h.last
  have hx : (p.turns s).map Turn.slot <+: Stage.expand p.stages results := by
    have hs := h.slots []
    rwa [List.append_nil] at hs
  have hresults : results.length = before.length := by
    have hlast : History.ofTurns (Execution.generatorOf p) [t] = [] := by
      rw [History.ofTurns, List.filterMap_cons, ht.values]
      rfl
    rw [← History.length_ofTurns hb, ← List.append_nil (History.ofTurns _ before), ← hlast,
      ← History.ofTurns_append, ← hts]
  have hlast : (p.turns s).getLast? = some t := by rw [hts, List.getLast?_concat]
  rw [hts, List.map_append, List.map_singleton] at hx
  rw [hts, List.filterMap_append] at hrs
  obtain ⟨rs, last, rfl, hrs, hrecord⟩ := List.map_eq_append_iff.1 hrs
  obtain ⟨hslots, hstates⟩ := slots_of_completes hrs hb
  have hhashes := UnitRecord.completedHashes_eq_map hstates
  have hlength : results.length = (rs.map (·.hash)).length := by
    rw [hresults, ← List.length_map Turn.slot, ← hslots, List.length_map, List.length_map]
  rw [← hslots] at hx
  cases ht with
  | unfilled hu =>
    rw [List.filterMap_cons, Turn.stamp?, hu, List.filterMap_nil, List.map_eq_nil_iff] at hrecord
    rw [hrecord, List.append_nil, hhashes]
    exact ⟨hlength, (List.prefix_append _ _).trans hx, hstates, rfl, t, hlast, hu, hx⟩
  | @failed u err hu hv he =>
    rw [List.filterMap_cons, Turn.stamp_of_failed hu hv] at hrecord
    obtain ⟨r, rest, rfl, hr, hrest⟩ := List.map_eq_cons_iff.1 hrecord
    rw [List.filterMap_nil, List.map_eq_nil_iff] at hrest
    subst hrest
    simp only [UnitRecord.stamp, Prod.mk.injEq] at hr
    obtain ⟨hhash, hk, hl, hf, hstate⟩ := hr
    have hcompleted : UnitRecord.completedHashes (rs ++ [r]) = rs.map (·.hash) := by
      rw [UnitRecord.completedHashes_append, UnitRecord.completedHashes_failed hstate,
        List.append_nil, hhashes]
    rw [hcompleted]
    refine ⟨hlength, ?_, rs, r, rfl, hstates, hstate, rfl, t, u, hlast, hu, hhash, ?_⟩
    · rw [List.map_append, List.map_singleton, UnitRecord.slot, hk, hl, hf]
      exact hx
    · exact Scheduler.fated_of_error he

/-- The records of every run of a compiled program follow the expansion of its plans for
the results that the replies give, one for each unit that completed, with lines that never
decrease. The run succeeds once all of it has completed. It ends in a runtime error with
the one unit that failed, or before a template that cannot be filled. -/
theorem records_follow_plan {e : Engine} {source : Text} (hc : compile e source = .ok p)
    (s : Scheduler) :
    ∃ rs results, (p.run s).state.scheduler.records = s.records ++ rs ∧
      rs.map UnitRecord.stamp =
        (p.turns s).filterMap (Turn.stamp? (Execution.generatorOf p)) ∧
      Reply.Gives s.workshop.machine.replies results ∧
      results.length = (rs.filter (·.state == .completed)).length ∧
      rs.map UnitRecord.slot <+: Stage.expand p.stages results ∧
      (rs.Pairwise fun a b => a.firstLine ≤ b.firstLine) ∧
      p.EndsSo s results rs (p.run s).state.order (p.run s).result := by
  have h := compiled_of_compile hc
  obtain ⟨rs, hr, hrs⟩ := (p.journey_turns s).exists_recorded
  have ho := Execution.quiet_opening p s
  obtain ⟨hlength, hprefix, hends⟩ :
      (History.ofTurns (Execution.generatorOf p) (p.turns s)).length =
          (UnitRecord.completedHashes rs).length ∧
        rs.map UnitRecord.slot <+:
          Stage.expand p.stages (History.ofTurns (Execution.generatorOf p) (p.turns s)) ∧
        p.EndsSo s (History.ofTurns (Execution.generatorOf p) (p.turns s)) rs
          (UnitRecord.completedHashes rs) (p.run s).result := by
    have hcourse := h.course s
    cases hres : (p.run s).result with
    | ok a => rw [hres] at hcourse; exact endsSo_of_completed hrs hcourse a
    | error err => rw [hres] at hcourse; exact endsSo_of_stopped hrs hcourse
  refine ⟨rs, _, by rw [hr.records, ho.records]; rfl, hrs, h.gives_turns s, ?_, hprefix, ?_, ?_⟩
  · rwa [UnitRecord.completedHashes, List.length_map] at hlength
  · have hs := hprefix.sublist.trans (Stage.sublist_expand _ _)
    have hlines := h.pairwise_slots.sublist hs
    rw [List.pairwise_map] at hlines
    exact hlines
  · rw [hr.order, ho.order]
    exact hends

theorem EndsSo.slots_returning {s : Scheduler} {results : History} {rs : List UnitRecord}
    {order : List Text} {a : Unit} (h : p.EndsSo s results rs order (.ok a))
    (hstages : p.stages = [.unit ⟨.segment, .python, 2⟩,
      .calls [⟨.invocation, .python, 5⟩] ⟨.continuation, .javascript, 5⟩])
    (hl : results.length = (rs.filter (·.state == .completed)).length)
    {replies : List Reply} (hg : Reply.Gives replies results) {v w : Globals}
    (hgives : Reply.Gives replies [v, w]) :
    rs.map UnitRecord.slot = [⟨.segment, .python, 2⟩, ⟨.invocation, .python, 5⟩] ++
      if Catalog.contains w Globals.returnKey then [⟨.continuation, .javascript, 5⟩] else [] := by
  obtain ⟨hslots, hstates, -⟩ := h
  have hlong : 2 ≤ results.length := by
    rw [hl, List.filter_eq_self.2 fun r hm => by rw [hstates r hm]; rfl,
      ← List.length_map UnitRecord.slot, hslots, hstages]
    simp [Stage.expand]
  have htake : results.take 2 = [v, w] :=
    (hg.take 2).unique (k := [v, w]) hgives (by simp [hlong])
  rw [hslots, hstages, ← List.take_append_drop 2 results, htake]
  simp [Stage.expand]

/-- With a value of the call its line goes on, and without one it does not. -/
theorem records_follow_plan_returning : ∃ p, compile .standard returningSource = .ok p ∧
    (∃ rs, (p.run (.replying [leavingReply, returningReply])).state.scheduler.records = rs ∧
      rs.map UnitRecord.slot = [⟨.segment, .python, 2⟩, ⟨.invocation, .python, 5⟩,
        ⟨.continuation, .javascript, 5⟩]) ∧
    ∃ rs, (p.run (.replying [leavingReply])).state.scheduler.records = rs ∧
      rs.map UnitRecord.slot = [⟨.segment, .python, 2⟩, ⟨.invocation, .python, 5⟩] := by
  obtain ⟨p, hc, hfree, hstages, -⟩ := compile_returningSource
  obtain ⟨v, x, hv, -⟩ := values_leavingReply
  obtain ⟨w, hw, -, hcontains⟩ := values_returningReply
  have hsucceeds : ∀ replies : List Reply, (∀ r ∈ replies, r.values?.isSome = true) →
      ∃ a, (p.run (.replying replies)).result = .ok a := fun replies hall =>
    ((compiled_of_compile hc).completed_of_unhindered hfree
      (Scheduler.unhindered_replying replies) hall).1
  refine ⟨p, hc, ?_, ?_⟩
  · obtain ⟨a, hok⟩ := hsucceeds [leavingReply, returningReply] (by simp [hv, hw])
    obtain ⟨rs, results, hr, -, hg, hl, -, -, hends⟩ :=
      records_follow_plan hc (.replying [leavingReply, returningReply])
    rw [hok] at hends
    have hslots := EndsSo.slots_returning hends hstages hl hg (v := v) (w := w) ⟨hv, hw, trivial⟩
    rw [if_pos hcontains] at hslots
    exact ⟨rs, hr, hslots⟩
  · obtain ⟨a, hok⟩ := hsucceeds [leavingReply] (by simp [hv])
    obtain ⟨rs, results, hr, -, hg, hl, -, -, hends⟩ :=
      records_follow_plan hc (.replying [leavingReply])
    rw [hok] at hends
    have hslots := EndsSo.slots_returning hends hstages hl hg (v := v) (w := Catalog.empty)
      ⟨hv, Reply.values?_default, trivial⟩
    exact ⟨rs, hr, hslots⟩

end Program
end Polyglot
