import Polyglot.Proofs.Run.Course
import Polyglot.Proofs.Run.Dispatch

/-!
# Results come from replies

A unit that completes has the values that its process gives back, and uses up one reply.
Before a turn of a compiled program all units have completed, so what the run has had by
then is told by the first replies of the script. Main statement: the preamble of every
unit but a filled template declares the names that have a value there.
-/
namespace Polyglot

/-- The first processes give these values back, one after the other. Past the end of the
script a reply is an empty one. -/
def Reply.Gives : List Reply → History → Prop
  | _, [] => True
  | rs, v :: h => (rs.head?.getD {}).values? = some v ∧ Gives (rs.drop 1) h

namespace Reply

theorem Gives.take {rs : List Reply} {h : History} (hg : Gives rs h) (n : Nat) :
    Gives rs (h.take n) := by
  induction h generalizing rs n with
  | nil =>
    rw [List.take_nil]
    trivial
  | cons v r ih =>
    cases n with
    | zero => trivial
    | succ n => exact ⟨hg.1, ih hg.2 n⟩

theorem Gives.unique {rs : List Reply} {h k : History} (hg : Gives rs h) (hk : Gives rs k)
    (hl : h.length = k.length) : h = k := by
  induction h generalizing rs k with
  | nil => exact (List.eq_nil_of_length_eq_zero hl.symm).symm
  | cons v r ih =>
    cases k with
    | nil => cases hl
    | cons w t =>
      rw [Option.some.inj (hg.1.symm.trans hk.1), ih hg.2 hk.2 (Nat.succ.inj hl)]

theorem exists_read {r : Reply} {v : Globals} (h : r.values? = some v) :
    ∃ t, Globals.read? t = some v := by
  unfold values? at h
  split at h
  · obtain ⟨t, -, ht⟩ := Option.bind_eq_some_iff.1 h
    exact ⟨t, ht⟩
  · cases h

end Reply

theorem Passage.Ends.replies_suffix {e : Engine} {u : GuestUnit} {w : Workshop} {o : Step Globals}
    (h : Ends e u w o) : o.state.workshop.machine.replies <:+ w.machine.replies := by
  have hlaunched : ∀ {w' : Workshop} {root r}, Workshop.Launched e u w root r w'.machine →
      w'.machine.replies <:+ w.machine.replies := by
    intro w' root r hl
    obtain ⟨-, spec, fs, dir, -, -, hm⟩ := hl.exists_machine
    rw [hm]
    exact List.drop_suffix 1 _
  cases h with
  | unequipped hs => exact List.suffix_rfl
  | @unprepared spec w' err hs hp hm =>
    obtain ⟨fs, hm⟩ := hm
    have hreplies := congrArg Machine.replies hm
    exact hreplies ▸ List.suffix_rfl
  | @unlaunched spec w' root fs err hs hp hl hm =>
    have hreplies := congrArg Machine.replies hm
    exact hreplies ▸ List.suffix_rfl
  | exited hl hs hr => exact hlaunched hl
  | answered hl hs hr => exact hlaunched hl

namespace Scheduler

theorem replies_dispatch (s : Scheduler) (u : GuestUnit) (g : Globals) (order : List Text) :
    (s.dispatch u g order).scheduler.workshop.machine.replies <:+ s.workshop.machine.replies := by
  have h := (Passage.ends_travel s.engine u s.workshop).replies_suffix
  rw [dispatch.eq_def]
  dsimp only
  split <;> exact h

theorem travel_of_values {s : Scheduler} {u : GuestUnit} {v : Globals} (h : s.values? u = some v) :
    (Passage.travel ⟨s.workshop, .ofUnit u, []⟩ s.engine u).result = .ok v := by
  rw [values?] at h
  cases hr : (Passage.travel ⟨s.workshop, .ofUnit u, []⟩ s.engine u).result with
  | ok w => rw [hr] at h; cases h; rfl
  | error e => rw [hr] at h; cases h

theorem values_of_reply {s : Scheduler} {u : GuestUnit} {v : Globals} (h : s.values? u = some v) :
    s.workshop.machine.nextReply.values? = some v :=
  ((Passage.ends_travel s.engine u s.workshop).answered_of_ok (travel_of_values h)).1

theorem replies_of_values {s : Scheduler} {u : GuestUnit} {v : Globals} (h : s.values? u = some v)
    (g : Globals) (order : List Text) :
    (s.dispatch u g order).scheduler.workshop.machine.replies =
      s.workshop.machine.replies.drop 1 := by
  have hresult := travel_of_values h
  simp only [dispatch, hresult]
  exact ((Passage.ends_travel s.engine u s.workshop).answered_of_ok hresult).2.1

end Scheduler

namespace Turn
variable {gen : Generator} {t : Turn} {v : Globals}

theorem values_of_reply (h : t.values? gen = some v) :
    t.state.scheduler.workshop.machine.nextReply.values? = some v ∧
      (t.after gen).scheduler.workshop.machine.replies =
        t.state.scheduler.workshop.machine.replies.drop 1 := by
  unfold values? at h
  unfold after
  cases hu : t.unit? gen with
  | error e => rw [hu] at h; cases h
  | ok u =>
    rw [hu] at h
    exact ⟨Scheduler.values_of_reply h, Scheduler.replies_of_values h _ _⟩

end Turn

namespace Journey
variable {gen : Generator} {s s' : RunState} {ts : List Turn}

theorem gives (j : Journey gen s ts s') (hc : ∀ t ∈ ts, t.Completes gen) :
    Reply.Gives s.scheduler.workshop.machine.replies (History.ofTurns gen ts) := by
  induction j with
  | rest h => trivial
  | @turn s s' t ts h _ ih =>
    obtain ⟨v, hv⟩ := Option.isSome_iff_exists.1 (hc t List.mem_cons_self)
    obtain ⟨hreply, hrest⟩ := Turn.values_of_reply hv
    have hmachine : t.state.scheduler.workshop.machine = s.scheduler.workshop.machine := h.machine
    rw [hmachine] at hreply hrest
    have hmore := ih fun x hx => hc x (List.mem_cons_of_mem t hx)
    rw [hrest] at hmore
    rw [History.ofTurns, List.filterMap_cons, hv]
    exact ⟨hreply, hmore⟩

theorem replies_suffix (j : Journey gen s ts s') : ∀ t ∈ ts,
    t.state.scheduler.workshop.machine.replies <:+ s.scheduler.workshop.machine.replies := by
  induction j with
  | rest h => exact fun _ hm => nomatch hm
  | @turn s s' t ts h _ ih =>
    have hstate : t.state.scheduler.workshop.machine.replies =
        s.scheduler.workshop.machine.replies := congrArg Machine.replies h.machine
    have hafter : (t.after gen).scheduler.workshop.machine.replies <:+
        t.state.scheduler.workshop.machine.replies := by
      unfold Turn.after
      cases t.unit? gen with
      | ok u => exact t.state.scheduler.replies_dispatch u _ _
      | error e => exact List.suffix_rfl
    rw [hstate] at hafter
    exact List.forall_mem_cons.2 ⟨hstate ▸ List.suffix_rfl, fun x hx => (ih x hx).trans hafter⟩

end Journey

namespace Program
variable {p : Program}

theorem exists_of_values {s : Scheduler} {t : Turn} (ht : t ∈ p.turns s) {v : Globals}
    (hv : t.values? (Execution.generatorOf p) = some v) :
    ∃ reply, (reply ∈ s.workshop.machine.replies ∨ reply = {}) ∧ reply.values? = some v := by
  have hsuffix := (p.journey_turns s).replies_suffix t ht
  rw [(Execution.quiet_opening p s).machine] at hsuffix
  refine ⟨_, ?_, (Turn.values_of_reply hv).1⟩
  unfold Machine.nextReply
  cases hh : t.state.scheduler.workshop.machine.replies.head? with
  | none => exact .inr rfl
  | some reply => exact .inl (hsuffix.subset (List.mem_of_head? hh))

theorem Compiled.completes_before (h : p.Compiled) (s : Scheduler) {i : Nat}
    (hi : i < (p.turns s).length) :
    ∀ t ∈ (p.turns s).take i, t.Completes (Execution.generatorOf p) := by
  have hcourse := h.course s
  cases hr : (p.run s).result with
  | ok a =>
    rw [hr] at hcourse
    exact fun t ht => Completed.completes hcourse t (List.mem_of_mem_take ht)
  | error e =>
    rw [hr] at hcourse
    obtain ⟨before, last, hts, hb, -⟩ := Stopped.last hcourse
    intro t ht
    rw [hts, List.length_append, List.length_singleton] at hi
    rw [hts, List.take_append_of_le_length (Nat.lt_succ_iff.1 hi)] at ht
    exact hb t (List.mem_of_mem_take ht)

theorem Compiled.gives_past (h : p.Compiled) (s : Scheduler) {i : Nat}
    (hi : i < (p.turns s).length) :
    (p.past s i).length = i ∧ Reply.Gives s.workshop.machine.replies (p.past s i) := by
  have hc := h.completes_before s hi
  constructor
  · rw [past, History.length_ofTurns hc, List.length_take, Nat.min_eq_left (Nat.le_of_lt hi)]
  · have hs : p.turns s = (p.turns s).take i ++ (p.turns s)[i] :: (p.turns s).drop (i + 1) := by
      rw [← List.drop_eq_getElem_cons, List.take_append_drop]
    have j := hs ▸ p.journey_turns s
    have hg := j.until_turn.gives hc
    rw [(Execution.quiet_opening p s).machine] at hg
    exact hg

end Program

theorem Scheduler.Unhindered.values {s : Scheduler} {u : GuestUnit} {v : Globals}
    (h : s.Unhindered u.language) (hv : s.workshop.machine.nextReply.values? = some v) :
    s.values? u = some v := by
  have hends := Passage.ends_travel s.engine u s.workshop
  rw [Scheduler.values?, (hends.of_tidy h.tidy h.serves hv).1]
  rfl

/-- Where nothing hinders the units, and every process gives values back, all of the turns
complete. -/
theorem Journey.completes {gen : Generator} {s s' : RunState} {ts : List Turn}
    (j : Journey gen s ts s') (hs : ∀ l, s.scheduler.Unhindered l)
    (hr : ∀ r ∈ s.scheduler.workshop.machine.replies, r.values?.isSome = true)
    (hu : ∀ t ∈ ts, ∃ u, t.unit? gen = .ok u) : ∀ t ∈ ts, t.Completes gen := by
  induction j with
  | rest h => exact fun t ht => nomatch ht
  | @turn s s' t ts h _ ih =>
    have hclear : ∀ l, t.state.scheduler.Unhindered l :=
      fun l => (hs l).congr h.engine h.scratch h.machine
    rw [← h.machine] at hr
    obtain ⟨v, hv⟩ : ∃ v, t.state.scheduler.workshop.machine.nextReply.values? = some v := by
      refine Option.isSome_iff_exists.1 ?_
      unfold Machine.nextReply
      cases hh : t.state.scheduler.workshop.machine.replies.head? with
      | none => rfl
      | some r => exact hr r (List.mem_of_head? hh)
    obtain ⟨u, ht⟩ := hu t List.mem_cons_self
    obtain ⟨-, -, hreplies, hnext⟩ :=
      (hclear u.language).dispatch hv t.state.globals t.state.order
    have hafter : (t.after gen).scheduler =
        (t.state.scheduler.dispatch u t.state.globals t.state.order).scheduler := by
      rw [Turn.after, ht]
      rfl
    refine List.forall_mem_cons.2 ⟨?_, ih ?_ ?_ fun x hx => hu x (List.mem_cons_of_mem t hx)⟩
    · rw [Turn.Completes, Turn.values?, ht]
      exact Option.isSome_of_eq_some ((hclear u.language).values hv)
    · rw [hafter]
      exact fun l => hnext l (hclear l)
    · rw [hafter, hreplies]
      exact fun r hm => hr r (List.mem_of_mem_drop hm)

namespace Program
variable {p : Program}

theorem Compiled.gives_turns (h : p.Compiled) (s : Scheduler) :
    Reply.Gives s.workshop.machine.replies
      (History.ofTurns (Execution.generatorOf p) (p.turns s)) := by
  have hmachine : (Execution.opening p s).scheduler.workshop.machine = s.workshop.machine :=
    (Execution.quiet_opening p s).machine
  rw [← hmachine]
  have j := p.journey_turns s
  have hcourse := h.course s
  cases hr : (p.run s).result with
  | ok a =>
    rw [hr] at hcourse
    exact j.gives (Completed.completes hcourse)
  | error e =>
    rw [hr] at hcourse
    obtain ⟨before, t, hts, hb, hstops⟩ := Stopped.last hcourse
    have hnone : History.ofTurns (Execution.generatorOf p) [t] = [] := by
      rw [History.ofTurns, List.filterMap_cons, hstops.values]
      rfl
    rw [hts] at j ⊢
    rw [History.ofTurns_append, hnone, List.append_nil]
    exact j.until_turn.gives hb

def IsCodeFree (p : Program) : Prop := ∀ part ∈ p.parts, ∀ b ∈ part.plan.blocks, b.isCall = true

theorem Compiled.completed_of_unhindered (h : p.Compiled) (hf : p.IsCodeFree) {s : Scheduler}
    (hs : ∀ l, s.Unhindered l) (hr : ∀ r ∈ s.workshop.machine.replies, r.values?.isSome = true) :
    (∃ a, (p.run s).result = .ok a) ∧
      Completed (Execution.generatorOf p) (p.turns s) p.stages := by
  have hopen := Execution.quiet_opening p s
  have hunit : ∀ t ∈ p.turns s, ∃ u, t.unit? (Execution.generatorOf p) = .ok u := by
    intro t ht
    obtain ⟨hp, hplanned⟩ := planned_of_mem ht
    obtain ⟨part, task, st⟩ := t
    cases task with
    | code tpl =>
      obtain ⟨g, pre, text, line, bound, post, hb, -⟩ := hplanned
      have hcall := hf part hp (.code text line bound)
        (by rw [hb]; exact List.mem_append_right _ List.mem_cons_self)
      cases hcall
    | segment => exact ⟨_, rfl⟩
    | call c f => exact ⟨_, rfl⟩
    | continuation text line calls returns bound => exact ⟨_, rfl⟩
  have hall := (p.journey_turns s).completes
    (fun l => (hs l).congr hopen.engine hopen.scratch hopen.machine)
    (by rw [hopen.machine]; exact hr) hunit
  have hcourse := h.course s
  cases hres : (p.run s).result with
  | ok a =>
    rw [hres] at hcourse
    exact ⟨⟨a, rfl⟩, hcourse⟩
  | error e =>
    rw [hres] at hcourse
    obtain ⟨before, t, hts, -, hstops⟩ := Stopped.last hcourse
    have ht : t ∈ p.turns s := hts ▸ List.mem_append_right _ List.mem_cons_self
    have hc := hall t ht
    rw [Turn.Completes] at hc
    rw [hstops.values] at hc
    cases hc

theorem Compiled.exists_history (h : p.Compiled) (hf : p.IsCodeFree) {s : Scheduler}
    (hs : ∀ l, s.Unhindered l) (hr : ∀ r ∈ s.workshop.machine.replies, r.values?.isSome = true) :
    ∃ rs, Reply.Gives s.workshop.machine.replies rs ∧ rs.length = (p.turns s).length ∧
      (p.turns s).map Turn.slot = Stage.expand p.stages rs := by
  obtain ⟨-, hc⟩ := h.completed_of_unhindered hf hs hr
  have hslots := hc.slots [] []
  rw [List.append_nil, List.append_nil, Stage.expand_nil, List.append_nil] at hslots
  exact ⟨_, h.gives_turns s, History.length_ofTurns hc.completes, hslots.symm⟩

/-- The records of a run are those of its turns, and every turn but that of a template
gives a unit whose preamble declares what the replies to the units before it, which all
completed, have left. -/
theorem globals_threaded {e : Engine} {source : Text} (hc : compile e source = .ok p)
    (s : Scheduler) :
    (p.run s).state.scheduler.records.map UnitRecord.stamp =
        s.records.map UnitRecord.stamp ++
          (p.turns s).filterMap (Turn.stamp? (Execution.generatorOf p)) ∧
      ∀ i : Fin (p.turns s).length,
        ((p.turns s).get i).part ∈ p.parts ∧
        ((p.turns s).get i).Planned (Execution.generatorOf p) ∧
        (∀ t ∈ (p.turns s).take i, t.Completes (Execution.generatorOf p)) ∧
        (((p.turns s).get i).task.isCode = true ∨
          ∃ h u d ds, h.length = i.val ∧ Reply.Gives s.workshop.machine.replies h ∧
            ((p.turns s).get i).unit? (Execution.generatorOf p) = .ok u ∧
            ((p.turns s).get i).draft? (Execution.generatorOf p) = .ok d ∧ u.source = d.text ∧
            History.Declares h u.language
              (((p.turns s).get i).task.bound ((p.turns s).get i).part) d.preamble ds ∧
            (((p.turns s).get i).task.isContinuation = true ∨ d.carried = [])) := by
  have hcompiled := compiled_of_compile hc
  constructor
  · rw [(p.journey_turns s).records_eq, (Execution.quiet_opening p s).records]
    rfl
  · intro i
    obtain ⟨hp, ht⟩ := planned_of_mem (List.get_mem (p.turns s) i)
    refine ⟨hp, ht, hcompiled.completes_before s i.isLt, ?_⟩
    cases hcode : ((p.turns s).get i).task.isCode with
    | true => exact .inl rfl
    | false =>
      right
      unfold Turn.unit? Turn.draft?
      rw [p.globals_turn s i]
      obtain ⟨hlength, hgives⟩ := hcompiled.gives_past s i.isLt
      obtain ⟨u, d, ds, hx⟩ := Task.exists_declares _ _ _ hcode
      exact ⟨_, u, d, ds, hlength, hgives, hx⟩

def returningSource : Text := "[py]\ndef g(a):\n    return a\n[js]\nlet z = g(1)"

def leavingReply : Reply := { result := some (Text.Utf8.encode "\x7b\"x\":1\x7d") }

def returningReply : Reply :=
  { result := some (Text.Utf8.encode "\x7b\"__mixl_return__\":3\x7d") }

theorem values_leavingReply : ∃ v x, leavingReply.values? = some v ∧ v.names = ["x".toList] ∧
    v.value? "x" = some x ∧ x.render .javascript = "1" := by
  have h : (leavingReply.values?.map fun g =>
      (g.names, (g.value? "x").map (Value.render .javascript))) =
      some (["x".toList], some "1".toList) := by
    decide +kernel
  obtain ⟨v, hv, hx⟩ := Option.map_eq_some_iff.1 h
  obtain ⟨hn, hx⟩ := Prod.mk.inj hx
  obtain ⟨x, hx, hr⟩ := Option.map_eq_some_iff.1 hx
  exact ⟨v, x, hv, hn, hx, hr⟩

theorem values_returningReply : ∃ w, returningReply.values? = some w ∧
    w.names = [Globals.returnKey] ∧ Catalog.contains w Globals.returnKey = true := by
  have h : returningReply.values?.map Catalog.names = some [Globals.returnKey] := by
    decide +kernel
  obtain ⟨w, hw, hn⟩ := Option.map_eq_some_iff.1 h
  refine ⟨w, hw, hn, ?_⟩
  rw [Catalog.contains, Catalog.find?_isSome, hn]
  exact List.mem_singleton_self _

theorem compile_returningSource : ∃ p, compile .standard returningSource = .ok p ∧ p.IsCodeFree ∧
    p.stages = [.unit ⟨.segment, .python, 2⟩,
      .calls [⟨.invocation, .python, 5⟩] ⟨.continuation, .javascript, 5⟩] ∧
    ∀ part ∈ p.parts, ∀ b ∈ part.plan.blocks, b.bound = ["z".toList] := by
  have h : (compile .standard returningSource).toOption.map (fun p => (p.stages,
      p.parts.all fun part => part.plan.blocks.all fun b => b.isCall && b.bound == ["z".toList])) =
      some ([.unit ⟨.segment, .python, 2⟩,
        .calls [⟨.invocation, .python, 5⟩] ⟨.continuation, .javascript, 5⟩], true) := by
    decide +kernel
  obtain ⟨p, hc, hx⟩ := exists_of_compile h
  obtain ⟨hstages, hall⟩ := Prod.mk.inj hx
  simp only [List.all_eq_true, Bool.and_eq_true, beq_iff_eq] at hall
  exact ⟨p, hc, fun part hp b hb => (hall part hp b hb).1, hstages,
    fun part hp b hb => (hall part hp b hb).2⟩

theorem declares_returning {v w : Globals} {x : Value} {preamble : Text} {ds : List (Text × Value)}
    (hv : v.names = ["x".toList]) (hw : w.names = [Globals.returnKey])
    (hx : v.value? "x" = some x) (hrender : x.render .javascript = "1")
    (h : History.Declares [v, w] .javascript ["z"] preamble ds) :
    preamble = Text.unlines [Language.javascript.declare "x" "1"] := by
  have hseen : History.seen [v, w] = ["x".toList] := by
    rw [History.seen, List.flatMap_cons, List.flatMap_cons, hv, hw]
    decide
  have hmem : "x".toList ∈ ds.map Prod.fst := by
    refine (h.mem_iff _).2 ⟨⟨by decide, v, List.mem_cons_self, ?_⟩, by decide, by decide⟩
    exact hv ▸ List.mem_singleton_self _
  have hnames : ds.map Prod.fst = ["x".toList] := by
    refine (hseen ▸ h.inOrder).eq_of_length_le ?_
    exact List.length_pos_of_mem hmem
  obtain ⟨⟨n, y⟩, rfl, rfl⟩ := List.map_eq_singleton_iff.1 hnames
  have hlatest : History.latest? [v, w] "x" = some y := h.latest _ (List.mem_singleton_self _)
  have hnone : w.value? "x" = none := by
    rw [Globals.value?_eq_none, hw]
    decide
  have hy : y = x := by
    rw [History.latest?, List.reverse_cons, List.reverse_cons, List.reverse_nil, List.nil_append,
      List.singleton_append, List.findSome?_cons_of_isNone (by rw [hnone]; rfl),
      List.findSome?_cons_of_isSome (by rw [hx]; rfl), hx] at hlatest
    exact (Option.some.inj hlatest).symm
  rw [h.text, hy, List.map_singleton, hrender]

theorem slots_returning {p : Program} (hc : compile .standard returningSource = .ok p)
    (hfree : p.IsCodeFree) (hstages : p.stages = [.unit ⟨.segment, .python, 2⟩,
      .calls [⟨.invocation, .python, 5⟩] ⟨.continuation, .javascript, 5⟩]) :
    (p.turns (.replying [leavingReply, returningReply])).map Turn.slot =
      [⟨.segment, .python, 2⟩, ⟨.invocation, .python, 5⟩, ⟨.continuation, .javascript, 5⟩] := by
  obtain ⟨v, x, hv, -⟩ := values_leavingReply
  obtain ⟨w, hw, -, hcontains⟩ := values_returningReply
  have hall : ∀ r ∈ [leavingReply, returningReply], r.values?.isSome = true := by
    simp [hv, hw]
  obtain ⟨h, hg, hl, hslots⟩ := (compiled_of_compile hc).exists_history hfree
    (Scheduler.unhindered_replying [leavingReply, returningReply]) hall
  rw [hslots, hstages]
  rw [hstages] at hslots
  have hlong : 2 ≤ h.length := by
    rw [hl, ← List.length_map Turn.slot, hslots]
    simp [Stage.expand]
  have htake : h.take 2 = [v, w] :=
    (hg.take 2).unique (k := [v, w]) ⟨hv, hw, trivial⟩ (by simp [hlong])
  rw [← List.take_append_drop 2 h, htake]
  simp [Stage.expand, hcontains]

/-- The continuation declares what the first unit has left, and no value that was returned. -/
theorem globals_threaded_returning : ∃ p, ∃ s : Scheduler, ∃ i : Fin (p.turns s).length,
    ∃ h u d, compile .standard returningSource = .ok p ∧
      s = .replying [leavingReply, returningReply] ∧ h.length = 2 ∧
      Reply.Gives [leavingReply, returningReply] h ∧
      ((p.turns s).get i).unit? (Execution.generatorOf p) = .ok u ∧ u.kind = .continuation ∧
      ((p.turns s).get i).draft? (Execution.generatorOf p) = .ok d ∧ u.source = d.text ∧
      d.preamble = Text.unlines [Language.javascript.declare "x" "1"] := by
  obtain ⟨p, hc, hfree, hstages, hbound⟩ := compile_returningSource
  obtain ⟨v, x, hv, hnames, hx, hrender⟩ := values_leavingReply
  obtain ⟨w, hw, hreturned, -⟩ := values_returningReply
  have hslots := slots_returning hc hfree hstages
  have hthree : 2 < (p.turns (.replying [leavingReply, returningReply])).length := by
    rw [← List.length_map Turn.slot, hslots]
    decide
  have hget : ((p.turns (.replying [leavingReply, returningReply])).map Turn.slot)[2]? =
      some ⟨.continuation, .javascript, 5⟩ := by
    rw [hslots]
    rfl
  rw [List.getElem?_map, List.getElem?_eq_getElem hthree, Option.map_some] at hget
  have hslot := Option.some.inj hget
  obtain ⟨-, hturns⟩ := globals_threaded hc (.replying [leavingReply, returningReply])
  obtain ⟨hp, hplanned, -, hcase⟩ := hturns ⟨2, hthree⟩
  refine ⟨p, _, ⟨2, hthree⟩, ?_⟩
  rw [List.get_eq_getElem] at hp hplanned hcase ⊢
  generalize (p.turns (.replying [leavingReply, returningReply]))[2] = t at *
  obtain ⟨part, task, st⟩ := t
  cases task with
  | segment => cases hslot
  | code tpl => cases hslot
  | call c f => cases hslot
  | continuation text line calls returns bound =>
    obtain ⟨hcall, -⟩ := hplanned
    have hown : bound = ["z".toList] := hbound part hp _ hcall
    obtain hcode | ⟨h, u, d, ds, hlength, hgives, hu, hd, hsource, hdeclares, -⟩ := hcase
    · cases hcode
    obtain rfl : h = [v, w] := hgives.unique (k := [v, w]) ⟨hv, hw, trivial⟩ hlength
    have hunit := Task.slot_of_unit hu
    rw [← Turn.slot, hslot] at hunit
    have hkind : u.kind = .continuation := congrArg Slot.kind hunit
    have hlanguage : u.language = .javascript := congrArg Slot.language hunit
    rw [hlanguage] at hdeclares
    refine ⟨[v, w], u, d, hc, rfl, rfl, hgives, hu, hkind, hd, hsource, ?_⟩
    exact declares_returning hnames hreturned hx hrender (hown ▸ hdeclares)

end Program
end Polyglot
