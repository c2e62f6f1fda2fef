import Polyglot.Build
import Polyglot.Proofs.Run.Course
import Polyglot.Proofs.Run.Telling
import Polyglot.Proofs.Text.Decoding

/-!
# What a run prints

The output that a scheduler keeps is put together unit by unit, and the chronicle has the
same output chunk by chunk. They agree as long as no unit fails, so the output of a build
that succeeds is what its guests printed on the way. What a process prints is cut behind
each line feed, and each chunk is decoded by itself.

Main statement: the entries that a dispatch pushes for its unit give, put together, the
decoding of all that the process wrote, and that is the text kept for the unit if the
process succeeds.
-/
namespace Polyglot

theorem Passage.printed_travel {w : Workshop} {e : Engine} {u : GuestUnit} {p : Passage}
    {values : Globals} (h : travel ⟨w, .ofUnit u, []⟩ e u = .done p values) :
    p.workshop.chronicle.printed = w.chronicle.printed ++ p.printed := by
  have ht := tells_travel e u w
  rw [h] at ht
  cases ht with
  | silent hc hr hs => exact absurd rfl (hr values)
  | process hs hp hc hc' hr =>
    have hprinted : p.printed = _ := hr values rfl
    rw [hprinted]
    refine hc'.printed.trans ?_
    rw [Chronicle.printed_append, hc.printed, Chronicle.printed_process]

namespace Scheduler

def Collects (s : Scheduler) : Prop := s.stdout = s.chronicle.printed

theorem Collects.dispatch {s : Scheduler} (h : s.Collects) {u : GuestUnit} {g : Globals}
    {order : List Text} {v : Option Value} (hv : (s.dispatch u g order).result = .ok v) :
    (s.dispatch u g order).scheduler.Collects := by
  simp only [Scheduler.dispatch] at hv ⊢
  obtain ⟨p, values, hp⟩ | ⟨p, err, hp⟩ :=
    (Passage.travel ⟨s.workshop, .ofUnit u, []⟩ s.engine u).cases_result
  · rw [hp]
    have ht : p.workshop.chronicle.printed = s.chronicle.printed ++ p.printed :=
      Passage.printed_travel hp
    change s.stdout ++ p.printed = _
    rw [h, ← ht, ← (p.continues_advance .completed).printed]
    exact (Chronicle.printed_say _ _).symm
  · rw [hp] at hv
    cases hv

end Scheduler

theorem Quiet.collects {s s' : RunState} (h : Quiet s s') (hs : s.scheduler.Collects) :
    s'.scheduler.Collects := by
  rw [Scheduler.Collects, h.stdout, h.printed]
  exact hs

theorem Turn.collects_after {gen : Generator} {t : Turn} (ht : t.Completes gen)
    (hs : t.state.scheduler.Collects) : (t.after gen).scheduler.Collects := by
  obtain ⟨r, hr⟩ := Option.isSome_iff_exists.1 ht
  cases hu : t.unit? gen with
  | error e =>
    rw [Turn.after, hu]
    exact hs
  | ok u =>
    rw [Turn.values?, hu] at hr
    obtain ⟨r', -, hx⟩ | ⟨e, hn, -⟩ :=
      t.state.scheduler.dispatch_result u t.state.globals t.state.order
    · rw [Turn.after, hu]
      exact hs.dispatch hx
    · cases hr.symm.trans hn

theorem Journey.collects {gen : Generator} {s s' : RunState} {ts : List Turn}
    (j : Journey gen s ts s') (ht : ∀ t ∈ ts, t.Completes gen) (hs : s.scheduler.Collects) :
    s'.scheduler.Collects := by
  induction j with
  | rest h => exact h.collects hs
  | @turn s s' t ts h _ ih =>
    have hafter := Turn.collects_after (ht t List.mem_cons_self) (h.collects hs)
    exact ih (fun x hx => ht x (List.mem_cons_of_mem t hx)) hafter

theorem Program.Compiled.collects {p : Program} (h : p.Compiled) {s : Scheduler}
    (hs : s.Collects) (hr : (p.run s).result = .ok ()) : (p.run s).state.scheduler.Collects := by
  have hc := h.course s
  rw [hr] at hc
  exact (p.journey_turns s).collects hc.completes ((Execution.quiet_opening p s).collects hs)

namespace Build

theorem printed_sayAll (s : Session) (ls : List LogLine) :
    (s.sayAll ls).chronicle.printed = s.chronicle.printed := by
  unfold Session.sayAll
  induction ls generalizing s with
  | nil => rfl
  | cons l r ih => exact (ih (s.say l)).trans (Chronicle.printed_say _ l)

theorem printed_pushSteps (s : Session) (n : Nat) (rs : List UnitRecord) :
    (pushSteps s n rs).chronicle.printed = s.chronicle.printed := by
  induction rs generalizing s n with
  | nil => rfl
  | cons r rs ih =>
    rw [pushSteps, ih]
    exact (Chronicle.printed_push _ _).trans (List.append_nil _)

theorem printed_of_ofSource {c : BuildSettings} {base source : Text} {s : Session}
    (hs : s.chronicle.printed = []) {r : BuildResult}
    (h : (ofSource c base source s).result = .ok r) :
    r.stdout = (ofSource c base source s).state.chronicle.printed := by
  unfold ofSource at h ⊢
  cases hc : Program.compile (c.engine.anchored base) source with
  | error err => simp only [hc] at h; cases h
  | ok p =>
    simp only [hc, runProgram] at h ⊢
    have hstart : ((s.sayAll (Trail.ofSource (c.engine.anchored base) source)).say
        (compiled p)).chronicle.printed = [] :=
      (Chronicle.printed_say _ _).trans ((printed_sayAll s _).trans hs)
    generalize (s.sayAll (Trail.ofSource (c.engine.anchored base) source)).say (compiled p) = s₁
      at h hstart ⊢
    have hcollects : (Scheduler.start (c.engine.anchored base) s₁.machine s₁.chronicle).Collects :=
      hstart.symm
    cases hr : (p.run (.start (c.engine.anchored base) s₁.machine s₁.chronicle)).result with
    | error err => simp only [hr] at h; cases h
    | ok v =>
      simp only [hr] at h ⊢
      cases h
      have hend := (Program.compiled_of_compile hc).collects hcollects hr
      refine hend.trans (Eq.symm ?_)
      refine (Chronicle.printed_say _ _).trans ?_
      exact printed_pushSteps _ 1 _

end Build
end Polyglot

namespace Polyglot
open Text.Utf8

theorem Reply.printed_eq (r : Reply) : r.printed = lossy r.output :=
  flatten_lossy (chunked_chunks r.output)

namespace OutputEntry

def streamed (unit : Text) (bs : Bytes) : List OutputEntry :=
  (chunks bs).map (.stdout unit ∘ lossy)

theorem allPrinted_streamed (unit : Text) (bs : Bytes) :
    allPrinted (streamed unit bs) = lossy bs := by
  rw [← flatten_lossy (chunked_chunks bs), allPrinted, streamed, List.flatMap_def, List.map_map]
  rfl

end OutputEntry

theorem Chronicle.entries_output (es : List OutputEntry) :
    Chronicle.entries (es.map .output) = es := by
  rw [entries, List.filterMap_map]
  exact List.filterMap_some

namespace Workshop

theorem entries_pushChunks (w : Workshop) (unit : Text) (bs : Bytes) :
    (w.pushChunks unit (chunksOf bs)).chronicle.entries =
      w.chronicle.entries ++ OutputEntry.streamed unit bs := by
  rw [chronicle_pushChunks, Chronicle.entries_append, chunksOf, List.map_map, Function.comp_assoc,
    ← List.map_map, Chronicle.entries_output, OutputEntry.streamed]

theorem entries_conclude (w : Workshop) (u : GuestUnit) (r : Reply) :
    (w.conclude u r).state.chronicle.entries =
      w.chronicle.entries ++ OutputEntry.streamed u.hash r.output := by
  simp only [conclude]
  split
  · exact (continues_mentionErrors _ _ _).entries.trans (w.entries_pushChunks u.hash r.output)
  · exact w.entries_pushChunks u.hash r.output

theorem entries_launch (w : Workshop) (spec : TagSpec) (dir : Option Text) (script : Text)
    (u : GuestUnit) :
    (w.launch spec dir script u).state.chronicle.entries = w.chronicle.entries ++
      match w.machine.launch spec.interpreter spec.args script dir with
      | .error _ => []
      | .ok (r, _) => OutputEntry.streamed u.hash r.output := by
  have hspawn := (w.chronicle.entries_say (spawnLine spec.interpreter script))
  cases hl : w.machine.launch spec.interpreter spec.args script dir with
  | error err =>
    simp only [launch, say, hl]
    rw [List.append_nil]
    exact hspawn
  | ok done =>
    obtain ⟨r, m⟩ := done
    simp only [launch, say, hl]
    rw [entries_conclude]
    exact congrArg (· ++ OutputEntry.streamed u.hash r.output) hspawn

end Workshop

/-- What the way of a unit through the workshop pushes and keeps of the output: nothing, or what
one process wrote. -/
inductive Passage.Streams (u : GuestUnit) (w : Workshop) (p : Passage) : Prop
  | silent (hs : p.workshop.machine.spawns = w.machine.spawns)
      (hc : p.workshop.chronicle.entries = w.chronicle.entries) (hp : p.printed = [])
  | process (hs : ∃ x, p.workshop.machine.spawns = w.machine.spawns ++ [x])
      (hc : p.workshop.chronicle.entries =
        w.chronicle.entries ++ OutputEntry.streamed u.hash w.machine.nextReply.output)
      (hp : p.printed = if w.machine.nextReply.status.succeeded then
        lossy w.machine.nextReply.output else [])

namespace Passage
variable {u : GuestUnit} {w w' : Workshop} {p : Passage}

theorem Streams.of_files (h : Streams u w' p) (hm : w.machine.SameButFiles w'.machine)
    (hc : w'.chronicle.entries = w.chronicle.entries) : Streams u w p := by
  obtain ⟨fs, hfiles⟩ := hm
  have hspawns : w'.machine.spawns = w.machine.spawns := by rw [hfiles]
  have hreply : w'.machine.nextReply = w.machine.nextReply := by rw [hfiles]; rfl
  cases h with
  | silent hs he hp => exact .silent (hs.trans hspawns) (he.trans hc) hp
  | process hs he hp =>
    rw [hspawns] at hs
    rw [hc, hreply] at he
    rw [hreply] at hp
    exact .process hs he hp

theorem Streams.collect (h : Streams u w p) : Streams u w (p.collect u).state := by
  unfold Passage.collect
  split
  · have hsay : ∀ values, (p.sayResult u values).workshop.chronicle.entries =
        p.workshop.chronicle.entries := fun values => Chronicle.entries_say _ _
    cases h with
    | silent hs hc hp => exact .silent hs ((hsay _).trans hc) hp
    | process hs hc hp => exact .process hs ((hsay _).trans hc) hp
  · exact h

theorem streams_runScript (hp : p.printed = []) (spec : TagSpec) (dir : Option Text)
    (u : GuestUnit) (path : Text) : Streams u p.workshop (p.runScript spec dir u path).state := by
  have hentries := p.workshop.entries_launch spec dir path u
  rw [runScript, work]
  obtain ⟨w', err, hw', hl, hf⟩ | ⟨w', r, -, hl, hf⟩ := p.workshop.launch_cases spec dir path u
  · rw [hl, hf, List.append_nil] at hentries
    rw [hf]
    exact .silent (congrArg Machine.spawns hw') hentries hp
  · rw [hl, hf] at hentries
    obtain ⟨rfl, d, hafter⟩ := Machine.exists_of_launch hl
    have hspawned : ∃ x, w'.machine.spawns = p.workshop.machine.spawns ++ [x] :=
      ⟨_, congrArg Machine.spawns hafter⟩
    rw [hf]
    cases hr : p.workshop.machine.nextReply.status.succeeded with
    | false =>
      rw [hr] at hentries
      exact .process hspawned hentries (by rw [hr]; exact hp)
    | true =>
      rw [hr] at hentries
      have hkept : Streams u p.workshop
          { p with workshop := w', printed := p.workshop.machine.nextReply.printed } :=
        .process hspawned hentries (by rw [hr]; exact Reply.printed_eq _)
      exact hkept.collect

theorem streams_travel (e : Engine) (u : GuestUnit) (w : Workshop) :
    Streams u w (travel ⟨w, .ofUnit u, []⟩ e u).state := by
  cases hs : e.specFor? u.language with
  | none =>
    simp only [travel, hs]
    exact .silent rfl rfl rfl
  | some spec =>
    have hpersist := (w.continues_persist u).entries
    have hfiles := w.persist_machine u
    simp only [travel, hs, work]
    obtain ⟨w₁, path, hp⟩ | ⟨w₁, err, hp⟩ := (w.persist u).cases_result
    · rw [hp] at hpersist hfiles ⊢
      have hwritten := ((continues_advance ⟨w₁, .ofUnit u, []⟩ .written).trans
        (continues_advance _ .running)).entries
      exact (streams_runScript rfl spec e.workingDir u path).of_files hfiles
        (hwritten.trans hpersist)
    · rw [hp] at hpersist hfiles ⊢
      exact .silent (spawns_of_sameButFiles hfiles) hpersist rfl

end Passage

namespace Scheduler

theorem dispatch_told (s : Scheduler) (u : GuestUnit) (g : Globals) (order : List Text) :
    let p := (Passage.travel ⟨s.workshop, .ofUnit u, []⟩ s.engine u).state
    let d := (s.dispatch u g order).scheduler
    d.workshop.machine = p.workshop.machine ∧
      d.chronicle.entries = p.workshop.chronicle.entries ∧ d.stdout = s.stdout ++ p.printed := by
  intro p
  simp only [Scheduler.dispatch]
  split
  · exact ⟨rfl, (Chronicle.entries_say _ _).trans (Chronicle.entries_say _ _), rfl⟩
  · exact ⟨rfl, (Chronicle.entries_say _ _).trans (Chronicle.entries_say _ _), rfl⟩

/-- Decoding chunk by chunk gives the decoding of the whole. A dispatch pushes nothing and keeps no
output, or it ran one process, whose output it pushed chunk by chunk; what it keeps of a process
that succeeds is what it pushed. -/
theorem streams_dispatch (s : Scheduler) (u : GuestUnit) (g : Globals) (order : List Text) :
    (∀ bs, Chunked bs (chunks bs) ∧ (∀ t, Decoded bs t ↔ t = lossy bs) ∧
      ((chunks bs).map lossy).flatten = lossy bs) ∧
    let d := (s.dispatch u g order).scheduler
    let reply := s.workshop.machine.nextReply
    (d.workshop.machine.spawns = s.workshop.machine.spawns ∧
      d.chronicle.entries = s.chronicle.entries ∧ d.stdout = s.stdout) ∨
    (∃ x, d.workshop.machine.spawns = s.workshop.machine.spawns ++ [x]) ∧
      ∃ entries, d.chronicle.entries = s.chronicle.entries ++ entries ∧
        entries = (chunks reply.output).map (.stdout u.hash ∘ lossy) ∧
        OutputEntry.allPrinted entries = lossy reply.output ∧
        d.stdout = s.stdout ++ if reply.status.succeeded then OutputEntry.allPrinted entries
          else [] := by
  refine ⟨fun bs => ⟨chunked_chunks bs, fun t => decoded_iff, ?_⟩, ?_⟩
  · exact flatten_lossy (chunked_chunks bs)
  obtain ⟨hm, hc, ht⟩ := s.dispatch_told u g order
  intro d reply
  rw [hm, hc, ht]
  cases Passage.streams_travel s.engine u s.workshop with
  | silent hs he hp => exact .inl ⟨hs, he, by rw [hp, List.append_nil]⟩
  | process hs he hp =>
    refine .inr ⟨hs, OutputEntry.streamed u.hash reply.output, he, rfl, ?_, ?_⟩
    · exact OutputEntry.allPrinted_streamed u.hash reply.output
    · rw [hp, OutputEntry.allPrinted_streamed]

end Scheduler
end Polyglot
