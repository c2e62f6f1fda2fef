import Polyglot.Proofs.Run.Passage

/-!
# What a dispatch tells

A dispatch adds to the chronicle and takes nothing back. If it gets as far as a process,
one line names the program and the script, and behind it stands what the process printed,
chunk by chunk; all else that a dispatch says is aside from that.
-/
namespace Polyglot

namespace Workshop

def spawnWord : Text := "spawn"

def spawnLine (program script : Text) : LogLine :=
  ⟨.debug, .phase .run, spawnWord, [("program", program), ("script", script)]⟩

end Workshop

def Event.IsAside (x : Event) : Prop := ∃ l : LogLine, x = .log l ∧ l.message ≠ Workshop.spawnWord

namespace Chronicle

def Continues (c c' : Chronicle) : Prop := ∃ xs, c' = c ++ xs ∧ ∀ x ∈ xs, x.IsAside

theorem Continues.refl (c : Chronicle) : Continues c c :=
  ⟨[], (List.append_nil c).symm, List.forall_mem_nil _⟩

theorem Continues.trans {c c' c'' : Chronicle} (h : Continues c c') (k : Continues c' c'') :
    Continues c c'' := by
  obtain ⟨xs, rfl, hx⟩ := h
  obtain ⟨ys, rfl, hy⟩ := k
  exact ⟨xs ++ ys, List.append_assoc c xs ys, List.forall_mem_append.2 ⟨hx, hy⟩⟩

theorem continues_say (c : Chronicle) {level : Level} {channel : Channel} {message : Text}
    {fields : List (Text × Text)} (h : message ≠ Workshop.spawnWord) :
    Continues c (c.say ⟨level, channel, message, fields⟩) :=
  ⟨[.log ⟨level, channel, message, fields⟩], rfl, List.forall_mem_singleton.2 ⟨_, rfl, h⟩⟩

theorem entries_append (c d : Chronicle) : (c ++ d).entries = c.entries ++ d.entries :=
  List.filterMap_append

theorem Continues.entries {c c' : Chronicle} (h : Continues c c') : c'.entries = c.entries := by
  obtain ⟨xs, rfl, hx⟩ := h
  have hnone : (xs : Chronicle).entries = [] := by
    refine List.filterMap_eq_nil_iff.2 fun x hm => ?_
    obtain ⟨l, rfl, -⟩ := hx x hm
    rfl
  rw [entries_append, hnone, List.append_nil]

theorem printed_append (c d : Chronicle) : (c ++ d).printed = c.printed ++ d.printed := by
  simp [printed, entries_append, OutputEntry.allPrinted]

theorem Continues.printed {c c' : Chronicle} (h : Continues c c') : c'.printed = c.printed := by
  rw [Chronicle.printed, h.entries]
  rfl

def process (program script unit : Text) (chunks : List Text) : Chronicle :=
  .log (Workshop.spawnLine program script) :: chunks.map (Event.output ∘ .stdout unit)

theorem printed_process (program script unit : Text) (chunks : List Text) :
    (process program script unit chunks).printed = chunks.flatten := by
  induction chunks with
  | nil => rfl
  | cons t r ih => exact congrArg (t ++ ·) ih

def startOf : Event → Option (Text × Text)
  | .log ⟨_, _, message, [(_, program), (_, script)]⟩ =>
    if message = Workshop.spawnWord then some (program, script) else none
  | _ => none

def starts (c : Chronicle) : List (Text × Text) := c.filterMap startOf

theorem starts_append (c d : Chronicle) : starts (c ++ d) = starts c ++ starts d :=
  List.filterMap_append

theorem Continues.starts {c c' : Chronicle} (h : Continues c c') : starts c' = starts c := by
  obtain ⟨xs, rfl, hx⟩ := h
  have hnone : Chronicle.starts xs = [] := by
    refine List.filterMap_eq_nil_iff.2 fun x hm => ?_
    obtain ⟨l, rfl, hl⟩ := hx x hm
    unfold startOf
    split
    · next heq =>
      cases heq
      exact if_neg hl
    · rfl
  rw [starts_append, hnone, List.append_nil]

theorem starts_process (program script unit : Text) (chunks : List Text) :
    starts (process program script unit chunks) = [(program, script)] := by
  have hnone : (chunks.map (Event.output ∘ .stdout unit)).filterMap startOf = [] := by
    rw [List.filterMap_eq_nil_iff]
    rintro x hx
    obtain ⟨t, -, rfl⟩ := List.mem_map.1 hx
    rfl
  rw [starts, process, List.filterMap_cons, hnone]
  rfl

end Chronicle

namespace Workshop
open Chronicle (Continues continues_say)
variable {w w' : Workshop} {u : GuestUnit}

theorem continues_ensure (w : Workshop) : Continues w.chronicle w.ensure.state.chronicle := by
  simp only [ensure]
  split
  · exact .refl _
  · split
    · exact .refl _
    · split
      · exact .refl _
      · exact continues_say _ (by decide)

theorem continues_clearResult (w : Workshop) (u : GuestUnit) :
    Continues w.chronicle (w.clearResult u).state.chronicle := by
  simp only [clearResult]
  split
  · exact continues_say _ (by decide)
  · exact .refl _
  · exact .refl _

theorem continues_writeSource (w : Workshop) (u : GuestUnit) :
    Continues w.chronicle (w.writeSource u).state.chronicle := by
  simp only [writeSource]
  split <;> exact .refl _

theorem continues_persist (w : Workshop) (u : GuestUnit) :
    Continues w.chronicle (w.persist u).state.chronicle := by
  rw [persist]
  refine Outcome.andThen_state (P := fun x : Workshop => Continues w.chronicle x.chronicle)
    w.continues_ensure fun w₁ _ h₁ => ?_
  refine Outcome.andThen_state (P := fun x : Workshop => Continues w.chronicle x.chronicle)
    (h₁.trans (w₁.continues_clearResult u)) fun w₂ _ h₂ => ?_
  exact h₂.trans (w₂.continues_writeSource u)

theorem chronicle_pushChunks (w : Workshop) (unit : Text) (chunks : List Text) :
    (w.pushChunks unit chunks).chronicle =
      w.chronicle ++ chunks.map (Event.output ∘ .stdout unit) := by
  unfold pushChunks
  induction chunks generalizing w with
  | nil => exact (List.append_nil _).symm
  | cons t r ih =>
    rw [List.foldl_cons, ih, List.map_cons, List.append_cons]
    rfl

theorem continues_mentionErrors (w : Workshop) (u : GuestUnit) (errors : Text) :
    Continues w.chronicle (w.mentionErrors u errors).chronicle := by
  unfold mentionErrors
  split
  · exact .refl _
  · exact continues_say _ (by decide)

theorem exists_process (w : Workshop) (spec : TagSpec) (dir : Option Text) (script : Text)
    (u : GuestUnit) :
    ∃ chunks, Continues (w.chronicle ++
        Chronicle.process spec.interpreter script u.hash chunks)
        (w.launch spec dir script u).state.chronicle ∧
      ∀ t, (w.launch spec dir script u).result = .ok t → t = chunks.flatten := by
  simp only [launch]
  split
  · refine ⟨[], .refl _, fun t ht => ?_⟩
    cases ht
  · next reply machine _ =>
    have hpushed : ({ w.say .debug "spawn" [("program", spec.interpreter), ("script", script)] with
        machine := machine }.pushChunks u.hash (chunksOf reply.output)).chronicle = w.chronicle ++
          Chronicle.process spec.interpreter script u.hash (chunksOf reply.output) := by
      rw [chronicle_pushChunks]
      exact List.append_assoc _ [_] _
    refine ⟨chunksOf reply.output, ?_⟩
    simp only [conclude]
    split
    · refine ⟨?_, fun t ht => (Except.ok.inj ht).symm⟩
      rw [← hpushed]
      exact continues_mentionErrors _ _ _
    · refine ⟨?_, fun t ht => ?_⟩
      · rw [← hpushed]
        exact .refl _
      · cases ht

end Workshop

namespace Passage
open Chronicle (Continues continues_say)

theorem continues_advance (p : Passage) (next : UnitState) :
    Continues p.workshop.chronicle (p.advance next).workshop.chronicle :=
  continues_say _ (by decide)

inductive Tells (e : Engine) (u : GuestUnit) (w : Workshop) (o : Step Globals) : Prop
  | silent (hc : Continues w.chronicle o.state.workshop.chronicle)
      (hr : ∀ values, o.result ≠ .ok values)
      (hs : ∀ spec w₁ path, e.specFor? u.language = some spec → w.persist u ≠ .done w₁ path)
  | process {spec : TagSpec} {w₁ : Workshop} {path : Text} {c : Chronicle} {chunks : List Text}
      (hs : e.specFor? u.language = some spec) (hp : w.persist u = .done w₁ path)
      (hc : Continues w.chronicle c)
      (hc' : Continues (c ++ Chronicle.process spec.interpreter path u.hash chunks)
        o.state.workshop.chronicle)
      (hr : ∀ values, o.result = .ok values → o.state.printed = chunks.flatten)

theorem tells_travel (e : Engine) (u : GuestUnit) (w : Workshop) :
    Tells e u w (travel ⟨w, .ofUnit u, []⟩ e u) := by
  have hpersist := w.continues_persist u
  cases hs : e.specFor? u.language with
  | none =>
    simp only [travel, hs]
    refine .silent (.refl _) (fun values hv => ?_) fun spec w₁ path h => ?_
    · cases hv
    · rw [hs] at h
      cases h
  | some spec =>
    simp only [travel, hs, work]
    obtain ⟨w₁, path, hp⟩ | ⟨w₁, err, hp⟩ := (w.persist u).cases_result
    · rw [hp] at hpersist ⊢
      change Tells e u w ((written ⟨w₁, .ofUnit u, []⟩ path).runScript spec e.workingDir u path)
      have hwritten : Continues w.chronicle
          (written ⟨w₁, .ofUnit u, []⟩ path).workshop.chronicle :=
        hpersist.trans ((continues_advance _ .written).trans (continues_advance _ .running))
      generalize written ⟨w₁, .ofUnit u, []⟩ path = p at hwritten ⊢
      obtain ⟨chunks, hc, ht⟩ := p.workshop.exists_process spec e.workingDir path u
      rw [runScript, work]
      obtain ⟨w', t, hl⟩ | ⟨w', err, hl⟩ :=
        (p.workshop.launch spec e.workingDir path u).cases_result
      · rw [hl] at hc ht ⊢
        change Tells e u w (collect { p with workshop := w', printed := t } u)
        unfold collect
        split
        · refine .process hs hp hwritten (hc.trans ?_) fun _ _ => ht t rfl
          exact continues_say _ (by decide)
        · refine .process hs hp hwritten hc fun values hv => ?_
          cases hv
      · rw [hl] at hc ⊢
        refine .process hs hp hwritten hc fun values hv => ?_
        cases hv
    · rw [hp] at hpersist ⊢
      refine .silent hpersist (fun values hv => ?_) fun spec w₂ path _ h => ?_
      · cases hv
      · rw [hp] at h
        cases h

end Passage
end Polyglot
