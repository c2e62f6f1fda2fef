import Polyglot.Proofs.Run.Interpreter
import Polyglot.Proofs.Run.Provenance

/-!
# Hidden globals

A global whose name a language cannot declare stays out of sight of the units in that
language, and the run says so once for each name and language. Main statement: the report
stands among the warnings when a unit of the language is dispatched, no other warning
reports the same, and the output shows the warnings that the run has collected.
-/
namespace Polyglot

theorem Text.isDigit_of_mem_decimal {n : Nat} {c : Char} (h : c ∈ decimal n) :
    c.isDigit = true := Nat.isDigit_of_mem_toDigits (by decide) (by decide) h

theorem onLine_inj {j k : Nat} {a b : Text} (h : onLine j a = onLine k b) : a = b := by
  have hdrop : ∀ (n : Nat) (t : Text),
      (Text.decimal n ++ (": " ++ t)).dropWhile Char.isDigit = ": " ++ t := fun n t =>
    (List.dropWhile_append_of_pos fun c hc => Text.isDigit_of_mem_decimal hc).trans rfl
  delta onLine at h
  simp only [List.append_assoc, List.append_cancel_left_eq] at h
  have hd := congrArg (List.dropWhile Char.isDigit) h
  rw [hdrop, hdrop] at hd
  exact List.append_cancel_left hd

namespace RunState

def Reports (n : Text) (l : Language) (m : Text) : Prop := ∃ line, m = hiddenMessage n l line

def hiddenEnding (l : Language) : Text :=
  "'" ++ (" is not a valid " ++ (l.name ++ " name and is not visible there"))

theorem Reports.unique {n n' m : Text} {l l' : Language} (h : Reports n l m)
    (h' : Reports n' l' m) : n = n' ∧ l = l' := by
  obtain ⟨j, rfl⟩ := h
  obtain ⟨k, h'⟩ := h'
  have hsaid : n ++ hiddenEnding l = n' ++ hiddenEnding l' := by
    have hsaid := onLine_inj h'
    simp only [quotedName, List.append_assoc, List.append_cancel_left_eq] at hsaid
    exact hsaid
  by_cases hl : l = l'
  · subst hl
    exact ⟨List.append_cancel_right hsaid, rfl⟩
  · -- Neither ending is the end of the other.
    have hpy : ∀ x y : Text, x ++ hiddenEnding .python ≠ y ++ hiddenEnding .javascript := by
      intro x y he
      have hs : hiddenEnding .python <:+ hiddenEnding .javascript :=
        List.suffix_of_suffix_length_le (List.suffix_append x _) (he ▸ List.suffix_append y _)
          (by decide)
      exact absurd hs (by decide)
    cases l <;> cases l'
    · exact absurd rfl hl
    · exact absurd hsaid.symm (hpy _ _)
    · exact absurd hsaid (hpy _ _)
    · exact absurd rfl hl

theorem not_reports_of_head {n : Text} {l : Language} {line : Nat} {said : Text}
    (h : said.head? ≠ some 'g') : ¬ Reports n l (onLine line said) := by
  rintro ⟨k, hk⟩
  rw [onLine_inj hk] at h
  exact h rfl

theorem not_reports_skip (n : Text) (l : Language) (line : Nat) :
    ¬ Reports n l (Execution.skipMessage line) := not_reports_of_head (by decide)

theorem not_reports_segment (n : Text) (l : Language) (w : SegmentWarning) :
    ¬ Reports n l w.message := by
  cases w with
  | empty tag line => exact not_reports_of_head (show some '[' ≠ some 'g' by decide)
  | trailing tag line => exact not_reports_of_head (show some 't' ≠ some 'g' by decide)

end RunState

namespace Chronicle

def warningOf : OutputEntry → Option Text
  | .warning message => some message
  | _ => none

def warned (c : Chronicle) : List Text := c.entries.filterMap warningOf

theorem warned_append (c d : Chronicle) : warned (c ++ d) = warned c ++ warned d := by
  rw [warned, entries_append, List.filterMap_append, warned, warned]

theorem Continues.warned {c c' : Chronicle} (h : Continues c c') : c'.warned = c.warned := by
  rw [Chronicle.warned, h.entries, Chronicle.warned]

theorem warned_process (program script unit : Text) (chunks : List Text) :
    (process program script unit chunks).warned = [] := by
  induction chunks with
  | nil => rfl
  | cons t r ih => exact ih

end Chronicle

theorem Scheduler.warned_dispatch (s : Scheduler) (u : GuestUnit) (g : Globals)
    (order : List Text) : (s.dispatch u g order).scheduler.chronicle.warned =
      s.chronicle.warned := by
  refine (s.workshop_dispatch u g order).2.warned.trans ?_
  cases Passage.tells_travel s.engine u s.workshop with
  | silent hc hr hs => exact hc.warned
  | process hs hp hc hc' hr =>
    rw [hc'.warned, Chronicle.warned_append, Chronicle.warned_process, List.append_nil]
    exact hc.warned

/-- The warnings of the run are those of the compilation, then those of the run itself. The
output has them too, behind what it had before; and the hidden names that are noted are
those that a warning reports, each in one. -/
structure RunState.Told (p : Program) (c : Chronicle) (s : RunState) : Prop where
  first : p.warnings.map (·.message) <+: s.warnings
  sink : s.scheduler.chronicle.warned = c.warned ++ s.warnings
  once : s.warnings.Pairwise fun a b => ∀ n l, Reports n l a → ¬ Reports n l b
  hidden : ∀ n l, (n, l) ∈ s.hidden ↔ ∃ m ∈ s.warnings, Reports n l m

def RunState.Noted (s : RunState) (l : Language) : Prop :=
  ∀ n ∈ s.globals.hidden l, (n, l) ∈ s.hidden

/-- One of the warnings reports that the global is hidden from the language, and no other
one does. -/
def ReportedOnce (n : Text) (l : Language) (warnings : List Text) : Prop :=
  ∃ before m after, warnings = before ++ m :: after ∧ RunState.Reports n l m ∧
    ∀ x ∈ before ++ after, ¬ RunState.Reports n l x

namespace RunState
variable {p : Program} {c : Chronicle} {s : RunState}

theorem Told.reportedOnce (h : s.Told p c) {l : Language} (hn : s.Noted l) {n : Text}
    (hg : n ∈ s.globals.hidden l) : ReportedOnce n l s.warnings := by
  obtain ⟨m, hm, hr⟩ := (h.hidden n l).1 (hn n hg)
  obtain ⟨before, after, he⟩ := List.append_of_mem hm
  have ho := h.once
  rw [he, List.pairwise_append, List.pairwise_cons] at ho
  obtain ⟨-, ⟨hafter, -⟩, hbefore⟩ := ho
  refine ⟨before, m, after, he, hr, List.forall_mem_append.2 ⟨fun x hx hrx => ?_, fun x hx => ?_⟩⟩
  · exact hbefore x hx m List.mem_cons_self n l hrx hr
  · exact hafter x hx n l hr

theorem Told.say (h : s.Told p c) (l : LogLine) : (s.say l).Told p c :=
  ⟨h.first, (congrArg (List.filterMap _) (Chronicle.entries_say _ l)).trans h.sink, h.once,
    h.hidden⟩

theorem warned_record (s : RunState) (message : Text) :
    (s.record message).scheduler.chronicle.warned = s.scheduler.chronicle.warned ++ [message] := by
  have he : (s.record message).scheduler.chronicle.entries =
      s.scheduler.chronicle.entries ++ [.warning message] := Chronicle.entries_push _ _
  rw [Chronicle.warned, he, List.filterMap_append]
  rfl

theorem Told.record (h : s.Told p c) {message : Text} (hm : ∀ n l, ¬ Reports n l message) :
    (s.record message).Told p c := by
  refine ⟨h.first.trans (List.prefix_append _ _), ?_, ?_, fun n l => ?_⟩
  · rw [warned_record, h.sink, List.append_assoc]
    rfl
  · exact List.pairwise_append.2 ⟨h.once, List.pairwise_singleton _ _, fun a _ b hb n l _ => by
      rw [List.mem_singleton.1 hb]
      exact hm n l⟩
  · refine (h.hidden n l).trans ⟨?_, ?_⟩
    · rintro ⟨m, hs, hr⟩
      exact ⟨m, List.mem_append_left _ hs, hr⟩
    · rintro ⟨m, hs, hr⟩
      rcases List.mem_append.1 hs with hs | hs
      · exact ⟨m, hs, hr⟩
      · exact absurd hr (List.mem_singleton.1 hs ▸ hm n l)

theorem Told.skip (h : s.Told p c) (line : Nat) :
    (s.warn (Execution.skipMessage line)).Told p c :=
  (h.say _).record fun n l => not_reports_skip n l line

theorem Told.noteName (h : s.Told p c) (l : Language) (line : Nat) (n : Text) :
    (noteName l line s n).Told p c := by
  unfold RunState.noteName
  split
  · exact h
  · next hn =>
    have hn : (n, l) ∉ s.hidden := fun hm => hn (List.contains_iff_mem.2 hm)
    have hnew : ∀ n' l', Reports n' l' (hiddenMessage n l line) → n' = n ∧ l' = l :=
      fun n' l' hr => hr.unique ⟨line, rfl⟩
    refine ⟨h.first.trans (List.prefix_append _ _), ?_, ?_, fun n' l' => ?_⟩
    · have hsaid := (h.say ⟨.warn, .phase .run, hiddenMessage n l line, []⟩).sink
      refine (warned_record _ _).trans ?_
      exact (congrArg (· ++ [hiddenMessage n l line]) hsaid).trans (List.append_assoc _ _ _)
    · refine List.pairwise_append.2 ⟨h.once, List.pairwise_singleton _ _, ?_⟩
      intro a ha b hb n' l' hra hrb
      rw [List.mem_singleton.1 hb] at hrb
      obtain ⟨rfl, rfl⟩ := hnew n' l' hrb
      exact hn ((h.hidden n' l').2 ⟨a, ha, hra⟩)
    · change (n', l') ∈ s.hidden ++ [(n, l)] ↔
        ∃ m ∈ s.warnings ++ [hiddenMessage n l line], Reports n' l' m
      rw [List.mem_append, h.hidden, List.mem_singleton, Prod.mk.injEq]
      constructor
      · rintro (⟨m, hm, hr⟩ | ⟨rfl, rfl⟩)
        · exact ⟨m, List.mem_append_left _ hm, hr⟩
        · exact ⟨_, List.mem_append_right _ List.mem_cons_self, line, rfl⟩
      · rintro ⟨m, hm, hr⟩
        rcases List.mem_append.1 hm with hm | hm
        · exact .inl ⟨m, hm, hr⟩
        · exact .inr (hnew n' l' (List.mem_singleton.1 hm ▸ hr))

theorem Told.noteHidden (h : s.Told p c) (l : Language) (line : Nat) :
    (s.noteHidden l line).Told p c := by
  unfold RunState.noteHidden
  generalize s.globals.hidden l = ns
  induction ns generalizing s with
  | nil => exact h
  | cons n r ih => exact ih (h.noteName l line n)

theorem Told.execute (h : s.Told p c) (u : GuestUnit) : (s.execute u).state.Told p c :=
  ⟨h.first, (s.scheduler.warned_dispatch u s.globals s.order).trans h.sink, h.once, h.hidden⟩

theorem told_opening (p : Program) (s : Scheduler) :
    (Execution.opening p s).Told p s.chronicle := by
  have hfold : ∀ (ms : List Text) (s : RunState),
      (ms.foldl RunState.record s).warnings = s.warnings ++ ms ∧
        (ms.foldl RunState.record s).hidden = s.hidden ∧
        (ms.foldl RunState.record s).scheduler.chronicle.warned =
          s.scheduler.chronicle.warned ++ ms := by
    intro ms
    induction ms with
    | nil => exact fun s => ⟨(List.append_nil _).symm, rfl, (List.append_nil _).symm⟩
    | cons m r ih =>
      intro s
      obtain ⟨hw, hh, hc⟩ := ih (s.record m)
      refine ⟨hw.trans (List.append_assoc _ [m] r), hh, ?_⟩
      rw [List.foldl_cons, hc, warned_record, List.append_assoc]
      rfl
  obtain ⟨hw, hh, hc⟩ := hfold (p.warnings.map (·.message)) (.start s)
  have hw : (Execution.opening p s).warnings = p.warnings.map (·.message) := hw
  have hnone : ∀ m ∈ p.warnings.map (·.message), ∀ n l, ¬ Reports n l m := by
    intro m hm n l
    obtain ⟨w, -, rfl⟩ := List.mem_map.1 hm
    exact not_reports_segment n l w
  refine ⟨hw ▸ List.prefix_rfl, hc.trans (by rw [hw]; rfl), ?_, fun n l => ?_⟩
  · rw [hw]
    exact List.pairwise_of_forall_mem_list fun a ha b _ n l hr => absurd hr (hnone a ha n l)
  · rw [hw, Execution.opening, hh]
    exact ⟨fun hm => absurd hm List.not_mem_nil, fun ⟨m, hm, hr⟩ => absurd hr (hnone m hm n l)⟩

theorem hidden_noteName (l : Language) (line : Nat) (s : RunState) (n : Text) :
    (n, l) ∈ (RunState.noteName l line s n).hidden ∧
      ∀ x ∈ s.hidden, x ∈ (RunState.noteName l line s n).hidden := by
  unfold RunState.noteName
  split
  · next hn => exact ⟨List.contains_iff_mem.1 hn, fun x hx => hx⟩
  · exact ⟨List.mem_append_right _ List.mem_cons_self, fun x hx => List.mem_append_left _ hx⟩

theorem noted_noteHidden (s : RunState) (l : Language) (line : Nat) :
    (s.noteHidden l line).Noted l := by
  have hfold : ∀ (ns : List Text) (s : RunState),
      (∀ n ∈ ns, (n, l) ∈ (ns.foldl (RunState.noteName l line) s).hidden) ∧
        ∀ x ∈ s.hidden, x ∈ (ns.foldl (RunState.noteName l line) s).hidden := by
    intro ns
    induction ns with
    | nil => exact fun s => ⟨fun _ hn => (nomatch hn), fun x hx => hx⟩
    | cons n r ih =>
      intro s
      obtain ⟨hn, hs⟩ := hidden_noteName l line s n
      obtain ⟨hr, hkeep⟩ := ih (RunState.noteName l line s n)
      exact ⟨List.forall_mem_cons.2 ⟨hkeep _ hn, hr⟩, fun x hx => hkeep x (hs x hx)⟩
  intro n hn
  rw [(s.quiet_noteHidden l line).globals] at hn
  exact (hfold (s.globals.hidden l) s).1 n hn

theorem Noted.say {s : RunState} {l : Language} (h : s.Noted l) (line : LogLine) :
    (s.say line).Noted l := h

end RunState

def Task.speaks (p : Part) (task : Task) : Language :=
  task.callee?.elim p.segment.language FunctionDef.language

theorem Task.language_of_unit {gen : Generator} {p : Part} {g : Globals} {task : Task}
    {u : GuestUnit} (h : task.Planned gen p) (hu : task.unit? gen p g = .ok u) :
    u.language = task.speaks p := by
  have hl : u.language = (task.slot p).language := congrArg Slot.language (Task.slot_of_unit hu)
  rw [hl]
  cases task with
  | segment => rfl
  | call c f => rfl
  | continuation text line calls returns bound => rfl
  | code t =>
    obtain ⟨g', pre, text, line, bound, post, -, ht⟩ := h
    exact congrArg Template.language ht

structure RunState.Kept (P : RunState → Prop) : Prop where
  say : ∀ {s}, P s → ∀ l, P (s.say l)
  skip : ∀ {s}, P s → ∀ line, P (s.warn (Execution.skipMessage line))
  note : ∀ {s}, P s → ∀ l line, P (s.noteHidden l line)
  execute : ∀ {s}, P s → ∀ u, P (s.execute u).state

structure Throughout (P : RunState → Prop) (ts : List Turn) (s' : RunState) : Prop where
  turns : ∀ t ∈ ts, P t.state ∧ t.state.Noted (t.task.speaks t.part)
  final : P s'

namespace Throughout
variable {P : RunState → Prop} {ts ts' : List Turn} {s s' : RunState}

theorem nil (h : P s) : Throughout P [] s := ⟨List.forall_mem_nil _, h⟩

theorem append (h : Throughout P ts s) (k : Throughout P ts' s') :
    Throughout P (ts ++ ts') s' :=
  ⟨List.forall_mem_append.2 ⟨h.turns, k.turns⟩, k.final⟩

theorem andThen {α β : Type} {o : Running α} {next : RunState → α → Running β}
    {more : RunState → α → List Turn} (h : Throughout P ts o.state)
    (k : ∀ s a, P s → Throughout P (more s a) (next s a).state) :
    Throughout P (ts ++ Execution.follow o more) (o.andThen next).state := by
  cases o with
  | mk s₁ r =>
    cases r with
    | ok a => exact h.append (k s₁ a h.final)
    | error e => simpa [Execution.follow, Outcome.andThen] using h

end Throughout

namespace Execution
variable {P : RunState → Prop} (hP : RunState.Kept P) (gen : Generator) (p : Part)
include hP

theorem throughout_unit {s : RunState} (task : Task) (hn : s.Noted (task.speaks p)) (hs : P s)
    (u : GuestUnit) : Throughout P [⟨p, task, s⟩] (s.execute u).state :=
  ⟨List.forall_mem_singleton.2 ⟨hs, hn⟩, hP.execute hs u⟩

theorem throughout_call {s : RunState} (hs : P s) (c : CallSite) :
    Throughout P (callTurn gen p s c) (runCall gen p.segment.language s c).state := by
  unfold callTurn runCall
  cases gen.functions.find? c.callee with
  | none => exact .nil hs
  | some f =>
    exact throughout_unit hP p (.call c f) ((s.noted_noteHidden f.language c.line).say _)
      (hP.say (hP.note hs f.language c.line) _) _

theorem throughout_calls {s : RunState} (hs : P s) (cs : List CallSite) :
    Throughout P (callTurns gen p s cs) (runCalls gen p.segment.language s cs).state := by
  induction cs generalizing s with
  | nil => exact .nil hs
  | cons c r ih => exact (throughout_call hP gen p hs c).andThen fun s _ hs => ih hs

theorem throughout_continuation (text : Text) (line : Nat) (calls : List CallSite)
    (bound : List Text) {s : RunState} (hs : P s) (returns : List Value) :
    Throughout P (continuationTurn p text line calls bound s returns)
      (afterCalls (p.context gen) text line calls bound s returns).state := by
  unfold continuationTurn afterCalls
  split
  · exact .nil (hP.skip hs line)
  · exact throughout_unit hP p (.continuation text line calls returns bound)
      ((s.noted_noteHidden p.segment.language line).say _)
      (hP.say (hP.note hs p.segment.language line) _) _

theorem throughout_template {s : RunState} (hs : P s) (line : Nat) (t : Template) :
    Throughout P [⟨p, .code t, s.noteHidden p.segment.language line⟩]
      (runTemplate p.segment.language s line t).state := by
  have hs := hP.note hs p.segment.language line
  have hn := s.noted_noteHidden p.segment.language line
  cases hf : t.fill (s.noteHidden p.segment.language line).globals with
  | error e =>
    simp only [runTemplate, hf, Outcome.failed]
    exact ⟨List.forall_mem_singleton.2 ⟨hs, hn⟩, hs⟩
  | ok u =>
    simp only [runTemplate, hf, Outcome.map]
    exact throughout_unit hP p (.code t) hn hs u

theorem throughout_block {s : RunState} (hs : P s) (b : Block × Option Template) :
    Throughout P (blockTurns gen p s b) (runBlock gen (p.context gen) s b).state := by
  obtain ⟨b, t⟩ := b
  cases b with
  | code text line bound =>
    cases t with
    | none => exact .nil hs
    | some t => exact throughout_template hP p hs line t
  | call text line calls bound =>
    exact (throughout_calls hP gen p hs calls).andThen fun s vs hs =>
      throughout_continuation hP gen p text line calls bound hs vs

theorem throughout_blocks {s : RunState} (hs : P s) (bs : List (Block × Option Template)) :
    Throughout P (blocksTurns gen p s bs) (runBlocks gen (p.context gen) s bs).state := by
  induction bs generalizing s with
  | nil => exact .nil hs
  | cons b r ih => exact (throughout_block hP gen p hs b).andThen fun s _ hs => ih hs

theorem throughout_part {s : RunState} (hs : P s) :
    Throughout P (partTurns gen s p) (runPart gen s p).state := by
  have henter : P (enterPart s p) := hP.note (hP.say hs _) _ _
  have hn : (enterPart s p).Noted p.segment.language := RunState.noted_noteHidden _ _ _
  unfold partTurns runPart
  cases hp : p.plan with
  | simple => exact throughout_unit hP p .segment (hn.say _) (hP.say henter _) _
  | split blocks own =>
    have hc : contextOf gen p own = p.context gen := by rw [Part.context, hp]; rfl
    simp only [hc]
    exact throughout_blocks hP gen p henter _

theorem throughout_parts {s : RunState} (hs : P s) (ps : List Part) :
    Throughout P (partsTurns gen s ps) (runParts gen s ps).state := by
  induction ps generalizing s with
  | nil => exact .nil hs
  | cons p r ih => exact (throughout_part hP gen p hs).andThen fun s _ hs => ih hs

end Execution

theorem RunState.kept_told (p : Program) (c : Chronicle) : RunState.Kept (RunState.Told p c) :=
  ⟨Told.say, Told.skip, Told.noteHidden, Told.execute⟩

namespace Program

/-- All along a run the output has the warnings that the run has collected, and each
hidden global is reported once for a language; and when a unit is dispatched, all globals
that its language cannot declare have been reported. -/
theorem hidden_reported_once (p : Program) (s : Scheduler) :
    (∀ t ∈ p.turns s, t.state.Told p s.chronicle ∧
      (t.after (Execution.generatorOf p)).Told p s.chronicle ∧
      ∀ u, t.unit? (Execution.generatorOf p) = .ok u →
        ∀ n ∈ t.state.globals.hidden u.language, ReportedOnce n u.language t.state.warnings) ∧
      (p.run s).state.Told p s.chronicle := by
  have h := Execution.throughout_parts (RunState.kept_told p s.chronicle)
    (Execution.generatorOf p) (RunState.told_opening p s) p.parts
  refine ⟨fun t ht => ?_, h.final⟩
  obtain ⟨htold, hnoted⟩ := h.turns t ht
  refine ⟨htold, ?_, fun u hu n hn => ?_⟩
  · unfold Turn.after
    split
    · exact htold.execute _
    · exact htold
  · rw [← Task.language_of_unit (planned_of_mem ht).2 hu] at hnoted
    exact htold.reportedOnce hnoted hn

/-- A global with a name that only the first language can declare. -/
def dollarSource : Text := "[js]\nlet $a = 1\n[py]\nprint(2)"

def dollarReply : Reply := { result := some (Text.Utf8.encode "\x7b\"$a\":1\x7d") }

theorem hidden_reported_once_dollar :
    ∃ p t u, compile .standard dollarSource = .ok p ∧ t ∈ p.turns (startWith dollarReply) ∧
      t.unit? (Execution.generatorOf p) = .ok u ∧ u.language = .python ∧
      t.state.globals.hidden u.language = ["$a".toList] ∧
      ReportedOnce "$a" .python t.state.warnings := by
  have h : (compile .standard dollarSource).toOption.map (fun p => p.parts.map fun part =>
      (part.plan, part.segment.language)) =
        some [(Plan.simple, Language.javascript), (Plan.simple, Language.python)] := by
    decide +kernel
  have hnamed : namesOf dollarReply = some ["$a".toList] := by decide +kernel
  obtain ⟨p, a, b, hc, hp, ha, hb⟩ := exists_two_parts h
  obtain ⟨hap, -⟩ := Prod.mk.inj ha
  obtain ⟨hbp, hbl⟩ := Prod.mk.inj hb
  obtain ⟨s, hturns, hs⟩ := exists_turns_startWith hp hap hbp hnamed
  have hm : Execution.simpleTurn s b ∈ p.turns (startWith dollarReply) :=
    hturns ▸ List.mem_cons_of_mem _ List.mem_cons_self
  have hnames : (Execution.simpleTurn s b).state.globals.names = ["$a".toList] := by
    rw [(Execution.quiet_simpleTurn s b).globals, hs]
    decide
  have hidden : (Execution.simpleTurn s b).state.globals.hidden .python = ["$a".toList] := by
    rw [Globals.hidden, hnames]
    decide +kernel
  obtain ⟨u, hu, hl⟩ : ∃ u, (Execution.simpleTurn s b).unit? (Execution.generatorOf p) = .ok u ∧
      u.language = .python := ⟨_, rfl, hbl⟩
  have honce := ((hidden_reported_once p (startWith dollarReply)).1 _ hm).2.2 u hu "$a"
  rw [hl, hidden] at honce
  exact ⟨p, _, u, hc, hm, hu, hl, hl ▸ hidden, honce List.mem_cons_self⟩

end Program
end Polyglot
