import Polyglot.Console.Execute
import Polyglot.Proofs.Run.Printing

/-!
# What `build` collects and `run` streams

Both commands read the same options, do the same work and end with the same code. Both
show the same: what the guests printed, the log lines that the levels let through, the
notices, and a closing text. They differ in one thing, which the error stream shows. A run
shows log lines and notices as they come, and a build the notices behind all log lines.
-/
namespace Polyglot

namespace Event

def printed : Event → Text
  | .log _ => []
  | .output e => e.printed

def noticeText : Event → Text
  | .log _ => []
  | .output (.stdout _ _) => []
  | .output (.warning m) => Screen.warningText m ++ ['\n']
  | .output (.info m) => m ++ ['\n']

def lineText (v : Screen.LogView) : Event → Text
  | .log l => v l
  | .output _ => []

end Event

namespace Chronicle

theorem printed_eq (c : Chronicle) : c.printed = c.flatMap Event.printed := by
  induction c with
  | nil => rfl
  | cons x r ih =>
    rw [List.flatMap_cons, ← ih]
    cases x <;> rfl

/-- No log line that is shown stands behind a notice. -/
def LogFirst (v : Screen.LogView) (c : Chronicle) : Prop :=
  c.Pairwise fun x y => x.noticeText = [] ∨ y.lineText v = []

theorem LogFirst.flatMap {v : Screen.LogView} {c : Chronicle} (h : c.LogFirst v) :
    (c.flatMap fun x => x.lineText v ++ x.noticeText) =
      c.flatMap (Event.lineText v) ++ c.flatMap Event.noticeText := by
  induction c with
  | nil => rfl
  | cons x r ih =>
    obtain ⟨hx, hr⟩ := List.pairwise_cons.1 h
    have hswap : x.noticeText ++ r.flatMap (Event.lineText v) =
        r.flatMap (Event.lineText v) ++ x.noticeText := by
      by_cases hn : x.noticeText = []
      · rw [hn, List.append_nil, List.nil_append]
      · have hl : r.flatMap (Event.lineText v) = [] :=
          List.flatMap_eq_nil_iff.2 fun y hy => (hx y hy).resolve_left hn
        rw [hl, List.append_nil, List.nil_append]
    rw [List.flatMap_cons, List.flatMap_cons, List.flatMap_cons, ih hr, List.append_assoc,
      List.append_assoc, ← List.append_assoc x.noticeText, hswap, List.append_assoc]

end Chronicle

namespace Screen

theorem foldl_appends {α : Type} {f : Screen → α → Screen} {out err : α → Text}
    (h : ∀ s a, f s a = ⟨s.stdout ++ out a, s.stderr ++ err a⟩) (s : Screen) (l : List α) :
    l.foldl f s = ⟨s.stdout ++ l.flatMap out, s.stderr ++ l.flatMap err⟩ := by
  induction l generalizing s with
  | nil => simp
  | cons a r ih => rw [List.foldl_cons, ih, h]; simp

theorem showEntry_eq (s : Screen) (e : OutputEntry) :
    s.showEntry e = ⟨s.stdout ++ e.printed, s.stderr ++ (Event.output e).noticeText⟩ := by
  cases e <;> simp [showEntry, print, noteLine, note, OutputEntry.printed, Event.noticeText]

theorem showNotice_eq (s : Screen) (e : OutputEntry) :
    s.showNotice e = ⟨s.stdout ++ [], s.stderr ++ (Event.output e).noticeText⟩ := by
  cases e <;> simp [showNotice, showEntry, OutputEntry.isPrinted, noteLine, note, Event.noticeText]

theorem showLine_eq (v : LogView) (s : Screen) (l : LogLine) :
    showLine v s l = ⟨s.stdout, s.stderr ++ (Event.log l).lineText v⟩ := rfl

theorem showEvent_eq (v : LogView) (s : Screen) (x : Event) :
    showEvent v s x = ⟨s.stdout ++ x.printed, s.stderr ++ (x.lineText v ++ x.noticeText)⟩ := by
  cases x with
  | log l => simp [showEvent, showLine_eq, Event.printed, Event.noticeText]
  | output e => simp [showEvent, showEntry_eq, Event.printed, Event.lineText]

theorem showLog_eq (v : LogView) (s : Screen) (x : Event) :
    showLog v s x = ⟨s.stdout ++ [], s.stderr ++ x.lineText v⟩ := by
  cases x with
  | log l => simp [showLog, showLine_eq]
  | output e => simp [showLog, Event.lineText]

theorem streamed_eq (v : LogView) (c : Chronicle) :
    streamed v c = ⟨c.printed, c.flatMap fun x => x.lineText v ++ x.noticeText⟩ := by
  rw [streamed, foldl_appends (showEvent_eq v), c.printed_eq]
  rfl

theorem logged_eq (v : LogView) (c : Chronicle) :
    logged v c = ⟨[], c.flatMap (Event.lineText v)⟩ := by
  rw [logged, foldl_appends (showLog_eq v)]
  simp

theorem flatMap_entries (c : Chronicle) :
    (c.entries.flatMap fun e => (Event.output e).noticeText) = c.flatMap Event.noticeText := by
  induction c with
  | nil => rfl
  | cons x r ih =>
    rw [List.flatMap_cons, ← ih]
    cases x <;> rfl

theorem foldl_showEntry (s : Screen) (c : Chronicle) :
    c.entries.foldl showEntry s =
      ⟨s.stdout ++ c.printed, s.stderr ++ c.flatMap Event.noticeText⟩ := by
  rw [foldl_appends showEntry_eq, flatMap_entries]
  rfl

theorem foldl_showNotice (s : Screen) (c : Chronicle) :
    c.entries.foldl showNotice s = ⟨s.stdout, s.stderr ++ c.flatMap Event.noticeText⟩ := by
  rw [foldl_appends showNotice_eq, flatMap_entries]
  simp

end Screen

/-- How a build and a run of the same order end, when `c` is what was said until then. -/
structure Ending.Paired (v : Screen.LogView) (c : Chronicle) (b r : Ending) : Prop where
  code : b.code = r.code
  machine : b.machine = r.machine
  collected : b.screen.stdout = c.printed
  streamed : r.screen.stdout = c.printed
  closing : ∃ t, b.screen.stderr =
      c.flatMap (Event.lineText v) ++ c.flatMap Event.noticeText ++ t ∧
    r.screen.stderr = (c.flatMap fun x => x.lineText v ++ x.noticeText) ++ t

theorem Ending.Paired.screen_eq {v : Screen.LogView} {c : Chronicle} {b r : Ending}
    (h : Paired v c b r) (hc : c.LogFirst v) : b.screen = r.screen := by
  obtain ⟨t, hb, hr⟩ := h.closing
  obtain ⟨code, ⟨stdout, stderr⟩, m⟩ := b
  obtain ⟨code', ⟨stdout', stderr'⟩, m'⟩ := r
  rw [Screen.mk.injEq]
  exact ⟨h.collected.trans h.streamed.symm, hb.trans (hc.flatMap ▸ hr.symm)⟩

namespace Order

def closingText (o : Order) (r : BuildResult) : Text :=
  (if o.showOrder then Tables.order r.order else []) ++
    if o.bench then Tables.times r.timings r.units else []

theorem showTables_eq (o : Order) (r : BuildResult) (s : Screen) :
    o.showTimes r (o.showOrderOf r s) = s.note (o.closingText r) := by
  have hnote : ∀ (s : Screen) (shown : Bool) (t : Text),
      (if shown then s.note t else s) = s.note (if shown then t else []) := by
    intro s shown t
    cases shown with
    | true => rfl
    | false => simp [Screen.note]
  have horder : o.showOrderOf r s = s.note (if o.showOrder then Tables.order r.order else []) :=
    hnote _ _ _
  have htimes : ∀ s : Screen,
      o.showTimes r s = s.note (if o.bench then Tables.times r.timings r.units else []) :=
    fun s => hnote s _ _
  rw [htimes, horder, Screen.note, Screen.note, Screen.note, closingText, List.append_assoc]

/-- The session in which the work on an order ends, for a command that builds. -/
def lastSession (o : Order) (m : Machine) : Session :=
  match o.openLog m with
  | .error _ => ⟨m, []⟩
  | .ok m =>
    let prepared := o.prepare ⟨m, []⟩
    match prepared.result with
    | .error _ => prepared.state
    | .ok p =>
      (Build.ofSource p.settings (Path.baseDir p.project.entry) p.source prepared.state).state

theorem state_loadSource (p : Project) (c : BuildSettings) (s : Session) :
    (loadSource p c s).state = s := by
  unfold loadSource
  split <;> rfl

theorem state_applySettings (o : Order) (p : Project) (s : Session) :
    (o.applySettings p s).state = s := by
  unfold applySettings
  split
  · rfl
  · split
    · rfl
    · exact state_loadSource _ _ s

theorem entries_prepare (o : Order) (s : Session) :
    (o.prepare s).state.chronicle.entries = s.chronicle.entries := by
  unfold prepare
  split
  · rfl
  · rw [state_applySettings]
    exact Chronicle.entries_say _ _

theorem paired_refuse {v : Screen.LogView} {c : Chronicle} (h : c.entries = []) (m : Machine)
    (r : Refusal) :
    Ending.Paired v c (refuse (Screen.logged v c) m r) (refuse (Screen.logged v c) m r) := by
  have hprinted : c.printed = [] := by
    rw [Chronicle.printed, h]
    rfl
  have hnotices : c.flatMap Event.noticeText = [] := by
    rw [← Screen.flatMap_entries, h]
    rfl
  have hfirst : c.LogFirst v :=
    List.pairwise_of_forall_mem_list fun x hx _ _ =>
      .inl (List.flatMap_eq_nil_iff.1 hnotices x hx)
  have hstdout : (refuse (Screen.logged v c) m r).screen.stdout = c.printed := by
    rw [Screen.logged_eq, hprinted]
    rfl
  have hstderr : (refuse (Screen.logged v c) m r).screen.stderr =
      c.flatMap (Event.lineText v) ++ (r.text ++ ['\n']) := by
    rw [Screen.logged_eq]
    rfl
  refine ⟨rfl, rfl, hstdout, hstdout, r.text ++ ['\n'], ?_, ?_⟩
  · rw [hstderr, hnotices, List.append_nil]
  · rw [hstderr, hfirst.flatMap, hnotices, List.append_nil]

theorem showBuilt_build (texts : Console.Texts) (o : Order) (c : Chronicle) (r : BuildResult) :
    showBuilt texts { o with command := .build } c r = ⟨r.stdout,
      c.flatMap (Event.lineText (o.view texts)) ++ c.flatMap Event.noticeText ++
        o.closingText r⟩ := by
  have hshown : c.entries.foldl Screen.showNotice (Screen.logged (o.view texts) c) =
      ⟨[], c.flatMap (Event.lineText (o.view texts)) ++ c.flatMap Event.noticeText⟩ := by
    rw [Screen.foldl_showNotice, Screen.logged_eq]
  rw [showBuilt, showTables_eq]
  change ((c.entries.foldl Screen.showNotice (Screen.logged (o.view texts) c)).print r.stdout).note
    (o.closingText r) = _
  rw [hshown]
  rfl

theorem showBuilt_run (texts : Console.Texts) (o : Order) (c : Chronicle) (r : BuildResult) :
    showBuilt texts { o with command := .run } c r =
      ⟨c.printed,
        (c.flatMap fun x => x.lineText (o.view texts) ++ x.noticeText) ++ o.closingText r⟩ := by
  rw [showBuilt, showTables_eq]
  change (Screen.streamed (o.view texts) c).note (o.closingText r) = _
  rw [Screen.streamed_eq]
  rfl

def failureText (p : Prepared) (f : Failure) : Text :=
  p.project.entry ++ ":\n" ++ errorText f ++ contextText f p.source

theorem showBroken_build (texts : Console.Texts) (o : Order) (c : Chronicle) (p : Prepared)
    (f : Failure) :
    showBroken texts { o with command := .build } c p f = ⟨c.printed,
      c.flatMap (Event.lineText (o.view texts)) ++ c.flatMap Event.noticeText ++
        failureText p f⟩ := by
  rw [showBroken]
  change (c.entries.foldl Screen.showEntry (Screen.logged (o.view texts) c)).note
    (failureText p f) = _
  rw [Screen.foldl_showEntry, Screen.logged_eq]
  rfl

theorem showBroken_run (texts : Console.Texts) (o : Order) (c : Chronicle) (p : Prepared)
    (f : Failure) :
    showBroken texts { o with command := .run } c p f =
      ⟨c.printed,
        (c.flatMap fun x => x.lineText (o.view texts) ++ x.noticeText) ++ failureText p f⟩ := by
  rw [showBroken]
  change (Screen.streamed (o.view texts) c).note (failureText p f) = _
  rw [Screen.streamed_eq]
  rfl

theorem paired_build (texts : Console.Texts) (o : Order) {s : Session}
    (hs : s.chronicle.printed = []) (p : Prepared) :
    Ending.Paired (o.view texts)
      (Build.ofSource p.settings (Path.baseDir p.project.entry) p.source s).state.chronicle
      (build texts { o with command := .build } s p)
      (build texts { o with command := .run } s p) := by
  have hout := @Build.printed_of_ofSource p.settings (Path.baseDir p.project.entry) p.source s hs
  simp only [build]
  generalize Build.ofSource p.settings (Path.baseDir p.project.entry) p.source s = done at hout ⊢
  obtain ⟨⟨m, c⟩, result⟩ := done
  cases result with
  | ok r =>
    have hr : r.stdout = c.printed := hout rfl
    refine ⟨rfl, rfl, ?_, ?_, o.closingText r, ?_, ?_⟩
    · exact (congrArg Screen.stdout (o.showBuilt_build texts c r)).trans hr
    · exact congrArg Screen.stdout (o.showBuilt_run texts c r)
    · exact congrArg Screen.stderr (o.showBuilt_build texts c r)
    · exact congrArg Screen.stderr (o.showBuilt_run texts c r)
  | error f =>
    refine ⟨rfl, rfl, ?_, ?_, failureText p f, ?_, ?_⟩
    · exact congrArg Screen.stdout (o.showBroken_build texts c p f)
    · exact congrArg Screen.stdout (o.showBroken_run texts c p f)
    · exact congrArg Screen.stderr (o.showBroken_build texts c p f)
    · exact congrArg Screen.stderr (o.showBroken_run texts c p f)

theorem paired_execute (texts : Console.Texts) (o : Order) (m : Machine) :
    Ending.Paired (o.view texts) (o.lastSession m).chronicle
      (execute texts { o with command := .build } m)
      (execute texts { o with command := .run } m) := by
  have hopen : ∀ c, openLog { o with command := c } m = o.openLog m := fun _ => rfl
  have hprepare : ∀ c s, prepare { o with command := c } s = o.prepare s := fun _ _ => rfl
  simp only [execute, lastSession, hopen]
  cases o.openLog m with
  | error e => exact paired_refuse rfl m (.log e)
  | ok m =>
    have hentries := o.entries_prepare ⟨m, []⟩
    simp only [work, hprepare]
    generalize o.prepare ⟨m, []⟩ = prepared at hentries ⊢
    obtain ⟨s, result⟩ := prepared
    have hnone : s.chronicle.entries = [] := hentries
    cases result with
    | error r => exact paired_refuse hnone s.machine r
    | ok p =>
      refine o.paired_build texts ?_ p
      rw [Chronicle.printed, hnone]
      rfl

end Order

namespace Arguments

theorem flipAll_run (p : Progress) (t : Text) :
    p.flipAll (some .build) t = p.flipAll (some .run) t := by
  induction t generalizing p with
  | nil => rfl
  | cons c r ih =>
    have hs : shortSwitch? (some .build) c = shortSwitch? (some .run) c := rfl
    simp only [Progress.flipAll, hs, ih]

theorem option_run (p : Progress) (a : Text) :
    option? (some .build) p a = option? (some .run) p a := by
  have hl : ∀ t, p.longArgument (some .build) t = p.longArgument (some .run) t := fun _ => rfl
  unfold option?
  split
  · rw [hl]
  · rw [flipAll_run]
  · rfl

theorem readCommand_run (p : Progress) (args : List Text) :
    readCommand .build p args = readCommand .run p args := by
  induction args generalizing p with
  | nil => rfl
  | cons a r ih => simp only [readCommand, option_run, ih]

theorem length_rest {p q : Progress} {args rest : List Text} {c : Command}
    (h : readOpening p args = .ok ⟨q, c, rest⟩) : rest.length < args.length := by
  induction args generalizing p with
  | nil => cases h
  | cons a r ih =>
    have hlater : ∀ p', readOpening p' r = .ok ⟨q, c, rest⟩ → rest.length < (a :: r).length :=
      fun p' hr => Nat.lt_succ_of_lt (ih hr)
    rw [readOpening] at h
    split at h
    · cases h
    · split at h
      · exact hlater _ h
      · cases h
      · split at h
        · split at h
          · exact hlater _ h
          · cases h
        · unfold openWith at h
          split at h
          · cases h
            exact Nat.lt_succ_self _
          · cases h

theorem readOpening_plain {p : Progress} {a : Text} {r : List Text} (hd : a ≠ ['-', '-'])
    (ho : option? none p a = none) :
    readOpening p (a :: r) =
      if isAwaiting p then p.plain a >>= (readOpening · r) else openWith p a r := by
  simp only [readOpening, if_neg hd, ho]
  cases p.plain a <;> rfl

theorem readOpening_run {p q : Progress} {before after : List Text}
    (h : readOpening p (before ++ ("build" : Text) :: after) = .ok ⟨q, .build, after⟩) :
    readOpening p (before ++ ("run" : Text) :: after) = .ok ⟨q, .run, after⟩ := by
  induction before generalizing p with
  | nil =>
    rw [List.nil_append, readOpening_plain (by decide) rfl] at h
    rw [List.nil_append, readOpening_plain (by decide) rfl]
    split at h
    · -- As a value, the name would leave fewer arguments than there are behind it.
      cases hp : p.plain ("build" : Text) with
      | ok p' =>
        rw [hp] at h
        exact absurd (length_rest h) (Nat.lt_irrefl _)
      | error e => rw [hp] at h; cases h
    · next hawait =>
      have hopen : openWith p ("build" : Text) after = .ok ⟨p, .build, after⟩ := rfl
      rw [hopen] at h
      cases h
      rw [if_neg hawait]
      rfl
  | cons a r ih =>
    rw [List.cons_append] at h ⊢
    by_cases hd : a = ['-', '-']
    · rw [readOpening, if_pos hd] at h
      cases h
    cases ho : option? none p a with
    | some o =>
      rw [readOpening, if_neg hd, ho] at h ⊢
      cases o with
      | ok p' => exact ih h
      | error e => cases h
    | none =>
      rw [readOpening_plain hd ho] at h ⊢
      split at h
      · next hawait =>
        rw [if_pos hawait]
        cases hp : p.plain a with
        | ok p' =>
          rw [hp] at h
          exact ih h
        | error e => rw [hp] at h; cases h
      · -- Another command before this one would leave more arguments behind it.
        unfold openWith at h
        split at h
        · have hlen := congrArg List.length (congrArg Opening.rest (Except.ok.inj h))
          simp at hlen
          omega
        · cases h

end Arguments

theorem Order.ofArguments_run {p : Arguments.Progress} {before after : List Text}
    (h : Arguments.readOpening {} (before ++ ("build" : Text) :: after) = .ok ⟨p, .build, after⟩) :
    (∃ stop, ofArguments (before ++ ("build" : Text) :: after) = .error stop ∧
      ofArguments (before ++ ("run" : Text) :: after) = .error stop) ∨
    ∃ o : Order,
      ofArguments (before ++ ("build" : Text) :: after) = .ok { o with command := .build } ∧
      ofArguments (before ++ ("run" : Text) :: after) = .ok { o with command := .run } := by
  unfold ofArguments
  rw [h, Arguments.readOpening_run h]
  simp only [bind, Except.bind, pure, Except.pure]
  rw [Arguments.readCommand_run]
  cases Arguments.readCommand .run {} after with
  | error stop => exact .inl ⟨stop, rfl, rfl⟩
  | ok q =>
    cases hq : q.settle with
    | error stop => exact .inl ⟨stop, by simp only [hq], by simp only [hq]⟩
    | ok given =>
      cases hp : p.settle with
      | error stop => exact .inl ⟨stop, by simp only [hq], by simp only [hq]⟩
      | ok opening => exact .inr ⟨ofGiven .build opening given, by simp only [hq]; rfl,
          by simp only [hq]; rfl⟩

namespace Console

/-- `build` and `run` with the same options are either both turned down, for one cause, or
end alike: what the one has collected the other has streamed, and the error stream of a build
is that of a run with the notices moved behind the log lines. -/
theorem build_shows_what_run_streams {p : Arguments.Progress} {before after : List Text}
    (h : Arguments.readOpening {} (before ++ ("build" : Text) :: after) = .ok ⟨p, .build, after⟩)
    (m : Machine) (texts : Texts) :
    (∃ stop, Order.ofArguments (before ++ ("build" : Text) :: after) = .error stop ∧
      Order.ofArguments (before ++ ("run" : Text) :: after) = .error stop) ∨
    ∃ o : Order,
      Order.ofArguments (before ++ ("build" : Text) :: after) = .ok { o with command := .build } ∧
      Order.ofArguments (before ++ ("run" : Text) :: after) = .ok { o with command := .run } ∧
      let b := execute (before ++ ("build" : Text) :: after) m texts
      let r := execute (before ++ ("run" : Text) :: after) m texts
      Ending.Paired (o.view texts) (o.lastSession m).chronicle b r ∧
        ((o.lastSession m).chronicle.LogFirst (o.view texts) → b.screen = r.screen) := by
  obtain ⟨stop, hb, hr⟩ | ⟨o, hb, hr⟩ := Order.ofArguments_run h
  · exact .inl ⟨stop, hb, hr⟩
  · refine .inr ⟨o, hb, hr, ?_⟩
    have hpair : Ending.Paired (o.view texts) (o.lastSession m).chronicle
        (execute (before ++ ("build" : Text) :: after) m texts)
        (execute (before ++ ("run" : Text) :: after) m texts) := by
      simp only [execute, hb, hr]
      exact o.paired_execute texts m
    exact ⟨hpair, hpair.screen_eq⟩

/-- The only file is a source with a tag and no code. -/
def emptySource : Machine :=
  ⟨⟨[([("m.mixl" : Text)], .file (Text.Utf8.encode "[js]\n"))], "/"⟩, [], [], []⟩

def verbose : List Text := ["-v".toList]

def entryPath : List Text := ["m.mixl".toList]

theorem build_shows_emptySource :
    (∃ p, Arguments.readOpening {} (verbose ++ ("build" : Text) :: entryPath) =
      .ok ⟨p, .build, entryPath⟩) ∧
    ∃ o : Order,
      Order.ofArguments (verbose ++ ("build" : Text) :: entryPath) =
        .ok { o with command := .build } ∧
      Ending.Paired (o.view .plain) (o.lastSession emptySource).chronicle
        (execute (verbose ++ ("build" : Text) :: entryPath) emptySource)
        (execute (verbose ++ ("run" : Text) :: entryPath) emptySource) := by
  have h : Arguments.readOpening {} (verbose ++ ("build" : Text) :: entryPath) =
      .ok ⟨{ given := { verbosity := some 1 } }, .build, entryPath⟩ := rfl
  have hok : (Order.ofArguments (verbose ++ ("build" : Text) :: entryPath)).isOk = true := rfl
  refine ⟨⟨_, h⟩, ?_⟩
  obtain ⟨stop, hb, -⟩ | ⟨o, hb, -, hp, -⟩ := build_shows_what_run_streams h emptySource .plain
  · rw [hb] at hok
    cases hok
  · exact ⟨o, hb, hp⟩

/-- The notice of a run stands before the last log line, and that of a build behind it. -/
theorem build_moves_notices :
    (execute (verbose ++ ("build" : Text) :: entryPath) emptySource).screen.stderr ≠
      (execute (verbose ++ ("run" : Text) :: entryPath) emptySource).screen.stderr := by
  decide +kernel

end Console
end Polyglot
