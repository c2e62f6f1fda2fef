import Polyglot.Proofs.Analysis.Statements
import Polyglot.Proofs.Function.Indenting
import Polyglot.Proofs.Segment.Chapter

/-!
# A line of two statements

The trackers do not mind the numbers of the lines, and two simple statements take them where
the line of both does. So the two analyses agree on every other line, and can differ only on the
statements' own: the line of both is read as one statement, at most, where two lines are read as
two.
-/
namespace Polyglot

open Token (Simple joined tokenize openBraces closeBraces)

def Line.of (l : Language) (p : Nat × Text) : Line := ⟨p.1, p.2, tokenize l p.2⟩

def Line.numbered (l : Language) (n : Nat) (texts : List Text) : List Line :=
  (numberFrom n texts).map (Line.of l)

theorem Line.numbered_append (l : Language) (n : Nat) (ts us : List Text) :
    numbered l n (ts ++ us) = numbered l n ts ++ numbered l (n + ts.length) us := by
  rw [numbered, numberFrom_append, List.map_append, numbered, numbered]

structure Line.Flat (l : Language) (x : Line) : Prop where
  live : x.live = true
  margin : x.indent = 0
  plain : Header.ofLine? l x = none
  balanced : openBraces x.tokens = closeBraces x.tokens

section
variable {l : Language} {u v : Text}

theorem indent_of_head {text : Text} (h : text.head?.any (!Text.isBlank ·) = true) :
    Token.indent text = 0 := by
  cases text with
  | nil => rfl
  | cons c r =>
    have hb : Text.isBlank c = false := by simpa using h
    have hc : (c == ' ' || c == '\t') = false := by
      rw [Bool.or_eq_false_iff, beq_eq_false_iff_ne, beq_eq_false_iff_ne]
      constructor <;> rintro rfl <;> exact absurd hb (by decide)
    rw [Token.indent, List.takeWhile_cons, hc]
    rfl

theorem tokens_ne_nil {text : Text} (h : text.head?.any (!Text.isBlank ·) = true) :
    tokenize l text ≠ [] := by
  cases text with
  | nil => cases h
  | cons c r =>
    rw [tokenize, Token.scan_cons r 0 (by simpa using h)]
    exact List.cons_ne_nil _ _

theorem flat_of_simple (h : Simple l u) (n : Nat) : (Line.of l (n, u)).Flat l where
  live := by
    obtain ⟨t, ts, ht⟩ := List.exists_cons_of_ne_nil (tokens_ne_nil h.first)
    have hc := h.code t (ht ▸ List.mem_cons_self)
    rw [Line.live, Line.of, ht, Token.isDead, List.all_cons, hc, Bool.false_and]
    rfl
  margin := indent_of_head h.first
  plain := by rw [Header.ofLine?, Line.of, h.plain, Option.map_none]
  balanced := h.nested.balanced

theorem braces_joined (hu : Simple l u) (v : Text) :
    openBraces (tokenize l (joined u v)) =
        openBraces (tokenize l u) + openBraces (tokenize l v) ∧
      closeBraces (tokenize l (joined u v)) =
        closeBraces (tokenize l u) + closeBraces (tokenize l v) := by
  rw [Token.tokenize_joined hu]
  simp only [openBraces, closeBraces, List.countP_append, List.countP_cons, List.countP_map]
  exact ⟨rfl, rfl⟩

theorem flat_joined (hu : Simple l u) (hv : Simple l v) (n : Nat) :
    (Line.of l (n, joined u v)).Flat l where
  live := by
    rw [Line.live, Line.of, Token.tokenize_joined hu, Token.isDead, List.all_append, List.all_cons]
    exact congrArg not (Bool.and_false _)
  margin := by
    refine indent_of_head ?_
    have hf := hu.first
    cases u with
    | nil => cases hf
    | cons c r => exact hf
  plain := by
    rw [Header.ofLine?, Line.of, Token.tokenize_joined hu,
      Header.introducer_append rfl rfl hu.plain, Option.map_none]
  balanced := by
    obtain ⟨ho, hc⟩ := braces_joined hu v
    rw [Line.of, ho, hc, hu.nested.balanced, hv.nested.balanced]

end

namespace Braces

inductive SameButHeader : State → State → Prop
  | outside {depth : Nat} : SameButHeader (.outside depth) (.outside depth)
  | awaiting {h k : Header} : SameButHeader (.awaiting h) (.awaiting k)
  | inside {h k : Header} {depth : Nat} : SameButHeader (.inside h depth) (.inside k depth)

variable {s : State} {x : Line}

theorem role_flat (hx : x.Flat .javascript) : (step s x).role = match s with
    | .outside depth => if depth = 0 then .topLevel else .nested
    | _ => .inFunction := by
  cases s with
  | outside depth =>
    cases depth with
    | zero => rw [step, hx.plain]; rfl
    | succ depth => rfl
  | awaiting h =>
    simp only [step, enter]
    repeat' split
    all_goals rfl
  | inside h depth =>
    simp only [step]
    split <;> rfl

theorem next_flat (hx : x.Flat .javascript) : (step s x).next = match s with
    | .outside depth => .outside depth
    | .awaiting h => if openBraces x.tokens = 0 then .awaiting h else .outside 0
    | .inside h depth => if depth = 0 then .outside 0 else .inside h depth := by
  have hb := hx.balanced
  cases s with
  | outside depth =>
    cases depth with
    | zero => simp only [step, hx.plain, pass, hb, Nat.add_sub_cancel]
    | succ depth => simp only [step, pass, hb, Nat.add_sub_cancel]
  | awaiting h =>
    simp only [step, enter, hb, Nat.le_refl, if_true]
    split <;> rfl
  | inside h depth =>
    simp only [step, hb, Nat.add_sub_cancel]
    by_cases hd : depth = 0
    · rw [if_pos (by omega), if_pos hd]
    · rw [if_neg (by omega), if_neg hd]

theorem sameButHeader_enter (h k : Header) {text : Text} (m n : Nat) :
    (enter h (Line.of .javascript (m, text))).role =
        (enter k (Line.of .javascript (n, text))).role ∧
      SameButHeader (enter h (Line.of .javascript (m, text))).next
        (enter k (Line.of .javascript (n, text))).next := by
  unfold enter Line.of
  dsimp only
  generalize openBraces (tokenize .javascript text) = opened
  generalize closeBraces (tokenize .javascript text) = closed
  by_cases hz : opened = 0
  · rw [if_pos hz, if_pos hz]
    exact ⟨rfl, .awaiting⟩
  · rw [if_neg hz, if_neg hz]
    by_cases hc : opened ≤ closed
    · rw [if_pos hc, if_pos hc]
      exact ⟨rfl, .outside⟩
    · rw [if_neg hc, if_neg hc]
      exact ⟨rfl, .inside⟩

theorem sameButHeader_step {s t : State} (h : SameButHeader s t) (m n : Nat) (text : Text) :
    (step s (Line.of .javascript (m, text))).role =
        (step t (Line.of .javascript (n, text))).role ∧
      SameButHeader (step s (Line.of .javascript (m, text))).next
        (step t (Line.of .javascript (n, text))).next := by
  cases h with
  | @outside depth =>
    cases depth with
    | succ depth => exact ⟨rfl, .outside⟩
    | zero =>
      cases hi : Header.introducer .javascript (tokenize .javascript text) with
      | none =>
        have hnone : ∀ n, Header.ofLine? .javascript (Line.of .javascript (n, text)) = none :=
          fun n => by rw [Header.ofLine?, Line.of, hi, Option.map_none]
        rw [step, step, hnone, hnone]
        exact ⟨rfl, .outside⟩
      | some p =>
        have hsome : ∀ n, Header.ofLine? .javascript (Line.of .javascript (n, text)) =
            some ⟨p.1, p.2, n⟩ :=
          fun n => by rw [Header.ofLine?, Line.of, hi, Option.map_some]
        rw [step, step, hsome, hsome]
        exact sameButHeader_enter _ _ m n
  | awaiting => exact sameButHeader_enter _ _ m n
  | @inside h k depth =>
    unfold step Line.of
    dsimp only
    split
    · exact ⟨rfl, .outside⟩
    · exact ⟨rfl, .inside⟩

theorem sameButHeader_finish {s t : State} (h : SameButHeader s t) :
    (finish s).isOk = (finish t).isOk := by
  cases h <;> rfl

theorem sameButHeader_joined {s t : State} (h : SameButHeader s t) {u v : Text}
    (hu : Simple .javascript u)
    (hv : Simple .javascript v) (i j k : Nat) :
    let x := Line.of .javascript (i, joined u v)
    let y := Line.of .javascript (j, u)
    let z := Line.of .javascript (k, v)
    (step s x).role = (step t y).role ∧
      ((step s x).role = .topLevel → (step (step t y).next z).role = .topLevel) ∧
      SameButHeader (step s x).next (step (step t y).next z).next := by
  intro x y z
  have hx : x.Flat .javascript := flat_joined hu hv i
  have hy : y.Flat .javascript := flat_of_simple hu j
  have hz : z.Flat .javascript := flat_of_simple hv k
  have hopen : openBraces x.tokens = openBraces y.tokens + openBraces z.tokens :=
    (braces_joined hu v).1
  rw [role_flat hx, role_flat hy, role_flat hz, next_flat hx, next_flat hz, next_flat hy, hopen]
  cases h with
  | outside => exact ⟨rfl, id, .outside⟩
  | awaiting =>
    -- Only a body that opens in the first statement leaves the second one outside.
    refine ⟨rfl, (fun h => by cases h), ?_⟩
    dsimp only
    by_cases hy : openBraces y.tokens = 0
    · rw [if_pos hy, hy, Nat.zero_add]
      dsimp only
      split
      · exact .awaiting
      · exact .outside
    · rw [if_neg hy, if_neg (by omega)]
      exact .outside
  | @inside _ _ depth =>
    refine ⟨rfl, (fun h => by cases h), ?_⟩
    dsimp only
    by_cases hd : depth = 0
    · rw [if_pos hd, if_pos hd]
      exact .outside
    · rw [if_neg hd, if_neg hd]
      dsimp only
      rw [if_neg hd]
      exact .inside

end Braces

namespace Indents

inductive SameIndent : State → State → Prop
  | outside : SameIndent .outside .outside
  | awaiting {h k : Header} : SameIndent (.awaiting h) (.awaiting k)
  | inside {h k : Header} {indent m n : Nat} : SameIndent (.inside h indent m) (.inside k indent n)

variable {s : State} {x : Line}

theorem step_flat (hx : x.Flat .python) : step s x = match s with
    | .inside h 0 _ => ⟨.inside h 0 x.number, .inFunction, none⟩
    | s => ⟨.outside, .topLevel, ended s⟩ := by
  have hpass : ∀ done, pass x done = ⟨.outside, .topLevel, done⟩ := by
    intro done
    have hmargin : Token.indent x.text = 0 := hx.margin
    rw [pass, if_pos hmargin, hx.plain]
  rw [step_of_live hx.live]
  cases s with
  | outside => exact hpass none
  | awaiting h => exact (if_pos hx.margin).trans (hpass _)
  | inside h indent last =>
    cases indent with
    | zero => exact if_pos (Nat.zero_le _)
    | succ indent => exact (if_neg (by rw [hx.margin]; omega)).trans (hpass _)

theorem sameIndent_pass {text : Text} (m n : Nat) (done done' : Option Extent) :
    (pass (Line.of .python (m, text)) done).role = (pass (Line.of .python (n, text)) done').role ∧
      SameIndent (pass (Line.of .python (m, text)) done).next
        (pass (Line.of .python (n, text)) done').next := by
  unfold pass Header.ofLine? Line.of
  dsimp only
  by_cases hz : Token.indent text = 0
  · rw [if_pos hz, if_pos hz]
    cases Header.introducer .python (tokenize .python text) with
    | none => exact ⟨rfl, .outside⟩
    | some p => exact ⟨rfl, .awaiting⟩
  · rw [if_neg hz, if_neg hz]
    exact ⟨rfl, .outside⟩

theorem sameIndent_step {s t : State} (h : SameIndent s t) (m n : Nat) (text : Text) :
    (step s (Line.of .python (m, text))).role = (step t (Line.of .python (n, text))).role ∧
      SameIndent (step s (Line.of .python (m, text))).next
        (step t (Line.of .python (n, text))).next := by
  have hindent : (Line.of .python (m, text)).indent = (Line.of .python (n, text)).indent := rfl
  cases hl : (Line.of .python (m, text)).live with
  | false =>
    have hdead : ∀ n, Token.isDead (Line.of .python (n, text)).tokens = true :=
      fun _ => Bool.not_eq_eq_eq_not.1 hl
    unfold step
    rw [if_pos (hdead m), if_pos (hdead n)]
    cases h with
    | outside => exact ⟨rfl, .outside⟩
    | awaiting => exact ⟨rfl, .awaiting⟩
    | inside => exact ⟨rfl, .inside⟩
  | true =>
    have hl' : (Line.of .python (n, text)).live = true := hl
    rw [step_of_live hl, step_of_live hl']
    cases h with
    | outside => exact sameIndent_pass m n _ _
    | awaiting =>
      dsimp only
      rw [hindent]
      split
      · exact sameIndent_pass m n _ _
      · exact ⟨rfl, .inside⟩
    | inside =>
      dsimp only
      rw [hindent]
      split
      · exact ⟨rfl, .inside⟩
      · exact sameIndent_pass m n _ _

theorem sameIndent_finish (s t : State) : (finish s).isOk = (finish t).isOk := by
  rw [finish_eq, finish_eq]
  rfl

theorem sameIndent_joined {s t : State} (h : SameIndent s t) {u v : Text} (hu : Simple .python u)
    (hv : Simple .python v) (i j k : Nat) :
    let x := Line.of .python (i, joined u v)
    let y := Line.of .python (j, u)
    let z := Line.of .python (k, v)
    (step s x).role = (step t y).role ∧
      ((step s x).role = .topLevel → (step (step t y).next z).role = .topLevel) ∧
      SameIndent (step s x).next (step (step t y).next z).next := by
  intro x y z
  have hx : x.Flat .python := flat_joined hu hv i
  have hy : y.Flat .python := flat_of_simple hu j
  have hz : z.Flat .python := flat_of_simple hv k
  cases h with
  | outside =>
    rw [step_flat hx, step_flat hy]
    dsimp only
    rw [step_flat hz]
    exact ⟨rfl, fun _ => rfl, .outside⟩
  | awaiting =>
    rw [step_flat hx, step_flat hy]
    dsimp only
    rw [step_flat hz]
    exact ⟨rfl, fun _ => rfl, .outside⟩
  | @inside _ _ indent =>
    rw [step_flat hx, step_flat hy]
    cases indent with
    | zero =>
      rw [step_flat hz]
      refine ⟨rfl, fun h => ?_, .inside⟩
      cases h
    | succ indent =>
      rw [step_flat hz]
      exact ⟨rfl, fun _ => rfl, .outside⟩

end Indents

namespace Analysis
open Binding (entry ofTokens)

/-- Whether bindings are read from the line. -/
def reads (l : Language) (p : Line × Role) : Bool := p.2 == .topLevel && !isImport l p

def entriesOf (l : Language) (p : Line × Role) : List (Text × Text) :=
  (bindingsOf l p).map entry

/-- The names and expressions that a segment binds. -/
def entries (a : Analysis) : List (Text × Text) := a.bindings.map entry

def bound? (l : Language) (text : Text) : List (Text × Text) :=
  (ofTokens l text 0 (tokenize l text)).map entry

variable {l : Language} {u v : Text}

theorem entriesOf_of (n : Nat) (text : Text) (r : Role) :
    entriesOf l (Line.of l (n, text), r) =
      if reads l (Line.of l (n, text), r) then bound? l text else [] := by
  unfold entriesOf bindingsOf reads
  split
  · exact Binding.entries_number text n 0
  · rfl

theorem reads_of (m n : Nat) (text : Text) (r : Role) :
    reads l (Line.of l (m, text), r) = reads l (Line.of l (n, text), r) := rfl

theorem reads_of_ne {x : Line} {r : Role} (h : r ≠ .topLevel) : reads l (x, r) = false := by
  rw [reads, beq_eq_false_iff_ne.2 h, Bool.false_and]

theorem reads_topLevel {text : Text} (n : Nat) (h : ∀ t ∈ tokenize l text, t.isComment = false) :
    reads l (Line.of l (n, text), .topLevel) = !Line.importsIn l (tokenize l text) := by
  simp only [reads, isImport, Line.imports, Line.of, Token.code_eq_self h]
  rfl

theorem entriesOf_first (hu : Simple l u) (hv : Simple l v) (i j : Nat) (r : Role) :
    entriesOf l (Line.of l (j, u), r) =
      if reads l (Line.of l (i, joined u v), r) then bound? l u else [] := by
  rw [entriesOf_of]
  by_cases hr : r = .topLevel
  · subst hr
    rw [reads_topLevel j hu.code, reads_topLevel i (Token.code_joined hu hv),
      Token.tokenize_joined hu]
    generalize (tokenize l v).map (Token.moved (Text.size (u ++ "; "))) = behind
    cases hboth : Line.importsIn l (tokenize l u ++ Token.between u :: behind) with
    | false =>
      have halone : Line.importsIn l (tokenize l u) = false := by
        rw [← Bool.not_eq_true] at hboth ⊢
        exact fun h => hboth (Line.importsIn_append rfl h)
      rw [halone]
    | true =>
      cases halone : Line.importsIn l (tokenize l u) with
      | true => rfl
      | false =>
        have hnone := Line.ofStatement_of_importsIn rfl hboth halone u 0
        rw [bound?, Binding.ofTokens_simple hu, hnone]
        rfl
  · rw [reads_of_ne hr, reads_of_ne hr]

theorem bound?_joined (hu : Simple l u) (hv : Simple l v) :
    bound? l (joined u v) = bound? l u ++ bound? l v :=
  Binding.entries_joined hu hv 0 0 0

end Analysis

namespace Layout
open Analysis (entriesOf reads bound?)

theorem roles_append {σ : Type} (step : σ → Line → Step σ) (s : σ) (xs ys : List Line) :
    roles step s (xs ++ ys) = roles step s xs ++ roles step (final step s xs) ys := by
  induction xs generalizing s with
  | nil => rfl
  | cons x r ih => rw [List.cons_append, roles, ih, roles, List.cons_append]; rfl

theorem length_roles {σ : Type} (step : σ → Line → Step σ) (s : σ) (l : Language) (n : Nat)
    (texts : List Text) : (roles step s (Line.numbered l n texts)).length = texts.length := by
  have hlines := congrArg List.length (map_fst_roles step s (Line.numbered l n texts))
  rwa [List.length_map, Line.numbered, List.length_map, length_numberFrom] at hlines

theorem getElem?_roles_append {σ : Type} (step : σ → Line → Step σ) (s : σ) (l : Language)
    (n : Nat) (texts : List Text) (rest : List (Line × Role)) (i : Nat) :
    (roles step s (Line.numbered l n texts) ++ rest)[texts.length + i]? = rest[i]? := by
  have hle : texts.length ≤ texts.length + i := Nat.le_add_right _ _
  rw [List.getElem?_append_right (by rwa [length_roles]), length_roles, Nat.add_sub_cancel_left]

/-- A tracker that does not mind the numbers of lines, and takes two statements like their
lines. -/
structure Joins (l : Language) {σ : Type} (step : σ → Line → Step σ)
    (finish : σ → Except LayoutError (Option Extent)) (R : σ → σ → Prop) : Prop where
  kept : ∀ {s t : σ}, R s t → ∀ (m n : Nat) (text : Text),
    (step s (Line.of l (m, text))).role = (step t (Line.of l (n, text))).role ∧
      R (step s (Line.of l (m, text))).next (step t (Line.of l (n, text))).next
  ended : ∀ {s t : σ}, R s t → (finish s).isOk = (finish t).isOk
  paired : ∀ {s t : σ}, R s t → ∀ {u v : Text}, Simple l u → Simple l v → ∀ i j k : Nat,
    let x := Line.of l (i, joined u v)
    let y := Line.of l (j, u)
    let z := Line.of l (k, v)
    (step s x).role = (step t y).role ∧
      ((step s x).role = .topLevel → (step (step t y).next z).role = .topLevel) ∧
      R (step s x).next (step (step t y).next z).next

theorem joins_braces : Joins .javascript Braces.step Braces.finish Braces.SameButHeader where
  kept := Braces.sameButHeader_step
  ended := Braces.sameButHeader_finish
  paired := Braces.sameButHeader_joined

theorem joins_indents : Joins .python Indents.step Indents.finish Indents.SameIndent where
  kept := Indents.sameIndent_step
  ended := fun _ => Indents.sameIndent_finish _ _
  paired := Indents.sameIndent_joined

section
variable {σ : Type} {l : Language} {step : σ → Line → Step σ}
  {finish : σ → Except LayoutError (Option Extent)} {R : σ → σ → Prop} {s t : σ}

theorem Joins.entries (hj : Joins l step finish R) (h : R s t) (texts : List Text)
    (m n : Nat) :
    (roles step s (Line.numbered l m texts)).flatMap (entriesOf l) =
        (roles step t (Line.numbered l n texts)).flatMap (entriesOf l) ∧
      R (final step s (Line.numbered l m texts)) (final step t (Line.numbered l n texts)) := by
  induction texts generalizing s t m n with
  | nil => exact ⟨rfl, h⟩
  | cons text r ih =>
    obtain ⟨hrole, hnext⟩ := hj.kept h m n text
    obtain ⟨hentries, hfinal⟩ := ih hnext (m + 1) (n + 1)
    refine ⟨?_, hfinal⟩
    have hfirst : entriesOf l (Line.of l (m, text), (step s (Line.of l (m, text))).role) =
        entriesOf l (Line.of l (n, text), (step t (Line.of l (n, text))).role) := by
      rw [Analysis.entriesOf_of, Analysis.entriesOf_of, hrole, Analysis.reads_of m n]
    exact congrArg₂ (· ++ ·) hfirst hentries

theorem Joins.split (hj : Joins l step finish R) (h : R s t) {u v : Text}
    (hu : Simple l u) (hv : Simple l v) (pre post : List Text) (m n : Nat) :
    let xs := roles step s (Line.numbered l m (pre ++ joined u v :: post))
    let ys := roles step t (Line.numbered l n (pre ++ u :: v :: post))
    ∃ p q before after,
      xs[pre.length]? = some p ∧ p.1.text = joined u v ∧
      ys[pre.length + 1]? = some q ∧ q.1.text = v ∧
      (p.2 = .topLevel → q.2 = .topLevel) ∧
      xs.flatMap (entriesOf l) =
        before ++ ((if reads l p then bound? l u ++ bound? l v else []) ++ after) ∧
      ys.flatMap (entriesOf l) =
        before ++ ((if reads l p then bound? l u else []) ++
          ((if reads l q then bound? l v else []) ++ after)) := by
  intro xs ys
  obtain ⟨hbefore, hbetween⟩ := hj.entries h pre m n
  let x := Line.of l (m + pre.length, joined u v)
  let y := Line.of l (n + pre.length, u)
  let z := Line.of l (n + pre.length + 1, v)
  let s' := final step s (Line.numbered l m pre)
  let t' := final step t (Line.numbered l n pre)
  let xs' := roles step (step s' x).next (Line.numbered l (m + pre.length + 1) post)
  let ys' := roles step (step (step t' y).next z).next
    (Line.numbered l (n + pre.length + 1 + 1) post)
  -- The lines before agree, the two statements are one step, and so the lines behind agree.
  obtain ⟨hrole, htop, hnext⟩ := hj.paired hbetween hu hv (m + pre.length) (n + pre.length)
    (n + pre.length + 1)
  obtain ⟨hafter, -⟩ := hj.entries hnext post (m + pre.length + 1) (n + pre.length + 1 + 1)
  have hxs : xs = roles step s (Line.numbered l m pre) ++ (x, (step s' x).role) :: xs' := by
    simp only [xs, Line.numbered_append, roles_append]
    rfl
  have hys : ys = roles step t (Line.numbered l n pre) ++
      (y, (step t' y).role) :: (z, (step (step t' y).next z).role) :: ys' := by
    simp only [ys, Line.numbered_append, roles_append]
    rfl
  refine ⟨(x, (step s' x).role), (z, (step (step t' y).next z).role),
    (roles step t (Line.numbered l n pre)).flatMap (entriesOf l), ys'.flatMap (entriesOf l),
    ?_, rfl, ?_, rfl, htop, ?_, ?_⟩
  · rw [hxs]
    exact getElem?_roles_append step s l m pre _ 0
  · rw [hys]
    exact getElem?_roles_append step t l n pre _ 1
  · rw [hxs, List.flatMap_append, List.flatMap_cons, Analysis.entriesOf_of,
      Analysis.bound?_joined hu hv, hbefore]
    exact congrArg _ (congrArg _ hafter)
  · rw [hys, List.flatMap_append, List.flatMap_cons, List.flatMap_cons,
      Analysis.entriesOf_first hu hv (m + pre.length), Analysis.entriesOf_of, ← hrole]

theorem Joins.isOk (hj : Joins l step finish R) (h : R s t) {u v : Text}
    (hu : Simple l u) (hv : Simple l v) (pre post : List Text) (m n : Nat) :
    (track step finish s (Line.numbered l m (pre ++ joined u v :: post))).isOk =
      (track step finish t (Line.numbered l n (pre ++ u :: v :: post))).isOk := by
  obtain ⟨-, hbetween⟩ := hj.entries h pre m n
  obtain ⟨-, -, hnext⟩ := hj.paired hbetween hu hv (m + pre.length) (n + pre.length)
    (n + pre.length + 1)
  obtain ⟨-, hlast⟩ := hj.entries hnext post (m + pre.length + 1) (n + pre.length + 1 + 1)
  have hend := hj.ended hlast
  have hok : ∀ (s : σ) (ls : List Line),
      (track step finish s ls).isOk = (finish (final step s ls)).isOk := by
    intro s ls
    rw [track]
    cases finish (final step s ls) <;> rfl
  rw [hok, hok, Line.numbered_append, Line.numbered_append, final, final, List.foldl_append,
    List.foldl_append]
  exact hend

end

theorem exists_joins (l : Language) :
    ∃ (σ : Type) (step : σ → Line → Step σ) (finish : σ → Except LayoutError (Option Extent))
      (R : σ → σ → Prop) (s : σ), Joins l step finish R ∧ R s s ∧
        ∀ ls, ofLines l ls = track step finish s ls := by
  cases l with
  | javascript => exact ⟨_, _, _, _, _, joins_braces, .outside, fun _ => rfl⟩
  | python => exact ⟨_, _, _, _, _, joins_indents, .outside, fun _ => rfl⟩

theorem lines_of_track {σ : Type} {step : σ → Line → Step σ}
    {finish : σ → Except LayoutError (Option Extent)} {s : σ} {ls : List Line} {y : Layout}
    (h : track step finish s ls = .ok y) : y.lines = roles step s ls := by
  unfold track at h
  cases he : finish (final step s ls) with
  | error err => rw [he] at h; cases h
  | ok e =>
    rw [he] at h
    cases h
    rfl

end Layout

namespace Analysis
variable {s t : Segment} {a b : Analysis} {u v : Text} {pre post : List Text}

theorem isOk_ofSegment (s : Segment) :
    (ofSegment s).isOk = (Layout.ofLines s.language s.lines).isOk := by
  rw [ofSegment]
  cases Layout.ofLines s.language s.lines <;> rfl

theorem entries_ofLayout (s : Segment) (y : Layout) :
    (ofLayout s y).entries = y.lines.flatMap (entriesOf s.language) :=
  List.map_flatMap

theorem eq_append_iff_of_reads {α : Type} (us vs : List α) (x y : Bool) :
    ((if x then us ++ vs else []) = (if x then us else []) ++ (if y then vs else [])) ↔
      (vs ≠ [] → x = y) := by
  cases x <;> cases y <;> simp [eq_comm]

/-- Which of two statements' bindings a line of both loses: it has the names and expressions of
the two lines exactly if the second statement binds none or is read on the one like on the
other. -/
theorem entries_joined_iff (hl : t.language = s.language)
    (hs : Text.splitOn '\n' s.source = pre ++ joined u v :: post)
    (ht : Text.splitOn '\n' t.source = pre ++ u :: v :: post) (hu : Simple s.language u)
    (hv : Simple s.language v) :
    (ofSegment s).isOk = (ofSegment t).isOk ∧
      ∀ a b, ofSegment s = .ok a → ofSegment t = .ok b →
        ∃ p q, a.lines[pre.length]? = some p ∧ p.1.text = joined u v ∧
          b.lines[pre.length + 1]? = some q ∧ q.1.text = v ∧
          (p.2 = .topLevel → q.2 = .topLevel) ∧
          (a.entries = b.entries ↔
            (bound? s.language v ≠ [] → reads s.language p = reads s.language q)) := by
  obtain ⟨σ, step, finish, R, s₀, hj, hstart, htrack⟩ := Layout.exists_joins s.language
  have hlines : s.lines = Line.numbered s.language s.firstLine (pre ++ joined u v :: post) := by
    rw [← hs]
    rfl
  have hlines' : t.lines = Line.numbered s.language t.firstLine (pre ++ u :: v :: post) := by
    rw [← ht, ← hl]
    rfl
  refine ⟨?_, fun a b ha hb => ?_⟩
  · rw [isOk_ofSegment, isOk_ofSegment, hl, htrack, htrack, hlines, hlines']
    exact hj.isOk hstart hu hv pre post _ _
  · obtain ⟨y, hy, rfl⟩ := exists_layout ha
    obtain ⟨y', hy', rfl⟩ := exists_layout hb
    rw [htrack, hlines] at hy
    rw [hl, htrack, hlines'] at hy'
    obtain ⟨p, q, before, after, hp, hpt, hq, hqt, htop, hx, hx'⟩ :=
      hj.split hstart hu hv pre post s.firstLine t.firstLine
    rw [← Layout.lines_of_track hy] at hp hx
    rw [← Layout.lines_of_track hy'] at hq hx'
    refine ⟨p, q, hp, hpt, hq, hqt, htop, ?_⟩
    rw [entries_ofLayout, entries_ofLayout, hl, hx, hx', List.append_cancel_left_eq,
      ← List.append_assoc, List.append_cancel_right_eq]
    exact eq_append_iff_of_reads _ _ _ _

theorem exists_of_entries {es : List (Text × Text)}
    (h : (ofSegment s).toOption.map entries = some es) :
    ∃ a, ofSegment s = .ok a ∧ a.entries = es := by
  cases hs : ofSegment s with
  | error e => rw [hs] at h; cases h
  | ok a => rw [hs] at h; exact ⟨a, rfl, Option.some.inj h⟩

/-- An import and an assignment on one line. -/
def sharedLine : Segment where
  language := .python
  tag := "py"
  source := "import os; x = 1"
  ordinal := 0
  firstLine := 2

def ownLines : Segment := { sharedLine with source := "import os\nx = 1" }

/-- Behind an import the assignment is lost. -/
theorem entries_joined_iff_import :
    Simple .python "import os" ∧ Simple .python "x = 1" ∧
      ∃ a b, ofSegment sharedLine = .ok a ∧ ofSegment ownLines = .ok b ∧
        a.entries = [] ∧ b.entries = ([("x", "1")] : List (Text × Text)) ∧
        ∃ p q, a.lines[0]? = some p ∧ b.lines[1]? = some q ∧
          (a.entries = b.entries ↔
            (bound? .python "x = 1" ≠ [] → reads .python p = reads .python q)) := by
  have hu : Simple .python "import os" := ⟨by decide, by decide +kernel, by decide +kernel,
    by decide +kernel, by decide +kernel, by decide +kernel⟩
  have hv : Simple .python "x = 1" := ⟨by decide, by decide +kernel, by decide +kernel,
    by decide +kernel, by decide +kernel, by decide +kernel⟩
  have hl : ownLines.language = sharedLine.language := rfl
  have hs : Text.splitOn '\n' sharedLine.source = [] ++ joined "import os" "x = 1" :: [] := by
    decide
  have ht : Text.splitOn '\n' ownLines.source =
      [] ++ "import os".toList :: "x = 1".toList :: [] := by decide
  have hshared : (ofSegment sharedLine).toOption.map entries = some [] := by decide +kernel
  have hown : (ofSegment ownLines).toOption.map entries =
      some ([("x", "1")] : List (Text × Text)) := by decide +kernel
  obtain ⟨a, ha, hae⟩ := exists_of_entries hshared
  obtain ⟨b, hb, hbe⟩ := exists_of_entries hown
  obtain ⟨-, hiff⟩ := entries_joined_iff hl hs ht hu hv
  obtain ⟨p, q, hp, -, hq, -, -, hpq⟩ := hiff a b ha hb
  exact ⟨hu, hv, a, b, ha, hb, hae, hbe, p, q, hp, hq, hpq⟩

end Analysis
end Polyglot
