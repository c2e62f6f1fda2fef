import Polyglot.Proofs.Analysis.Origin

/-!
# Functions by their indents

Where blocks are told by indents, a function begins on every live line of indent zero that
introduces one, and ends before the first live line that is indented less than the first
one of its body. The tracker, which sees one line at a time, comes to the same: in each
state the function that is open still takes the lines up to there.
-/
namespace Polyglot

namespace Line

def live (x : Line) : Bool := !Token.isDead x.tokens

def indent (x : Line) : Nat := Token.indent x.text

end Line

namespace Indents

/-- The function that begins on the line. -/
def introduced? (x : Line) : Option Header :=
  if x.live && x.indent == 0 then Header.ofLine? .python x else none

/-- The live lines of the body, given the lines behind the header: if the first one of them
is indented, all up to the first that is indented less. -/
def body (after : List Line) : List Line :=
  match after.filter Line.live with
  | [] => []
  | y :: r => if y.indent = 0 then [] else (y :: r).takeWhile (y.indent ≤ ·.indent)

/-- The number of the last line, or `n` if there is none. -/
def lastOr (n : Nat) (xs : List Line) : Nat := (xs.getLast?.map Line.number).getD n

theorem lastOr_cons (n : Nat) (x : Line) (xs : List Line) :
    lastOr n (x :: xs) = lastOr x.number xs := by
  rw [lastOr, List.getLast?_cons, lastOr]
  cases xs.getLast? <;> rfl

def extent (h : Header) (after : List Line) : Extent := ⟨h, lastOr h.line (body after)⟩

def extents : List Line → List Extent
  | [] => []
  | x :: r => ((introduced? x).map (extent · r)).toList ++ extents r

def pending : State → List Line → Option Extent
  | .outside, _ => none
  | .awaiting h, ls => some (extent h ls)
  | .inside h w last, ls =>
    some ⟨h, lastOr last ((ls.filter Line.live).takeWhile (w ≤ ·.indent))⟩

def Sound : State → Prop
  | .inside _ w _ => 0 < w
  | _ => True

def ended : State → Option Extent
  | .outside => none
  | .awaiting h => some ⟨h, h.line⟩
  | .inside h _ last => some ⟨h, last⟩

theorem finish_eq (s : State) : finish s = .ok (ended s) := by cases s <;> rfl

def found (s : State) (ls : List Line) : List Extent :=
  Layout.completed step s ls ++ (ended (Layout.final step s ls)).toList

theorem found_cons (s : State) (x : Line) (r : List Line) :
    found s (x :: r) = (step s x).done.toList ++ found (step s x).next r :=
  List.append_assoc _ _ _

section
variable {x : Line} {r : List Line} {s : State}

theorem introduced?_of_dead (h : x.live = false) : introduced? x = none := by
  rw [introduced?, h, Bool.false_and, if_neg Bool.false_ne_true]

theorem introduced?_of_indent (h : 0 < x.indent) : introduced? x = none := by
  rw [introduced?, beq_false_of_ne (Nat.ne_of_gt h), Bool.and_false, if_neg Bool.false_ne_true]

theorem extents_of_none (h : introduced? x = none) : extents (x :: r) = extents r := by
  rw [extents, h]
  rfl

theorem body_of_dead (h : x.live = false) : body (x :: r) = body r := by
  rw [body, List.filter_cons, h, if_neg Bool.false_ne_true, body]

theorem pending_of_dead (h : x.live = false) : pending s (x :: r) = pending s r := by
  cases s with
  | outside => rfl
  | awaiting k => rw [pending, extent, body_of_dead h, pending, extent]
  | inside k w last => rw [pending, List.filter_cons, h, if_neg Bool.false_ne_true, pending]

theorem step_of_dead (h : x.live = false) : (step s x).next = s ∧ (step s x).done = none := by
  have hd : Token.isDead x.tokens = true := by simpa [Line.live] using h
  unfold step
  rw [if_pos hd]
  cases s <;> exact ⟨rfl, rfl⟩

theorem step_of_live (h : x.live = true) : step s x = match s with
    | .outside => pass x none
    | .awaiting k =>
      if x.indent = 0 then pass x (some ⟨k, k.line⟩)
      else ⟨.inside k x.indent x.number, .inFunction, none⟩
    | .inside k w last =>
      if w ≤ x.indent then ⟨.inside k w x.number, .inFunction, none⟩
      else pass x (some ⟨k, last⟩) := by
  have hd : Token.isDead x.tokens = false := by simpa [Line.live] using h
  unfold step
  rw [hd, if_neg Bool.false_ne_true]
  rfl

theorem next_pass (h : x.live = true) (d : Option Extent) :
    (pass x d).next = match introduced? x with
      | some k => .awaiting k
      | none => .outside := by
  rw [pass, introduced?, h, Bool.true_and, Line.indent]
  by_cases hz : Token.indent x.text = 0
  · rw [if_pos hz, beq_iff_eq.2 hz, if_pos rfl]
    cases Header.ofLine? .python x <;> rfl
  · rw [if_neg hz, beq_false_of_ne hz, if_neg Bool.false_ne_true]

theorem found_pass (h : x.live = true) (d : Option Extent)
    (ih : ∀ s, Sound s → found s r = (pending s r).toList ++ extents r) :
    (pass x d).done.toList ++ found (pass x d).next r = d.toList ++ extents (x :: r) := by
  rw [(pass_done x d).2.2, next_pass h, extents]
  cases introduced? x with
  | none => rw [ih .outside trivial]; rfl
  | some k => rw [ih (.awaiting k) trivial]; rfl

theorem lastOr_takeWhile {w last : Nat} (h : x.live = true) (hw : w ≤ x.indent) :
    lastOr last (((x :: r).filter Line.live).takeWhile (w ≤ ·.indent)) =
      lastOr x.number ((r.filter Line.live).takeWhile (w ≤ ·.indent)) := by
  rw [List.filter_cons_of_pos h,
    List.takeWhile_cons_of_pos (p := fun z : Line => decide (w ≤ z.indent)) (decide_eq_true hw),
    lastOr_cons]

theorem found_eq (s : State) (hs : Sound s) (ls : List Line) :
    found s ls = (pending s ls).toList ++ extents ls := by
  induction ls generalizing s with
  | nil => cases s <;> rfl
  | cons x r ih =>
    rw [found_cons]
    cases hx : x.live with
    | false =>
      obtain ⟨hnext, hdone⟩ := step_of_dead (s := s) hx
      rw [hnext, hdone, pending_of_dead hx, extents_of_none (introduced?_of_dead hx), ih s hs]
      rfl
    | true =>
      rw [step_of_live hx]
      cases s with
      | outside => exact found_pass hx none ih
      | awaiting k =>
        have hbody : body (x :: r) = if x.indent = 0 then [] else
            ((x :: r).filter Line.live).takeWhile (x.indent ≤ ·.indent) := by
          rw [body, List.filter_cons_of_pos hx]
        dsimp only
        rw [pending, extent, hbody]
        by_cases hz : x.indent = 0
        · rw [if_pos hz, if_pos hz]
          exact found_pass hx _ ih
        · have hpos := Nat.pos_of_ne_zero hz
          rw [if_neg hz, if_neg hz, lastOr_takeWhile hx (Nat.le_refl _),
            extents_of_none (introduced?_of_indent hpos), ih (.inside k x.indent x.number) hpos]
          rfl
      | inside k w last =>
        dsimp only
        rw [pending]
        by_cases hw : w ≤ x.indent
        · have hpos : 0 < x.indent := Nat.lt_of_lt_of_le hs hw
          rw [if_pos hw, lastOr_takeWhile hx hw, extents_of_none (introduced?_of_indent hpos),
            ih (.inside k w x.number) hs]
          rfl
        · rw [if_neg hw, List.filter_cons_of_pos hx,
            List.takeWhile_cons_of_neg (by simpa using hw)]
          exact found_pass hx _ ih

end

theorem layout_eq (ls : List Line) :
    Layout.ofLines .python ls = .ok ⟨Layout.roles step .outside ls, extents ls⟩ := by
  have hfound : found .outside ls = extents ls := found_eq .outside trivial ls
  rw [Layout.ofLines, Layout.track, finish_eq, ← hfound]
  rfl

theorem map_header_extents (ls : List Line) :
    (extents ls).map Extent.header = ls.filterMap introduced? := by
  induction ls with
  | nil => rfl
  | cons x r ih =>
    rw [extents, List.map_append, ih, List.filterMap_cons]
    cases introduced? x <;> rfl

theorem exists_of_mem_extents {ls : List Line} {e : Extent} (h : e ∈ extents ls) :
    ∃ before x after, ls = before ++ x :: after ∧ introduced? x = some e.header ∧
      e = extent e.header after := by
  induction ls with
  | nil => cases h
  | cons x r ih =>
    rcases List.mem_append.1 h with h | h
    · obtain ⟨k, hk, rfl⟩ := Option.map_eq_some_iff.1 (Option.mem_toList.1 h)
      exact ⟨[], x, r, rfl, hk, rfl⟩
    · obtain ⟨before, y, after, rfl, hy, he⟩ := ih h
      exact ⟨x :: before, y, after, rfl, hy, he⟩

theorem role_step {s : State} {x : Line} (h : x.live = true) :
    (step s x).role = .inFunction ∨
      (step s x).role = if x.indent = 0 then .topLevel else .nested := by
  have hpass : ∀ d, (pass x d).role = .inFunction ∨
      (pass x d).role = if x.indent = 0 then .topLevel else .nested := by
    intro d
    unfold pass Line.indent
    split
    · cases Header.ofLine? .python x <;> simp
    · exact .inr rfl
  rw [step_of_live h]
  cases s with
  | outside => exact hpass none
  | awaiting k =>
    dsimp only
    by_cases hz : x.indent = 0
    · rw [if_pos hz]
      exact hpass _
    · rw [if_neg hz]
      exact .inl rfl
  | inside k w last =>
    dsimp only
    split
    · exact .inl rfl
    · exact hpass _

theorem role_of_mem {s : State} {ls : List Line} {p : Line × Role}
    (h : p ∈ Layout.roles step s ls) (hl : p.1.live = true) :
    p.2 = .inFunction ∨ p.2 = if p.1.indent = 0 then .topLevel else .nested := by
  induction ls generalizing s with
  | nil => cases h
  | cons x r ih =>
    rcases List.mem_cons.1 h with rfl | h
    · exact role_step hl
    · exact ih h

def Covered (a : Analysis) (n : Nat) : Prop := ∃ f ∈ a.functions, f.line ≤ n ∧ n ≤ f.last

/-- The functions and the roles of the lines, read off the lines of the segment. A function
whose first line is `x` has the lines `after` behind it. -/
structure Settled (s : Segment) (a : Analysis) : Prop where
  headers : a.functions.map (fun f => (⟨f.name, f.params, f.line⟩ : Header)) =
    s.lines.filterMap introduced?
  ends : ∀ f ∈ a.functions, ∃ before x after, s.lines = before ++ x :: after ∧
    x.number = f.line ∧ f.line ≤ f.last ∧ f.last = lastOr f.line (body after)
  source : ∀ f ∈ a.functions, f.source = Analysis.sourceBetween a.lines f.line f.last
  apart : a.functions.Pairwise fun f g => f.last < g.line
  lines : a.lines.map Prod.fst = s.lines
  inFunction : ∀ p ∈ a.lines, p.1.live = true → (p.2 = .inFunction ↔ Covered a p.1.number)
  topLevel : ∀ p ∈ a.lines, p.1.live = true →
    (p.2 = .topLevel ↔ ¬ Covered a p.1.number ∧ p.1.indent = 0)
  nested : ∀ p ∈ a.lines, p.1.live = true →
    (p.2 = .nested ↔ ¬ Covered a p.1.number ∧ 0 < p.1.indent)
  dead : ∀ p ∈ a.lines, p.2 = .inFunction → ¬ Covered a p.1.number → p.1.live = false

section
variable {s : Segment} {a : Analysis} {p : Line × Role}

theorem inFunction_iff (ha : Analysis.ofSegment s = .ok a) (hp : p ∈ a.lines)
    (hl : p.1.live = true) : p.2 = .inFunction ↔ Covered a p.1.number := by
  have hd : Token.isDead p.1.tokens = false := by simpa [Line.live] using hl
  have hcount := Analysis.countP_functions ha hp hd
  have hcovered : Covered a p.1.number ↔
      0 < a.functions.countP (FunctionDef.covers p.1.number) := by
    simp only [Covered, List.countP_pos_iff, FunctionDef.covers_iff]
  rw [hcovered, hcount]
  split <;> simp [*]

theorem outside_iff {r : Role} {n : Nat} {c : Prop} (hc : r = .inFunction ↔ c)
    (hr : r = .inFunction ∨ r = if n = 0 then .topLevel else .nested) :
    (r = .topLevel ↔ ¬ c ∧ n = 0) ∧ (r = .nested ↔ ¬ c ∧ 0 < n) := by
  rw [← hc, Nat.pos_iff_ne_zero]
  by_cases hz : n = 0
  · rw [if_pos hz] at hr
    rcases hr with rfl | rfl <;> simp [hz]
  · rw [if_neg hz] at hr
    rcases hr with rfl | rfl <;> simp [hz]

theorem ofSegment_eq (hs : s.language = .python) : Analysis.ofSegment s =
    .ok (Analysis.ofLayout s ⟨Layout.roles step .outside s.lines, extents s.lines⟩) := by
  rw [Analysis.ofSegment, hs, layout_eq]
  rfl

theorem map_header_functions (hs : s.language = .python) (ha : Analysis.ofSegment s = .ok a) :
    a.functions.map (fun f => (⟨f.name, f.params, f.line⟩ : Header)) =
      s.lines.filterMap introduced? := by
  obtain rfl := Except.ok.inj (ha.symm.trans (ofSegment_eq hs))
  rw [← map_header_extents, Analysis.ofLayout, List.map_map]
  exact List.map_congr_left fun e _ => rfl

theorem exists_last_of_function (hs : s.language = .python) (ha : Analysis.ofSegment s = .ok a)
    {f : FunctionDef} (hf : f ∈ a.functions) :
    ∃ before x after, s.lines = before ++ x :: after ∧ x.number = f.line ∧
      f.last = lastOr f.line (body after) := by
  obtain ⟨y, hy, rfl, hlast⟩ := Analysis.exists_extents ha
  rw [hs, layout_eq] at hy
  obtain rfl := Except.ok.inj hy
  obtain ⟨e, he, rfl⟩ := List.mem_map.1 hf
  obtain ⟨before, x, after, hls, hx, hend⟩ := exists_of_mem_extents he
  refine ⟨before, x, after, hls, ?_, (hlast e he).2.trans (congrArg Extent.last hend)⟩
  unfold introduced? at hx
  split at hx
  · exact (Header.line_of_ofLine hx).symm
  · cases hx

theorem role_of_mem_lines (hs : s.language = .python) (ha : Analysis.ofSegment s = .ok a)
    (hp : p ∈ a.lines) (hl : p.1.live = true) :
    p.2 = .inFunction ∨ p.2 = if p.1.indent = 0 then .topLevel else .nested := by
  obtain rfl := Except.ok.inj (ha.symm.trans (ofSegment_eq hs))
  exact role_of_mem hp hl

/-- A segment whose blocks are told by indents always has an analysis, and its functions and
roles are those that the indents of its live lines give. -/
theorem settled_by_indents (hs : s.language = .python) :
    ∃ a, Analysis.ofSegment s = .ok a ∧ Settled s a := by
  obtain ⟨a, ha⟩ : ∃ a, Analysis.ofSegment s = .ok a := ⟨_, ofSegment_eq hs⟩
  have houtside : ∀ p ∈ a.lines, p.1.live = true →
      (p.2 = .topLevel ↔ ¬ Covered a p.1.number ∧ p.1.indent = 0) ∧
        (p.2 = .nested ↔ ¬ Covered a p.1.number ∧ 0 < p.1.indent) :=
    fun p hp hl => outside_iff (inFunction_iff ha hp hl) (role_of_mem_lines hs ha hp hl)
  refine ⟨a, ha, {
    headers := map_header_functions hs ha
    ends := fun f hf => ?_
    source := fun f hf => Analysis.source_of_function ha hf
    apart := Analysis.apart_functions ha
    lines := Analysis.map_fst_lines ha
    inFunction := fun p hp hl => inFunction_iff ha hp hl
    topLevel := fun p hp hl => (houtside p hp hl).1
    nested := fun p hp hl => (houtside p hp hl).2
    dead := fun p hp hr hc => ?_ }⟩
  · obtain ⟨before, x, after, hls, hx, hend⟩ := exists_last_of_function hs ha hf
    exact ⟨before, x, after, hls, hx, Analysis.line_le_last ha hf, hend⟩
  · cases hl : p.1.live with
    | false => rfl
    | true => exact absurd ((inFunction_iff ha hp hl).1 hr) hc

/-- Blank lines and comments in and behind bodies, a function on one line, a function whose
first line closes the one before, and a body that ends in front of an indented line. -/
def steppedSegment : Segment where
  language := .python
  tag := "py"
  source := "def f(a):\n# c\n\n    if a:\n  \n        return 1\n    return 2\n # d\ndef g(x): return x\nif f(1):\n    y = g(2)\nasync def h(): # e\n\t pass\n x = 1\n\n  # z"
  ordinal := 0
  firstLine := 3

def steppedFunctions : List (Text × Nat × Nat) := [("f", 3, 9), ("g", 11, 11), ("h", 14, 15)]

def steppedRoles : List Role :=
  List.replicate 9 .inFunction ++
    [.topLevel, .nested, .inFunction, .inFunction, .nested, .topLevel, .topLevel]

theorem settled_by_indents_stepped :
    ∃ a, Analysis.ofSegment steppedSegment = .ok a ∧ Settled steppedSegment a ∧
      a.functions.map (fun f => (f.name, f.line, f.last)) = steppedFunctions ∧
      a.lines.map Prod.snd = steppedRoles := by
  have hv : (Analysis.ofSegment steppedSegment).toOption.map (fun a =>
      (a.functions.map (fun f => (f.name, f.line, f.last)), a.lines.map Prod.snd)) =
      some (steppedFunctions, steppedRoles) := by
    decide +kernel
  obtain ⟨a, ha, hsettled⟩ := settled_by_indents (s := steppedSegment) rfl
  rw [ha] at hv
  obtain ⟨hfunctions, hroles⟩ := Prod.mk.inj (Option.some.inj hv)
  exact ⟨a, ha, hsettled, hfunctions, hroles⟩

end

end Indents
end Polyglot
