import Mathlib.Data.List.Basic
import Polyglot.Console.Screen
import Polyglot.Proofs.Segment.Chapter

/-!
# The window of an excerpt

An excerpt, read line by line: the numbered lines around the line of interest, framed, with a
row of marks under that line. The marks stand under the line's text exactly if the blanks before
the text are characters of one byte each.
-/
namespace Polyglot.Excerpt
open Text (size isBlank)

variable {lines : List Text} {n : Nat}

def column (lines : List Text) (n : Nat) : Nat :=
  (Text.decimal (min lines.length (n + 2))).length

def edge (width : Nat) : Text := List.replicate (width + 1) '-' ++ "|--"

def cell (width : Nat) (lines : List Text) (number : Nat) : Text :=
  Text.padLeft width (Text.decimal number) ++ " | " ++ lines.getD (number - 1) []

/-- A mark for each character of the text between the blanks, at least one. -/
def underline (width inset : Nat) (content : Text) : Text :=
  Text.blanks width ++ " | " ++ Text.blanks inset ++
    List.replicate (max (Text.trim content).length 1) '^'

/-- The lines from two before line `n` to two behind it, as far as there are any, and under line
`n` its marks, moved in by `inset`. -/
def page (lines : List Text) (n inset : Nat) : List Text :=
  let first := max 1 (n - 2)
  let last := min lines.length (n + 2)
  let width := column lines n
  edge width :: ((List.range' first (n - first)).map (cell width lines) ++
    cell width lines n :: underline width inset (lines.getD (n - 1) []) ::
      ((List.range' (n + 1) (last - n)).map (cell width lines) ++ [edge width]))

/-- The blanks before the text of a line. -/
def leading (content : Text) : Text := content.takeWhile isBlank

theorem length_decimal_le {m n : Nat} (h : m ≤ n) :
    (Text.decimal m).length ≤ (Text.decimal n).length := by
  have hpos : 0 < (Text.decimal n).length := Nat.length_toDigits_pos
  have hn : n < 10 ^ (Text.decimal n).length :=
    (Nat.length_toDigits_le_iff (by decide) hpos).1 (Nat.le_refl _)
  exact (Nat.length_toDigits_le_iff (by decide) hpos).2 (Nat.lt_of_le_of_lt h hn)

theorem length_padLeft_decimal {k : Nat} (h : k ≤ min lines.length (n + 2)) :
    (Text.padLeft (column lines n) (Text.decimal k)).length = column lines n := by
  have hle := length_decimal_le h
  rw [← column] at hle
  rw [Text.padLeft, List.length_append, Text.blanks, List.length_replicate]
  omega

theorem numberFrom_eq_map (m : Nat) (ts : List Text) :
    numberFrom m ts = (List.range' m ts.length).map fun k => (k, ts.getD (k - m) []) := by
  induction ts generalizing m with
  | nil => rfl
  | cons t r ih =>
    rw [numberFrom, ih, List.length_cons, List.range'_succ, List.map_cons, Nat.sub_self]
    refine congrArg _ (List.map_congr_left fun k hk => ?_)
    have hlt := (List.mem_range'_1.1 hk).1
    rw [show k - m = k - (m + 1) + 1 by omega, List.getD_cons_succ]

theorem filter_range' (s a b c : Nat) {hi : Nat} (h : hi + 1 = s + a + b) :
    (List.range' s (a + (b + c))).filter (fun k => s + a ≤ k && k ≤ hi) =
      List.range' (s + a) b := by
  have hinside : ∀ k, (decide (s + a ≤ k) && decide (k ≤ hi)) = true ↔
      s + a ≤ k ∧ k < s + a + b := by
    intro k
    rw [Bool.and_eq_true, decide_eq_true_eq, decide_eq_true_eq, ← h, Nat.lt_succ_iff]
  have hbefore : (List.range' s a).filter (fun k => s + a ≤ k && k ≤ hi) = [] := by
    refine List.filter_eq_nil_iff.2 fun k hk => ?_
    rw [hinside]
    have hlt := (List.mem_range'_1.1 hk).2
    omega
  have hself : (List.range' (s + a) b).filter (fun k => s + a ≤ k && k ≤ hi) =
      List.range' (s + a) b :=
    List.filter_eq_self.2 fun k hk => (hinside k).2 (List.mem_range'_1.1 hk)
  have hbehind : (List.range' (s + a + b) c).filter (fun k => s + a ≤ k && k ≤ hi) = [] := by
    refine List.filter_eq_nil_iff.2 fun k hk => ?_
    rw [hinside]
    have hle := (List.mem_range'_1.1 hk).1
    omega
  rw [← List.range'_append_1, ← List.range'_append_1, List.filter_append, List.filter_append,
    hbefore, hself, hbehind, List.nil_append, List.append_nil]

theorem shown_eq (h₀ : n ≠ 0) (hn : n ≤ lines.length) :
    shown lines n = (List.range' (max 1 (n - 2)) (n - max 1 (n - 2)) ++
      n :: List.range' (n + 1) (min lines.length (n + 2) - n)).map
        fun k => (k, lines.getD (k - 1) []) := by
  obtain ⟨a, ha⟩ : ∃ a, max 1 (n - 2) = 1 + a := ⟨max 1 (n - 2) - 1, by omega⟩
  obtain ⟨b, hb⟩ : ∃ b, min lines.length (n + 2) = n + b :=
    ⟨_, (Nat.add_sub_cancel' (by omega)).symm⟩
  obtain ⟨m, hm⟩ : ∃ m, n = 1 + a + m := ⟨n - (1 + a), by omega⟩
  obtain ⟨c, hc⟩ : ∃ c, lines.length = a + ((m + (1 + b)) + c) := ⟨lines.length - (n + b), by omega⟩
  have hfirst : first n = 1 + a := by rw [← ha, first, reach, Nat.max_comm]
  have hlast : last lines.length n + 1 = 1 + a + (m + (1 + b)) := by
    rw [last, reach, Nat.min_comm, hb]
    omega
  have hparts : List.range' (1 + a) (m + (1 + b)) =
      List.range' (1 + a) m ++ n :: List.range' (n + 1) b := by
    rw [← List.range'_append_1, hm, Nat.add_comm 1 b, List.range'_succ]
  have hfilter := filter_range' 1 a (m + (1 + b)) c hlast
  rw [← hc] at hfilter
  rw [shown, numberFrom_eq_map, List.filter_map, ha, hb, Nat.add_sub_cancel_left,
    show n - (1 + a) = m by omega, ← hparts, hfirst, ← hfilter]
  rfl

theorem splitOn_ended {ls : List Text} (h : ∀ p ∈ ls, '\n' ∉ p) :
    Text.splitOn '\n' (ls.flatMap (· ++ ['\n'])) = ls ++ [[]] := by
  induction ls with
  | nil => rfl
  | cons p r ih =>
    obtain ⟨hp, hr⟩ := List.forall_mem_cons.1 h
    rw [List.flatMap_cons, List.append_assoc, List.singleton_append, Text.splitOn_append hp, ih hr,
      List.cons_append]

theorem size_eq_length_iff (t : Text) : size t = t.length ↔ ∀ c ∈ t, c.utf8Size = 1 := by
  induction t with
  | nil => exact ⟨fun _ => nofun, fun _ => rfl⟩
  | cons c r ih =>
    have hc := c.utf8Size_pos
    have hle : r.length ≤ size r := by
      clear ih
      induction r with
      | nil => exact Nat.le_refl 0
      | cons d r ih =>
        have hd := d.utf8Size_pos
        rw [size, List.length_cons]
        omega
    rw [size, List.length_cons, List.forall_mem_cons, ← ih]
    omega

theorem inset_eq (content : Text) : inset content = size (leading content) := by
  have hs := Text.size_append (leading content) (content.dropWhile isBlank)
  rw [leading, List.takeWhile_append_dropWhile] at hs
  rw [inset, Text.trimStart, leading]
  omega

theorem frame_eq (width : Nat) : frame width = edge width ++ ['\n'] := by
  rw [frame, edge, List.append_assoc]
  rfl

theorem row_eq (width : Nat) (lines : List Text) (k : Nat) :
    row width (k, lines.getD (k - 1) []) = cell width lines k ++ ['\n'] := rfl

theorem marks_eq (width : Nat) (content : Text) :
    marks width content = underline width (inset content) content ++ ['\n'] := rfl

theorem rows_self (width : Nat) (lines : List Text) (n : Nat) :
    rows width n (n, lines.getD (n - 1) []) = cell width lines n ++ ['\n'] ++
      (underline width (inset (lines.getD (n - 1) [])) (lines.getD (n - 1) []) ++ ['\n']) := by
  rw [rows, if_pos rfl, row_eq, marks_eq]

theorem flatMap_rows {ks : List Nat} (h : n ∉ ks) (width : Nat) :
    (ks.map fun k => (k, lines.getD (k - 1) [])).flatMap (rows width n) =
      (ks.map (cell width lines)).flatMap (· ++ ['\n']) := by
  rw [List.flatMap_map, List.flatMap_map]
  refine List.flatMap_congr fun k hk => ?_
  have hne : k ≠ n := fun he => h (he ▸ hk)
  rw [rows, if_neg hne, row_eq]

theorem around_eq (h₀ : n ≠ 0) (hn : n ≤ lines.length) :
    around lines n =
      (page lines n (inset (lines.getD (n - 1) []))).flatMap (· ++ ['\n']) := by
  have hbefore : n ∉ List.range' (max 1 (n - 2)) (n - max 1 (n - 2)) := by
    rw [List.mem_range'_1]
    omega
  have hbehind : n ∉ List.range' (n + 1) (min lines.length (n + 2) - n) := by
    rw [List.mem_range'_1]
    omega
  have hwidth : width lines.length n = column lines n := by
    rw [width, last, reach, Nat.min_comm, column]
  simp only [around, page, hwidth, shown_eq h₀ hn, frame_eq, List.map_append, List.map_cons,
    List.flatMap_append, List.flatMap_cons, List.flatMap_nil, rows_self, flatMap_rows hbefore,
    flatMap_rows hbehind, List.append_assoc, List.append_nil]

theorem feed_replicate {c : Char} (hc : c ≠ '\n') (k : Nat) : '\n' ∉ List.replicate k c :=
  fun hm => hc (List.eq_of_mem_replicate hm).symm

theorem feed_bar : '\n' ∉ (" | " : Text) := by decide

theorem feed_edge (width : Nat) : '\n' ∉ edge width := by
  rw [edge, List.mem_append, not_or]
  exact ⟨feed_replicate (by decide) _, by decide⟩

theorem feed_cell (h : ∀ t ∈ lines, '\n' ∉ t) (width k : Nat) : '\n' ∉ cell width lines k := by
  have hnumber : '\n' ∉ Text.decimal k := fun hm =>
    absurd (Nat.isDigit_of_mem_toDigits (by decide) (by decide) hm) (by decide)
  have hline : '\n' ∉ lines.getD (k - 1) [] := by
    rw [List.getD_eq_getElem?_getD]
    cases hk : lines[k - 1]? with
    | none => exact List.not_mem_nil
    | some t => exact h t (List.mem_of_getElem? hk)
  simp only [cell, Text.padLeft, List.mem_append, not_or]
  exact ⟨⟨⟨feed_replicate (by decide) _, hnumber⟩, feed_bar⟩, hline⟩

theorem feed_underline (width inset : Nat) (content : Text) :
    '\n' ∉ underline width inset content := by
  simp only [underline, Text.blanks, List.mem_append, not_or]
  exact ⟨⟨⟨feed_replicate (by decide) _, feed_bar⟩, feed_replicate (by decide) _⟩,
    feed_replicate (by decide) _⟩

theorem feed_page (h : ∀ t ∈ lines, '\n' ∉ t) (inset : Nat) :
    ∀ t ∈ page lines n inset, '\n' ∉ t := by
  have hcells : ∀ width, ∀ ks : List Nat, ∀ t ∈ ks.map (cell width lines), '\n' ∉ t := by
    intro width ks t ht
    obtain ⟨k, -, rfl⟩ := List.mem_map.1 ht
    exact feed_cell h width k
  simp only [page, List.forall_mem_cons, List.forall_mem_append]
  exact ⟨feed_edge _, hcells _ _, feed_cell h _ _, feed_underline _ _ _, hcells _ _, feed_edge _,
    List.forall_mem_nil _⟩

theorem page_inj {i j : Nat} : page lines n i = page lines n j ↔ i = j := by
  refine ⟨fun h => ?_, fun h => h ▸ rfl⟩
  have hrow := (List.cons.inj (List.append_cancel_left (List.cons.inj h).2)).2
  have hlen := congrArg List.length (List.cons.inj hrow).1
  simp only [underline, Text.blanks, List.length_append, List.length_replicate] at hlen
  omega

/-- An excerpt is shown exactly for the lines that the source has. It is the page of its line,
numbers at the right of their column and marks moved in by the bytes of the blanks before the
line's text, so the marks stand under the text exactly if each of these blanks is one byte. -/
theorem marks_aligned_iff (source : Text) (n : Nat) :
    (ofLine? source n = none ↔ n = 0 ∨ (Text.lines source).length < n) ∧
      ∀ t, ofLine? source n = some t → ∃ content, (Text.lines source)[n - 1]? = some content ∧
        Text.splitOn '\n' t = page (Text.lines source) n (size (leading content)) ++ [[]] ∧
        (∀ k ≤ min (Text.lines source).length (n + 2),
          (Text.padLeft (column (Text.lines source) n) (Text.decimal k)).length =
            column (Text.lines source) n) ∧
        (Text.splitOn '\n' t = page (Text.lines source) n (leading content).length ++ [[]] ↔
          ∀ c ∈ leading content, c.utf8Size = 1) := by
  have hnone : ofLine? source n = none ↔ n = 0 ∨ (Text.lines source).length < n := by
    unfold ofLine?
    by_cases h : n = 0 ∨ (Text.lines source).length < n <;> simp [h]
  refine ⟨hnone, fun t ht => ?_⟩
  have hline : ¬ (n = 0 ∨ (Text.lines source).length < n) := by
    rw [← hnone, ht]
    exact nofun
  obtain ⟨h₀, hn⟩ := not_or.1 hline
  have hn := Nat.le_of_not_lt hn
  rw [ofLine?, if_neg hline, Option.some_inj] at ht
  have hget : (Text.lines source)[n - 1]? = some ((Text.lines source).getD (n - 1) []) := by
    rw [List.getD_eq_getElem?_getD, List.getElem?_eq_getElem (by omega), Option.getD_some]
  have hfeed : ∀ p ∈ Text.lines source, '\n' ∉ p := fun p hp => Text.not_mem_of_mem_lines hp
  have hpage : Text.splitOn '\n' t = page (Text.lines source) n
      (size (leading ((Text.lines source).getD (n - 1) []))) ++ [[]] := by
    rw [← ht, around_eq h₀ hn, splitOn_ended (feed_page hfeed _), inset_eq]
  refine ⟨_, hget, hpage, fun k hk => length_padLeft_decimal hk, ?_⟩
  rw [hpage, List.append_cancel_right_eq, page_inj, size_eq_length_iff]

def wideSource : Text := "[py]\n\u3000x = 1"

/-- The wide blank is one character of three bytes, and the marks stand two columns too far
to the right. -/
theorem marks_aligned_iff_wide :
    ∃ t, ofLine? wideSource 2 = some t ∧
      Text.splitOn '\n' t = [("--|--" : Text), ("1 | [py]" : Text), ("2 | \u3000x = 1" : Text),
        ("  |    ^^^^^" : Text), ("--|--" : Text), []] ∧
      (Text.splitOn '\n' t = page (Text.lines wideSource) 2 1 ++ [[]] ↔
        ∀ c ∈ leading "\u3000x = 1", c.utf8Size = 1) ∧
      ¬ Text.splitOn '\n' t = page (Text.lines wideSource) 2 1 ++ [[]] := by
  have hsome : (ofLine? wideSource 2).isSome = true := by decide +kernel
  obtain ⟨t, ht⟩ := Option.isSome_iff_exists.1 hsome
  obtain ⟨-, hall⟩ := marks_aligned_iff wideSource 2
  obtain ⟨content, hc, hpage, -, hiff⟩ := hall t ht
  have hline : (Text.lines wideSource)[2 - 1]? = some ("\u3000x = 1" : Text) := by decide +kernel
  obtain rfl := Option.some.inj (hline.symm.trans hc)
  have hlength : (leading "\u3000x = 1").length = 1 := by decide +kernel
  rw [hlength] at hiff
  refine ⟨t, ht, hpage.trans (by decide +kernel), hiff, fun h => ?_⟩
  exact absurd (hiff.1 h '\u3000' (by decide +kernel)) (by decide)

end Polyglot.Excerpt
