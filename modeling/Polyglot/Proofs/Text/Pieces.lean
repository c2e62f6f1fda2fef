import Polyglot.Engine
import Polyglot.Text.Classes

/-!
# Pieces of a text

A text taken apart at known places comes back piece by piece: cuts at the bytes
where a piece ends, the blanks at the end, and the lines of a text joined before.
-/
namespace Polyglot

namespace Text

theorem of_ascii {P : Char → Prop} (h : ∀ n < 128, P (Char.ofNat n)) {c : Char}
    (hc : c.toNat < 128) : P c := by
  have hp := h c.toNat hc
  rwa [Char.ofNat_toNat] at hp

def Ranges.points (rs : Ranges) : List Nat := rs.flatMap fun r => List.range' r.1 (r.2 + 1 - r.1)

theorem Ranges.mem_points {n : Nat} {rs : Ranges} (h : rs.mem n = true) : n ∈ rs.points := by
  induction rs with
  | nil => cases h
  | cons r rest ih =>
    obtain ⟨lo, hi⟩ := r
    rw [Ranges.mem] at h
    by_cases hl : n < lo
    · rw [if_pos hl] at h; cases h
    · rw [if_neg hl, Bool.or_eq_true, decide_eq_true_eq] at h
      rw [points, List.flatMap_cons, List.mem_append]
      rcases h with h | h
      · exact .inl (List.mem_range'_1.2 (by simp only; omega))
      · exact .inr (ih h)

theorem separates_of_isBlank {c : Char} (h : isBlank c = true) (l : Language) :
    isAlphanumeric c = false ∧ c ≠ '_' ∧ c ≠ '.' ∧ c ≠ '=' ∧ l.continuesName c = false ∧
      l.quotes.contains c = false ∧ c ∉ l.commentMark := by
  have hall : ∀ n ∈ blankRanges.points, ∀ l : Language, l = .javascript ∨ l = .python →
      isAlphanumeric (Char.ofNat n) = false ∧ Char.ofNat n ≠ '_' ∧ Char.ofNat n ≠ '.' ∧
        Char.ofNat n ≠ '=' ∧ l.continuesName (Char.ofNat n) = false ∧
        l.quotes.contains (Char.ofNat n) = false ∧ Char.ofNat n ∉ l.commentMark := by
    intro n hn l hl
    rcases hl with rfl | rfl <;> revert n <;> decide +kernel
  have hc := hall c.toNat (Ranges.mem_points h) l (by cases l <;> simp)
  rwa [Char.ofNat_toNat] at hc

theorem exists_trimEnd (t : Text) : ∃ b, t = trimEnd t ++ b ∧ ∀ c ∈ b, isBlank c = true := by
  refine ⟨(t.reverse.takeWhile isBlank).reverse, ?_, ?_⟩
  · rw [trimEnd, ← List.reverse_append, List.takeWhile_append_dropWhile, List.reverse_reverse]
  · intro c hc
    have hp := List.all_takeWhile (p := isBlank) (l := t.reverse)
    rw [List.all_eq_true] at hp
    exact hp c (List.mem_reverse.1 hc)

theorem trimEnd_of_last {w : Text} (h : ∀ d ∈ w.getLast?, isBlank d = false) :
    trimEnd w = w := by
  rcases List.eq_nil_or_concat w with rfl | ⟨r, d, rfl⟩
  · rfl
  · have hd := h d (by rw [List.concat_eq_append, List.getLast?_concat]; rfl)
    rw [List.concat_eq_append, trimEnd, List.reverse_concat, List.dropWhile_cons, hd]
    simp

theorem trimStart_cons {c : Char} {r : Text} (h : isBlank c = false) :
    trimStart (c :: r) = c :: r := by
  rw [trimStart, List.dropWhile_cons, h]
  rfl

theorem isPrefixOf_append {mark rest : Text} (w : Text) (h : ∀ c ∈ rest.head?, c ∉ mark) :
    mark.isPrefixOf (w ++ rest) = mark.isPrefixOf w := by
  rw [Bool.eq_iff_iff, List.isPrefixOf_iff_prefix, List.isPrefixOf_iff_prefix]
  constructor
  · intro hm
    rcases List.prefix_or_prefix_of_prefix hm (List.prefix_append w rest) with hw | ⟨z, rfl⟩
    · exact hw
    · rw [List.prefix_append_right_inj] at hm
      cases z with
      | nil => exact ⟨[], by simp⟩
      | cons c z =>
        obtain ⟨y, rfl⟩ := hm
        exact absurd (List.mem_append_right w List.mem_cons_self) (h c rfl)
  · exact fun hm => hm.trans (List.prefix_append w rest)

theorem eq_nil_of_size {t : Text} (h : size t = 0) : t = [] := by
  cases t with
  | nil => rfl
  | cons c r =>
    have hc := c.utf8Size_pos
    rw [size] at h
    omega

theorem dropBytes_add (a b : Text) (n : Nat) :
    dropBytes (size a + n) (a ++ b) = dropBytes n b := by
  induction a with
  | nil => rw [size, Nat.zero_add, List.nil_append]
  | cons c r ih =>
    have hc := c.utf8Size_pos
    obtain ⟨k, hk⟩ : ∃ k, size (c :: r) + n = k + 1 :=
      Nat.exists_eq_succ_of_ne_zero (by simp only [size]; omega)
    have hr : k + 1 - c.utf8Size = size r + n := by rw [← hk, size]; omega
    rw [hk, List.cons_append, dropBytes, hr, ih]

theorem takeBytes_add (a b : Text) (n : Nat) :
    takeBytes (size a + n) (a ++ b) = a ++ takeBytes n b := by
  induction a with
  | nil => rw [size, Nat.zero_add, List.nil_append, List.nil_append]
  | cons c r ih =>
    have hc := c.utf8Size_pos
    obtain ⟨k, hk⟩ : ∃ k, size (c :: r) + n = k + 1 :=
      Nat.exists_eq_succ_of_ne_zero (by simp only [size]; omega)
    have hr : k + 1 - c.utf8Size = size r + n := by rw [← hk, size]; omega
    rw [hk, List.cons_append, takeBytes, hr, ih, List.cons_append]

theorem dropBytes_size (a b : Text) : dropBytes (size a) (a ++ b) = b := by
  have h := dropBytes_add a b 0
  rwa [Nat.add_zero, dropBytes] at h

theorem takeBytes_size (a b : Text) : takeBytes (size a) (a ++ b) = a := by
  have h := takeBytes_add a b 0
  rwa [Nat.add_zero, takeBytes, List.append_nil] at h

theorem slice_append (a b c : Text) : slice (a ++ (b ++ c)) (size a) (size a + size b) = b := by
  rw [slice, dropBytes_size, Nat.add_sub_cancel_left, takeBytes_size]

theorem slice_append_start (w rest : Text) {n : Nat} (h : size w ≤ n) :
    slice (w ++ rest) 0 n = w ++ slice (w ++ rest) (size w) n := by
  have hn : n = size w + (n - size w) := by omega
  rw [slice, slice, dropBytes_size, Nat.sub_zero, hn, Nat.add_sub_cancel_left,
    dropBytes, takeBytes_add]

theorem splitOn_ne_nil (sep : Char) (t : Text) : splitOn sep t ≠ [] := by
  cases t with
  | nil => simp [splitOn]
  | cons c r =>
    rw [splitOn]
    split
    · simp
    · split <;> simp

theorem not_mem_of_mem_splitOn {sep : Char} {t p : Text} (h : p ∈ splitOn sep t) : sep ∉ p := by
  induction t generalizing p with
  | nil => rw [splitOn, List.mem_singleton] at h; rw [h]; exact List.not_mem_nil
  | cons c r ih =>
    rw [splitOn] at h
    split at h
    · rcases List.mem_cons.1 h with rfl | h
      · exact List.not_mem_nil
      · exact ih h
    · next hc =>
      cases hs : splitOn sep r with
      | nil => exact absurd hs (splitOn_ne_nil sep r)
      | cons q qs =>
        rw [hs] at h
        rcases List.mem_cons.1 h with rfl | h
        · intro hm
          rcases List.mem_cons.1 hm with rfl | hm
          · exact hc rfl
          · exact ih (hs ▸ List.mem_cons_self) hm
        · exact ih (hs ▸ List.mem_cons_of_mem q h)

theorem splitOn_of_not_mem {sep : Char} {p : Text} (h : sep ∉ p) : splitOn sep p = [p] := by
  induction p with
  | nil => rfl
  | cons c r ih =>
    have hc : ¬ c = sep := fun e => h (e ▸ List.mem_cons_self)
    rw [splitOn, if_neg hc, ih fun hm => h (List.mem_cons_of_mem c hm)]

theorem splitOn_append {sep : Char} {p : Text} (h : sep ∉ p) (t : Text) :
    splitOn sep (p ++ sep :: t) = p :: splitOn sep t := by
  induction p with
  | nil => simp [splitOn]
  | cons c r ih =>
    have hc : ¬ c = sep := fun e => h (e ▸ List.mem_cons_self)
    rw [List.cons_append, splitOn, if_neg hc, ih fun hm => h (List.mem_cons_of_mem c hm)]

theorem splitOn_append_cons {sep : Char} (a b : Text) :
    splitOn sep (a ++ sep :: b) = splitOn sep a ++ splitOn sep b := by
  induction a with
  | nil => simp [splitOn]
  | cons c r ih =>
    rw [List.cons_append, splitOn, splitOn, ih]
    split
    · rfl
    · cases h : splitOn sep r with
      | nil => exact absurd h (splitOn_ne_nil sep r)
      | cons p ps => rfl

theorem joinWith_cons_cons (sep : Char) (a b : Text) (r : List Text) :
    joinWith [sep] (a :: b :: r) = a ++ sep :: joinWith [sep] (b :: r) := by
  simp [joinWith, List.intercalate_cons_cons]

theorem splitOn_joinWith {sep : Char} {ls : List Text} (hn : ls ≠ []) (h : ∀ p ∈ ls, sep ∉ p) :
    splitOn sep (joinWith [sep] ls) = ls := by
  induction ls with
  | nil => exact absurd rfl hn
  | cons a r ih =>
    have ha := h a List.mem_cons_self
    cases r with
    | nil => simpa [joinWith] using splitOn_of_not_mem ha
    | cons b r =>
      rw [joinWith_cons_cons, splitOn_append ha,
        ih (List.cons_ne_nil b r) fun p hp => h p (List.mem_cons_of_mem a hp)]

theorem unlines_cons_cons (a b : Text) (r : List Text) :
    unlines (a :: b :: r) = a ++ ('\n' :: unlines (b :: r)) :=
  joinWith_cons_cons '\n' a b r

theorem splitOn_unlines {ls : List Text} (hn : ls ≠ []) (h : ∀ p ∈ ls, '\n' ∉ p) :
    splitOn '\n' (unlines ls) = ls :=
  splitOn_joinWith hn h

theorem splitOn_unlines_flatMap {ls : List Text} (h : ls ≠ []) :
    splitOn '\n' (unlines ls) = ls.flatMap (splitOn '\n') := by
  induction ls with
  | nil => exact absurd rfl h
  | cons a r ih =>
    cases r with
    | nil => simp [unlines, joinWith]
    | cons b r =>
      rw [unlines_cons_cons, splitOn_append_cons, ih (List.cons_ne_nil b r)]
      rfl

structure Solid (w : Text) : Prop where
  feed : '\n' ∉ w
  first : ∃ c r, w = c :: r ∧ isBlank c = false
  last : ∃ c r, w = r ++ [c] ∧ isBlank c = false

namespace Solid
variable {w : Text}

theorem ne_nil (h : Solid w) : w ≠ [] := by
  obtain ⟨c, r, rfl, -⟩ := h.first
  exact List.cons_ne_nil c r

theorem trim (h : Solid w) : Text.trim w = w := by
  obtain ⟨c, r, hf, hb⟩ := h.first
  obtain ⟨d, s, hl, he⟩ := h.last
  have hstart : trimStart w = w := by rw [hf, trimStart_cons hb]
  rw [Text.trim, hstart, trimEnd, hl, List.reverse_concat]
  rw [List.dropWhile_cons, he]
  simp

theorem dropReturn (h : Solid w) : Text.dropReturn w = w := by
  have hlast : w.getLast? ≠ some '\r' := by
    obtain ⟨c, s, rfl, hb⟩ := h.last
    rw [List.getLast?_concat]
    rintro ⟨⟩
    exact absurd hb (by decide)
  rw [Text.dropReturn, if_neg hlast]

end Solid

theorem linesOf_solid {ls : List Text} (h : ∀ w ∈ ls, Solid w) : linesOf ls = ls := by
  induction ls with
  | nil => rfl
  | cons w r ih =>
    have hw := h w List.mem_cons_self
    have hr := ih fun v hv => h v (List.mem_cons_of_mem w hv)
    cases r with
    | nil => rw [linesOf, if_neg hw.ne_nil]
    | cons v r =>
      rw [linesOf, hw.dropReturn, hr]
      exact nofun

theorem lines_unlines {ls : List Text} (h : ∀ w ∈ ls, Solid w) : lines (unlines ls) = ls := by
  by_cases hn : ls = []
  · rw [hn]
    rfl
  · rw [lines, splitOn_unlines hn fun w hw => (h w hw).feed, linesOf_solid h]

theorem unlines_singleton (a : Text) : unlines [a] = a := by simp [unlines, joinWith]

theorem unlines_splitOn (t : Text) : unlines (splitOn '\n' t) = t := by
  induction t with
  | nil => rfl
  | cons c r ih =>
    cases hs : splitOn '\n' r with
    | nil => exact absurd hs (splitOn_ne_nil '\n' r)
    | cons p ps =>
      rw [hs] at ih
      rw [splitOn]
      split
      · next hc =>
        rw [hs, unlines_cons_cons, ih, hc]
        rfl
      · rw [hs]
        cases ps with
        | nil =>
          rw [unlines_singleton] at ih ⊢
          rw [ih]
        | cons q ps =>
          rw [unlines_cons_cons] at ih ⊢
          rw [List.cons_append, ih]

theorem infix_unlines {x : Text} {xs : List Text} (h : x ∈ xs) : x <:+: unlines xs := by
  induction xs with
  | nil => cases h
  | cons a r ih =>
    cases r with
    | nil =>
      have hx : x = unlines [a] := (List.mem_singleton.1 h).trans (unlines_singleton a).symm
      exact hx ▸ List.infix_rfl
    | cons b r =>
      rw [unlines_cons_cons]
      rcases List.mem_cons.1 h with rfl | h
      · exact (List.prefix_append _ _).isInfix
      · exact (ih h).trans ((List.suffix_cons _ _).trans (List.suffix_append _ _)).isInfix

theorem prefix_unlines (xs ys : List Text) : unlines xs <+: unlines (xs ++ ys) := by
  induction xs with
  | nil => exact List.nil_prefix
  | cons a r ih =>
    cases r with
    | cons b r =>
      rw [List.cons_append, List.cons_append, unlines_cons_cons, unlines_cons_cons]
      exact (List.prefix_append_right_inj a).2 (List.cons_prefix_cons.2 ⟨rfl, ih⟩)
    | nil =>
      cases ys with
      | nil => exact List.prefix_rfl
      | cons y ys =>
        rw [List.singleton_append, unlines_cons_cons, unlines_singleton]
        exact List.prefix_append a _

theorem suffix_unlines (xs ys : List Text) : unlines ys <:+ unlines (xs ++ ys) := by
  induction xs with
  | nil => exact List.suffix_rfl
  | cons a r ih =>
    cases hr : r ++ ys with
    | nil =>
      rw [(List.append_eq_nil_iff.1 hr).2]
      exact List.nil_suffix
    | cons b rest =>
      rw [List.cons_append, hr, unlines_cons_cons, ← hr]
      exact ih.trans ((List.suffix_cons _ _).trans (List.suffix_append _ _))

theorem infix_unlines_of_infix {xs ys : List Text} (h : xs <:+: ys) :
    unlines xs <:+: unlines ys := by
  obtain ⟨pre, post, rfl⟩ := h
  exact (suffix_unlines pre xs).isInfix.trans (prefix_unlines (pre ++ xs) post).isInfix

end Text
end Polyglot
