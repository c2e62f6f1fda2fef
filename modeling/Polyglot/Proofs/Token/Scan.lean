import Polyglot.Proofs.Text.Pieces
import Polyglot.Token
import Polyglot.Unit.Generator

/-!
# Scanning piece by piece

A scan sees no further than the token it is at, so it may be cut between any two
tokens: each piece of the line, scanned by itself, gives its own tokens. Where the
line starts in bytes only moves the tokens, and blanks at its end go unnoticed
unless a string is still open.
-/
namespace Polyglot.Token
open Text (size)

variable {l : Language}

theorem stringTail_cons (q : Char) {c : Char} (r : Text) (h : c ≠ '\\') :
    stringTail q (c :: r) = if c = q then 1 else stringTail q r + 1 := by
  rw [stringTail.eq_def]
  simp only [if_neg h]

theorem stringTail_le (q : Char) (r : Text) : stringTail q r ≤ r.length := by
  fun_induction stringTail q r with
  | case1 => exact Nat.le_refl 0
  | case2 => exact Nat.le_refl 1
  | case3 c s ih => simp only [List.length_cons]; omega
  | case4 => simp only [List.length_cons]; omega
  | case5 c r _ _ ih => simp only [List.length_cons]; omega

theorem stringTail_append (q : Char) (a b : Text) :
    stringTail q (a ++ b) = stringTail q a ∨
      stringTail q a = a.length ∧ a.length ≤ stringTail q (a ++ b) := by
  fun_induction stringTail q a with
  | case1 => exact .inr ⟨rfl, Nat.zero_le _⟩
  | case2 =>
    refine .inr ⟨rfl, ?_⟩
    cases b with
    | nil => exact Nat.le_refl 1
    | cons d s => simp only [List.cons_append, List.nil_append, stringTail, List.length_cons]; simp
  | case3 d s ih =>
    rw [List.cons_append, List.cons_append, stringTail]
    simp only [List.length_cons]
    simp
    omega
  | case4 r hb =>
    rw [List.cons_append, stringTail_cons q _ hb, if_pos rfl]
    exact .inl rfl
  | case5 c r hb hq ih =>
    rw [List.cons_append, stringTail_cons q _ hb, if_neg hq]
    simp only [List.length_cons]
    omega

theorem lexeme_le (l : Language) (c : Char) (r : Text) : (lexeme l c r).2 ≤ r.length := by
  have hn : nameTail l r ≤ r.length := (List.takeWhile_sublist _).length_le
  unfold lexeme
  split
  · exact Nat.le_refl _
  · split
    · exact stringTail_le c r
    · split
      · dsimp only
        split
        · exact hn
        · next q s hd =>
          have hs := congrArg List.length hd
          have ht := stringTail_le q s
          simp only [List.length_drop, List.length_cons] at hs
          split
          · simp only; omega
          · exact hn
      · split
        · exact (List.takeWhile_sublist _).length_le
        · exact Nat.zero_le _

theorem takeWhile_append_of_le {p : Char → Bool} {a b : Text}
    (h : ((a ++ b).takeWhile p).length ≤ a.length) :
    (a ++ b).takeWhile p = a.takeWhile p := by
  rw [List.takeWhile_append] at h ⊢
  by_cases ha : (a.takeWhile p).length = a.length
  · rw [if_pos ha, List.length_append] at h
    have hb : b.takeWhile p = [] := List.eq_nil_of_length_eq_zero (by omega)
    have ht : a.takeWhile p = a := (List.takeWhile_prefix p).eq_of_length ha
    rw [if_pos ha, hb, List.append_nil, ht]
  · rw [if_neg ha]

theorem takeWhile_append_of_head {p : Char → Bool} (w : Text) {rest : Text}
    (h : ∀ c ∈ rest.head?, p c = false) :
    (w ++ rest).takeWhile p = w.takeWhile p := by
  have hrest : rest.takeWhile p = [] := by
    cases rest with
    | nil => rfl
    | cons c r => rw [List.takeWhile_cons, h c rfl]; rfl
  rw [List.takeWhile_append, hrest, List.append_nil]
  split
  · next hw => exact ((List.takeWhile_prefix p).eq_of_length hw).symm
  · rfl

theorem lexeme_comment {c : Char} {r : Text} (hm : l.commentMark.isPrefixOf (c :: r) = true) :
    lexeme l c r = (.comment, r.length) := by
  rw [lexeme, if_pos hm]

theorem lexeme_quote {c : Char} {r : Text} (hm : l.commentMark.isPrefixOf (c :: r) = false)
    (hq : l.quotes.contains c = true) : lexeme l c r = (.str, stringTail c r) := by
  rw [lexeme, hm, if_neg Bool.false_ne_true, if_pos hq]

theorem lexeme_other {c : Char} {r : Text} (hm : l.commentMark.isPrefixOf (c :: r) = false)
    (hq : l.quotes.contains c = false) (hs : l.startsName c = false) :
    lexeme l c r = if c.isDigit = true then (.number, numberTail r) else (.punct c, 0) := by
  rw [lexeme, hm, hq, hs, if_neg Bool.false_ne_true, if_neg Bool.false_ne_true,
    if_neg Bool.false_ne_true]

def wordLexeme (l : Language) (word : Text) : Text → Kind × Nat
  | [] => (.ident, 0)
  | q :: s =>
    if l.quotes.contains q && l.stringMarks.contains (Text.lower word) then
      (.str, 1 + stringTail q s)
    else (.ident, 0)

theorem lexeme_word (l : Language) {c : Char} {r : Text}
    (hm : l.commentMark.isPrefixOf (c :: r) = false) (hq : l.quotes.contains c = false)
    (hs : l.startsName c = true) :
    lexeme l c r =
      ((wordLexeme l (c :: r.takeWhile l.continuesName) (r.drop (nameTail l r))).1,
        nameTail l r
          + (wordLexeme l (c :: r.takeWhile l.continuesName) (r.drop (nameTail l r))).2) := by
  have ht : r.take (nameTail l r) = r.takeWhile l.continuesName :=
    (List.prefix_iff_eq_take.1 (List.takeWhile_prefix _)).symm
  simp only [lexeme, hm, hq, hs, ht, if_true, Bool.false_eq_true, if_false]
  cases r.drop (nameTail l r) with
  | nil => rfl
  | cons q s =>
    simp only [wordLexeme]
    split
    · simp only [Prod.mk.injEq, true_and]; omega
    · rfl

theorem wordLexeme_append {word a b : Text} (h : (wordLexeme l word (a ++ b)).2 ≤ a.length) :
    wordLexeme l word a = wordLexeme l word (a ++ b) := by
  cases a with
  | nil =>
    cases b with
    | nil => rfl
    | cons q s =>
      simp only [List.nil_append, wordLexeme] at h ⊢
      split
      · next hw => rw [if_pos hw] at h; simp only [List.length_nil] at h; omega
      · rfl
  | cons q s =>
    simp only [List.cons_append, wordLexeme] at h ⊢
    split
    · next hw =>
      rw [if_pos hw] at h
      simp only [List.length_cons] at h
      have hs := stringTail_append q s b
      have he : stringTail q s = stringTail q (s ++ b) := by omega
      rw [he]
    · rfl

theorem isPrefixOf_of_append {mark a b : Text} (h : mark.isPrefixOf (a ++ b) = false) :
    mark.isPrefixOf a = false := by
  rw [← Bool.not_eq_true, List.isPrefixOf_iff_prefix] at h ⊢
  exact fun hp => h (hp.trans (List.prefix_append a b))

/-- A lexeme that ends within a text does not depend on what follows the text. -/
theorem lexeme_append {c : Char} {a b : Text} (h : (lexeme l c (a ++ b)).2 ≤ a.length) :
    lexeme l c a = lexeme l c (a ++ b) := by
  cases hm : l.commentMark.isPrefixOf (c :: (a ++ b)) with
  | true =>
    simp only [lexeme_comment hm, List.length_append] at h
    have hb : b = [] := List.eq_nil_of_length_eq_zero (by omega)
    rw [hb, List.append_nil]
  | false =>
    have hma : l.commentMark.isPrefixOf (c :: a) = false := isPrefixOf_of_append hm
    cases hq : l.quotes.contains c with
    | true =>
      rw [lexeme_quote hm hq] at h ⊢
      rw [lexeme_quote hma hq]
      have hs := stringTail_append c a b
      have he : stringTail c a = stringTail c (a ++ b) := by omega
      rw [he]
    | false =>
      cases hs : l.startsName c with
      | true =>
        rw [lexeme_word l hm hq hs] at h ⊢
        rw [lexeme_word l hma hq hs]
        have hn : nameTail l (a ++ b) ≤ a.length := Nat.le_trans (Nat.le_add_right _ _) h
        have ht : (a ++ b).takeWhile l.continuesName = a.takeWhile l.continuesName :=
          takeWhile_append_of_le hn
        have hl : nameTail l (a ++ b) = nameTail l a := by rw [nameTail, ht, nameTail]
        rw [hl] at hn
        simp only [ht, hl, List.drop_append_of_le_length hn] at h ⊢
        rw [wordLexeme_append]
        rw [List.length_drop]
        omega
      | false =>
        rw [lexeme_other hm hq hs] at h ⊢
        rw [lexeme_other hma hq hs]
        by_cases hd : c.isDigit = true
        · simp only [hd, if_true, numberTail] at h ⊢
          rw [takeWhile_append_of_le h]
        · simp only [hd, Bool.false_eq_true, if_false]

theorem scan_cons {c : Char} (r : Text) (pos : Nat) (h : Text.isBlank c = false) :
    scan l 0 pos (c :: r) =
      ⟨(lexeme l c r).1, c :: r.take (lexeme l c r).2, pos⟩
        :: scan l (lexeme l c r).2 (pos + c.utf8Size) r := by
  rw [scan, h]
  rfl

theorem scan_blank {c : Char} (r : Text) (pos : Nat) (h : Text.isBlank c = true) :
    scan l 0 pos (c :: r) = scan l 0 (pos + c.utf8Size) r := by
  rw [scan, if_pos h]

theorem scan_skip (u r : Text) (pos : Nat) :
    scan l u.length pos (u ++ r) = scan l 0 (pos + size u) r := by
  induction u generalizing pos with
  | nil => rfl
  | cons c u ih => rw [List.length_cons, List.cons_append, scan, ih, size, Nat.add_assoc]

theorem scan_lexeme {c : Char} {u r : Text} {kind : Kind} (hb : Text.isBlank c = false)
    (hx : lexeme l c (u ++ r) = (kind, u.length)) (pos : Nat) :
    scan l 0 pos (c :: (u ++ r)) = ⟨kind, c :: u, pos⟩ :: scan l 0 (pos + size (c :: u)) r := by
  rw [scan_cons _ pos hb, hx, List.take_left, scan_skip, size, ← Nat.add_assoc]

theorem scan_all {k : Nat} {r : Text} (h : r.length ≤ k) (pos : Nat) : scan l k pos r = [] := by
  induction r generalizing k pos with
  | nil => rw [scan]
  | cons c r ih =>
    simp only [List.length_cons] at h
    obtain ⟨k, rfl⟩ : ∃ n, k = n + 1 := Nat.exists_eq_succ_of_ne_zero (by omega)
    exact ih (by omega) _

theorem scan_blanks {u : Text} (h : ∀ c ∈ u, Text.isBlank c = true) (r : Text) (pos : Nat) :
    scan l 0 pos (u ++ r) = scan l 0 (pos + size u) r := by
  induction u generalizing pos with
  | nil => rfl
  | cons c u ih =>
    rw [List.cons_append, scan_blank _ _ (h c List.mem_cons_self),
      ih fun d hd => h d (List.mem_cons_of_mem c hd), size, Nat.add_assoc]

theorem scan_first {c : Char} (r : Text) (pos : Nat) (h : Text.isBlank c = false) :
    scan l 0 pos (c :: r.take (lexeme l c r).2) =
        [⟨(lexeme l c r).1, c :: r.take (lexeme l c r).2, pos⟩] ∧
      scan l (lexeme l c r).2 (pos + c.utf8Size) r =
        scan l 0 (pos + size (c :: r.take (lexeme l c r).2)) (r.drop (lexeme l c r).2) := by
  have hr := List.take_append_drop (lexeme l c r).2 r
  have hlen : (r.take (lexeme l c r).2).length = (lexeme l c r).2 := by
    rw [List.length_take]
    exact Nat.min_eq_left (lexeme_le l c r)
  have hx : lexeme l c (r.take (lexeme l c r).2) = lexeme l c r := by
    have hx := lexeme_append (l := l) (c := c) (a := r.take (lexeme l c r).2)
      (b := r.drop (lexeme l c r).2)
    rw [hr, hlen] at hx
    exact hx (Nat.le_refl _)
  have hs := scan_skip (l := l) (r.take (lexeme l c r).2) (r.drop (lexeme l c r).2)
    (pos + c.utf8Size)
  rw [hr, hlen, Nat.add_assoc] at hs
  refine ⟨?_, hs⟩
  rw [scan_cons _ pos h, hx, scan_all (Nat.le_of_eq hlen), List.take_take, Nat.min_self]

theorem scan_split {k pos : Nat} {text : Text} {ts us : List Token}
    (h : scan l k pos text = ts ++ us) (hn : ts ≠ []) :
    ∃ u v, text = u ++ v ∧ k ≤ u.length ∧ scan l k pos u = ts ∧
      scan l 0 (pos + size u) v = us ∧ ts.getLast?.map stop = some (pos + size u) := by
  induction text generalizing k pos ts with
  | nil =>
    rw [scan] at h
    exact absurd (List.append_eq_nil_iff.1 h.symm).1 hn
  | cons c r ih =>
    cases k with
    | succ k =>
      obtain ⟨u, v, hr, hk, hu, hv, hl⟩ := ih (k := k) h hn
      refine ⟨c :: u, v, by rw [hr]; rfl, Nat.succ_le_succ hk, hu, ?_, ?_⟩
      · rw [size, ← Nat.add_assoc]; exact hv
      · rw [size, ← Nat.add_assoc]; exact hl
    | zero =>
      cases hb : Text.isBlank c with
      | true =>
        rw [scan_blank r pos hb] at h
        obtain ⟨u, v, hr, -, hu, hv, hl⟩ := ih h hn
        refine ⟨c :: u, v, by rw [hr]; rfl, Nat.zero_le _, ?_, ?_, ?_⟩
        · rw [scan_blank u pos hb]; exact hu
        · rw [size, ← Nat.add_assoc]; exact hv
        · rw [size, ← Nat.add_assoc]; exact hl
      | false =>
        rw [scan_cons r pos hb] at h
        obtain ⟨t, ts, rfl⟩ := List.exists_cons_of_ne_nil hn
        rw [List.cons_append, List.cons.injEq] at h
        obtain ⟨ht, h⟩ := h
        -- The token is all of `ts`, or the rest of `ts` is cut by the induction.
        by_cases he : ts = []
        · obtain ⟨hone, hrest⟩ := scan_first (l := l) r pos hb
          refine ⟨c :: r.take (lexeme l c r).2, r.drop (lexeme l c r).2, by simp, Nat.zero_le _,
            ?_, ?_, ?_⟩
          · rw [hone, ht, he]
          · rw [← hrest, h, he, List.nil_append]
          · rw [he, ← ht]; rfl
        · obtain ⟨u, v, hr, hk, hu, hv, hl⟩ := ih h he
          have hx : lexeme l c u = lexeme l c r := by
            rw [hr] at hk ⊢
            exact lexeme_append hk
          have htake : r.take (lexeme l c r).2 = u.take (lexeme l c r).2 := by
            rw [hr] at hk ⊢
            exact List.take_append_of_le_length hk
          refine ⟨c :: u, v, by rw [hr]; rfl, Nat.zero_le _, ?_, ?_, ?_⟩
          · rw [scan_cons _ pos hb, hx, ← htake, ht, hu]
          · rw [size, ← Nat.add_assoc]; exact hv
          · rw [size, ← Nat.add_assoc, List.getLast?_cons_of_ne_nil he]; exact hl

theorem lexeme_ident {c : Char} {r : Text} (h : (lexeme l c r).1 = .ident) :
    l.startsName c = true ∧ r.take (lexeme l c r).2 = r.takeWhile l.continuesName := by
  cases hm : l.commentMark.isPrefixOf (c :: r) with
  | true => rw [lexeme_comment hm] at h; cases h
  | false =>
    cases hq : l.quotes.contains c with
    | true => rw [lexeme_quote hm hq] at h; cases h
    | false =>
      cases hs : l.startsName c with
      | false =>
        rw [lexeme_other hm hq hs] at h
        split at h <;> cases h
      | true =>
        refine ⟨rfl, ?_⟩
        rw [lexeme_word l hm hq hs] at h ⊢
        have hw : (wordLexeme l (c :: r.takeWhile l.continuesName)
            (r.drop (nameTail l r))).2 = 0 := by
          revert h
          cases r.drop (nameTail l r) with
          | nil => intro _; rfl
          | cons q s =>
            simp only [wordLexeme]
            split
            · intro h; cases h
            · intro _; rfl
        rw [hw, Nat.add_zero]
        exact (List.prefix_iff_eq_take.1 (List.takeWhile_prefix _)).symm

theorem length_comment {c : Char} {r : Text} (h : (lexeme l c r).1 = .comment) :
    (lexeme l c r).2 = r.length := by
  cases hm : l.commentMark.isPrefixOf (c :: r) with
  | true => rw [lexeme_comment hm]
  | false =>
    cases hq : l.quotes.contains c with
    | true => rw [lexeme_quote hm hq] at h; cases h
    | false =>
      cases hs : l.startsName c with
      | true =>
        rw [lexeme_word l hm hq hs] at h
        cases hd : r.drop (nameTail l r) with
        | nil => rw [hd] at h; cases h
        | cons q s =>
          simp only [hd, wordLexeme] at h
          split at h <;> cases h
      | false =>
        rw [lexeme_other hm hq hs] at h
        split at h <;> cases h

theorem mem_scan {k pos : Nat} {text : Text} {t : Token} (h : t ∈ scan l k pos text) :
    ∃ c r, t.kind = (lexeme l c r).1 ∧ t.text = c :: r.take (lexeme l c r).2 := by
  induction text generalizing k pos with
  | nil => rw [scan] at h; cases h
  | cons c r ih =>
    cases k with
    | succ k => exact ih h
    | zero =>
      cases hb : Text.isBlank c with
      | true => rw [scan_blank r pos hb] at h; exact ih h
      | false =>
        rw [scan_cons r pos hb] at h
        rcases List.mem_cons.1 h with rfl | h
        · exact ⟨c, r, rfl, rfl⟩
        · exact ih h

theorem isWordChar_of_startsName {c : Char} (h : l.startsName c = true) :
    Placeholder.isWordChar c = true := by
  simp only [Language.startsName, Bool.or_eq_true, Bool.and_eq_true] at h
  simp only [Placeholder.isWordChar, Text.isAlphanumeric, Bool.or_eq_true]
  rcases h with (h | h) | h
  · exact .inl (.inl (.inl h))
  · exact .inl (.inr h)
  · exact .inr h.1

theorem isWordChar_of_continuesName {c : Char} (h : l.continuesName c = true) :
    Placeholder.isWordChar c = true := by
  simp only [Language.continuesName, Bool.or_eq_true, Bool.and_eq_true] at h
  simp only [Placeholder.isWordChar, Bool.or_eq_true]
  rcases h with (h | h) | h
  · exact .inl (.inl h)
  · exact .inl (.inr h)
  · exact .inr h.1

theorem exists_of_isIdent {line : Text} {t : Token} (h : t ∈ tokenize l line)
    (hi : t.isIdent = true) :
    ∃ c r, t.text = c :: r ∧ l.startsName c = true ∧ r.all l.continuesName = true := by
  obtain ⟨c, r, hk, ht⟩ := mem_scan h
  have hi : (lexeme l c r).1 = .ident := by rw [← hk]; simpa [isIdent] using hi
  obtain ⟨hs, hr⟩ := lexeme_ident hi
  exact ⟨c, r.takeWhile l.continuesName, ht.trans (by rw [hr]), hs, List.all_takeWhile⟩

theorem isWord_of_isIdent {line : Text} {t : Token} (h : t ∈ tokenize l line)
    (hi : t.isIdent = true) : t.text ≠ [] ∧ ∀ c ∈ t.text, Placeholder.isWordChar c = true := by
  obtain ⟨c, r, ht, hs, hr⟩ := exists_of_isIdent h hi
  rw [ht]
  refine ⟨List.cons_ne_nil _ _, fun d hd => ?_⟩
  rcases List.mem_cons.1 hd with rfl | hd
  · exact isWordChar_of_startsName hs
  · exact isWordChar_of_continuesName (List.all_eq_true.1 hr d hd)

theorem isWord_of_validName {n : Text} (h : l.validName n = true) :
    n ≠ [] ∧ ∀ c ∈ n, Placeholder.isWordChar c = true := by
  cases n with
  | nil => cases h
  | cons c r =>
    simp only [Language.validName, Bool.and_eq_true] at h
    obtain ⟨⟨hs, hr⟩, -⟩ := h
    refine ⟨List.cons_ne_nil _ _, fun d hd => ?_⟩
    rcases List.mem_cons.1 hd with rfl | hd
    · exact isWordChar_of_startsName hs
    · exact isWordChar_of_continuesName (List.all_eq_true.1 hr d hd)

theorem code_initial (l : Language) (k pos : Nat) (text : Text) :
    code (scan l k pos text) <+: scan l k pos text := by
  induction text generalizing k pos with
  | nil => rw [scan]; exact List.prefix_refl _
  | cons c r ih =>
    cases k with
    | succ k => exact ih k _
    | zero =>
      cases hb : Text.isBlank c with
      | true => rw [scan_blank r pos hb]; exact ih 0 _
      | false =>
        rw [scan_cons r pos hb]
        by_cases hc : (lexeme l c r).1 = .comment
        · rw [length_comment hc, scan_all (Nat.le_refl _), code,
            List.filter_cons_of_neg (by simp [isComment, hc])]
          exact List.nil_prefix
        · rw [code, List.filter_cons_of_pos (by simp [isComment, hc]), List.prefix_cons_inj]
          exact ih _ _

end Polyglot.Token
