import Polyglot.Proofs.Token.Span

/-!
# Tokens in order

The tokens of a line stand one behind the other, each with bytes of its own. A token
with another one behind it ends in a character that is no blank, so the text of some
tokens that are not the last of their line is all that the line has between their ends.
-/
namespace Polyglot.Token
open Text (size)

variable {l : Language}

theorem start_of_mem_scan {k pos : Nat} {text : Text} {t : Token} (h : t ∈ scan l k pos text) :
    pos + size (text.take k) ≤ t.start := by
  induction text generalizing k pos with
  | nil => rw [scan] at h; cases h
  | cons c r ih =>
    cases k with
    | succ k =>
      rw [List.take_succ_cons, size, ← Nat.add_assoc]
      exact ih h
    | zero =>
      have hlater : ∀ {k}, t ∈ scan l k (pos + c.utf8Size) r → pos ≤ t.start :=
        fun h => Nat.le_trans (by omega) (ih h)
      cases hb : Text.isBlank c with
      | true =>
        rw [scan_blank r pos hb] at h
        exact hlater h
      | false =>
        rw [scan_cons r pos hb] at h
        rcases List.mem_cons.1 h with rfl | h
        · exact Nat.le_refl pos
        · exact hlater h

theorem text_ne_nil {k pos : Nat} {text : Text} {t : Token} (h : t ∈ scan l k pos text) :
    t.text ≠ [] := by
  obtain ⟨c, r, -, ht⟩ := mem_scan h
  rw [ht]
  exact List.cons_ne_nil c _

theorem start_lt_stop {k pos : Nat} {text : Text} {t : Token} (h : t ∈ scan l k pos text) :
    t.start < t.stop := by
  obtain ⟨c, r, -, ht⟩ := mem_scan h
  have hc := c.utf8Size_pos
  rw [stop, ht, size]
  omega

theorem stop_le_of_mem_scan {k pos : Nat} {text : Text} {t : Token} (h : t ∈ scan l k pos text) :
    t.stop ≤ pos + size text := by
  induction text generalizing k pos with
  | nil => rw [scan] at h; cases h
  | cons c r ih =>
    rw [size, ← Nat.add_assoc]
    cases k with
    | succ k => exact ih h
    | zero =>
      cases hb : Text.isBlank c with
      | true => exact ih (scan_blank r pos hb ▸ h)
      | false =>
        rw [scan_cons r pos hb] at h
        rcases List.mem_cons.1 h with rfl | h
        · have hd := congrArg size (List.take_append_drop (lexeme l c r).2 r)
          rw [Text.size_append] at hd
          simp only [stop, size]
          omega
        · exact ih h

theorem pairwise_scan (l : Language) (k pos : Nat) (text : Text) :
    (scan l k pos text).Pairwise fun t u => t.stop ≤ u.start := by
  induction text generalizing k pos with
  | nil => rw [scan]; exact .nil
  | cons c r ih =>
    cases k with
    | succ k => exact ih k _
    | zero =>
      cases hb : Text.isBlank c with
      | true => rw [scan_blank r pos hb]; exact ih 0 _
      | false =>
        rw [scan_cons r pos hb]
        refine List.pairwise_cons.2 ⟨fun u hu => ?_, ih _ _⟩
        have hs := start_of_mem_scan hu
        rw [Nat.add_assoc] at hs
        exact hs

theorem stop_le_start {line : Text} {i j : Nat} {t u : Token}
    (ht : (tokenize l line)[i]? = some t) (hu : (tokenize l line)[j]? = some u) (h : i < j) :
    t.stop ≤ u.start := by
  obtain ⟨hi, rfl⟩ := List.getElem?_eq_some_iff.1 ht
  obtain ⟨hj, rfl⟩ := List.getElem?_eq_some_iff.1 hu
  exact List.pairwise_iff_getElem.1 (pairwise_scan l 0 0 line) i j hi hj h

theorem getLast?_stringTail {q : Char} {r : Text} (h : stringTail q r < r.length) :
    (r.take (stringTail q r)).getLast? = some q := by
  fun_induction stringTail q r with
  | case1 => cases h
  | case2 => simp at h
  | case3 d s ih =>
    simp only [List.length_cons] at h
    have hs := ih (by omega)
    have hn : s.take (stringTail q s) ≠ [] := by
      rintro hn
      rw [hn] at hs
      cases hs
    rw [List.take_succ_cons, List.take_succ_cons, List.getLast?_cons_of_ne_nil (by simp),
      List.getLast?_cons_of_ne_nil hn, hs]
  | case4 r hb => rfl
  | case5 c r hb hq ih =>
    simp only [List.length_cons] at h
    have hs := ih (by omega)
    have hn : r.take (stringTail q r) ≠ [] := by
      rintro hn
      rw [hn] at hs
      cases hs
    rw [List.take_succ_cons, List.getLast?_cons_of_ne_nil hn, hs]

theorem isBlank_of_continuesName {c : Char} (h : l.continuesName c = true) :
    Text.isBlank c = false := by
  cases hb : Text.isBlank c with
  | false => rfl
  | true =>
    rw [(Text.separates_of_isBlank hb l).2.2.2.2.1] at h
    cases h

theorem isBlank_of_continuesNumber {c : Char} (h : continuesNumber c = true) :
    Text.isBlank c = false := by
  cases hb : Text.isBlank c with
  | false => rfl
  | true =>
    obtain ⟨h₁, h₂, h₃, -⟩ := Text.separates_of_isBlank hb .python
    simp [continuesNumber, h₁, h₂, h₃] at h

theorem isBlank_of_quote {c : Char} (h : l.quotes.contains c = true) : Text.isBlank c = false := by
  cases hb : Text.isBlank c with
  | false => rfl
  | true =>
    rw [(Text.separates_of_isBlank hb l).2.2.2.2.2.1] at h
    cases h

theorem last_of_wordLexeme (l : Language) (word : Text) {a : Text}
    (h : (wordLexeme l word a).2 < a.length) :
    ∀ d ∈ (a.take (wordLexeme l word a).2).getLast?, Text.isBlank d = false := by
  cases a with
  | nil => exact absurd h (Nat.not_lt_zero _)
  | cons q s =>
    rw [wordLexeme] at h ⊢
    split at h
    · next hw =>
      rw [if_pos hw]
      rw [Bool.and_eq_true] at hw
      have hs : stringTail q s < s.length := by simp only [List.length_cons] at h; omega
      have hl := getLast?_stringTail hs
      have hn : s.take (stringTail q s) ≠ [] := by
        intro hn
        rw [hn] at hl
        cases hl
      rw [Nat.add_comm, List.take_succ_cons, List.getLast?_cons_of_ne_nil hn, hl]
      rintro d ⟨⟩
      exact isBlank_of_quote hw.1
    · next hw =>
      rw [if_neg hw]
      intro d hd
      cases hd

theorem last_of_lexeme {c : Char} {r : Text} (hb : Text.isBlank c = false)
    (h : (lexeme l c r).2 < r.length) :
    ∀ d ∈ (c :: r.take (lexeme l c r).2).getLast?, Text.isBlank d = false := by
  have hlast : ∀ {w : Text}, (∀ d ∈ w.getLast?, Text.isBlank d = false) →
      ∀ d ∈ (c :: w).getLast?, Text.isBlank d = false := by
    intro w hw d hd
    cases w with
    | nil => cases hd; exact hb
    | cons e w => exact hw d (List.getLast?_cons_of_ne_nil (List.cons_ne_nil e w) ▸ hd)
  have hall : ∀ {p : Char → Bool}, (∀ d, p d = true → Text.isBlank d = false) →
      ∀ d ∈ (r.takeWhile p).getLast?, Text.isBlank d = false := fun hp d hd =>
    hp d (List.all_eq_true.1 List.all_takeWhile d (List.mem_of_getLast? hd))
  have htake : ∀ p : Char → Bool, r.take (r.takeWhile p).length = r.takeWhile p := fun p =>
    (List.prefix_iff_eq_take.1 (List.takeWhile_prefix p)).symm
  refine hlast ?_
  cases hm : l.commentMark.isPrefixOf (c :: r) with
  | true =>
    rw [lexeme_comment hm] at h
    exact absurd h (Nat.lt_irrefl _)
  | false =>
    cases hq : l.quotes.contains c with
    | true =>
      rw [lexeme_quote hm hq] at h ⊢
      rw [getLast?_stringTail h]
      rintro d ⟨⟩
      exact isBlank_of_quote hq
    | false =>
      cases hs : l.startsName c with
      | false =>
        rw [lexeme_other hm hq hs]
        split
        · rw [numberTail, htake]
          exact hall fun d => isBlank_of_continuesNumber
        · intro d hd
          cases hd
      | true =>
        rw [lexeme_word l hm hq hs] at h ⊢
        have hw := last_of_wordLexeme l (c :: r.takeWhile l.continuesName)
          (show _ < (r.drop (nameTail l r)).length by rw [List.length_drop]; omega)
        intro d hd
        rw [List.take_add, List.getLast?_append, Option.mem_def, Option.or_eq_some_iff] at hd
        rcases hd with hd | ⟨-, hd⟩
        · exact hw d hd
        · rw [nameTail, htake] at hd
          exact hall (fun _ => isBlank_of_continuesName) d hd

theorem last_of_scan {k pos : Nat} {text : Text} {ts us : List Token} {t : Token}
    (h : scan l k pos text = ts ++ t :: us) (hu : us ≠ []) :
    ∀ d ∈ t.text.getLast?, Text.isBlank d = false := by
  induction text generalizing k pos ts with
  | nil => simp [scan] at h
  | cons c r ih =>
    cases k with
    | succ k => exact ih (k := k) h
    | zero =>
      cases hb : Text.isBlank c with
      | true => exact ih (scan_blank r pos hb ▸ h)
      | false =>
        rw [scan_cons r pos hb] at h
        cases ts with
        | cons x ts => exact ih (List.cons.inj h).2
        | nil =>
          obtain ⟨rfl, hr⟩ := List.cons.inj h
          refine last_of_lexeme hb (Nat.lt_of_not_le fun hle => hu ?_)
          rw [← hr, scan_all hle]

theorem suffix_of_stop {k pos : Nat} {text : Text} {t : Token} (h : t ∈ scan l k pos text)
    (hs : t.stop = pos + size text) : t.text <:+ text := by
  induction text generalizing k pos with
  | nil => rw [scan] at h; cases h
  | cons c r ih =>
    have hlater : ∀ {k}, t ∈ scan l k (pos + c.utf8Size) r → t.text <:+ c :: r := fun h =>
      (ih h (by rw [hs, size, Nat.add_assoc])).trans (List.suffix_cons c r)
    cases k with
    | succ k => exact hlater h
    | zero =>
      cases hb : Text.isBlank c with
      | true => exact hlater (scan_blank r pos hb ▸ h)
      | false =>
        rw [scan_cons r pos hb] at h
        rcases List.mem_cons.1 h with rfl | h
        · have hd := congrArg size (List.take_append_drop (lexeme l c r).2 r)
          rw [Text.size_append] at hd
          simp only [stop, size] at hs
          have hz : r.drop (lexeme l c r).2 = [] := Text.eq_nil_of_size (by omega)
          have hr := List.take_append_drop (lexeme l c r).2 r
          rw [hz, List.append_nil] at hr
          simp only [hr]
          exact List.suffix_refl _
        · exact hlater h

theorem exists_cut {line : Text} {pre ts post : List Token} {b : Token}
    (h : tokenize l line = pre ++ (ts ++ post)) (hb : ts.getLast? = some b)
    (hblank : ∀ d ∈ b.text.getLast?, Text.isBlank d = false) :
    ∃ u z, line = u ++ (spanText line ts ++ z) ∧ scan l 0 (size u) (spanText line ts) = ts ∧
      Text.trim (spanText line ts) = spanText line ts ∧
      ts.head?.map Token.start = some (size u) ∧ b.stop = size u + size (spanText line ts) := by
  have hn : ts ≠ [] := by
    rintro rfl
    cases hb
  obtain ⟨u, w, z, pos, rfl, rfl, hs, hw, hfirst, hlast⟩ := exists_span h hn
  have hstop : b.stop = size u + size w := by
    rwa [hb, Option.map_some, Option.some_inj] at hlast
  obtain ⟨c, r, rfl⟩ : ∃ c r, w = c :: r := by
    cases w with
    | nil => rw [scan] at hs; exact absurd hs.symm hn
    | cons c r => exact ⟨c, r, rfl⟩
  have hc : Text.isBlank c = false := by simpa using hw
  have hend : ∀ d ∈ (c :: r).getLast?, Text.isBlank d = false := by
    have hmem : b ∈ scan l 0 (size u) (c :: r) := hs ▸ List.mem_of_getLast? hb
    obtain ⟨v, hv⟩ := suffix_of_stop hmem hstop
    have hne : b.text ≠ [] := text_ne_nil hmem
    intro d hd
    rw [← hv, List.getLast?_append, List.getLast?_eq_some_getLast hne, Option.some_or,
      ← List.getLast?_eq_some_getLast hne] at hd
    exact hblank d hd
  have htrim : Text.trim (c :: r) = c :: r := by
    rw [Text.trim, Text.trimStart_cons hc, Text.trimEnd_of_last hend]
  have hspan : spanText (u ++ (c :: r ++ z)) ts = c :: r := by
    rw [spanText_eq hfirst hlast, Text.slice_append, htrim]
  rw [hspan]
  exact ⟨u, z, rfl, hs, htrim, hfirst, hstop⟩

theorem spanText_of_last {line : Text} {pre ts post : List Token} {a b : Token}
    (h : tokenize l line = pre ++ (ts ++ post)) (ha : ts.head? = some a)
    (hb : ts.getLast? = some b) (hblank : ∀ d ∈ b.text.getLast?, Text.isBlank d = false) :
    spanText line ts = Text.slice line a.start b.stop := by
  obtain ⟨u, z, hline, -, -, hfirst, hlast⟩ := exists_cut h hb hblank
  rw [ha, Option.map_some, Option.some_inj] at hfirst
  rw [hfirst, hlast]
  generalize spanText line ts = w at hline
  rw [hline, Text.slice_append]

theorem spanText_eq_slice {line : Text} {pre ts post : List Token} {a b : Token}
    (h : tokenize l line = pre ++ (ts ++ post)) (hp : post ≠ []) (ha : ts.head? = some a)
    (hb : ts.getLast? = some b) : spanText line ts = Text.slice line a.start b.stop := by
  obtain ⟨ts', rfl⟩ := List.getLast?_eq_some_iff.1 hb
  have hline : scan l 0 0 line = (pre ++ ts') ++ b :: post := h.trans (by simp)
  exact spanText_of_last h ha hb (last_of_scan hline hp)

end Polyglot.Token
