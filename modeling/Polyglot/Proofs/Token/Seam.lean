import Mathlib.Data.List.TakeWhile
import Polyglot.Proofs.Token.Order
import Polyglot.Proofs.Value.Printing

/-!
# Seams between texts

Two texts side by side have the tokens of the one and then those of the other, unless the
last token of the first reaches to its end and goes on in the second. Whether it does
depends on what kind of token it is and on the character behind it.
-/
namespace Polyglot.Token
open Text (size)

variable {l : Language}

theorem wordLexeme_stable {word a : Text} (h : (wordLexeme l word a).2 < a.length) (b : Text) :
    wordLexeme l word (a ++ b) = wordLexeme l word a := by
  cases a with
  | nil => exact absurd h (Nat.not_lt_zero _)
  | cons q s =>
    rw [List.cons_append, wordLexeme, wordLexeme]
    rw [wordLexeme, List.length_cons] at h
    split
    · next hq =>
      rw [if_pos hq] at h
      have hs := stringTail_append q s b
      simp only [Prod.mk.injEq, true_and]
      omega
    · rfl

theorem lexeme_stable {c : Char} {a : Text} (h : (lexeme l c a).2 < a.length) (b : Text) :
    lexeme l c (a ++ b) = lexeme l c a := by
  cases hm : l.commentMark.isPrefixOf (c :: a) with
  | true =>
    rw [lexeme_comment hm] at h
    exact absurd h (Nat.lt_irrefl _)
  | false =>
    have hlen : l.commentMark.length ≤ (c :: a).length := by
      have hmark : l.commentMark.length ≤ 2 := by cases l <;> decide
      simp only [List.length_cons]
      omega
    have hmb : l.commentMark.isPrefixOf (c :: (a ++ b)) = false := by
      rw [← Bool.not_eq_true, List.isPrefixOf_iff_prefix] at hm ⊢
      exact fun hp => hm (List.prefix_of_prefix_length_le hp
        (List.prefix_append (c :: a) b) hlen)
    -- A stretch that ends within `a` is no longer with more text behind it.
    have htake : ∀ p : Char → Bool, (a.takeWhile p).length < a.length →
        (a ++ b).takeWhile p = a.takeWhile p := by
      intro p hp
      rw [List.takeWhile_append, if_neg (Nat.ne_of_lt hp)]
    cases hq : l.quotes.contains c with
    | true =>
      rw [lexeme_quote hm hq] at h ⊢
      rw [lexeme_quote hmb hq]
      have hs := stringTail_append c a b
      simp only [Prod.mk.injEq, true_and]
      omega
    | false =>
      cases hs : l.startsName c with
      | false =>
        rw [lexeme_other hm hq hs] at h ⊢
        rw [lexeme_other hmb hq hs]
        by_cases hd : c.isDigit = true
        · rw [if_pos hd] at h
          rw [if_pos hd, if_pos hd, numberTail, htake _ h, numberTail]
        · rw [if_neg hd, if_neg hd]
      | true =>
        rw [lexeme_word l hm hq hs] at h ⊢
        have ht := htake l.continuesName (Nat.lt_of_le_of_lt (Nat.le_add_right _ _) h)
        have hn : nameTail l (a ++ b) = nameTail l a := by rw [nameTail, ht, nameTail]
        have hlt : nameTail l a < a.length := Nat.lt_of_le_of_lt (Nat.le_add_right _ _) h
        have hw : (wordLexeme l (c :: a.takeWhile l.continuesName)
            (a.drop (nameTail l a))).2 < (a.drop (nameTail l a)).length := by
          rw [List.length_drop]
          omega
        rw [lexeme_word l hmb hq hs, ht, hn, List.drop_append_of_le_length (Nat.le_of_lt hlt),
          wordLexeme_stable hw]

theorem size_take_lt {n : Nat} {t : Text} (h : n < t.length) : size (t.take n) < size t := by
  have hs := congrArg size (List.take_append_drop n t)
  rw [Text.size_append] at hs
  have hz : size (t.drop n) ≠ 0 := by
    intro hz
    have hlen := congrArg List.length (Text.eq_nil_of_size hz)
    rw [List.length_drop, List.length_nil] at hlen
    omega
  omega

/-- Cut off anywhere, a text has its tokens before any other text, but for the last one if
it reaches to the cut. -/
theorem scan_append_cases (l : Language) (pos : Nat) {k : Nat} {a : Text} (hk : k ≤ a.length) :
    ((∀ t ∈ (scan l k pos a).getLast?, t.stop < pos + size a) ∧
      ∀ rest, scan l k pos (a ++ rest) = scan l k pos a ++ scan l 0 (pos + size a) rest) ∨
    ∃ ts kind c r p, scan l k pos a = ts ++ [⟨kind, c :: r, p⟩] ∧
      p + size (c :: r) = pos + size a ∧ Text.isBlank c = false ∧
      lexeme l c r = (kind, r.length) ∧
      ∀ rest, scan l k pos (a ++ rest) = ts ++ scan l 0 p (c :: (r ++ rest)) := by
  induction a generalizing k pos with
  | nil =>
    obtain rfl : k = 0 := Nat.le_zero.1 hk
    exact .inl ⟨nofun, fun rest => rfl⟩
  | cons d s ih =>
    have hsize : pos + size (d :: s) = pos + d.utf8Size + size s := by rw [size, Nat.add_assoc]
    cases k with
    | succ k =>
      rw [hsize]
      exact ih _ (Nat.le_of_succ_le_succ hk)
    | zero =>
      cases hb : Text.isBlank d with
      | true =>
        simp only [List.cons_append, scan_blank _ _ hb, hsize]
        exact ih _ (Nat.zero_le _)
      | false =>
        -- The token ends within the text, or it reaches to the cut and is the last one.
        rcases Nat.lt_or_eq_of_le (lexeme_le l d s) with hlt | heq
        · have hstable := fun rest => lexeme_stable hlt rest
          have htake : ∀ rest : Text, (s ++ rest).take (lexeme l d s).2 = s.take (lexeme l d s).2 :=
            fun rest => List.take_append_of_le_length (Nat.le_of_lt hlt)
          simp only [List.cons_append, scan_cons _ _ hb, hstable, htake, hsize]
          rcases ih (pos + d.utf8Size) (Nat.le_of_lt hlt) with
            ⟨hl, hs⟩ | ⟨ts, kind, c, r, p, hs, hp, hc, hx, hrest⟩
          · refine .inl ⟨fun t ht => ?_, fun rest => by rw [hs]⟩
            rw [List.getLast?_cons] at ht
            cases hlast : (scan l (lexeme l d s).2 (pos + d.utf8Size) s).getLast? with
            | some u =>
              rw [hlast] at ht
              exact hl t (hlast.trans ht)
            | none =>
              rw [hlast] at ht
              obtain rfl := Option.some_inj.1 ht
              have hcut := size_take_lt hlt
              exact Nat.lt_of_le_of_lt (Nat.le_of_eq (Nat.add_assoc _ _ _).symm)
                (Nat.add_lt_add_left hcut _)
          · exact .inr ⟨_ :: ts, kind, c, r, p, by rw [hs]; rfl, hp, hc, hx,
              fun rest => by rw [hrest]; rfl⟩
        · refine .inr ⟨[], (lexeme l d s).1, d, s, pos, ?_, rfl, hb, by rw [← heq], fun rest => rfl⟩
          rw [scan_cons _ _ hb, heq, List.take_length, scan_all (Nat.le_refl _)]
          rfl

def shape (t : Token) : Kind × Text := (t.kind, t.text)

def shapes (l : Language) (text : Text) : List (Kind × Text) := (tokenize l text).map shape

theorem map_shape_scan (k pos : Nat) (text : Text) :
    (scan l k pos text).map shape = (scan l k 0 text).map shape := by
  have hm := scan_moved (l := l) k 0 pos text
  rw [Nat.zero_add] at hm
  rw [hm, List.map_map]
  rfl

def Grows (l : Language) (rest : Text) (t : Token) : Prop :=
  ∃ c r, t.text = c :: r ∧ r.length < (lexeme l c (r ++ rest)).2

def Fused (l : Language) (a rest : Text) : Prop :=
  ∃ ts t, tokenize l a = ts ++ [t] ∧ t.stop = size a ∧ Grows l rest t

theorem fused_iff {a r : Text} {c : Char} {ts : List Token} {kind : Kind} {p : Nat}
    (h : tokenize l a = ts ++ [⟨kind, c :: r, p⟩]) (hp : p + size (c :: r) = size a)
    (rest : Text) : Fused l a rest ↔ r.length < (lexeme l c (r ++ rest)).2 := by
  constructor
  · rintro ⟨ts', t, hts, -, c', r', ht, hlt⟩
    rw [h] at hts
    obtain ⟨-, hone⟩ := List.append_inj' hts rfl
    obtain rfl := (List.cons.inj hone).1
    obtain ⟨rfl, rfl⟩ := List.cons.inj ht
    exact hlt
  · exact fun hlt => ⟨ts, _, h, hp, c, r, rfl, hlt⟩

/-- Two texts have the tokens of the one and then those of the other exactly if the first
does not fuse with the second. -/
theorem shapes_append_iff {a rest : Text} {us : List (Kind × Text)} :
    shapes l (a ++ rest) = shapes l a ++ us ↔ ¬ Fused l a rest ∧ shapes l rest = us := by
  rcases scan_append_cases l 0 (Nat.zero_le a.length) with
    ⟨hl, hs⟩ | ⟨ts, kind, c, r, p, hs, hp, hc, hx, hrest⟩
  · have hnot : ¬ Fused l a rest := by
      rintro ⟨ts, t, hts, hstop, -⟩
      have hlt := hl t (by rw [← tokenize, hts, List.getLast?_concat]; rfl)
      omega
    have happend : shapes l (a ++ rest) = shapes l a ++ shapes l rest := by
      rw [shapes, tokenize, hs rest, List.map_append, map_shape_scan 0 (0 + size a)]
      rfl
    rw [happend, List.append_cancel_left_eq]
    exact ⟨fun h => ⟨hnot, h⟩, And.right⟩
  · rw [← tokenize] at hs
    have hwhole : shapes l (a ++ rest) = ts.map shape ++
        (scan l 0 p (c :: (r ++ rest))).map shape := by
      rw [shapes, tokenize, hrest, List.map_append]
    have hpart : shapes l a = ts.map shape ++ [(kind, c :: r)] := by
      rw [shapes, hs, List.map_append]
      rfl
    rw [fused_iff hs (hp.trans (Nat.zero_add _)), hwhole, hpart, scan_cons _ _ hc,
      List.append_assoc, List.append_cancel_left_eq, List.map_cons, List.singleton_append]
    by_cases hlt : r.length < (lexeme l c (r ++ rest)).2
    · refine ⟨fun h => ?_, fun h => absurd hlt h.1⟩
      -- The last token of `a` is longer in the joined line.
      have htext := (Prod.mk.inj (List.cons.inj h).1).2
      have hlen := congrArg List.length (List.cons.inj htext).2
      rw [List.length_take, Nat.min_eq_left (lexeme_le l c (r ++ rest))] at hlen
      omega
    · have he := lexeme_append (Nat.le_of_not_lt hlt)
      rw [← he, hx, List.take_left, scan_skip, map_shape_scan 0]
      exact ⟨fun h => ⟨fun hn => absurd hn (Nat.lt_irrefl _), (List.cons.inj h).2⟩,
        fun h => congrArg _ h.2⟩

/-- The ways in which a token begins with `c`. -/
inductive Lexed (l : Language) (c : Char) (r : Text) : Kind × Nat → Prop
  | comment (hm : l.commentMark.isPrefixOf (c :: r) = true) : Lexed l c r (.comment, r.length)
  | quote (hm : c ∉ l.commentMark) (hq : l.quotes.contains c = true) :
    Lexed l c r (.str, stringTail c r)
  | marked {q : Char} {s : Text} (hs : l.startsName c = true)
    (hd : r.drop (nameTail l r) = q :: s)
    (hw : (l.quotes.contains q &&
      l.stringMarks.contains (Text.lower (c :: r.takeWhile l.continuesName))) = true) :
    Lexed l c r (.str, nameTail l r + (1 + stringTail q s))
  | word (hs : l.startsName c = true)
    (hw : ∀ q, (r.drop (nameTail l r)).head? = some q → (l.quotes.contains q &&
      l.stringMarks.contains (Text.lower (c :: r.takeWhile l.continuesName))) = false) :
    Lexed l c r (.ident, nameTail l r)
  | number (hq : l.quotes.contains c = false) (hs : l.startsName c = false)
    (hd : c.isDigit = true) : Lexed l c r (.number, numberTail r)
  | punct (hm : l.commentMark.isPrefixOf (c :: r) = false) (hq : l.quotes.contains c = false)
    (hs : l.startsName c = false) (hd : c.isDigit = false) : Lexed l c r (.punct c, 0)

theorem lexed (l : Language) (c : Char) (r : Text) : Lexed l c r (lexeme l c r) := by
  cases hm : l.commentMark.isPrefixOf (c :: r) with
  | true =>
    rw [lexeme_comment hm]
    exact .comment hm
  | false =>
    cases hq : l.quotes.contains c with
    | true =>
      have hmark : l.quotes.all (fun d => !l.commentMark.contains d) = true := by
        cases l <;> decide
      have hno := List.all_eq_true.1 hmark c (List.contains_iff_mem.1 hq)
      rw [lexeme_quote hm hq]
      exact .quote (by simpa using hno) hq
    | false =>
      cases hs : l.startsName c with
      | false =>
        rw [lexeme_other hm hq hs]
        split
        · next hd => exact .number hq hs hd
        · next hd => exact .punct hm hq hs (Bool.eq_false_iff.2 hd)
      | true =>
        rw [lexeme_word l hm hq hs]
        cases hd : r.drop (nameTail l r) with
        | nil => exact .word hs fun q hq => by rw [hd] at hq; cases hq
        | cons q s =>
          rw [wordLexeme]
          split
          · next hw => exact .marked hs hd hw
          · next hw =>
            refine .word hs fun q' hq' => ?_
            rw [hd] at hq'
            cases hq'
            exact Bool.eq_false_iff.2 hw

theorem takeWhile_append_pos {p : Char → Bool} {r : Text} (hr : (r.takeWhile p).length = r.length)
    (rest : Text) : (r.length < ((r ++ rest).takeWhile p).length ↔
      ∃ d, rest.head? = some d ∧ p d = true) := by
  rw [List.takeWhile_append, if_pos hr, List.length_append]
  cases rest with
  | nil => simp
  | cons d s => cases hd : p d <;> simp [hd]

section
variable {c : Char} {r : Text}

theorem grows_number (h : lexeme l c r = (.number, r.length)) (rest : Text) :
    r.length < (lexeme l c (r ++ rest)).2 ↔
      ∃ d, rest.head? = some d ∧ continuesNumber d = true := by
  have hx := lexed l c r
  rw [h] at hx
  generalize hn : r.length = n at hx
  cases hx with
  | number hq hs hd =>
    have hbare := isBare_of_isDigit hd
    have hm := isPrefixOf_commentMark (beginsWord_of_isBare hbare l).comment (r ++ rest)
    rw [lexeme_other hm hq hs, if_pos hd, ← hn]
    exact takeWhile_append_pos hn.symm rest

theorem lexeme_of_startsName (hs : l.startsName c = true) (r : Text) :
    lexeme l c r =
      ((wordLexeme l (c :: r.takeWhile l.continuesName) (r.drop (nameTail l r))).1,
        nameTail l r
          + (wordLexeme l (c :: r.takeWhile l.continuesName) (r.drop (nameTail l r))).2) := by
  obtain ⟨-, hm, hq⟩ := beginsWord_of_startsName hs
  exact lexeme_word l (isPrefixOf_commentMark hm r) hq hs

theorem lexeme_marked {q : Char} {s : Text} (hs : l.startsName c = true)
    (hd : r.drop (nameTail l r) = q :: s)
    (hw : (l.quotes.contains q &&
      l.stringMarks.contains (Text.lower (c :: r.takeWhile l.continuesName))) = true) (t : Text) :
    lexeme l c (r ++ t) = (.str, nameTail l r + (1 + stringTail q (s ++ t))) := by
  have hlt : nameTail l r < r.length := by
    have hlen := congrArg List.length hd
    rw [List.length_drop, List.length_cons] at hlen
    omega
  have htake : (r ++ t).takeWhile l.continuesName = r.takeWhile l.continuesName := by
    rw [List.takeWhile_append]
    exact if_neg (Nat.ne_of_lt hlt)
  have hname : nameTail l (r ++ t) = nameTail l r := by rw [nameTail, htake, nameTail]
  rw [lexeme_of_startsName hs, htake, hname,
    List.drop_append_of_le_length (Nat.le_of_lt hlt), hd, List.cons_append, wordLexeme, if_pos hw]

theorem lexeme_str_append (h : (lexeme l c r).1 = .str) (t : Text) :
    (lexeme l c (r ++ t)).1 = .str := by
  have hx := lexed l c r
  generalize lexeme l c r = x at h hx
  cases hx with
  | comment => cases h
  | quote hm hq => rw [lexeme_quote (isPrefixOf_commentMark hm _) hq]
  | marked hs hd hw => rw [lexeme_marked hs hd hw]
  | word => cases h
  | number => cases h
  | punct => cases h

theorem grows_ident (h : lexeme l c r = (.ident, r.length)) {rest : Text} {d : Char}
    (hd : rest.head? = some d) (hc : l.continuesName d = true) :
    r.length < (lexeme l c (r ++ rest)).2 := by
  have hx := lexed l c r
  rw [h] at hx
  generalize hn : r.length = n at hx
  cases hx with
  | word hs hw =>
    have hlt := (takeWhile_append_pos hn.symm rest).2 ⟨d, hd, hc⟩
    rw [lexeme_of_startsName hs, ← hn]
    exact Nat.lt_of_lt_of_le hlt (Nat.le_add_right _ _)

theorem lexeme_name (hs : l.startsName c = true) (hr : ∀ d ∈ r, l.continuesName d = true)
    (hw : l.stringMarks.contains (Text.lower (c :: r)) = false) {rest : Text}
    (hrest : ∀ d, rest.head? = some d → l.continuesName d = false) :
    lexeme l c (r ++ rest) = (.ident, r.length) := by
  have htake : (r ++ rest).takeWhile l.continuesName = r := by
    rw [takeWhile_append_of_head r hrest, List.takeWhile_eq_self_iff.2 hr]
  have hname : nameTail l (r ++ rest) = r.length := by rw [nameTail, htake]
  rw [lexeme_of_startsName hs, htake, hname, List.drop_left]
  cases rest with
  | nil => rfl
  | cons q s => rw [wordLexeme, hw, Bool.and_false, if_neg Bool.false_ne_true]; rfl

theorem grows_comment (h : lexeme l c r = (.comment, r.length)) {rest : Text} (hr : rest ≠ []) :
    r.length < (lexeme l c (r ++ rest)).2 := by
  have hx := lexed l c r
  rw [h] at hx
  generalize hn : r.length = n at hx
  cases hx with
  | comment hm =>
    have hlong : l.commentMark.isPrefixOf (c :: (r ++ rest)) = true := by
      rw [List.isPrefixOf_iff_prefix] at hm ⊢
      exact hm.trans (List.prefix_append (c :: r) rest)
    rw [lexeme_comment hlong, List.length_append]
    exact Nat.lt_add_of_pos_right (List.length_pos_iff.2 hr)

theorem grows_punct {d : Char} (h : lexeme l c r = (.punct d, r.length)) {rest : Text}
    (hg : r.length < (lexeme l c (r ++ rest)).2) :
    ∃ e, rest.head? = some e ∧ e ∈ l.commentMark := by
  have hx := lexed l c r
  rw [h] at hx
  generalize hn : r.length = n at hx hg
  cases hx with
  | punct hm hq hs hd =>
    obtain rfl := List.eq_nil_of_length_eq_zero hn
    rw [List.nil_append] at hg
    cases hlong : l.commentMark.isPrefixOf (c :: rest) with
    | false =>
      rw [lexeme_other hlong hq hs, hd] at hg
      exact absurd hg (Nat.lt_irrefl 0)
    | true =>
      rw [List.isPrefixOf_iff_prefix] at hlong
      rw [← Bool.not_eq_true, List.isPrefixOf_iff_prefix] at hm
      cases hmark : l.commentMark with
      | nil => exact absurd (hmark ▸ List.nil_prefix) hm
      | cons x m =>
        rw [hmark, List.cons_prefix_cons] at hlong
        obtain ⟨rfl, hlong⟩ := hlong
        cases m with
        | nil => exact absurd (hmark ▸ List.prefix_refl _) hm
        | cons e m =>
          obtain ⟨z, rfl⟩ := hlong
          exact ⟨e, rfl, List.mem_cons_of_mem x List.mem_cons_self⟩

theorem stringTail_pos (q : Char) {b : Text} (hb : b ≠ []) : 0 < stringTail q b := by
  fun_cases stringTail q b with
  | case1 => exact absurd rfl hb
  | case2 => exact Nat.one_pos
  | case3 => exact Nat.succ_pos _
  | case4 => exact Nat.one_pos
  | case5 => exact Nat.succ_pos _

theorem stringTail_closed {q : Char} {a b : Text} (h : stringTail q (a ++ b) = a.length)
    (hb : b ≠ []) (b' : Text) : stringTail q (a ++ b') = a.length := by
  fun_induction stringTail q a with
  | case1 => exact absurd h (Nat.ne_of_gt (stringTail_pos q hb))
  | case2 =>
    obtain ⟨d, s, rfl⟩ := List.exists_cons_of_ne_nil hb
    have hpair : stringTail q ('\\' :: d :: s) = stringTail q s + 2 := by
      rw [stringTail, if_pos rfl]
    rw [List.cons_append, List.nil_append, hpair] at h
    cases h
  | case3 d s ih =>
    have hpair : ∀ t, stringTail q ('\\' :: d :: s ++ t) = stringTail q (s ++ t) + 2 := fun t => by
      rw [List.cons_append, List.cons_append, stringTail, if_pos rfl]
    rw [hpair] at h ⊢
    rw [ih (Nat.succ.inj (Nat.succ.inj h))]
    rfl
  | case4 r hq =>
    rw [List.cons_append, stringTail_cons q _ hq, if_pos rfl, List.length_cons] at h
    rw [List.cons_append, stringTail_cons q _ hq, if_pos rfl, List.length_cons, ← h]
  | case5 c r hc hq ih =>
    rw [List.cons_append, stringTail_cons q _ hc, if_neg hq, List.length_cons] at h
    rw [List.cons_append, stringTail_cons q _ hc, if_neg hq, ih (Nat.succ.inj h),
      List.length_cons]

theorem stringTail_stable {q : Char} {s rest : Text} (hs : stringTail q s = s.length)
    (hr : rest ≠ []) (hno : ¬ s.length < stringTail q (s ++ rest)) (rest' : Text) :
    stringTail q (s ++ rest') = s.length := by
  refine stringTail_closed ?_ hr rest'
  have happend := stringTail_append q s rest
  omega

theorem not_grows_str (h : lexeme l c r = (.str, r.length)) {rest : Text} (hr : rest ≠ [])
    (hno : ¬ r.length < (lexeme l c (r ++ rest)).2) (rest' : Text) :
    ¬ r.length < (lexeme l c (r ++ rest')).2 := by
  have hx := lexed l c r
  rw [h] at hx
  generalize hn : r.length = n at hx
  cases hx with
  | quote hm hq =>
    have hlong := fun t : Text => lexeme_quote (isPrefixOf_commentMark hm (r ++ t)) hq
    rw [hlong] at hno
    rw [← hn, hlong, stringTail_stable hn.symm hr hno]
    exact Nat.lt_irrefl _
  | @marked q s hs hd hw =>
    have hlong := fun t => congrArg Prod.snd (lexeme_marked hs hd hw t)
    have hlen : s.length + (1 + nameTail l r) = r.length := by
      have hlen := congrArg List.length hd
      rw [List.length_drop, List.length_cons] at hlen
      omega
    have htail : stringTail q s = s.length := by omega
    rw [hlong] at hno
    rw [hlong, stringTail_stable htail hr (by omega)]
    omega

end

theorem eq_last_of_stop {a : Text} {ts : List Token} {t u : Token}
    (h : tokenize l a = ts ++ [u]) (ht : t ∈ tokenize l a) (hu : u.stop ≤ t.stop) : t = u := by
  have hpair : (ts ++ [u]).Pairwise fun t u => t.stop ≤ u.start := h ▸ pairwise_scan l 0 0 a
  have hlt : u.start < u.stop := start_lt_stop (h ▸ List.mem_append_right ts List.mem_cons_self)
  rw [h, List.mem_append, List.mem_singleton] at ht
  refine ht.resolve_left fun hm => ?_
  have hle := (List.pairwise_append.1 hpair).2.2 t hm u List.mem_cons_self
  omega

theorem stop_lt_of_last {a : Text} (h : ∀ t ∈ (tokenize l a).getLast?, t.stop < size a) :
    ∀ t ∈ tokenize l a, t.stop < size a := by
  intro t ht
  obtain ⟨ts, u, hts⟩ := (List.eq_nil_or_concat _).resolve_left (List.ne_nil_of_mem ht)
  rw [List.concat_eq_append] at hts
  have hlt := h u (by rw [hts, List.getLast?_concat]; rfl)
  by_contra hle
  exact hle (eq_last_of_stop hts ht (by omega) ▸ hlt)

theorem grows_cons_iff {e d c : Char} {u s : Text} {kind : Kind}
    (hx : lexeme l e u = (kind, u.length)) (hd : l.startsName d = true)
    (hno : ¬ u.length < (lexeme l e (u ++ d :: s)).2) (hc : c ∉ l.commentMark) (r : Text) :
    u.length < (lexeme l e (u ++ c :: r)).2 ↔ kind = .number ∧ continuesNumber c = true := by
  cases kind with
  | ident => exact absurd (grows_ident hx rfl (continuesName_of_startsName hd)) hno
  | number =>
    rw [grows_number hx]
    simp
  | str =>
    have hstr := not_grows_str hx (List.cons_ne_nil d s) hno (c :: r)
    simp [hstr]
  | comment => exact absurd (grows_comment hx (List.cons_ne_nil d s)) hno
  | punct q =>
    have hpunct : ¬ u.length < (lexeme l e (u ++ c :: r)).2 := by
      intro hg
      obtain ⟨c', hc', hm⟩ := grows_punct hx hg
      cases hc'
      exact hc hm
    simp [hpunct]

theorem exists_number_moved (pos : Nat) {a : Text} {n : Nat} :
    (∃ t ∈ scan l 0 pos a, t.kind = .number ∧ t.stop = pos + n) ↔
      ∃ t ∈ tokenize l a, t.kind = .number ∧ t.stop = n := by
  rw [scan_eq_moved]
  simp only [List.mem_map, exists_exists_and_eq_and]
  refine exists_congr fun t => and_congr_right fun _ => and_congr_right fun _ => ?_
  rw [stop_moved, Nat.add_left_cancel_iff]

theorem fused_cons_iff (pos : Nat) {a : Text} {d : Char} {s : Text} (hd : l.startsName d = true)
    (hno : ¬ Fused l a (d :: s)) {c : Char} (hc : c ∉ l.commentMark) (r : Text) :
    Fused l a (c :: r) ↔ (∃ t ∈ scan l 0 pos a, t.kind = .number ∧ t.stop = pos + size a) ∧
      continuesNumber c = true := by
  rw [exists_number_moved]
  rcases scan_append_cases l 0 (Nat.zero_le a.length) with
    ⟨hl, -⟩ | ⟨ts, kind, e, u, p, hs, hp, -, hx, -⟩
  · rw [← tokenize, Nat.zero_add] at hl
    have hlt := stop_lt_of_last hl
    constructor
    · rintro ⟨ts, t, hts, he, -⟩
      exact absurd he (Nat.ne_of_lt (hlt t (hts ▸ List.mem_append_right ts List.mem_cons_self)))
    · rintro ⟨⟨t, ht, -, he⟩, -⟩
      exact absurd he (Nat.ne_of_lt (hlt t ht))
  · rw [← tokenize] at hs
    rw [Nat.zero_add] at hp
    have hlast : (∃ t ∈ tokenize l a, t.kind = .number ∧ t.stop = size a) ↔ kind = .number := by
      constructor
      · rintro ⟨t, ht, hk, he⟩
        rw [← hk, eq_last_of_stop hs ht (Nat.le_of_eq (hp.trans he.symm))]
      · intro hk
        have hmem := hs ▸ List.mem_append_right ts List.mem_cons_self
        exact ⟨⟨kind, e :: u, p⟩, hmem, hk, hp⟩
    rw [fused_iff hs hp] at hno
    rw [fused_iff hs hp, hlast]
    exact grows_cons_iff hx hd hno hc r

theorem scan_before {k pos : Nat} {text : Text} {ts us : List Token} {t : Token}
    (h : scan l k pos text = ts ++ t :: us) :
    ∃ u v, text = u ++ v ∧ k ≤ u.length ∧ scan l k pos u = ts ∧
      scan l 0 (pos + size u) v = t :: us ∧ t.start = pos + size u := by
  induction text generalizing k pos ts with
  | nil => simp [scan] at h
  | cons c r ih =>
    cases k with
    | succ k =>
      obtain ⟨u, v, hr, hk, hu, hv, ht⟩ := ih (k := k) h
      rw [Nat.add_assoc] at hv ht
      exact ⟨c :: u, v, by rw [hr]; rfl, Nat.succ_le_succ hk, hu, hv, ht⟩
    | zero =>
      cases hb : Text.isBlank c with
      | true =>
        rw [scan_blank r pos hb] at h
        obtain ⟨u, v, hr, -, hu, hv, ht⟩ := ih h
        rw [Nat.add_assoc] at hv ht
        exact ⟨c :: u, v, by rw [hr]; rfl, Nat.zero_le _, by rw [scan_blank u pos hb, hu], hv, ht⟩
      | false =>
        cases ts with
        | nil =>
          have hstart : t.start = pos := by
            rw [scan_cons r pos hb] at h
            rw [← (List.cons.inj h).1]
          exact ⟨[], c :: r, rfl, Nat.zero_le _, rfl, h, hstart⟩
        | cons x ts =>
          rw [scan_cons r pos hb] at h
          obtain ⟨hx, h⟩ := List.cons.inj h
          obtain ⟨u, v, rfl, hk, hu, hv, ht⟩ := ih h
          rw [Nat.add_assoc] at hv ht
          have hlex := lexeme_append hk
          have htake : (u ++ v).take (lexeme l c (u ++ v)).2 = u.take (lexeme l c (u ++ v)).2 :=
            List.take_append_of_le_length hk
          refine ⟨c :: u, v, rfl, Nat.zero_le _, ?_, hv, ht⟩
          rw [scan_cons u pos hb, hlex, hu, ← hx, htake]

theorem scan_around {pos i j : Nat} {text : Text} {ts : List Token} {t u : Token}
    (h : scan l 0 pos text = ts) (ht : ts[i]? = some t) (hu : ts[j]? = some u) (hij : i ≤ j) :
    ∃ g x r us, text = g ++ (x ++ r) ∧ t.start = pos + size g ∧ u.stop = t.start + size x ∧
      scan l 0 pos text = scan l 0 pos g ++ (scan l 0 t.start x ++ scan l 0 u.stop r) ∧
      scan l 0 t.start x = t :: us ∧ scan l 0 u.stop r = ts.drop (j + 1) := by
  obtain ⟨hi, hget⟩ := List.getElem?_eq_some_iff.1 ht
  have hhead : ts.drop i = t :: ts.drop (i + 1) := by
    rw [List.drop_eq_getElem_cons hi, hget]
  have hgap : ts = ts.take i ++ t :: ts.drop (i + 1) := by rw [← hhead, List.take_append_drop]
  have hown : t :: ts.drop (i + 1) = (ts.drop i).take (j + 1 - i) ++ ts.drop (j + 1) := by
    have hd := List.take_append_drop (j + 1 - i) (ts.drop i)
    rw [List.drop_drop, Nat.add_sub_cancel' (Nat.le_succ_of_le hij)] at hd
    rw [hd, hhead]
  have hpart : (ts.drop i).take (j + 1 - i) = t :: (ts.drop (i + 1)).take (j - i) := by
    rw [hhead, Nat.succ_sub hij, List.take_succ_cons]
  have hend : ((ts.drop i).take (j + 1 - i)).getLast? = some u := by
    have hindex : i + (j + 1 - i - 1) = j := by omega
    rw [List.getLast?_take, if_neg (by omega), List.getElem?_drop, hindex, hu]
    rfl
  obtain ⟨g, v, rfl, -, hg, hv, hfirst⟩ := scan_before (h.trans hgap)
  rw [← hfirst] at hv
  obtain ⟨x, r, rfl, -, hx, hr, hlast⟩ := scan_split (hv.trans hown)
    (hpart ▸ List.cons_ne_nil _ _)
  rw [hend, Option.map_some, Option.some_inj] at hlast
  rw [← hlast] at hr
  refine ⟨g, x, r, _, rfl, hfirst, hlast, ?_, hx.trans hpart, hr⟩
  rw [h, hg, hx, hr, ← hown, ← hgap]

end Polyglot.Token
