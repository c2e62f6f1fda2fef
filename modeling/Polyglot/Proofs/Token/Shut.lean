import Polyglot.Proofs.Token.Seam

/-!
# Strings that are closed

A token ends where it does before any break, unless it is a comment or a string without its
closing quote. So tokens whose strings are closed can be cut out of their line with nothing
lost at the ends, and scan to themselves wherever their text is put.
-/
namespace Polyglot.Token
open Text (size)

variable {l : Language}

/-- Behind an opening quote: a backslash takes the next character with it, and the first quote
that is left is the last character. -/
def shutTail (quote : Char) : Text → Bool
  | [] => false
  | c :: r =>
    if c = '\\' then
      match r with
      | [] => false
      | _ :: s => shutTail quote s
    else if c = quote then r.isEmpty
    else shutTail quote r

/-- A string has its closing quote; before the opening one there may be a word that marks it. -/
def shut (l : Language) (t : Token) : Bool :=
  t.kind != .str ||
    match t.text.dropWhile (!l.quotes.contains ·) with
    | [] => false
    | q :: r => shutTail q r

theorem stringTail_of_shutTail {q : Char} {r : Text} (h : shutTail q r = true) (rest : Text) :
    stringTail q (r ++ rest) = r.length := by
  fun_induction shutTail q r with
  | case1 => cases h
  | case2 => cases h
  | case3 d s ih =>
    have hs := ih h
    rw [List.cons_append, List.cons_append, stringTail, if_pos rfl, hs]
    rfl
  | case4 r hc =>
    rw [List.isEmpty_iff.1 h, List.cons_append, stringTail_cons q _ hc, if_pos rfl]
    rfl
  | case5 c r hc hq ih =>
    rw [List.cons_append, stringTail_cons q _ hc, if_neg hq, ih h, List.length_cons]

theorem lexeme_of_mem {k pos : Nat} {text : Text} {t : Token} (h : t ∈ scan l k pos text) :
    ∃ c u, t.text = c :: u ∧ Text.isBlank c = false ∧ lexeme l c u = (t.kind, u.length) := by
  induction text generalizing k pos with
  | nil => rw [scan] at h; cases h
  | cons c r ih =>
    cases k with
    | succ k => exact ih h
    | zero =>
      cases hb : Text.isBlank c with
      | true => exact ih (scan_blank r pos hb ▸ h)
      | false =>
        rw [scan_cons r pos hb] at h
        rcases List.mem_cons.1 h with rfl | h
        · have hlen : (r.take (lexeme l c r).2).length = (lexeme l c r).2 := by
            rw [List.length_take]
            exact Nat.min_eq_left (lexeme_le l c r)
          have hx := lexeme_append (l := l) (c := c) (a := r.take (lexeme l c r).2)
            (b := r.drop (lexeme l c r).2)
          rw [List.take_append_drop, hlen] at hx
          refine ⟨c, _, rfl, hb, ?_⟩
          rw [hx (Nat.le_refl _), hlen]
        · exact ih h

theorem lexeme_ident_break {c : Char} {u rest : Text} (h : lexeme l c u = (.ident, u.length))
    (hr : Breaks rest) : (lexeme l c (u ++ rest)).2 = u.length := by
  have hhead := hr.head l
  have hx := lexed l c u
  rw [h] at hx
  generalize hn : u.length = n at hx
  cases hx with
  | word hs _ =>
    have ht : nameTail l (u ++ rest) = u.length := by
      rw [nameTail, takeWhile_append_of_head u fun d hd => (hhead d hd).2.1, hn, nameTail]
    rw [lexeme_of_startsName hs, ht, List.drop_left,
      wordLexeme_of_head fun d hd => (hhead d hd).1, hn]
    rfl

theorem isQuote_of_continuesName {c : Char} (h : l.continuesName c = true) :
    l.quotes.contains c = false := by
  have hall : l.quotes.all (fun d => !l.continuesName d) = true := by
    cases l <;> decide +kernel
  cases hq : l.quotes.contains c with
  | false => rfl
  | true =>
    have hn := List.all_eq_true.1 hall c (List.contains_iff_mem.1 hq)
    rw [h] at hn
    cases hn

theorem lexeme_str_shut {c : Char} {u : Text} {p : Nat} (h : lexeme l c u = (.str, u.length))
    (hs : shut l ⟨.str, c :: u, p⟩ = true) (rest : Text) :
    (lexeme l c (u ++ rest)).2 = u.length := by
  simp only [shut, bne_self_eq_false, Bool.false_or] at hs
  have hx := lexed l c u
  rw [h] at hx
  generalize hn : u.length = n at hx
  cases hx with
  | quote hm hq =>
    rw [List.dropWhile_cons, hq] at hs
    rw [lexeme_quote (isPrefixOf_commentMark hm _) hq]
    exact stringTail_of_shutTail hs rest |>.trans hn
  | @marked q s hname hd hw =>
    obtain ⟨hq, -⟩ := Bool.and_eq_true_iff.1 hw
    have htake : u.take (nameTail l u) = u.takeWhile l.continuesName :=
      (List.prefix_iff_eq_take.1 (List.takeWhile_prefix _)).symm
    have hsplit := List.take_append_drop (nameTail l u) u
    rw [htake, hd] at hsplit
    have hplain : ∀ d ∈ c :: u.takeWhile l.continuesName, (!l.quotes.contains d) = true := by
      refine List.forall_mem_cons.2 ⟨?_, fun d hd => ?_⟩
      · rw [isQuote_of_continuesName (continuesName_of_startsName hname)]
        rfl
      · rw [isQuote_of_continuesName (List.all_eq_true.1 List.all_takeWhile d hd)]
        rfl
    have hdrop : (c :: u).dropWhile (!l.quotes.contains ·) = q :: s := by
      rw [← hsplit, ← List.cons_append, List.dropWhile_append_of_pos hplain, List.dropWhile_cons,
        hq]
      rfl
    rw [hdrop] at hs
    have htail := stringTail_of_shutTail hs rest
    have hlen := congrArg List.length hd
    rw [List.length_drop, List.length_cons] at hlen
    rw [lexeme_marked hname hd hw, htail]
    omega

theorem not_grows_of_shut {k pos : Nat} {text : Text} {t : Token} (h : t ∈ scan l k pos text)
    (hc : t.isComment = false) (hs : shut l t = true) {rest : Text} (hr : Breaks rest) :
    ¬ Grows l rest t := by
  obtain ⟨c, u, ht, -, hx⟩ := lexeme_of_mem h
  rintro ⟨d, v, hd, hlt⟩
  obtain ⟨rfl, rfl⟩ := List.cons.inj (hd.symm.trans ht)
  obtain ⟨kind, text, p⟩ := t
  dsimp only at ht hx
  subst ht
  cases kind with
  | ident => exact Nat.ne_of_gt hlt (lexeme_ident_break hx hr)
  | number =>
    obtain ⟨e, he, hn⟩ := (grows_number hx rest).1 hlt
    rw [(hr.head l e he).2.2] at hn
    cases hn
  | str => exact Nat.ne_of_gt hlt (lexeme_str_shut hx hs rest)
  | comment => cases hc
  | punct e =>
    obtain ⟨e, he, hm⟩ := grows_punct hx hlt
    rcases hr e he with rfl | hmark
    · cases l <;> exact absurd hm (by decide)
    · exact (beginsMark_of_mem hmark l).2.comment hm

theorem last_of_shut {k pos : Nat} {text : Text} {t : Token} (h : t ∈ scan l k pos text)
    (hc : t.isComment = false) (hs : shut l t = true) :
    ∀ d ∈ t.text.getLast?, Text.isBlank d = false := by
  have hno := not_grows_of_shut h hc hs (breaks_mark (c := ';') (by decide) [])
  obtain ⟨c, u, ht, hb, hx⟩ := lexeme_of_mem h
  have hle : (lexeme l c (u ++ [';'])).2 ≤ u.length :=
    Nat.le_of_not_lt fun hlt => hno ⟨c, u, ht, hlt⟩
  have hlast := last_of_lexeme (l := l) (r := u ++ [';']) hb (by
    rw [List.length_append, List.length_singleton]
    omega)
  rwa [← lexeme_append hle, hx, List.take_left, ← ht] at hlast

theorem scan_append_of_shut {pos : Nat} {a rest : Text} (hr : Breaks rest)
    (h : ∀ t ∈ (scan l 0 pos a).getLast?, t.isComment = false ∧ shut l t = true) :
    scan l 0 pos (a ++ rest) = scan l 0 pos a ++ scan l 0 (pos + size a) rest := by
  rcases scan_append_cases l pos (Nat.zero_le a.length) with
    ⟨-, hs⟩ | ⟨ts, kind, c, r, p, hs, hp, hc, hx, hrest⟩
  · exact hs rest
  · have hmem : (⟨kind, c :: r, p⟩ : Token) ∈ scan l 0 pos a :=
      hs ▸ List.mem_append_right ts List.mem_cons_self
    obtain ⟨hcode, hshut⟩ := h _ (by rw [hs, List.getLast?_concat]; rfl)
    have hno := not_grows_of_shut hmem hcode hshut hr
    have hle := Nat.le_of_not_lt fun hlt => hno ⟨c, r, rfl, hlt⟩
    rw [hrest, scan_lexeme hc ((lexeme_append hle).symm.trans hx), hs, hp, List.append_assoc,
      List.singleton_append]

theorem exists_cut_of_shut {line : Text} {pre ts post : List Token}
    (h : tokenize l line = pre ++ (ts ++ post)) (hn : ts ≠ [])
    (ht : ∀ t ∈ ts, t.isComment = false ∧ shut l t = true) :
    ∃ u z, line = u ++ (spanText line ts ++ z) ∧ scan l 0 (size u) (spanText line ts) = ts ∧
      Text.trim (spanText line ts) = spanText line ts ∧
      ts.head?.map start = some (size u) ∧
      ts.getLast?.map stop = some (size u + size (spanText line ts)) := by
  obtain ⟨b, hb⟩ := Option.ne_none_iff_exists'.1 (mt List.getLast?_eq_none_iff.1 hn)
  have hmem := List.mem_of_getLast? hb
  obtain ⟨hc, hs⟩ := ht b hmem
  have hscan : b ∈ scan l 0 0 line := by
    rw [← tokenize, h]
    exact List.mem_append_right pre (List.mem_append_left post hmem)
  obtain ⟨u, z, hu, hscan, htrim, hfirst, hlast⟩ := exists_cut h hb (last_of_shut hscan hc hs)
  exact ⟨u, z, hu, hscan, htrim, hfirst, by rw [hb, Option.map_some, hlast]⟩

end Polyglot.Token
