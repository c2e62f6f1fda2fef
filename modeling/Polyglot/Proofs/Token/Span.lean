import Polyglot.Proofs.Token.Scan

/-!
# Scanning a cut-out text

The text between two tokens of a line, cut out and scanned again, has the tokens it
had in the line. They count from the cut, and a string that was open at the end of
the line may have lost blanks there.
-/
namespace Polyglot.Token
open Text (size)

variable {l : Language}

def moved (d : Nat) (t : Token) : Token := { t with start := t.start + d }

theorem scan_moved (k pos d : Nat) (text : Text) :
    scan l k (pos + d) text = (scan l k pos text).map (moved d) := by
  induction text generalizing k pos with
  | nil => rw [scan, scan, List.map_nil]
  | cons c r ih =>
    have hp : pos + d + c.utf8Size = pos + c.utf8Size + d := Nat.add_right_comm _ _ _
    cases k with
    | succ k => rw [scan, scan, hp, ih]
    | zero =>
      cases hb : Text.isBlank c with
      | true => rw [scan_blank _ _ hb, scan_blank _ _ hb, hp, ih]
      | false => rw [scan_cons _ _ hb, scan_cons _ _ hb, hp, ih]; rfl

theorem scan_eq_moved (pos : Nat) (text : Text) :
    scan l 0 pos text = (tokenize l text).map (moved pos) := by
  have hm := scan_moved (l := l) 0 0 pos text
  rwa [Nat.zero_add] at hm

theorem stop_moved (d : Nat) (t : Token) : (moved d t).stop = d + t.stop := by
  simp only [stop, moved]
  omega

theorem slice_moved (w rest : Text) (cursor : Nat) (t : Token) :
    Text.slice (w ++ rest) (size w + cursor) (moved (size w) t).start =
      Text.slice rest cursor t.start := by
  have hsub : t.start + size w - (size w + cursor) = t.start - cursor := by omega
  rw [Text.slice, Text.slice, Text.dropBytes_add, moved, hsub]

def muted (t : Token) : Token :=
  if t.kind = .str ∨ t.kind = .comment then { t with text := [] } else t

theorem wordLexeme_append_blank (word a : Text) {b : Text}
    (h : ∀ c ∈ b, Text.isBlank c = true) :
    wordLexeme l word (a ++ b) = wordLexeme l word a ∨
      (wordLexeme l word (a ++ b)).1 = .str ∧ (wordLexeme l word a).1 = .str ∧
        (wordLexeme l word a).2 = a.length ∧ a.length ≤ (wordLexeme l word (a ++ b)).2 := by
  cases a with
  | nil =>
    cases b with
    | nil => exact .inl rfl
    | cons c r =>
      obtain ⟨-, -, -, -, -, hq, -⟩ := Text.separates_of_isBlank (h c List.mem_cons_self) l
      left
      simp only [List.nil_append, wordLexeme, hq, Bool.false_and, Bool.false_eq_true, if_false]
  | cons q s =>
    simp only [List.cons_append, wordLexeme, List.length_cons]
    split
    · have hs := stringTail_append q s b
      simp only [Prod.mk.injEq, true_and]
      omega
    · exact .inl rfl

theorem lexeme_append_blank (c : Char) (a : Text) {b : Text}
    (h : ∀ c ∈ b, Text.isBlank c = true) :
    lexeme l c (a ++ b) = lexeme l c a ∨
      (lexeme l c (a ++ b)).1 = (lexeme l c a).1 ∧
        ((lexeme l c a).1 = .str ∨ (lexeme l c a).1 = .comment) ∧
        (lexeme l c a).2 = a.length ∧ a.length ≤ (lexeme l c (a ++ b)).2 := by
  have hm : l.commentMark.isPrefixOf (c :: (a ++ b)) = l.commentMark.isPrefixOf (c :: a) := by
    refine Text.isPrefixOf_append (c :: a) fun d hd => ?_
    have hb := h d (List.mem_of_mem_head? hd)
    exact (Text.separates_of_isBlank hb l).2.2.2.2.2.2
  cases hma : l.commentMark.isPrefixOf (c :: a) with
  | true =>
    rw [lexeme_comment hma, lexeme_comment (hm.trans hma)]
    exact .inr ⟨rfl, .inr rfl, rfl, by simp⟩
  | false =>
    rw [hma] at hm
    cases hq : l.quotes.contains c with
    | true =>
      rw [lexeme_quote hma hq, lexeme_quote hm hq]
      have hs := stringTail_append c a b
      simp only [Prod.mk.injEq, true_and, true_or]
      omega
    | false =>
      cases hs : l.startsName c with
      | true =>
        have ht : (a ++ b).takeWhile l.continuesName = a.takeWhile l.continuesName :=
          takeWhile_append_of_head a fun d hd =>
            (Text.separates_of_isBlank (h d (List.mem_of_mem_head? hd)) l).2.2.2.2.1
        have hl : nameTail l (a ++ b) = nameTail l a := by rw [nameTail, ht, nameTail]
        have hn : nameTail l a ≤ a.length := (List.takeWhile_sublist _).length_le
        rw [lexeme_word l hma hq hs, lexeme_word l hm hq hs, ht, hl,
          List.drop_append_of_le_length hn]
        rcases wordLexeme_append_blank (l := l) (c :: a.takeWhile l.continuesName)
          (a.drop (nameTail l a)) h with he | ⟨h₁, h₂, h₃, h₄⟩
        · rw [he]; exact .inl rfl
        · rw [List.length_drop] at h₃ h₄
          refine .inr ⟨h₁.trans h₂.symm, .inl h₂, ?_, ?_⟩
          · simp only [h₃]; omega
          · simp only; omega
      | false =>
        have ht : numberTail (a ++ b) = numberTail a := by
          rw [numberTail, takeWhile_append_of_head a, numberTail]
          intro d hd
          obtain ⟨h₁, h₂, h₃, -⟩ := Text.separates_of_isBlank (h d (List.mem_of_mem_head? hd)) l
          simp [continuesNumber, h₁, h₂, h₃]
        rw [lexeme_other hma hq hs, lexeme_other hm hq hs, ht]
        exact .inl rfl

theorem scan_only_blanks {b : Text} (h : ∀ c ∈ b, Text.isBlank c = true) (k pos : Nat) :
    scan l k pos b = [] := by
  induction b generalizing k pos with
  | nil => rw [scan]
  | cons c r ih =>
    have hr := ih fun d hd => h d (List.mem_cons_of_mem c hd)
    cases k with
    | succ k => exact hr k _
    | zero => rw [scan_blank _ _ (h c List.mem_cons_self)]; exact hr 0 _

theorem scan_append_blank {b : Text} (h : ∀ c ∈ b, Text.isBlank c = true) (k pos : Nat)
    (a : Text) : (scan l k pos (a ++ b)).map muted = (scan l k pos a).map muted := by
  induction a generalizing k pos with
  | nil => rw [List.nil_append, scan_only_blanks h, scan]
  | cons c r ih =>
    cases k with
    | succ k => exact ih k _
    | zero =>
      cases hb : Text.isBlank c with
      | true => rw [List.cons_append, scan_blank _ _ hb, scan_blank _ _ hb]; exact ih 0 _
      | false =>
        rw [List.cons_append, scan_cons _ _ hb, scan_cons _ _ hb, List.map_cons, List.map_cons, ih]
        have hle := lexeme_le l c r
        rcases lexeme_append_blank (l := l) c r h with he | ⟨hk, ho, hn, hl⟩
        · rw [he, List.take_append_of_le_length hle]
        · -- The token runs to the end on both sides, and nothing comes behind it.
          rw [scan_all hl, scan_all (Nat.le_of_eq hn.symm)]
          have hm : ∀ text : Text, muted ⟨(lexeme l c r).1, text, pos⟩ =
              ⟨(lexeme l c r).1, [], pos⟩ := fun text => if_pos ho
          rw [hk, hm, hm]

theorem exists_span {line : Text} {pre ts post : List Token}
    (h : tokenize l line = pre ++ (ts ++ post)) (hn : ts ≠ []) :
    ∃ u w z pos, line = u ++ (w ++ z) ∧ pos = size u ∧ scan l 0 pos w = ts ∧
      w.head?.any Text.isBlank = false ∧ ts.head?.map Token.start = some pos ∧
      ts.getLast?.map stop = some (pos + size w) := by
  have hsplit : ∃ u v, line = u ++ v ∧ scan l 0 (size u) v = ts ++ post := by
    by_cases hp : pre = []
    · exact ⟨[], line, rfl, by rw [hp] at h; exact h⟩
    · obtain ⟨u, v, hl, -, -, hv, -⟩ := scan_split h hp
      rw [Nat.zero_add] at hv
      exact ⟨u, v, hl, hv⟩
  obtain ⟨u, v, rfl, hv⟩ := hsplit
  have hvb : v = v.takeWhile Text.isBlank ++ v.dropWhile Text.isBlank :=
    (List.takeWhile_append_dropWhile).symm
  have hblank : ∀ c ∈ v.takeWhile Text.isBlank, Text.isBlank c = true :=
    List.all_eq_true.1 List.all_takeWhile
  rw [hvb, scan_blanks hblank, ← Text.size_append] at hv
  obtain ⟨w, z, hw, -, hs, -, hl⟩ := scan_split hv hn
  refine ⟨u ++ v.takeWhile Text.isBlank, w, z, size (u ++ v.takeWhile Text.isBlank),
    by rw [← hw, List.append_assoc, ← hvb], rfl, hs, ?_, ?_, hl⟩ <;>
    obtain ⟨c, r, rfl⟩ : ∃ c r, w = c :: r := by
      cases w with
      | nil => rw [scan] at hs; exact absurd hs.symm hn
      | cons c r => exact ⟨c, r, rfl⟩
  all_goals
    have hc : Text.isBlank c = false := by
      have hd := List.head?_dropWhile_not Text.isBlank v
      rw [hw] at hd
      simpa using hd
  · exact hc
  · rw [← hs, scan_cons _ _ hc]
    rfl

theorem spanText_eq {line : Text} {ts : List Token} {i j : Nat} (hi : ts.head?.map start = some i)
    (hj : ts.getLast?.map stop = some j) : spanText line ts = Text.trim (Text.slice line i j) := by
  obtain ⟨a, ha, rfl⟩ := Option.map_eq_some_iff.1 hi
  obtain ⟨b, hb, rfl⟩ := Option.map_eq_some_iff.1 hj
  simp only [spanText, ha, hb]

theorem scan_spanText {line : Text} {pre ts post : List Token}
    (h : tokenize l line = pre ++ (ts ++ post)) (hn : ts ≠ []) :
    ∃ d, ((tokenize l (spanText line ts)).map (moved d)).map muted = ts.map muted := by
  obtain ⟨u, w, z, pos, rfl, rfl, hs, hw, ha, hb⟩ := exists_span h hn
  have ht : spanText (u ++ (w ++ z)) ts = Text.trimEnd w := by
    rw [spanText_eq ha hb, Text.slice_append, Text.trim]
    cases w with
    | nil => rfl
    | cons c r => rw [Text.trimStart_cons (by simpa using hw)]
  obtain ⟨rest, hrest, hblank⟩ := Text.exists_trimEnd w
  refine ⟨size u, ?_⟩
  rw [ht, tokenize, ← scan_moved, Nat.zero_add, ← scan_append_blank hblank, ← hrest, hs]

end Polyglot.Token
