import Polyglot.Proofs.Token.Nested
import Polyglot.Value.Reader

/-!
# Printed values

A printed value, scanned as guest code of either language, gives tokens of its own from
its first byte to its last: no string of it stays open, no bracket, and nothing in it
reads as a comment. What is in a string or a name does not matter, since it is escaped.
-/
namespace Polyglot

namespace Token
open Text (size)

def marks : List Char := ['(', ')', '[', ']', '{', '}', ',', ';', ':', '=']

def Breaks (rest : Text) : Prop := ∀ c ∈ rest.head?, c = ' ' ∨ c ∈ marks

def bareMarks : List Char :=
  ['+', '-', '.', 'a', 'e', 'f', 'l', 'n', 'o', 'r', 's', 't', 'u', 'F', 'N', 'T']

def isBare (c : Char) : Bool := c.isDigit || bareMarks.contains c

structure BeginsWord (l : Language) (c : Char) : Prop where
  blank : Text.isBlank c = false
  comment : c ∉ l.commentMark
  quote : l.quotes.contains c = false

instance (l : Language) (c : Char) : Decidable (BeginsWord l c) :=
  decidable_of_iff (Text.isBlank c = false ∧ c ∉ l.commentMark ∧ l.quotes.contains c = false)
    ⟨fun ⟨hb, hc, hq⟩ => ⟨hb, hc, hq⟩, fun ⟨hb, hc, hq⟩ => ⟨hb, hc, hq⟩⟩

structure BeginsMark (l : Language) (c : Char) : Prop where
  comment : c ∉ l.commentMark
  quote : l.quotes.contains c = false
  name : l.continuesName c = false
  number : continuesNumber c = false
  start : l.startsName c = false
  digit : c.isDigit = false

theorem beginsMark_of_mem {c : Char} (h : c ∈ marks) (l : Language) :
    Text.isBlank c = false ∧ BeginsMark l c := by
  have hall : ∀ l : Language, l = .javascript ∨ l = .python → marks.all (fun c =>
      decide (Text.isBlank c = false ∧ c ∉ l.commentMark ∧ l.quotes.contains c = false ∧
        l.continuesName c = false ∧ continuesNumber c = false ∧ l.startsName c = false ∧
        c.isDigit = false)) = true := by
    rintro l (rfl | rfl) <;> decide +kernel
  have hc := List.all_eq_true.1 (hall l (by cases l <;> simp)) c h
  obtain ⟨hb, h₁, h₂, h₃, h₄, h₅, h₆⟩ := of_decide_eq_true hc
  exact ⟨hb, h₁, h₂, h₃, h₄, h₅, h₆⟩

theorem Breaks.head {rest : Text} (h : Breaks rest) (l : Language) :
    ∀ c ∈ rest.head?, l.quotes.contains c = false ∧ l.continuesName c = false ∧
      continuesNumber c = false := by
  intro c hc
  rcases h c hc with rfl | hm
  · cases l <;> decide +kernel
  · obtain ⟨-, hs⟩ := beginsMark_of_mem hm l
    exact ⟨hs.quote, hs.name, hs.number⟩

theorem toNat_of_isBare {c : Char} (h : isBare c = true) : c.toNat < 128 := by
  rw [isBare, Bool.or_eq_true, List.contains_iff_mem] at h
  rcases h with h | h
  · simp only [Char.isDigit, Bool.and_eq_true, decide_eq_true_eq, UInt32.le_iff_toNat_le,
      ge_iff_le] at h
    have ht : c.toNat = c.val.toNat := rfl
    have hn : '9'.val.toNat = 57 := rfl
    omega
  · have hall : bareMarks.all (fun d => decide (d.toNat < 128)) = true := by decide
    exact of_decide_eq_true (List.all_eq_true.1 hall c h)

theorem beginsWord_of_isBare {c : Char} (h : isBare c = true) (l : Language) :
    BeginsWord l c := by
  refine Text.of_ascii (P := fun c => isBare c = true → BeginsWord l c) ?_ (toNat_of_isBare h) h
  cases l <;> decide +kernel

theorem not_mem_marks_of_isBare {c : Char} (h : isBare c = true) : c ∉ marks := by
  refine Text.of_ascii (P := fun c => isBare c = true → c ∉ marks) ?_ (toNat_of_isBare h) h
  decide

theorem isBare_of_isDigit {c : Char} (h : c.isDigit = true) : isBare c = true := by
  rw [isBare, h, Bool.true_or]

theorem continuesNumber_of_isDigit {c : Char} (h : c.isDigit = true) :
    continuesNumber c = true := by
  refine Text.of_ascii (P := fun c => c.isDigit = true → continuesNumber c = true) ?_
    (toNat_of_isBare (isBare_of_isDigit h)) h
  decide +kernel

theorem not_startsName_of_isDigit {c : Char} (h : c.isDigit = true) (l : Language) :
    l.startsName c = false := by
  refine Text.of_ascii (P := fun c => c.isDigit = true → l.startsName c = false) ?_
    (toNat_of_isBare (isBare_of_isDigit h)) h
  cases l <;> decide +kernel

theorem continuesName_of_startsName {l : Language} {c : Char} (h : l.startsName c = true) :
    l.continuesName c = true := by
  simp only [Language.startsName, Bool.or_eq_true] at h
  simp only [Language.continuesName, Text.isAlphanumeric, Bool.or_eq_true]
  rcases h with (h | h) | h
  · exact .inl (.inl (.inl h))
  · exact .inl (.inr h)
  · exact .inr h

theorem beginsWord_of_startsName {l : Language} {c : Char} (h : l.startsName c = true) :
    BeginsWord l c := by
  have hall : (l.commentMark ++ l.quotes).all (fun d => !l.startsName d) = true := by
    cases l <;> decide +kernel
  have hc : c ∉ l.commentMark ++ l.quotes := by
    intro hm
    have hs := List.all_eq_true.1 hall c hm
    rw [h] at hs
    cases hs
  simp only [List.mem_append, not_or] at hc
  refine ⟨?_, hc.1, by simpa using hc.2⟩
  cases hb : Text.isBlank c with
  | false => rfl
  | true =>
    obtain ⟨-, -, -, -, hn, -⟩ := Text.separates_of_isBlank hb l
    rw [continuesName_of_startsName h] at hn
    cases hn

theorem isPrefixOf_commentMark {l : Language} {c : Char} (h : c ∉ l.commentMark) (r : Text) :
    l.commentMark.isPrefixOf (c :: r) = false := by
  have hne : l.commentMark ≠ [] := by cases l <;> decide
  obtain ⟨d, m, hm⟩ := List.exists_cons_of_ne_nil hne
  rw [hm, ← Bool.not_eq_true, List.isPrefixOf_iff_prefix, List.cons_prefix_cons]
  rintro ⟨rfl, -⟩
  exact h (hm ▸ List.mem_cons_self)

variable {l : Language}

theorem lexeme_mark {c : Char} (h : c ∈ marks) (r : Text) : lexeme l c r = (.punct c, 0) := by
  obtain ⟨-, hs⟩ := beginsMark_of_mem h l
  rw [lexeme_other (isPrefixOf_commentMark hs.comment r) hs.quote hs.start, hs.digit]
  rfl

theorem scan_mark {c : Char} (h : c ∈ marks) (r : Text) (pos : Nat) :
    scan l 0 pos (c :: r) = ⟨.punct c, [c], pos⟩ :: scan l 0 (pos + c.utf8Size) r := by
  rw [scan_cons r pos (beginsMark_of_mem h l).1, lexeme_mark h]
  rfl

structure Fills (w : Text) (pos : Nat) (ts : List Token) : Prop extends Neat ts where
  first : ts.head?.map start = some pos
  last : ts.getLast?.map stop = some (pos + size w)
  uncut : Uncut ts

def Scans (l : Language) (w : Text) (P : Nat → List Token → Prop) : Prop :=
  ∀ pos rest, Breaks rest →
    ∃ ts, scan l 0 pos (w ++ rest) = ts ++ scan l 0 (pos + size w) rest ∧ P pos ts

theorem Scans.imp {w : Text} {P Q : Nat → List Token → Prop} (h : Scans l w P)
    (hq : ∀ pos ts, P pos ts → Q pos ts) : Scans l w Q := by
  intro pos rest hr
  obtain ⟨ts, hs, hp⟩ := h pos rest hr
  exact ⟨ts, hs, hq pos ts hp⟩

theorem breaks_nil : Breaks [] := nofun

theorem breaks_mark {c : Char} (h : c ∈ marks) (r : Text) : Breaks (c :: r) := by
  rintro d ⟨⟩
  exact .inr h

theorem wordLexeme_of_head {word rest : Text}
    (h : ∀ c ∈ rest.head?, l.quotes.contains c = false) : wordLexeme l word rest = (.ident, 0) := by
  cases rest with
  | nil => rfl
  | cons q s => rw [wordLexeme, h q rfl, Bool.false_and, if_neg Bool.false_ne_true]

theorem lexeme_bare {c : Char} {w rest : Text} (hc : isBare c = true)
    (hw : ∀ d ∈ w, isBare d = true) (hr : Breaks rest) :
    (lexeme l c (w ++ rest)).2 ≤ w.length ∧ ((lexeme l c (w ++ rest)).1 = .ident ∨
      (lexeme l c (w ++ rest)).1 = .number ∨ (lexeme l c (w ++ rest)).1 = .punct c) := by
  obtain ⟨-, hm, hq⟩ := beginsWord_of_isBare hc l
  have hm := isPrefixOf_commentMark hm (w ++ rest)
  have hhead := hr.head l
  cases hs : l.startsName c with
  | true =>
    have ht : nameTail l (w ++ rest) = nameTail l w := by
      rw [nameTail, takeWhile_append_of_head w fun d hd => (hhead d hd).2.1, nameTail]
    have hle : nameTail l w ≤ w.length := (List.takeWhile_sublist _).length_le
    have hd : ∀ d ∈ ((w ++ rest).drop (nameTail l w)).head?, l.quotes.contains d = false := by
      intro d hd
      rw [List.drop_append_of_le_length hle, List.head?_append] at hd
      cases hx : (w.drop (nameTail l w)).head? with
      | none =>
        rw [hx] at hd
        exact (hhead d hd).1
      | some e =>
        rw [hx] at hd
        cases hd
        have he : d ∈ w := List.mem_of_mem_drop (List.mem_of_head? hx)
        exact (beginsWord_of_isBare (hw d he) l).quote
    rw [lexeme_word l hm hq hs, ht, wordLexeme_of_head hd]
    exact ⟨hle, .inl rfl⟩
  | false =>
    rw [lexeme_other hm hq hs]
    split
    · have ht : numberTail (w ++ rest) = numberTail w := by
        rw [numberTail, takeWhile_append_of_head w fun d hd => (hhead d hd).2.2, numberTail]
      rw [ht]
      exact ⟨(List.takeWhile_sublist _).length_le, .inr (.inl rfl)⟩
    · exact ⟨Nat.zero_le _, .inr (.inr rfl)⟩

def Dull (t : Token) : Prop :=
  t.kind = .ident ∨ t.kind = .number ∨ ∃ c, c ∉ marks ∧ t.kind = .punct c

theorem Dull.isPunct {t : Token} (h : Dull t) {c : Char} (hc : c ∈ marks) :
    t.isPunct c = false := by
  rcases h with h | h | ⟨d, hd, h⟩
  · simp [Token.isPunct, h]
  · simp [Token.isPunct, h]
  · have hne : d ≠ c := fun e => hd (e ▸ hc)
    simp [Token.isPunct, h, hne]

theorem Dull.opens {t : Token} (h : Dull t) : t.opens = false ∧ t.closes = false := by
  have hm := fun c hc => h.isPunct (c := c) hc
  simp only [Token.opens, Token.closes, Bool.or_eq_false_iff]
  exact ⟨⟨⟨hm _ (by decide), hm _ (by decide)⟩, hm _ (by decide)⟩,
    ⟨hm _ (by decide), hm _ (by decide)⟩, hm _ (by decide)⟩

theorem Dull.isComment {t : Token} (h : Dull t) : t.isComment = false := by
  rcases h with h | h | ⟨d, -, h⟩ <;> simp [Token.isComment, h]

theorem Dull.closed {t : Token} (h : Dull t) : t.Closed := by
  intro hs
  rcases h with h | h | ⟨d, -, h⟩ <;> rw [h] at hs <;> cases hs

theorem fills_of_dull {w : Text} {pos : Nat} {ts : List Token} (h : ∀ t ∈ ts, Dull t)
    (hf : ts.head?.map start = some pos) (hl : ts.getLast?.map stop = some (pos + size w)) :
    Fills w pos ts where
  code := fun t ht => (h t ht).isComment
  closed := fun t ht => (h t ht).closed
  unequal := fun t ht => (h t ht).isPunct (by decide)
  nested := .of_forall fun t ht => (h t ht).opens
  first := hf
  last := hl
  uncut := uncut_of_forall fun t ht =>
    ⟨(h t ht).opens.1, (h t ht).opens.2, (h t ht).isPunct (by decide), (h t ht).isPunct (by decide)⟩

theorem scan_bare {c : Char} {w rest : Text} (hc : isBare c = true)
    (hw : ∀ d ∈ w, isBare d = true) (hr : Breaks rest) (pos : Nat) :
    ∃ kind u v, w = u ++ v ∧ Dull ⟨kind, c :: u, pos⟩ ∧
      scan l 0 pos (c :: w ++ rest) =
        ⟨kind, c :: u, pos⟩ :: scan l 0 (pos + size (c :: u)) (v ++ rest) := by
  have hb := (beginsWord_of_isBare hc l).blank
  have hmark := not_mem_marks_of_isBare hc
  obtain ⟨hle, hkind⟩ := lexeme_bare (l := l) hc hw hr
  generalize hx : lexeme l c (w ++ rest) = x at hle hkind
  have hlen : (w.take x.2).length = x.2 := by
    rw [List.length_take]
    exact Nat.min_eq_left hle
  have hskip := scan_skip (l := l) (w.take x.2) (w.drop x.2 ++ rest) (pos + c.utf8Size)
  rw [hlen, ← List.append_assoc, List.take_append_drop] at hskip
  refine ⟨x.1, w.take x.2, w.drop x.2, (List.take_append_drop _ _).symm, ?_, ?_⟩
  · rcases hkind with h | h | h
    · exact .inl h
    · exact .inr (.inl h)
    · exact .inr (.inr ⟨c, hmark, h⟩)
  · rw [List.cons_append, scan_cons _ pos hb, hx, List.take_append_of_le_length hle, hskip, size,
      ← Nat.add_assoc]

theorem exists_dull {w rest : Text} (hn : w ≠ []) (hw : ∀ c ∈ w, isBare c = true)
    (hr : Breaks rest) (pos : Nat) :
    ∃ ts, scan l 0 pos (w ++ rest) = ts ++ scan l 0 (pos + size w) rest ∧ (∀ t ∈ ts, Dull t) ∧
      ts.head?.map start = some pos ∧ ts.getLast?.map stop = some (pos + size w) := by
  -- How long a token is depends on the text, so the induction is on the length.
  induction hk : w.length using Nat.strongRecOn generalizing w pos with
  | ind k ih =>
    obtain ⟨c, w, rfl⟩ := List.exists_cons_of_ne_nil hn
    obtain ⟨hc, hw⟩ := List.forall_mem_cons.1 hw
    obtain ⟨kind, u, v, rfl, hd, hs⟩ := scan_bare (l := l) hc hw hr pos
    have hsize : size (c :: (u ++ v)) = size (c :: u) + size v := Text.size_append (c :: u) v
    by_cases hv : v = []
    · subst hv
      rw [List.append_nil] at hs ⊢
      exact ⟨_, hs, List.forall_mem_singleton.2 hd, rfl, rfl⟩
    · have hshort : v.length < k := by
        simp only [List.length_cons, List.length_append] at hk
        omega
      obtain ⟨ts, ht, hdull, hf, hl⟩ := ih v.length hshort hv
        (fun d hm => hw d (List.mem_append_right u hm)) (pos + size (c :: u)) rfl
      rw [Nat.add_assoc, ← hsize] at ht hl
      have hne : ts ≠ [] := by
        rintro rfl
        cases hf
      refine ⟨⟨kind, c :: u, pos⟩ :: ts, ?_, List.forall_mem_cons.2 ⟨hd, hdull⟩, rfl, ?_⟩
      · rw [hs, ht]
        rfl
      · rw [List.getLast?_cons_of_ne_nil hne]
        exact hl

theorem scans_bare {w : Text} (hn : w ≠ []) (hw : ∀ c ∈ w, isBare c = true) :
    Scans l w (Fills w) := by
  intro pos rest hr
  obtain ⟨ts, hs, hd, hf, hl⟩ := exists_dull hn hw hr pos
  exact ⟨ts, hs, fills_of_dull hd hf hl⟩

theorem Scans.append {u v : Text} {c : Char} (hc : c = ',' ∨ c = ':')
    (hu : Scans l u fun _ ts => Neat ts) (hv : Scans l v fun _ ts => Neat ts) :
    Scans l (u ++ (c :: ' ' :: v)) fun _ ts => Neat ts := by
  have hm : c ∈ marks := by rcases hc with rfl | rfl <;> decide
  have hdull : ∀ pos, Neat [⟨.punct c, [c], pos⟩] := by
    intro pos
    refine ⟨⟨?_, ?_, .of_forall ?_⟩, ?_⟩ <;> rw [List.forall_mem_singleton]
    · rfl
    · exact nofun
    · rcases hc with rfl | rfl <;> exact ⟨rfl, rfl⟩
    · rcases hc with rfl | rfl <;> rfl
  intro pos rest hr
  obtain ⟨ts, hs, hts⟩ := hu pos (c :: ' ' :: (v ++ rest)) (breaks_mark hm _)
  obtain ⟨us, hs', hus⟩ := hv (pos + size u + c.utf8Size + ' '.utf8Size) rest hr
  have hblank : Text.isBlank ' ' = true := by decide
  have hsize : pos + size (u ++ (c :: ' ' :: v)) =
      pos + size u + c.utf8Size + ' '.utf8Size + size v := by
    simp only [Text.size_append, size]
    omega
  refine ⟨ts ++ (⟨.punct c, [c], pos + size u⟩ :: us), ?_, hts.append ((hdull _).append hus)⟩
  rw [List.append_assoc, List.cons_append, List.cons_append, hs, scan_mark hm,
    scan_blank _ _ hblank, hs', hsize, List.append_assoc, List.cons_append]

theorem joinWith_cons_cons (w v : Text) (r : List Text) :
    Text.joinWith ", " (w :: v :: r) = w ++ (',' :: ' ' :: Text.joinWith ", " (v :: r)) := by
  simp [Text.joinWith, List.intercalate_cons_cons]

theorem scans_join {parts : List Text} (h : ∀ w ∈ parts, Scans l w fun _ ts => Neat ts) :
    Scans l (Text.joinWith ", " parts) fun _ ts => Neat ts := by
  induction parts with
  | nil => exact fun pos rest _ => ⟨[], rfl, .nil⟩
  | cons w r ih =>
    have hw := h w List.mem_cons_self
    have hr := ih fun x hx => h x (List.mem_cons_of_mem w hx)
    cases r with
    | nil =>
      have hj : Text.joinWith ", " [w] = w := List.intercalate_singleton ..
      rw [hj]
      exact hw
    | cons v r =>
      rw [joinWith_cons_cons]
      exact hw.append (.inl rfl) hr

theorem Neat.group {a b : Char} (hm : Mates a b) {inner : List Token} (h : Neat inner)
    (p q : Nat) : Neat (⟨.punct a, [a], p⟩ :: (inner ++ [⟨.punct b, [b], q⟩])) := by
  have hne : isPunct '=' ⟨.punct a, [a], p⟩ = false ∧ isPunct '=' ⟨.punct b, [b], q⟩ = false := by
    cases hm <;> exact ⟨rfl, rfl⟩
  have hall : ∀ {P : Token → Prop}, (∀ t ∈ inner, P t) → P ⟨.punct a, [a], p⟩ →
      P ⟨.punct b, [b], q⟩ → ∀ t ∈ ⟨.punct a, [a], p⟩ :: (inner ++ [⟨.punct b, [b], q⟩]), P t := by
    intro P hi ha hb
    exact List.forall_mem_cons.2
      ⟨ha, List.forall_mem_append.2 ⟨hi, List.forall_mem_singleton.2 hb⟩⟩
  exact ⟨⟨hall h.code rfl rfl, hall h.closed nofun nofun, .group hm rfl rfl h.nested .nil⟩,
    hall h.unequal hne.1 hne.2⟩

theorem marks_of_mates {a b : Char} (h : Mates a b) : a ∈ marks ∧ b ∈ marks := by
  cases h <;> decide

theorem scan_bracket {a b : Char} (hm : Mates a b) {w : Text} {P : Nat → List Token → Prop}
    (h : Scans l w P) (pos : Nat) (rest : Text) :
    ∃ ts, scan l 0 pos (a :: w ++ [b] ++ rest) =
        ⟨.punct a, [a], pos⟩ :: (ts ++ [⟨.punct b, [b], pos + a.utf8Size + size w⟩])
          ++ scan l 0 (pos + a.utf8Size + size w + b.utf8Size) rest ∧
      P (pos + a.utf8Size) ts := by
  obtain ⟨ha, hb⟩ := marks_of_mates hm
  obtain ⟨ts, hs, hts⟩ := h (pos + a.utf8Size) (b :: rest) (breaks_mark hb rest)
  have hw : a :: w ++ [b] ++ rest = a :: (w ++ b :: rest) := by simp
  refine ⟨ts, ?_, hts⟩
  rw [hw, scan_mark ha, hs, scan_mark hb, List.cons_append, List.append_assoc]
  rfl

theorem size_bracket (a b : Char) (w : Text) (pos : Nat) :
    pos + size (a :: w ++ [b]) = pos + a.utf8Size + size w + b.utf8Size := by
  simp only [List.cons_append, Text.size_append, size]
  omega

theorem scans_bracket {a b : Char} (hm : Mates a b) {w : Text}
    (h : Scans l w fun _ ts => Neat ts) : Scans l (a :: w ++ [b]) (Fills (a :: w ++ [b])) := by
  intro pos rest _
  obtain ⟨ts, hs, hts⟩ := scan_bracket hm h pos rest
  rw [size_bracket]
  refine ⟨_, hs, {
    toNeat := .group hm hts _ _
    first := rfl
    last := ?_
    uncut := uncut_group hm rfl rfl hts.nested }⟩
  rw [← List.cons_append, List.getLast?_concat, Option.map_some, size_bracket]
  rfl

end Token

namespace Value
open Token (stringTail scan Scans Fills Neat Closed Mates)
open Text (size Solid)

theorem escape_cases (c : Char) :
    (∃ d, escape c = ['\\', d] ∧ d ≠ '\n') ∨
      (∃ x y, x < 16 ∧ y < 16 ∧ escape c = ['\\', 'u', '0', '0', hexDigit x, hexDigit y]) ∨
      (escape c = [c] ∧ c ≠ '\\' ∧ c ≠ '"' ∧ c ≠ '\n') := by
  unfold escape
  split
  · exact .inl ⟨_, rfl, by decide⟩
  split
  · exact .inl ⟨_, rfl, by decide⟩
  split
  · exact .inl ⟨_, rfl, by decide⟩
  split
  · exact .inl ⟨_, rfl, by decide⟩
  split
  · exact .inl ⟨_, rfl, by decide⟩
  split
  · exact .inl ⟨_, rfl, by decide⟩
  split
  · exact .inl ⟨_, rfl, by decide⟩
  split
  · next hn => exact .inr (.inl ⟨_, _, by omega, by omega, rfl⟩)
  · next hq hb _ _ hf _ _ _ => exact .inr (.inr ⟨rfl, hb, hq, hf⟩)

theorem hexDigit_ne {n : Nat} (h : n < 16) :
    hexDigit n ≠ '\\' ∧ hexDigit n ≠ '"' ∧ hexDigit n ≠ '\n' := by
  revert n
  decide

theorem stringTail_escape (c : Char) (t : Text) :
    stringTail '"' (escape c ++ t) = (escape c).length + stringTail '"' t := by
  have hpair : ∀ (d : Char) (r : Text),
      stringTail '"' ('\\' :: d :: r) = 2 + stringTail '"' r := by
    intro d r
    rw [stringTail, if_pos rfl, Nat.add_comm]
  have hplain : ∀ (d : Char) (r : Text), d ≠ '\\' → d ≠ '"' →
      stringTail '"' (d :: r) = stringTail '"' r + 1 := by
    intro d r hb hq
    rw [Token.stringTail_cons '"' r hb, if_neg hq]
  obtain ⟨d, he, -⟩ | ⟨x, y, hx, hy, he⟩ | ⟨he, hb, hq, -⟩ := escape_cases c
  · rw [he]
    exact hpair d t
  · obtain ⟨hxb, hxq, -⟩ := hexDigit_ne hx
    obtain ⟨hyb, hyq, -⟩ := hexDigit_ne hy
    rw [he]
    simp only [List.cons_append, List.nil_append, List.length_cons, List.length_nil]
    rw [hpair, hplain '0' _ (by decide) (by decide), hplain '0' _ (by decide) (by decide),
      hplain _ _ hxb hxq, hplain _ _ hyb hyq]
    omega
  · rw [he, List.singleton_append, hplain c t hb hq, List.length_singleton, Nat.add_comm]

theorem stringTail_quoted (s rest : Text) :
    stringTail '"' (s.flatMap escape ++ ['"'] ++ rest) = (s.flatMap escape ++ ['"']).length := by
  induction s with
  | nil =>
    have hone := Token.stringTail_cons '"' (c := '"') rest (by decide)
    rw [if_pos rfl] at hone
    exact hone
  | cons c r ih =>
    rw [List.flatMap_cons, List.append_assoc, List.append_assoc, stringTail_escape,
      ← List.append_assoc, ih]
    simp only [List.length_append, Nat.add_assoc]

theorem lexeme_quoted (l : Language) (s rest : Text) :
    Token.lexeme l '"' (s.flatMap escape ++ ['"'] ++ rest) =
      (.str, (s.flatMap escape ++ ['"']).length) := by
  have hmark : '"' ∉ l.commentMark := by cases l <;> decide
  have hquote : l.quotes.contains '"' = true := by cases l <;> decide
  rw [Token.lexeme_quote (Token.isPrefixOf_commentMark hmark _) hquote, stringTail_quoted]

theorem scan_quoted (l : Language) (s rest : Text) (pos : Nat) :
    scan l 0 pos (quoted s ++ rest) =
      ⟨.str, quoted s, pos⟩ :: scan l 0 (pos + size (quoted s)) rest := by
  have hblank : Text.isBlank '"' = false := by decide
  have hq : quoted s ++ rest = '"' :: (s.flatMap escape ++ ['"'] ++ rest) := by simp [quoted]
  rw [hq, Token.scan_lexeme hblank (lexeme_quoted l s rest)]
  rfl

theorem scans_quoted (l : Language) (s : Text) : Scans l (quoted s) (Fills (quoted s)) := by
  intro pos rest _
  have hclosed : Closed ⟨.str, quoted s, pos⟩ := fun _ => ⟨'"', _, rfl, stringTail_quoted s⟩
  exact ⟨[⟨.str, quoted s, pos⟩], scan_quoted l s rest pos, {
    code := List.forall_mem_singleton.2 rfl
    closed := List.forall_mem_singleton.2 hclosed
    unequal := List.forall_mem_singleton.2 rfl
    nested := .step rfl rfl .nil
    first := rfl
    last := rfl
    uncut := Token.uncut_of_forall (List.forall_mem_singleton.2 ⟨rfl, rfl, rfl, rfl⟩) }⟩

def IsNumber (digits : Text) : Prop := ∃ t rest, readNumber t = some (digits, rest)

mutual

/-- The numbers in the value are numbers of JSON. -/
def Proper : Value → Prop
  | null => True
  | bool _ => True
  | number digits => IsNumber digits
  | string _ => True
  | array items => ProperItems items
  | object members => ProperMembers members

def ProperItems : List Value → Prop
  | [] => True
  | v :: r => v.Proper ∧ ProperItems r

def ProperMembers : List (Text × Value) → Prop
  | [] => True
  | (_, v) :: r => v.Proper ∧ ProperMembers r

end

def Digits (ds : Text) : Prop := ds ≠ [] ∧ ∀ c ∈ ds, c.isDigit = true

theorem Digits.bare {ds : Text} (h : Digits ds) : ∀ c ∈ ds, Token.isBare c = true := by
  intro c hc
  rw [Token.isBare, h.2 c hc, Bool.true_or]

theorem digits_of_digitRun {t ds r : Text} (h : digitRun t = (ds, r)) (hn : ds ≠ []) :
    Digits ds := by
  obtain ⟨rfl, -⟩ := Prod.mk.inj h
  exact ⟨hn, List.all_eq_true.1 List.all_takeWhile⟩

theorem digits_of_readWhole {t ds r : Text} (h : readWhole t = some (ds, r)) : Digits ds := by
  unfold readWhole at h
  split at h
  · cases h
  · next hd =>
    cases h
    exact digits_of_digitRun hd (List.cons_ne_nil _ _)
  · cases h
  · next hne _ _ hd =>
    cases h
    exact digits_of_digitRun hd hne

theorem readFraction_cases {t ds r : Text} (h : readFraction t = some (ds, r)) :
    ds = [] ∨ ∃ es, Digits es ∧ ds = '.' :: es := by
  unfold readFraction at h
  split at h
  · split at h
    · cases h
    · next hne hd =>
      cases h
      exact .inr ⟨_, digits_of_digitRun hd hne, rfl⟩
  · cases h
    exact .inl rfl

theorem readExponent_cases {t ds r : Text} (h : readExponent t = some (ds, r)) :
    ds = [] ∨ ∃ s es, (s = '+' ∨ s = '-') ∧ Digits es ∧ ds = 'e' :: s :: es := by
  unfold readExponent at h
  split at h
  · cases h
    exact .inl rfl
  · next c s =>
    split at h
    · have hsign : (readExponentSign s).1 = '+' ∨ (readExponentSign s).1 = '-' := by
        unfold readExponentSign
        split
        · exact .inl rfl
        · exact .inr rfl
        · exact .inl rfl
      split at h
      · cases h
      · next hne hd =>
        cases h
        exact .inr ⟨_, _, hsign, digits_of_digitRun hd hne, rfl⟩
    · cases h
      exact .inl rfl

theorem isNumber_cases {digits : Text} (h : IsNumber digits) :
    ∃ sign whole fraction exponent, digits = sign ++ whole ++ fraction ++ exponent ∧
      (sign = [] ∨ sign = ['-']) ∧ Digits whole ∧
      (fraction = [] ∨ ∃ es, Digits es ∧ fraction = '.' :: es) ∧
      (exponent = [] ∨ ∃ s es, (s = '+' ∨ s = '-') ∧ Digits es ∧ exponent = 'e' :: s :: es) := by
  obtain ⟨t, rest, h⟩ := h
  simp only [readNumber, Option.bind_eq_bind, Option.bind_eq_some_iff, Option.pure_def,
    Option.some.injEq, Prod.mk.injEq] at h
  obtain ⟨⟨whole, r₁⟩, hw, ⟨fraction, r₂⟩, hf, ⟨exponent, r₃⟩, he, rfl, -⟩ := h
  refine ⟨_, whole, fraction, exponent, rfl, ?_, digits_of_readWhole hw, readFraction_cases hf,
    readExponent_cases he⟩
  unfold readSign
  split
  · exact .inr rfl
  · exact .inl rfl

theorem bare_of_isNumber {digits : Text} (h : IsNumber digits) :
    digits ≠ [] ∧ ∀ c ∈ digits, Token.isBare c = true := by
  obtain ⟨sign, whole, fraction, exponent, rfl, hs, hw, hf, he⟩ := isNumber_cases h
  have hsign : ∀ c ∈ sign, Token.isBare c = true := by
    rcases hs with rfl | rfl
    · exact nofun
    · exact List.forall_mem_singleton.2 rfl
  have hfraction : ∀ c ∈ fraction, Token.isBare c = true := by
    obtain rfl | ⟨es, hd, rfl⟩ := hf
    · exact nofun
    · exact List.forall_mem_cons.2 ⟨rfl, hd.bare⟩
  have hexponent : ∀ c ∈ exponent, Token.isBare c = true := by
    obtain rfl | ⟨s, es, hs, hd, rfl⟩ := he
    · exact nofun
    · have hs : Token.isBare s = true := by rcases hs with rfl | rfl <;> rfl
      exact List.forall_mem_cons.2 ⟨rfl, List.forall_mem_cons.2 ⟨hs, hd.bare⟩⟩
  refine ⟨fun hn => ?_, ?_⟩
  · simp only [List.append_eq_nil_iff] at hn
    exact hw.1 hn.1.1.2
  · simp only [List.forall_mem_append]
    exact ⟨⟨⟨hsign, hw.bare⟩, hfraction⟩, hexponent⟩

theorem bare_words (l : Language) : ∀ w ∈ [l.trueWord, l.falseWord, l.nullWord],
    w ≠ [] ∧ ∀ c ∈ w, Token.isBare c = true := by
  have hall : ∀ w ∈ [l.trueWord, l.falseWord, l.nullWord],
      w ≠ [] ∧ w.all Token.isBare = true := by
    cases l <;> decide +kernel
  intro w hw
  obtain ⟨hn, hb⟩ := hall w hw
  exact ⟨hn, List.all_eq_true.1 hb⟩

/-- What has `P` of all that is printed for a value, and `Q` of the parts in brackets: a
word, a number or a string, and whatever is built from such parts. -/
structure Prints (P Q : Text → Prop) : Prop where
  bare : ∀ w, w ≠ [] → (∀ c ∈ w, Token.isBare c = true) → P w
  quoted : ∀ s, P (quoted s)
  part : ∀ w, P w → Q w
  member : ∀ k w, P w → Q (Value.quoted k ++ (':' :: ' ' :: w))
  bracket : ∀ a b, Mates a b → ∀ parts, (∀ w ∈ parts, Q w) →
    P (a :: Text.joinWith ", " parts ++ [b])

section
variable {P Q : Text → Prop} (hp : Prints P Q) (l : Language)
include hp

mutual

theorem Prints.render : (v : Value) → v.Proper → P (v.render l)
  | null, _ =>
    have hw := bare_words l _ (List.mem_cons_of_mem _ (List.mem_cons_of_mem _ List.mem_cons_self))
    hp.bare _ hw.1 hw.2
  | bool true, _ =>
    have hw := bare_words l _ List.mem_cons_self
    hp.bare _ hw.1 hw.2
  | bool false, _ =>
    have hw := bare_words l _ (List.mem_cons_of_mem _ List.mem_cons_self)
    hp.bare _ hw.1 hw.2
  | number _, h =>
    have hd := bare_of_isNumber h
    hp.bare _ hd.1 hd.2
  | string s, _ => hp.quoted s
  | array items, h => hp.bracket '[' ']' .square _ (Prints.items items h)
  | object members, h => hp.bracket '\x7b' '\x7d' .curly _ (Prints.members members h)

theorem Prints.items : (items : List Value) → ProperItems items →
    ∀ w ∈ printItems (.literal l) items, Q w
  | [], _ => nofun
  | v :: r, h => List.forall_mem_cons.2
    ⟨hp.part _ (Prints.render v h.1), Prints.items r h.2⟩

theorem Prints.members : (members : List (Text × Value)) → ProperMembers members →
    ∀ w ∈ printMembers (.literal l) members, Q w
  | [], _ => nofun
  | (k, v) :: r, h => by
    have hm : Value.quoted k ++ (Style.literal l).colon ++ v.print (.literal l) =
        Value.quoted k ++ (':' :: ' ' :: v.render l) := by
      rw [List.append_assoc]
      rfl
    refine List.forall_mem_cons.2 ⟨?_, Prints.members r h.2⟩
    rw [hm]
    exact hp.member k _ (Prints.render v h.1)

end

end

variable {v : Value}

theorem prints_scans (l : Language) :
    Prints (fun w => Scans l w (Fills w)) (fun w => Scans l w fun _ ts => Neat ts) := by
  have hneat : ∀ w, Scans l w (Fills w) → Scans l w fun _ ts => Neat ts :=
    fun w hw => hw.imp fun _ _ hf => hf.toNeat
  exact {
    bare := fun w => Token.scans_bare
    quoted := scans_quoted l
    part := hneat
    member := fun k w hw => (hneat _ (scans_quoted l k)).append (.inr rfl) (hneat w hw)
    bracket := fun a b hm parts hq => Token.scans_bracket hm (Token.scans_join hq) }

theorem scans_render (l : Language) (h : v.Proper) : Scans l (v.render l) (Fills (v.render l)) :=
  (prints_scans l).render l v h

theorem feed_not_mem_joinWith {parts : List Text} (h : ∀ w ∈ parts, '\n' ∉ w) :
    '\n' ∉ Text.joinWith ", " parts := by
  induction parts with
  | nil => exact List.not_mem_nil
  | cons w r ih =>
    have hw := h w List.mem_cons_self
    have hr := ih fun x hx => h x (List.mem_cons_of_mem w hx)
    cases r with
    | nil => simpa [Text.joinWith] using hw
    | cons v r =>
      rw [Token.joinWith_cons_cons]
      simp only [List.mem_append, List.mem_cons, hw, hr, false_or, or_false]
      decide

theorem solid_quoted (s : Text) : Solid (quoted s) where
  feed := by
    have he : '\n' ∉ s.flatMap escape := by
      rw [List.mem_flatMap]
      rintro ⟨c, -, hc⟩
      obtain ⟨d, he, hd⟩ | ⟨x, y, hx, hy, he⟩ | ⟨he, -, -, hn⟩ := escape_cases c
      · simp [he, Ne.symm hd] at hc
      · have hx := (hexDigit_ne hx).2.2
        have hy := (hexDigit_ne hy).2.2
        simp [he, Ne.symm hx, Ne.symm hy] at hc
      · simp [he, Ne.symm hn] at hc
    simp [quoted, he]
  first := ⟨'"', _, rfl, by decide⟩
  last := ⟨'"', '"' :: s.flatMap escape, rfl, by decide⟩

theorem solid_bare {w : Text} (hn : w ≠ []) (hw : ∀ c ∈ w, Token.isBare c = true) : Solid w := by
  have hblank : ∀ c ∈ w, Text.isBlank c = false :=
    fun c hc => (Token.beginsWord_of_isBare (hw c hc) .python).blank
  refine ⟨fun hm => ?_, ?_, ?_⟩
  · exact absurd (hblank _ hm) (by decide)
  · obtain ⟨c, r, rfl⟩ := List.exists_cons_of_ne_nil hn
    exact ⟨c, r, rfl, hblank c List.mem_cons_self⟩
  · have hl := List.dropLast_concat_getLast hn
    exact ⟨_, _, hl.symm, hblank _ (List.getLast_mem hn)⟩

theorem solid_render (l : Language) (h : v.Proper) : Solid (v.render l) := by
  have hp : Prints Solid ('\n' ∉ ·) := {
    bare := fun w => solid_bare
    quoted := solid_quoted
    part := fun w hw => hw.feed
    member := fun k w hw => by simp [(solid_quoted k).feed, hw.feed]
    bracket := fun a b hm parts hq => by
      have hj := feed_not_mem_joinWith hq
      have hb : Text.isBlank a = false ∧ Text.isBlank b = false ∧ '\n' ≠ a ∧ '\n' ≠ b := by
        cases hm <;> decide
      refine ⟨?_, ⟨a, _, rfl, hb.1⟩, ⟨b, a :: Text.joinWith ", " parts, rfl, hb.2.1⟩⟩
      simp only [List.mem_append, List.mem_cons, List.not_mem_nil, hb.2.2, hj, or_self,
        not_false_eq_true] }
  exact hp.render l v h

end Value

def Globals.Proper (g : Globals) : Prop := ∀ m ∈ g.items, m.2.Proper

end Polyglot
