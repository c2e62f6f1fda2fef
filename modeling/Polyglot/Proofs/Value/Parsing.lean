import Mathlib.Data.List.TakeWhile
import Polyglot.Proofs.Value.Printing

/-!
# Reading what was printed

A value printed for the language whose words are those of JSON is read back as it stands:
each escape gives its character, each number its digits, and fuel and depth suffice for the
arrays and objects inside one another.
-/
namespace Polyglot.Value
open Token (Breaks)

theorem escape_reads (c : Char) :
    (∃ d, escape c = ['\\', d] ∧ d ≠ 'u' ∧ unescape? d = some c) ∨
      (∃ x y, escape c = ['\\', 'u', '0', '0', x, y] ∧
        codeUnit? '0' '0' x y = some c.toNat ∧ c.toNat < 0x20) ∨
      (escape c = [c] ∧ c ≠ '"' ∧ c ≠ '\\' ∧ ¬ c.toNat < 0x20) := by
  have hunit : ∀ n < 0x20,
      codeUnit? '0' '0' (hexDigit (n / 16)) (hexDigit (n % 16)) = some n := by decide
  unfold escape
  split
  · next h => exact .inl ⟨_, rfl, by decide, by rw [h]; decide⟩
  split
  · next h => exact .inl ⟨_, rfl, by decide, by rw [h]; decide⟩
  split
  · next h => exact .inl ⟨_, rfl, by decide, by rw [h]; decide⟩
  split
  · next h => exact .inl ⟨_, rfl, by decide, by rw [h]; decide⟩
  split
  · next h => exact .inl ⟨_, rfl, by decide, by rw [h]; decide⟩
  split
  · next h => exact .inl ⟨_, rfl, by decide, by rw [h]; decide⟩
  split
  · next h => exact .inl ⟨_, rfl, by decide, by rw [h]; decide⟩
  split
  · next h => exact .inr (.inl ⟨_, _, rfl, hunit _ h, h⟩)
  · next hq hb _ _ _ _ _ hn => exact .inr (.inr ⟨rfl, hq, hb, hn⟩)

theorem readString_pair {d c : Char} (hd : d ≠ 'u') (h : unescape? d = some c) (t : Text) :
    readString ('\\' :: d :: t) = (readString t).map (consChar c) := by
  rw [readString.eq_def]
  simp only [Char.reduceEq, if_false, if_true]
  split
  · next he => exact absurd (List.cons.inj he).1 hd
  · next he =>
    obtain ⟨rfl, rfl⟩ := List.cons.inj he
    rw [h]
  · next he => cases he

theorem readString_unit {x y z w : Char} {n : Nat} (h : codeUnit? x y z w = some n)
    (hn : n < 0xD800) (t : Text) :
    readString ('\\' :: 'u' :: x :: y :: z :: w :: t) =
      (readString t).map (consChar (Char.ofNat n)) := by
  have hlow : isLowSurrogate n = false := by simp [isLowSurrogate]; omega
  have hhigh : isHighSurrogate n = false := by simp [isHighSurrogate]; omega
  rw [readString.eq_def]
  simp [h, hlow, hhigh]

theorem readString_plain {c : Char} (hq : c ≠ '"') (hb : c ≠ '\\') (hn : ¬ c.toNat < 0x20)
    (t : Text) : readString (c :: t) = (readString t).map (consChar c) := by
  rw [readString.eq_def]
  simp only [if_neg hq, if_neg hb, if_neg hn]

theorem readString_escape (c : Char) (t : Text) :
    readString (escape c ++ t) = (readString t).map (consChar c) := by
  obtain ⟨d, he, hd, hu⟩ | ⟨x, y, he, hu, hn⟩ | ⟨he, hq, hb, hn⟩ := escape_reads c
  · rw [he]
    exact readString_pair hd hu t
  · rw [he]
    have hunit := readString_unit hu (by omega) t
    rwa [Char.ofNat_toNat] at hunit
  · rw [he]
    exact readString_plain hq hb hn t

theorem readString_quoted (s t : Text) :
    readString (s.flatMap escape ++ '"' :: t) = some (s, t) := by
  induction s with
  | nil =>
    rw [List.flatMap_nil, List.nil_append, readString.eq_def]
    rfl
  | cons c r ih => rw [List.flatMap_cons, List.append_assoc, readString_escape, ih]; rfl

def EndsNumber (rest : Text) : Prop := ∀ c ∈ rest.head?, Token.continuesNumber c = false

theorem EndsNumber.digit {rest : Text} (h : EndsNumber rest) :
    ∀ c ∈ rest.head?, c.isDigit = false := by
  intro c hc
  have hn := h c hc
  rw [← Bool.not_eq_true] at hn ⊢
  intro hd
  exact hn (Token.continuesNumber_of_isDigit hd)

theorem EndsNumber.ne {rest : Text} (h : EndsNumber rest) :
    ∀ c ∈ rest.head?, c ≠ '.' ∧ c ≠ 'e' ∧ c ≠ 'E' := by
  intro c hc
  have hn := h c hc
  refine ⟨?_, ?_, ?_⟩ <;> rintro rfl <;> exact absurd hn (by decide +kernel)

theorem digitRun_append {ds rest : Text} (hd : ∀ c ∈ ds, c.isDigit = true)
    (hr : ∀ c ∈ rest.head?, c.isDigit = false) : digitRun (ds ++ rest) = (ds, rest) := by
  have ht : (ds ++ rest).takeWhile Char.isDigit = ds := by
    rw [Token.takeWhile_append_of_head ds hr, List.takeWhile_eq_self_iff.2 hd]
  have hs := List.takeWhile_append_dropWhile (p := Char.isDigit) (l := ds ++ rest)
  rw [ht, List.append_cancel_left_eq] at hs
  rw [digitRun, ht, hs]

theorem readWhole_again {t ws r : Text} (h : readWhole t = some (ws, r)) {rest : Text}
    (hr : ∀ c ∈ rest.head?, c.isDigit = false) : readWhole (ws ++ rest) = some (ws, rest) := by
  have hd := digitRun_append (digits_of_readWhole h).2 hr
  unfold readWhole at h ⊢
  rw [hd]
  split at h
  · cases h
  · cases h
    rfl
  · cases h
  · next hn hz hzz _ =>
    cases h
    split
    · next he => exact absurd (Prod.mk.inj he).1 hn
    · next he => exact absurd (Prod.mk.inj he).1 hz
    · next he => exact absurd (Prod.mk.inj he).1 (hzz _)
    · next he => cases he; rfl

theorem readFraction_again {fs rest : Text} (h : fs = [] ∨ ∃ es, Digits es ∧ fs = '.' :: es)
    (hr : ∀ c ∈ rest.head?, c.isDigit = false ∧ c ≠ '.') :
    readFraction (fs ++ rest) = some (fs, rest) := by
  obtain rfl | ⟨es, ⟨hn, hd⟩, rfl⟩ := h
  · rw [List.nil_append]
    unfold readFraction
    split
    · exact absurd rfl (hr _ rfl).2
    · rfl
  · have hrun := digitRun_append hd fun c hc => (hr c hc).1
    rw [List.cons_append, readFraction]
    simp only [hrun]

theorem readExponent_again {es rest : Text}
    (h : es = [] ∨ ∃ s ds, (s = '+' ∨ s = '-') ∧ Digits ds ∧ es = 'e' :: s :: ds)
    (hr : ∀ c ∈ rest.head?, c.isDigit = false ∧ c ≠ 'e' ∧ c ≠ 'E') :
    readExponent (es ++ rest) = some (es, rest) := by
  obtain rfl | ⟨s, ds, hs, ⟨hn, hd⟩, rfl⟩ := h
  · cases rest with
    | nil => rfl
    | cons c r =>
      obtain ⟨-, he, hE⟩ := hr c rfl
      rw [List.nil_append, readExponent, if_neg (by simp [he, hE])]
  · have hrun := digitRun_append hd fun c hc => (hr c hc).1
    have hsign : readExponentSign (s :: (ds ++ rest)) = (s, ds ++ rest) := by
      rcases hs with rfl | rfl <;> rfl
    rw [List.cons_append, List.cons_append, readExponent, if_pos (.inl rfl)]
    simp only [hsign, hrun]

theorem readNumber_again {digits : Text} (h : IsNumber digits) {rest : Text}
    (hr : EndsNumber rest) : readNumber (digits ++ rest) = some (digits, rest) := by
  obtain ⟨t, rest', h⟩ := h
  simp only [readNumber, Option.bind_eq_bind, Option.bind_eq_some_iff, Option.pure_def,
    Option.some.injEq, Prod.mk.injEq] at h
  obtain ⟨⟨whole, r₁⟩, hw, ⟨fraction, r₂⟩, hf, ⟨exponent, r₃⟩, he, rfl, -⟩ := h
  have hfraction := readFraction_cases hf
  have hexponent := readExponent_cases he
  have hdigits := digits_of_readWhole hw
  generalize hsign : (readSign t).1 = sign
  have hs : sign = [] ∨ sign = ['-'] := by
    rw [← hsign]
    unfold readSign
    split
    · exact .inr rfl
    · exact .inl rfl
  -- Each part ends where the next one begins.
  have htail : ∀ c ∈ (exponent ++ rest).head?, c.isDigit = false ∧ c ≠ '.' := by
    obtain rfl | ⟨s, ds, -, -, rfl⟩ := hexponent
    · exact fun c hc => ⟨hr.digit c hc, (hr.ne c hc).1⟩
    · rintro c ⟨⟩
      exact ⟨by decide, by decide⟩
  have hbody : ∀ c ∈ (fraction ++ (exponent ++ rest)).head?, c.isDigit = false := by
    obtain rfl | ⟨ds, -, rfl⟩ := hfraction
    · exact fun c hc => (htail c hc).1
    · rintro c ⟨⟩
      decide
  have hplain : readSign (sign ++ (whole ++ (fraction ++ (exponent ++ rest)))) =
      (sign, whole ++ (fraction ++ (exponent ++ rest))) := by
    rcases hs with rfl | rfl
    · obtain ⟨c, r, rfl⟩ := List.exists_cons_of_ne_nil hdigits.1
      have hc := hdigits.2 c List.mem_cons_self
      unfold readSign
      split
      · next he =>
        rw [(List.cons.inj he).1] at hc
        cases hc
      · rfl
    · rfl
  have hjoin : sign ++ whole ++ fraction ++ exponent ++ rest =
      sign ++ (whole ++ (fraction ++ (exponent ++ rest))) := by simp only [List.append_assoc]
  simp only [readNumber, hjoin, hplain, readWhole_again hw hbody,
    readFraction_again hfraction htail,
    readExponent_again hexponent fun c hc => ⟨hr.digit c hc, (hr.ne c hc).2⟩,
    Option.bind_eq_bind, Option.bind_some, Option.pure_def]

mutual

def depth : Value → Nat
  | array items => depthItems items + 1
  | object members => depthMembers members + 1
  | null => 0
  | bool _ => 0
  | number _ => 0
  | string _ => 0

def depthItems : List Value → Nat
  | [] => 0
  | v :: r => max v.depth (depthItems r)

def depthMembers : List (Text × Value) → Nat
  | [] => 0
  | (_, v) :: r => max v.depth (depthMembers r)

end

variable {fuel depth : Nat} {t rest : Text}

theorem skipGaps_blank (t : Text) : skipGaps (' ' :: t) = skipGaps t := rfl

theorem skipGaps_cons {c : Char} (h : isGap c = false) (t : Text) : skipGaps (c :: t) = c :: t := by
  rw [skipGaps, List.dropWhile_cons, h]
  rfl

theorem readValue_blank (fuel depth : Nat) (t : Text) :
    readValue fuel depth (' ' :: t) = readValue fuel depth t := by
  cases fuel with
  | zero => rfl
  | succ fuel => rw [readValue, readValue, skipGaps_blank]

theorem readItems_blank (fuel depth : Nat) (t : Text) :
    readItems fuel depth (' ' :: t) = readItems fuel depth t := by
  cases fuel with
  | zero => rfl
  | succ fuel => rw [readItems, readItems, readValue_blank]

theorem readMembers_blank (fuel depth : Nat) (t : Text) :
    readMembers fuel depth (' ' :: t) = readMembers fuel depth t := by
  cases fuel with
  | zero => rfl
  | succ fuel => rw [readMembers, readMembers, readName, readName, skipGaps_blank]

theorem readValue_string (fuel depth : Nat) (s t : Text) :
    readValue (fuel + 1) depth (quoted s ++ t) = some (string s, t) := by
  have hq : quoted s ++ t = '"' :: (s.flatMap escape ++ '"' :: t) := by simp [quoted]
  rw [hq, readValue, skipGaps_cons (by decide)]
  simp only [if_true, readString_quoted]
  rfl

theorem readValue_atom {c : Char} (hg : isGap c = false) (hc : c ≠ '"' ∧ c ≠ '[' ∧ c ≠ '\x7b')
    (t : Text) : readValue (fuel + 1) depth (c :: t) = readAtom (c :: t) := by
  rw [readValue, skipGaps_cons hg]
  simp only [if_neg hc.1, if_neg hc.2.1, if_neg hc.2.2]

theorem readValue_word {v : Value} (h : v = null ∨ ∃ b, v = bool b) (fuel depth : Nat)
    (t : Text) : readValue (fuel + 1) depth (v.render .javascript ++ t) = some (v, t) := by
  obtain rfl | ⟨b, rfl⟩ := h
  · exact readValue_atom (by decide) (by decide) _
  · cases b <;> exact readValue_atom (by decide) (by decide) _

theorem readValue_number {digits : Text} (h : IsNumber digits) (hr : EndsNumber t)
    (fuel depth : Nat) :
    readValue (fuel + 1) depth (digits ++ t) = some (number digits, t) := by
  have hread := readNumber_again h hr
  have hfirst : ∃ c r, digits = c :: r ∧ (c = '-' ∨ c.isDigit = true) := by
    obtain ⟨sign, whole, fraction, exponent, rfl, hs, hw, -, -⟩ := isNumber_cases h
    obtain ⟨d, w, rfl⟩ := List.exists_cons_of_ne_nil hw.1
    rcases hs with rfl | rfl
    · exact ⟨d, _, rfl, .inr (hw.2 d List.mem_cons_self)⟩
    · exact ⟨'-', _, rfl, .inl rfl⟩
  obtain ⟨c, r, rfl, hc⟩ := hfirst
  have hno : ∀ d ∈ [' ', '\t', '\n', '\r', '"', '[', '\x7b', 't', 'f', 'n'], c ≠ d := by
    rintro d hd rfl
    rcases hc with rfl | hc
    · exact absurd hd (by decide)
    · have hall : ([' ', '\t', '\n', '\r', '"', '[', '\x7b', 't', 'f', 'n'] : Text).all
          (fun d => !d.isDigit) = true := by decide
      have hn := List.all_eq_true.1 hall c hd
      rw [hc] at hn
      cases hn
  simp only [List.forall_mem_cons] at hno
  obtain ⟨h₁, h₂, h₃, h₄, h₅, h₆, h₇, ht, hf, hn, -⟩ := hno
  rw [List.cons_append, readValue_atom (by simp [isGap, h₁, h₂, h₃, h₄]) ⟨h₅, h₆, h₇⟩, readAtom]
  · rw [← List.cons_append, hread]
    rfl
  · exact fun _ he => ht (List.cons.inj he).1
  · exact fun _ he => hf (List.cons.inj he).1
  · exact fun _ he => hn (List.cons.inj he).1

theorem isBlank_of_isGap {c : Char} (h : isGap c = true) : Text.isBlank c = true := by
  simp only [isGap, Bool.or_eq_true, beq_iff_eq] at h
  obtain ((rfl | rfl) | rfl) | rfl := h <;> decide

theorem exists_head_render (l : Language) {v : Value} (h : v.Proper) :
    ∃ c r, v.render l = c :: r ∧ isGap c = false ∧ c ≠ ']' := by
  have hmates : ∀ {a b}, Token.Mates a b → isGap a = false ∧ a ≠ ']' := by
    intro a b hm
    cases hm <;> decide
  have hp : Prints (fun w => ∃ c r, w = c :: r ∧ isGap c = false ∧ c ≠ ']') fun _ => True := {
    bare := fun w hn hw => by
      obtain ⟨c, r, rfl⟩ := List.exists_cons_of_ne_nil hn
      have hb := (Token.beginsWord_of_isBare (hw c List.mem_cons_self) .javascript).blank
      have hm := Token.not_mem_marks_of_isBare (hw c List.mem_cons_self)
      refine ⟨c, r, rfl, ?_, fun he => hm (he ▸ by decide)⟩
      exact Bool.eq_false_iff.2 fun hg => Bool.eq_false_iff.1 hb (isBlank_of_isGap hg)
    quoted := fun s => ⟨'"', _, rfl, by decide, by decide⟩
    part := fun _ _ => trivial
    member := fun _ _ _ => trivial
    bracket := fun a b hm parts _ => ⟨a, _, rfl, hmates hm⟩ }
  exact hp.render l v h

theorem readValue_array (fuel depth : Nat) {s : Text}
    (h : ∃ c r, s = c :: r ∧ isGap c = false ∧ c ≠ ']') :
    readValue (fuel + 1) (depth + 1) ('[' :: s) =
      (readItems fuel depth s).map fun p => (array p.1, p.2) := by
  obtain ⟨c, r, rfl, hg, hc⟩ := h
  rw [readValue, skipGaps_cons (by decide)]
  simp only [Char.reduceEq, if_true, if_false, skipGaps_cons hg]
  split
  · next he => cases he
  · next he => exact absurd (List.cons.inj he).1 hc
  · next he _ =>
    obtain rfl := Nat.succ.inj he
    rfl

theorem readValue_object (fuel depth : Nat) (s : Text) :
    readValue (fuel + 1) (depth + 1) ('\x7b' :: '"' :: s) =
      (readMembers fuel depth ('"' :: s)).map fun p => (object p.1, p.2) := by
  rw [readValue, skipGaps_cons (by decide)]
  simp only [Char.reduceEq, if_true, if_false, skipGaps_cons (c := '"') (by decide)]
  rfl

theorem readItems_last {v : Value} (h : readValue fuel depth t = some (v, ']' :: rest)) :
    readItems (fuel + 1) depth t = some ([v], rest) := by
  rw [readItems, h]
  rfl

theorem readItems_comma {v : Value} (h : readValue fuel depth t = some (v, ',' :: ' ' :: rest)) :
    readItems (fuel + 1) depth t =
      (readItems fuel depth rest).map fun p => (v :: p.1, p.2) := by
  rw [← readItems_blank fuel depth rest, readItems, h]
  rfl

theorem readName_quoted (k t : Text) : readName (quoted k ++ (':' :: t)) = some (k, t) := by
  have hq : quoted k ++ (':' :: t) = '"' :: (k.flatMap escape ++ '"' :: ':' :: t) := by
    simp [quoted]
  rw [hq, readName, skipGaps_cons (by decide)]
  simp only [readString_quoted, skipGaps_cons (c := ':') (by decide)]

theorem readMembers_last {k : Text} {v : Value}
    (h : readValue fuel depth t = some (v, '\x7d' :: rest)) :
    readMembers (fuel + 1) depth (quoted k ++ (':' :: ' ' :: t)) = some ([(k, v)], rest) := by
  rw [readMembers, readName_quoted]
  simp only [readValue_blank, h]
  rfl

theorem readMembers_comma {k : Text} {v : Value}
    (h : readValue fuel depth t = some (v, ',' :: ' ' :: rest)) :
    readMembers (fuel + 1) depth (quoted k ++ (':' :: ' ' :: t)) =
      (readMembers fuel depth rest).map fun p => ((k, v) :: p.1, p.2) := by
  rw [← readMembers_blank fuel depth rest, readMembers, readName_quoted]
  simp only [readValue_blank, h]
  rfl

def printedItems (items : List Value) : Text :=
  Text.joinWith ", " (printItems (.literal .javascript) items)

def printedMembers (members : List (Text × Value)) : Text :=
  Text.joinWith ", " (printMembers (.literal .javascript) members)

theorem printedItems_singleton (v : Value) : printedItems [v] = v.render .javascript := by
  rw [printedItems, printItems, printItems, Text.joinWith, List.intercalate_singleton, render]

theorem printedItems_cons_cons (v w : Value) (r : List Value) :
    printedItems (v :: w :: r) = v.render .javascript ++ (',' :: ' ' :: printedItems (w :: r)) :=
  Token.joinWith_cons_cons ..

theorem printedMembers_singleton (k : Text) (v : Value) :
    printedMembers [(k, v)] = quoted k ++ (':' :: ' ' :: v.render .javascript) := by
  simp [printedMembers, printMembers, Text.joinWith, render, Style.literal]

theorem printedMembers_cons_cons (k : Text) (v : Value) (m : Text × Value)
    (r : List (Text × Value)) :
    printedMembers ((k, v) :: m :: r) = quoted k ++
      (':' :: ' ' :: (v.render .javascript ++ (',' :: ' ' :: printedMembers (m :: r)))) := by
  have hm := Token.joinWith_cons_cons (quoted k ++ (':' :: ' ' :: v.render .javascript))
    (quoted m.1 ++ (':' :: ' ' :: m.2.render .javascript)) (printMembers (.literal .javascript) r)
  simpa [printedMembers, printMembers, render, Style.literal] using hm

def ReadsBack (v : Value) : Prop :=
  ∀ fuel depth rest, v.depth ≤ depth → 2 * (v.render .javascript).length ≤ fuel → Breaks rest →
    readValue fuel depth (v.render .javascript ++ rest) = some (v, rest)

def ReadsBackItems (items : List Value) : Prop :=
  ∀ fuel depth rest, depthItems items ≤ depth → 2 * (printedItems items).length + 1 ≤ fuel →
    readItems fuel depth (printedItems items ++ ']' :: rest) = some (items, rest)

def ReadsBackMembers (members : List (Text × Value)) : Prop :=
  ∀ fuel depth rest, depthMembers members ≤ depth →
    2 * (printedMembers members).length + 1 ≤ fuel →
    readMembers fuel depth (printedMembers members ++ '\x7d' :: rest) = some (members, rest)

theorem readsBack_of_succ {v : Value} (hn : v.render .javascript ≠ [])
    (h : ∀ fuel depth rest, v.depth ≤ depth → 2 * (v.render .javascript).length ≤ fuel + 1 →
      Breaks rest → readValue (fuel + 1) depth (v.render .javascript ++ rest) = some (v, rest)) :
    ReadsBack v := by
  intro fuel depth rest hd hf hr
  have hpos := List.length_pos_iff.2 hn
  obtain ⟨n, rfl⟩ : ∃ n, fuel = n + 1 := Nat.exists_eq_succ_of_ne_zero (by omega)
  exact h n depth rest hd hf hr

theorem readsBack_number {digits : Text} (h : IsNumber digits) : ReadsBack (number digits) :=
  readsBack_of_succ (bare_of_isNumber h).1 fun fuel depth _ _ _ hr =>
    readValue_number h (fun c hc => (hr.head .javascript c hc).2.2) fuel depth

theorem readsBack_array {items : List Value} (h : items ≠ [] → ReadsBackItems items)
    (hp : ProperItems items) : ReadsBack (array items) := by
  refine readsBack_of_succ (List.cons_ne_nil _ _) fun fuel depth rest hd hf _ => ?_
  obtain ⟨d, rfl⟩ : ∃ d, depth = d + 1 := Nat.exists_eq_succ_of_ne_zero (by
    rintro rfl
    exact absurd hd (Nat.not_succ_le_zero _))
  have hw : (array items).render .javascript ++ rest =
      '[' :: (printedItems items ++ ']' :: rest) := by
    simp [render, print, printedItems, Style.literal]
  have hlen : ((array items).render .javascript).length = (printedItems items).length + 2 := by
    simp [render, print, printedItems, Style.literal]
  rw [hw]
  cases items with
  | nil => rfl
  | cons v r =>
    obtain ⟨c, u, hc, hg, hno⟩ := exists_head_render .javascript hp.1
    have hhead : ∃ c u, printedItems (v :: r) ++ ']' :: rest = c :: u ∧
        isGap c = false ∧ c ≠ ']' := by
      cases r with
      | nil => exact ⟨c, _, by rw [printedItems_singleton, hc]; rfl, hg, hno⟩
      | cons w r => exact ⟨c, _, by rw [printedItems_cons_cons, hc]; rfl, hg, hno⟩
    rw [readValue_array fuel d hhead,
      h (List.cons_ne_nil v r) fuel d rest (Nat.le_of_succ_le_succ hd) (by omega)]
    rfl

theorem readsBack_object {members : List (Text × Value)}
    (h : members ≠ [] → ReadsBackMembers members) : ReadsBack (object members) := by
  refine readsBack_of_succ (List.cons_ne_nil _ _) fun fuel depth rest hd hf _ => ?_
  obtain ⟨d, rfl⟩ : ∃ d, depth = d + 1 := Nat.exists_eq_succ_of_ne_zero (by
    rintro rfl
    exact absurd hd (Nat.not_succ_le_zero _))
  have hw : (object members).render .javascript ++ rest =
      '\x7b' :: (printedMembers members ++ '\x7d' :: rest) := by
    simp [render, print, printedMembers, Style.literal]
  have hlen : ((object members).render .javascript).length =
      (printedMembers members).length + 2 := by
    simp [render, print, printedMembers, Style.literal]
  rw [hw]
  cases members with
  | nil => rfl
  | cons m r =>
    have hhead : ∃ u, printedMembers (m :: r) = '"' :: u := by
      cases r with
      | nil => exact ⟨_, printedMembers_singleton m.1 m.2⟩
      | cons n r => exact ⟨_, printedMembers_cons_cons m.1 m.2 n r⟩
    have hread := h (List.cons_ne_nil m r) fuel d rest (Nat.le_of_succ_le_succ hd) (by omega)
    obtain ⟨u, hu⟩ := hhead
    rw [hu, List.cons_append] at hread ⊢
    rw [readValue_object, hread]
    rfl

theorem readsBackItems_cons {v : Value} {r : List Value} (hv : ReadsBack v)
    (hr : r ≠ [] → ReadsBackItems r) : ReadsBackItems (v :: r) := by
  intro fuel depth rest hd hf
  obtain ⟨n, rfl⟩ : ∃ n, fuel = n + 1 := Nat.exists_eq_succ_of_ne_zero (by omega)
  rw [depthItems, Nat.max_le] at hd
  cases r with
  | nil =>
    rw [printedItems_singleton] at hf ⊢
    exact readItems_last (hv n depth _ hd.1 (by omega) (Token.breaks_mark (by decide) rest))
  | cons w r =>
    rw [printedItems_cons_cons] at hf ⊢
    simp only [List.length_append, List.length_cons] at hf
    rw [List.append_assoc, List.cons_append, List.cons_append,
      readItems_comma (hv n depth _ hd.1 (by omega) (Token.breaks_mark (by decide) _)),
      hr (List.cons_ne_nil w r) n depth rest hd.2 (by omega)]
    rfl

theorem readsBackMembers_cons {k : Text} {v : Value} {r : List (Text × Value)} (hv : ReadsBack v)
    (hr : r ≠ [] → ReadsBackMembers r) : ReadsBackMembers ((k, v) :: r) := by
  intro fuel depth rest hd hf
  obtain ⟨n, rfl⟩ : ∃ n, fuel = n + 1 := Nat.exists_eq_succ_of_ne_zero (by omega)
  rw [depthMembers, Nat.max_le] at hd
  cases r with
  | nil =>
    rw [printedMembers_singleton] at hf ⊢
    simp only [List.length_append, List.length_cons] at hf
    rw [List.append_assoc]
    exact readMembers_last (hv n depth _ hd.1 (by omega) (Token.breaks_mark (by decide) rest))
  | cons m r =>
    rw [printedMembers_cons_cons] at hf ⊢
    simp only [List.length_append, List.length_cons] at hf
    rw [List.append_assoc, List.cons_append, List.cons_append, List.append_assoc,
      List.cons_append, List.cons_append,
      readMembers_comma (hv n depth _ hd.1 (by omega) (Token.breaks_mark (by decide) _)),
      hr (List.cons_ne_nil m r) n depth rest hd.2 (by omega)]
    rfl

mutual

theorem readsBack : (v : Value) → v.Proper → ReadsBack v
  | null, _ => readsBack_of_succ (by decide) fun fuel depth rest _ _ _ =>
    readValue_word (.inl rfl) fuel depth rest
  | bool b, _ => readsBack_of_succ (by cases b <;> decide) fun fuel depth rest _ _ _ =>
    readValue_word (.inr ⟨b, rfl⟩) fuel depth rest
  | number _, h => readsBack_number h
  | string s, _ => readsBack_of_succ (List.cons_ne_nil _ _) fun fuel depth rest _ _ _ =>
    readValue_string fuel depth s rest
  | array items, h => readsBack_array (readsBackItems items h) h
  | object members, h => readsBack_object (readsBackMembers members h)

theorem readsBackItems : (items : List Value) → ProperItems items → items ≠ [] →
    ReadsBackItems items
  | [], _, hn => absurd rfl hn
  | v :: r, h, _ => readsBackItems_cons (readsBack v h.1) (readsBackItems r h.2)

theorem readsBackMembers : (members : List (Text × Value)) → ProperMembers members →
    members ≠ [] → ReadsBackMembers members
  | [], _, hn => absurd rfl hn
  | (_, v) :: r, h, _ => readsBackMembers_cons (readsBack v h.1) (readsBackMembers r h.2)

end

theorem readDocument_render {v : Value} (h : v.Proper) (hd : v.depth ≤ maxDepth) :
    readDocument? (v.render .javascript) = some v := by
  have hread := readsBack v h (fuelFor (v.render .javascript)) maxDepth [] hd
    (by rw [fuelFor]; omega) Token.breaks_nil
  rw [List.append_nil] at hread
  rw [readDocument?, hread]
  rfl

end Polyglot.Value
