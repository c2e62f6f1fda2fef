import Polyglot.Proofs.Value.Ending
import Polyglot.Proofs.Value.Settling
import Polyglot.Unit.Generator

/-!
# Printed values across languages

The words of a text are exchanged token by token, so two texts side by side are translated
one after the other unless they fuse. Strings, numbers and marks have nothing to exchange:
what is printed for one language turns into what is printed for the other.
-/
namespace Polyglot

namespace Language
open Token (tokenize scan moved Scans Breaks Mates marks)
open Text (size slice)

variable {source target : Language}

def exchanged (source target : Language) (text : Text) : Text :=
  exchangeFrom source target text 0 (tokenize source text)

theorem translate_of_ne (h : source ≠ target) (text : Text) :
    translate source target text = exchanged source target text :=
  if_neg h

theorem exchangeFrom_kept {ts : List Token} (h : ∀ t ∈ ts, exchange? source target t = none)
    (text : Text) (cursor : Nat) (us : List Token) :
    exchangeFrom source target text cursor (ts ++ us) =
      exchangeFrom source target text cursor us := by
  induction ts with
  | nil => rfl
  | cons t r ih =>
    obtain ⟨ht, hr⟩ := List.forall_mem_cons.1 h
    rw [List.cons_append, exchangeFrom, ht]
    exact ih hr

theorem exchangeFrom_copied (w rest : Text) {us : List Token} (h : ∀ t ∈ us, size w ≤ t.start) :
    exchangeFrom source target (w ++ rest) 0 us =
      w ++ exchangeFrom source target (w ++ rest) (size w) us := by
  induction us with
  | nil => rw [exchangeFrom, exchangeFrom, Text.dropBytes_size, Text.dropBytes]
  | cons t r ih =>
    obtain ⟨ht, hr⟩ := List.forall_mem_cons.1 h
    rw [exchangeFrom, exchangeFrom]
    split
    · rw [Text.slice_append_start w rest ht]
      simp only [List.append_assoc]
    · exact ih hr

theorem exchange?_moved (d : Nat) (t : Token) :
    exchange? source target (moved d t) = exchange? source target t := rfl

theorem exchangeFrom_moved (source target : Language) (w rest : Text) (cursor : Nat)
    (us : List Token) :
    exchangeFrom source target (w ++ rest) (size w + cursor) (us.map (moved (size w))) =
      exchangeFrom source target rest cursor us := by
  induction us generalizing cursor with
  | nil => exact Text.dropBytes_add w rest cursor
  | cons t r ih =>
    rw [List.map_cons, exchangeFrom, exchangeFrom, exchange?_moved, Token.stop_moved,
      Token.slice_moved, ih, ih]

theorem exchanged_kept {w rest : Text} (ts : List Token)
    (h : tokenize source (w ++ rest) = ts ++ scan source 0 (size w) rest)
    (hts : ∀ t ∈ ts, exchange? source target t = none) :
    exchanged source target (w ++ rest) = w ++ exchanged source target rest := by
  have hmoved := exchangeFrom_moved source target w rest 0 (tokenize source rest)
  have hstart : ∀ t ∈ (tokenize source rest).map (moved (size w)), size w ≤ t.start :=
    List.forall_mem_map.2 fun t _ => Nat.le_add_left _ _
  rw [exchanged, h, exchangeFrom_kept hts, Token.scan_eq_moved, exchangeFrom_copied w rest hstart]
  rw [Nat.add_zero] at hmoved
  rw [hmoved]
  rfl

theorem exchanged_word {w w' rest : Text}
    (h : tokenize source (w ++ rest) = ⟨.ident, w, 0⟩ :: scan source 0 (size w) rest)
    (hw : counterpart? source target w = some w') :
    exchanged source target (w ++ rest) = w' ++ exchanged source target rest := by
  have hx : exchange? source target ⟨.ident, w, 0⟩ = some w' := hw
  have hmoved := exchangeFrom_moved source target w rest 0 (tokenize source rest)
  have hstop : Token.stop ⟨.ident, w, 0⟩ = size w + 0 := by rw [Token.stop, Nat.add_comm]
  have hempty : slice (w ++ rest) 0 0 = [] := by rw [slice, Nat.sub_zero, Text.takeBytes]
  rw [exchanged, h, Token.scan_eq_moved, exchangeFrom, hx]
  dsimp only
  rw [hstop, hmoved, hempty, List.nil_append, exchanged]

def Turns (source target : Language) (w w' : Text) : Prop :=
  ∀ rest, Breaks rest →
    exchanged source target (w ++ rest) = w' ++ exchanged source target rest

theorem turns_of_scans {w : Text}
    (h : Scans source w fun _ ts => ∀ t ∈ ts, exchange? source target t = none) :
    Turns source target w w := by
  intro rest hr
  obtain ⟨ts, hs, hts⟩ := h 0 rest hr
  rw [Nat.zero_add] at hs
  exact exchanged_kept ts hs hts

theorem exchanged_mark {c : Char} (h : c = ' ' ∨ c ∈ marks) (rest : Text) :
    exchanged source target (c :: rest) = c :: exchanged source target rest := by
  have hsize : size [c] = 0 + c.utf8Size := by rw [size, size, Nat.add_comm]
  rcases h with rfl | hm
  · refine exchanged_kept (w := [' ']) [] ?_ fun _ ht => absurd ht List.not_mem_nil
    rw [hsize]
    exact Token.scan_blank rest 0 (by decide)
  · refine exchanged_kept (w := [c]) [⟨.punct c, [c], 0⟩] ?_ (List.forall_mem_singleton.2 rfl)
    rw [hsize]
    exact Token.scan_mark hm rest 0

theorem Turns.append {u u' v v' : Text} {c : Char} (hc : c = ',' ∨ c = ':')
    (hu : Turns source target u u') (hv : Turns source target v v') :
    Turns source target (u ++ (c :: ' ' :: v)) (u' ++ (c :: ' ' :: v')) := by
  have hm : c ∈ marks := by rcases hc with rfl | rfl <;> decide
  intro rest hr
  rw [List.append_assoc, List.cons_append, List.cons_append, hu _ (Token.breaks_mark hm _),
    exchanged_mark (.inr hm), exchanged_mark (.inl rfl), hv rest hr]
  simp

theorem Turns.join {ws ws' : List Text} (h : List.Forall₂ (Turns source target) ws ws') :
    Turns source target (Text.joinWith ", " ws) (Text.joinWith ", " ws') := by
  induction h with
  | nil => exact fun rest _ => rfl
  | @cons u u' r r' hu hr ih =>
    cases hr with
    | nil => simpa [Text.joinWith] using hu
    | cons hv hr =>
      rw [Token.joinWith_cons_cons, Token.joinWith_cons_cons]
      exact hu.append (.inl rfl) ih

theorem Turns.bracket {a b : Char} (hm : Mates a b) {w w' : Text} (h : Turns source target w w') :
    Turns source target (a :: w ++ [b]) (a :: w' ++ [b]) := by
  obtain ⟨ha, hb⟩ := Token.marks_of_mates hm
  intro rest _
  have hw : a :: w ++ [b] ++ rest = a :: (w ++ b :: rest) := by simp
  rw [hw, exchanged_mark (.inr ha), h _ (Token.breaks_mark hb rest), exchanged_mark (.inr hb)]
  simp

end Language

namespace Token
open Text (size)

theorem Runs.scans {w : Text} (h : Runs w) (l : Language) :
    Scans l w fun _ ts => ∀ t ∈ ts, t.isIdent = false := by
  induction h with
  | @run c r hc hr =>
    intro pos rest hrest
    obtain ⟨-, hs⟩ := scan_run (l := l) hc hr (fun d hd => (hrest.head l d hd).2.2) pos
    exact ⟨[_], hs, List.forall_mem_singleton.2 rfl⟩
  | @sign s w hs _ ih =>
    intro pos rest hrest
    obtain ⟨ts, hscan, hts⟩ := ih (pos + s.utf8Size) rest hrest
    refine ⟨⟨.punct s, [s], pos⟩ :: ts, ?_, List.forall_mem_cons.2 ⟨rfl, hts⟩⟩
    rw [List.cons_append, scan_sign hs, hscan, size, ← Nat.add_assoc]
    rfl
  | @power c s r w hc hr hs _ ih =>
    intro pos rest hrest
    have hstop : ∀ d ∈ (s :: (w ++ rest)).head?, continuesNumber d = false := by
      rintro d ⟨⟩
      rcases hs with rfl | rfl <;> decide +kernel
    obtain ⟨-, hrun⟩ := scan_run (l := l) hc hr hstop pos
    obtain ⟨ts, hscan, hts⟩ := ih (pos + size (c :: r) + s.utf8Size) rest hrest
    have hsize : pos + size (c :: r ++ s :: w) = pos + size (c :: r) + s.utf8Size + size w := by
      rw [Text.size_append, size.eq_2 s w]
      omega
    refine ⟨⟨.number, c :: r, pos⟩ :: ⟨.punct s, [s], pos + size (c :: r)⟩ :: ts, ?_,
      List.forall_mem_cons.2 ⟨rfl, List.forall_mem_cons.2 ⟨rfl, hts⟩⟩⟩
    have hjoin : c :: r ++ s :: w ++ rest = c :: r ++ s :: (w ++ rest) := List.append_assoc ..
    rw [hjoin, hrun, scan_sign hs, hscan, hsize]
    rfl

end Token

namespace Language
open Token (tokenize scan Scans)
open Text (size)

variable {source target : Language}

theorem turns_number {digits : Text} (h : Value.IsNumber digits) :
    Turns source target digits digits :=
  turns_of_scans <| ((Value.runs_of_isNumber h).scans source).imp fun _ ts hts t ht => by
    rw [exchange?, hts t ht, if_neg Bool.false_ne_true]

theorem turns_quoted (s : Text) : Turns source target (Value.quoted s) (Value.quoted s) :=
  turns_of_scans fun pos rest _ =>
    ⟨[⟨.str, Value.quoted s, pos⟩], Value.scan_quoted source s rest pos,
      List.forall_mem_singleton.2 rfl⟩

theorem turns_word {w w' : Text} (hw : w ∈ [source.trueWord, source.falseWord, source.nullWord])
    (hc : counterpart? source target w = some w') : Turns source target w w' := by
  intro rest hrest
  refine exchanged_word ?_ hc
  obtain ⟨c, r, rfl, ⟨hs, -⟩, hr, hm⟩ := Value.named_of_word source hw
  have hx := Token.lexeme_name hs hr hm fun d hd => (hrest.head source d hd).2.1
  rw [tokenize, List.cons_append, Token.scan_lexeme (Token.beginsWord_of_startsName hs).blank hx,
    Nat.zero_add]

theorem counterpart_words (source target : Language) :
    counterpart? source target source.trueWord = some target.trueWord ∧
      counterpart? source target source.falseWord = some target.falseWord ∧
      counterpart? source target source.nullWord = some target.nullWord := by
  cases source <;> cases target <;> decide

end Language

namespace Value
open Polyglot.Language (Turns)

section
variable (source target : Language)

mutual

theorem turns_render : (v : Value) → v.Proper →
    Turns source target (v.render source) (v.render target)
  | null, _ =>
    Language.turns_word (by simp [render, print, Style.literal])
      (Language.counterpart_words source target).2.2
  | bool true, _ =>
    Language.turns_word (by simp [render, print, Style.literal])
      (Language.counterpart_words source target).1
  | bool false, _ =>
    Language.turns_word (by simp [render, print, Style.literal])
      (Language.counterpart_words source target).2.1
  | number _, h => Language.turns_number h
  | string s, _ => Language.turns_quoted s
  | array items, h => (Turns.join (turns_items items h)).bracket .square
  | object members, h => (Turns.join (turns_members members h)).bracket .curly

theorem turns_items : (items : List Value) → ProperItems items →
    List.Forall₂ (Turns source target) (printItems (.literal source) items)
      (printItems (.literal target) items)
  | [], _ => .nil
  | v :: r, h => .cons (turns_render v h.1) (turns_items r h.2)

theorem turns_members : (members : List (Text × Value)) → ProperMembers members →
    List.Forall₂ (Turns source target) (printMembers (.literal source) members)
      (printMembers (.literal target) members)
  | [], _ => .nil
  | (k, v) :: r, h => by
    have hm : ∀ l, quoted k ++ (Style.literal l).colon ++ v.print (.literal l) =
        quoted k ++ (':' :: ' ' :: v.render l) := fun l => List.append_assoc ..
    rw [printMembers, printMembers, hm, hm]
    exact .cons ((Language.turns_quoted k).append (.inr rfl) (turns_render v h.1))
      (turns_members r h.2)

end

end

theorem translate_render {v : Value} (h : v.Proper) (source target : Language) :
    Language.translate source target (v.render source) = v.render target := by
  by_cases he : source = target
  · rw [he, Language.translate, if_pos rfl]
  · have ht := turns_render source target v h [] Token.breaks_nil
    rw [List.append_nil] at ht
    rw [Language.translate_of_ne he, ht]
    exact List.append_nil _

end Value

namespace Globals

/-- A value from a result file is printed without loss: read as it stands, the text printed
for the language whose words are those of JSON is the value, and each language's text is
translated to the other's. What the text stands for is the value, unless the members of an
object in it have come to open with the reserved name: then the text stands for nothing. -/
theorem rendering_reads_back {t : Text} {g : Globals} (h : read? t = some g) {n : Text}
    {v : Value} (hv : g.value? n = some v) :
    Value.readDocument? (v.render .javascript) = some v ∧
      Value.parse? (v.render .javascript) = (if v.unmarked = true then some v else none) ∧
      ∀ source target, Language.translate source target (v.render source) = v.render target := by
  have hp : v.Proper := proper_iff.1 (proper_of_read h) n v hv
  obtain ⟨hs, hd⟩ := settled_of_read h hv
  have hread := Value.readDocument_render hp (Nat.le_of_lt hd)
  refine ⟨hread, ?_, Value.translate_render hp⟩
  rw [Value.parse?, hread, Option.bind_some, Value.settle_of_settled hs]

def mixedResult : Text :=
  "\x7b\"x\": \x7b\"None\\\"\": [true, \"true // # \\\\\", null], \"$a\": -1.50E3, \"\\u0001\": \x7b\x7d\x7d\x7d"

def mixedText : Text :=
  "\x7b\"\\u0001\": \x7b\x7d, \"$a\": -1.50e+3, \"None\\\"\": [True, \"true // # \\\\\", None]\x7d"

theorem rendering_reads_back_mixed : ∃ g v, read? mixedResult = some g ∧
    g.value? "x" = some v ∧ v.render .python = mixedText ∧
    Value.parse? (v.render .javascript) = some v ∧
    Language.translate .python .javascript mixedText = v.render .javascript ∧
    Language.translate .javascript .python (v.render .javascript) = mixedText := by
  have hx : ((read? mixedResult).bind (·.value? "x")).map (fun v =>
      (v.render .python, v.unmarked)) = some (mixedText, true) := by
    decide +kernel
  obtain ⟨v, hv, he⟩ := Option.map_eq_some_iff.1 hx
  obtain ⟨g, hg, hv⟩ := Option.bind_eq_some_iff.1 hv
  obtain ⟨hprint, hu⟩ := Prod.mk.inj he
  obtain ⟨-, hparse, htranslate⟩ := rendering_reads_back hg hv
  rw [if_pos hu] at hparse
  rw [← hprint]
  exact ⟨g, v, hg, hv, rfl, hparse, htranslate _ _, htranslate _ _⟩

def crossedResult : Text :=
  "\x7b\"x\": \x7b\"b\": 1, \"$serde_json::private::Number\": \"5\"\x7d\x7d"

def crossedText : Text := "\x7b\"$serde_json::private::Number\": \"5\", \"b\": 1\x7d"

theorem rendering_refused : ∃ g v, read? crossedResult = some g ∧ g.value? "x" = some v ∧
    v.render .javascript = crossedText ∧ Value.parse? (v.render .javascript) = none := by
  have hx : ((read? crossedResult).bind (·.value? "x")).map (fun v =>
      (v.render .javascript, (Value.parse? (v.render .javascript)).isNone)) =
      some (crossedText, true) := by
    decide +kernel
  obtain ⟨v, hv, he⟩ := Option.map_eq_some_iff.1 hx
  obtain ⟨g, hg, hv⟩ := Option.bind_eq_some_iff.1 hv
  obtain ⟨hprint, hn⟩ := Prod.mk.inj he
  exact ⟨g, v, hg, hv, hprint, Option.isNone_iff_eq_none.1 hn⟩

end Globals

end Polyglot
