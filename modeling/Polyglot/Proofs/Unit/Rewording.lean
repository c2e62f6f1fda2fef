import Mathlib.Data.List.Forall2
import Polyglot.Proofs.Value.Translating

/-!
# Texts with words exchanged

From left to right a text is blanks and tokens. Exchanging its words leaves the blanks, puts a
name for a name and copies all other tokens. A token that ends before a word ends before the
other language's word as well, and a name ends where it did whatever name it is; so the new text
falls into tokens where the old one does, and there is no word left in it to exchange.
-/
namespace Polyglot

namespace Token
open Text (size slice)

variable {l : Language}

theorem tokenize_blank {c : Char} (hb : Text.isBlank c = true) (r : Text) :
    tokenize l (c :: r) = scan l 0 (size [c]) r := by
  rw [tokenize, scan_blank r 0 hb, size, size, Nat.zero_add, Nat.add_zero]

theorem tokenize_lexeme {c : Char} {u r : Text} {kind : Kind} (hb : Text.isBlank c = false)
    (hx : lexeme l c (u ++ r) = (kind, u.length)) :
    tokenize l (c :: (u ++ r)) = ⟨kind, c :: u, 0⟩ :: scan l 0 (size (c :: u)) r := by
  rw [tokenize, scan_lexeme hb hx, Nat.zero_add]

theorem shapes_blank {c : Char} (hb : Text.isBlank c = true) (r : Text) :
    shapes l (c :: r) = shapes l r := by
  rw [shapes, tokenize_blank hb, map_shape_scan]
  rfl

theorem shapes_lexeme {c : Char} {u r : Text} {kind : Kind} (hb : Text.isBlank c = false)
    (hx : lexeme l c (u ++ r) = (kind, u.length)) :
    shapes l (c :: (u ++ r)) = (kind, c :: u) :: shapes l r := by
  rw [shapes, tokenize_lexeme hb hx, List.map_cons, map_shape_scan]
  rfl

theorem exists_lexeme (l : Language) (c : Char) (s : Text) :
    ∃ kind u r, s = u ++ r ∧ lexeme l c (u ++ r) = (kind, u.length) := by
  refine ⟨(lexeme l c s).1, s.take (lexeme l c s).2, s.drop (lexeme l c s).2,
    (List.take_append_drop _ _).symm, ?_⟩
  rw [List.take_append_drop, List.length_take, Nat.min_eq_left (lexeme_le l c s)]

theorem lexeme_same_head {c d : Char} {u s : Text} {kind : Kind}
    (h : lexeme l c (u ++ d :: s) = (kind, u.length)) (s' : Text) :
    lexeme l c (u ++ d :: s') = (kind, u.length) := by
  have hsplit : ∀ s, u ++ d :: s = u ++ [d] ++ s := fun s => by simp
  have hlen : (u ++ [d]).length = u.length + 1 := List.length_append
  rw [hsplit] at h
  have hcut : lexeme l c (u ++ [d]) = (kind, u.length) := by
    rw [lexeme_append (by rw [h, hlen]; exact Nat.le_succ _), h]
  rw [hsplit, lexeme_stable (by rw [hcut, hlen]; exact Nat.lt_succ_self _), hcut]

/-- The pieces of the line from the byte `cursor` on before, between and behind the tokens. -/
def gapsFrom (line : Text) : (cursor : Nat) → List Token → List Text
  | cursor, [] => [Text.dropBytes cursor line]
  | cursor, t :: r => slice line cursor t.start :: gapsFrom line t.stop r

def gaps (l : Language) (line : Text) : List Text := gapsFrom line 0 (tokenize l line)

theorem gapsFrom_moved (w rest : Text) (cursor : Nat) (us : List Token) :
    gapsFrom (w ++ rest) (size w + cursor) (us.map (moved (size w))) =
      gapsFrom rest cursor us := by
  induction us generalizing cursor with
  | nil => rw [List.map_nil, gapsFrom, gapsFrom, Text.dropBytes_add]
  | cons t r ih =>
    rw [List.map_cons, gapsFrom, gapsFrom, slice_moved, stop_moved, ih]

theorem gaps_blank {c : Char} (hb : Text.isBlank c = true) (r : Text) :
    gaps l (c :: r) = (gaps l r).modifyHead (c :: ·) := by
  rw [gaps, tokenize_blank hb, scan_eq_moved, gaps]
  cases tokenize l r with
  | nil =>
    rw [List.map_nil, gapsFrom, gapsFrom, Text.dropBytes, Text.dropBytes, List.modifyHead_cons]
  | cons t us =>
    have hle : size [c] ≤ (moved (size [c]) t).start := Nat.le_add_left _ _
    have hslice : slice (c :: r) 0 (moved (size [c]) t).start = c :: slice r 0 t.start :=
      (Text.slice_append_start [c] r hle).trans (congrArg (c :: ·) (slice_moved [c] r 0 t))
    have hrest := gapsFrom_moved [c] r t.stop us
    rw [List.singleton_append] at hrest
    rw [List.map_cons, gapsFrom, gapsFrom, hslice, stop_moved, hrest, List.modifyHead_cons]

theorem gaps_lexeme {c : Char} {u r : Text} {kind : Kind} (hb : Text.isBlank c = false)
    (hx : lexeme l c (u ++ r) = (kind, u.length)) :
    gaps l (c :: (u ++ r)) = [] :: gaps l r := by
  have hmoved := gapsFrom_moved (c :: u) r 0 (tokenize l r)
  have hstop : stop ⟨kind, c :: u, 0⟩ = size (c :: u) + 0 := Nat.zero_add _
  rw [gaps, tokenize_lexeme hb hx, scan_eq_moved, gapsFrom, hstop, ← List.cons_append, hmoved,
    slice, Nat.sub_self, Text.takeBytes, gaps]

inductive SameLead (l : Language) : Text → Text → Prop
  | nil : SameLead l [] []
  | same (d : Char) (s s' : Text) : SameLead l (d :: s) (d :: s')
  | letter {d d' : Char} (hd : Letter l d) (hd' : Letter l d') (s s' : Text) :
    SameLead l (d :: s) (d' :: s')

theorem lexeme_sameLead {c : Char} {u r r' : Text} {kind : Kind}
    (h : lexeme l c (u ++ r) = (kind, u.length)) (ha : SameLead l r r') :
    lexeme l c (u ++ r') = (kind, u.length) := by
  cases ha with
  | nil => exact h
  | same d s s' => exact lexeme_same_head h s'
  | @letter d d' hd hd' s s' =>
    have hx : lexeme l c u = (kind, u.length) := by
      rw [lexeme_append (by rw [h]), h]
    have hno : ¬ u.length < (lexeme l c (u ++ d :: s)).2 := by
      rw [h]
      exact Nat.lt_irrefl _
    have hgrows := grows_cons_iff hx hd.1 hno (beginsWord_of_startsName hd'.1).comment s'
    -- No number ends before a letter.
    have hle : (lexeme l c (u ++ d' :: s')).2 ≤ u.length := by
      refine Nat.le_of_not_lt fun hlt => hno ?_
      obtain ⟨rfl, -⟩ := hgrows.1 hlt
      exact (grows_number hx _).2 ⟨d, rfl, hd.2⟩
    rw [← lexeme_append hle, hx]

theorem lexeme_renamed {c c' : Char} {u u' r r' : Text}
    (h : lexeme l c (u ++ r) = (.ident, u.length)) (hn : Named l (c' :: u'))
    (ha : SameLead l r r') :
    lexeme l c' (u' ++ r') = (.ident, u'.length) := by
  obtain ⟨d, v, hw, hd, hv, hm⟩ := hn
  obtain ⟨rfl, rfl⟩ := List.cons.inj hw
  refine lexeme_sameLead (lexeme_name hd.1 hv hm fun e he => ?_) ha
  have hx : lexeme l c u = (.ident, u.length) := by
    rw [lexeme_append (by rw [h]), h]
  refine Bool.eq_false_iff.2 fun hc => ?_
  have hlt := grows_ident hx he hc
  rw [h] at hlt
  exact Nat.lt_irrefl _ hlt

end Token

namespace Language
open Token (tokenize lexeme shape shapes gaps Kind SameLead Named)
open Text (size)

variable {source target : Language}

/-- A word of the one language, and what it is in the other. -/
inductive Renders (source target : Language) : Text → Text → Prop
  | trueWord : Renders source target source.trueWord target.trueWord
  | falseWord : Renders source target source.falseWord target.falseWord
  | nullWord : Renders source target source.nullWord target.nullWord
  | undefinedWord (h : source = .javascript) :
    Renders source target undefinedWord target.nullWord

theorem counterpart?_eq_some_iff {w w' : Text} :
    counterpart? source target w = some w' ↔ Renders source target w w' := by
  constructor
  · unfold counterpart?
    split
    · next hw => rintro ⟨⟩; exact hw ▸ .trueWord
    split
    · next hw => rintro ⟨⟩; exact hw ▸ .falseWord
    split
    · next hw => rintro ⟨⟩; exact hw ▸ .nullWord
    split
    · next hw => rintro ⟨⟩; exact hw.2 ▸ .undefinedWord hw.1
    · rintro ⟨⟩
  · rintro (_ | _ | _ | rfl)
    · exact (counterpart_words source target).1
    · exact (counterpart_words source target).2.1
    · exact (counterpart_words source target).2.2
    · cases target <;> decide

theorem named_undefined (l : Language) : Named l undefinedWord := by
  have hall : (undefinedWord.tail.all l.continuesName) = true := by cases l <;> decide +kernel
  refine ⟨'u', _, rfl, ?_, List.all_eq_true.1 hall, ?_⟩
  · cases l <;> decide +kernel
  · cases l <;> decide +kernel

theorem exchange?_eq_some_iff {t : Token} {w' : Text} :
    exchange? source target t = some w' ↔ t.kind = .ident ∧ Renders source target t.text w' := by
  rw [exchange?, Option.ite_none_right_eq_some, counterpart?_eq_some_iff, Token.isIdent,
    beq_iff_eq]

/-- A token that is no word of the one language. -/
def Wordless (source target : Language) (a : Kind × Text) : Prop :=
  a.1 = .ident → ∀ w', ¬ Renders source target a.2 w'

theorem exchange?_eq_none_iff {t : Token} :
    exchange? source target t = none ↔ Wordless source target (shape t) := by
  simp only [Option.eq_none_iff_forall_ne_some, ne_eq, exchange?_eq_some_iff, not_and, Wordless,
    shape]
  exact forall_comm

theorem Renders.named {w w' : Text} (h : Renders source target w w') :
    Named source w ∧ Named source w' := by
  have hsource := @Value.named_of_word source source
  have htarget := @Value.named_of_word source target
  cases h with
  | trueWord => exact ⟨hsource (by simp), htarget (by simp)⟩
  | falseWord => exact ⟨hsource (by simp), htarget (by simp)⟩
  | nullWord => exact ⟨hsource (by simp), htarget (by simp)⟩
  | undefinedWord => exact ⟨named_undefined source, htarget (by simp)⟩

theorem Renders.final {w w' : Text} (h : Renders source target w w') (hne : source ≠ target) :
    ∀ v, ¬ Renders source target w' v := by
  have hall : counterpart? source target target.trueWord = none ∧
      counterpart? source target target.falseWord = none ∧
      counterpart? source target target.nullWord = none := by
    cases source <;> cases target <;> first | exact absurd rfl hne | decide
  intro v hv
  have hv := counterpart?_eq_some_iff.2 hv
  cases h with
  | trueWord => exact nomatch hall.1 ▸ hv
  | falseWord => exact nomatch hall.2.1 ▸ hv
  | nullWord => exact nomatch hall.2.2 ▸ hv
  | undefinedWord => exact nomatch hall.2.2 ▸ hv

/-- The second text is the first with its words exchanged, read from left to right. -/
inductive Reworded (source target : Language) : Text → Text → Prop
  | nil : Reworded source target [] []
  | blank {c : Char} {r r' : Text} (hb : Text.isBlank c = true)
      (next : Reworded source target r r') : Reworded source target (c :: r) (c :: r')
  | kept {c : Char} {kind : Kind} {u r r' : Text} (hb : Text.isBlank c = false)
      (hx : lexeme source c (u ++ r) = (kind, u.length))
      (hw : Wordless source target (kind, c :: u))
      (next : Reworded source target r r') :
      Reworded source target (c :: (u ++ r)) (c :: (u ++ r'))
  | word {c c' : Char} {u u' r r' : Text}
      (hx : lexeme source c (u ++ r) = (.ident, u.length))
      (hw : Renders source target (c :: u) (c' :: u'))
      (next : Reworded source target r r') :
      Reworded source target (c :: (u ++ r)) (c' :: (u' ++ r'))

theorem reworded_exchanged (source target : Language) (text : Text) :
    Reworded source target text (exchanged source target text) := by
  match text with
  | [] => exact .nil
  | c :: r =>
    cases hb : Text.isBlank c with
    | true =>
      have ht : tokenize source ([c] ++ r) = [] ++ Token.scan source 0 (size [c]) r :=
        Token.tokenize_blank hb r
      change Reworded source target (c :: r) (exchanged source target ([c] ++ r))
      rw [exchanged_kept [] ht fun _ hm => absurd hm List.not_mem_nil]
      exact .blank hb (reworded_exchanged source target r)
    | false =>
      obtain ⟨kind, u, s, rfl, hx⟩ := Token.exists_lexeme source c r
      have ht := Token.tokenize_lexeme hb hx
      rw [← List.cons_append] at ht ⊢
      cases hk : exchange? source target ⟨kind, c :: u, 0⟩ with
      | none =>
        rw [exchanged_kept [_] ht (List.forall_mem_singleton.2 hk)]
        exact .kept hb hx (exchange?_eq_none_iff.1 hk) (reworded_exchanged source target s)
      | some w' =>
        obtain ⟨rfl, hw⟩ := exchange?_eq_some_iff.1 hk
        obtain ⟨-, c', u', rfl, -⟩ := hw.named
        rw [exchanged_word ht (counterpart?_eq_some_iff.2 hw)]
        exact .word hx hw (reworded_exchanged source target s)
termination_by text.length

theorem Reworded.sameLead {text text' : Text} (h : Reworded source target text text') :
    SameLead source text text' := by
  cases h with
  | nil => exact .nil
  | blank => exact .same _ _ _
  | kept => exact .same _ _ _
  | word _ hw =>
    obtain ⟨⟨_, _, hl, hd, -⟩, _, _, hl', hd', -⟩ := hw.named
    cases hl
    cases hl'
    exact .letter hd hd' _ _

/-- A token of the new text, beside the one of the old text that it stands for. -/
inductive Carried (source target : Language) : Kind × Text → Kind × Text → Prop
  | word {w w' : Text} (h : Renders source target w w') :
    Carried source target (.ident, w) (.ident, w')
  | same {a : Kind × Text} (h : Wordless source target a) : Carried source target a a

theorem Reworded.carried {text text' : Text} (h : Reworded source target text text') :
    List.Forall₂ (Carried source target) (shapes source text) (shapes source text') ∧
      gaps source text' = gaps source text := by
  induction h with
  | nil => exact ⟨.nil, rfl⟩
  | blank hb next ih =>
    rw [Token.shapes_blank hb, Token.shapes_blank hb, Token.gaps_blank hb, Token.gaps_blank hb,
      ih.2]
    exact ⟨ih.1, rfl⟩
  | kept hb hx hw next ih =>
    have hx' := Token.lexeme_sameLead hx next.sameLead
    rw [Token.shapes_lexeme hb hx, Token.shapes_lexeme hb hx', Token.gaps_lexeme hb hx,
      Token.gaps_lexeme hb hx', ih.2]
    exact ⟨.cons (.same hw) ih.1, rfl⟩
  | word hx hw next ih =>
    obtain ⟨hn, hn'⟩ := hw.named
    have hx' := Token.lexeme_renamed hx hn' next.sameLead
    rw [Token.shapes_lexeme hn.head hx, Token.shapes_lexeme hn'.head hx',
      Token.gaps_lexeme hn.head hx, Token.gaps_lexeme hn'.head hx', ih.2]
    exact ⟨.cons (.word hw) ih.1, rfl⟩

theorem Carried.wordless {a b : Kind × Text} (h : Carried source target a b)
    (hne : source ≠ target) : Wordless source target b := by
  cases h with
  | word h => exact fun _ => h.final hne
  | same h => exact h

theorem exchanged_of_wordless {text : Text}
    (h : ∀ a ∈ shapes source text, Wordless source target a) :
    exchanged source target text = text := by
  have hnone : ∀ t ∈ tokenize source text, exchange? source target t = none := fun t ht =>
    exchange?_eq_none_iff.2 (h (shape t) (List.mem_map_of_mem ht))
  have hkept := exchangeFrom_kept hnone text 0 []
  rw [List.append_nil] at hkept
  rw [exchanged, hkept, exchangeFrom, Text.dropBytes]

/-- Between different languages a translation leaves the text between the tokens, their number
and their kinds, exchanges the names among them that are words of the one language for the words
of the other, and keeps the texts of all other tokens. Done twice it is done once. -/
theorem translate_exchanges_words (h : source ≠ target) (text : Text) :
    List.Forall₂ (Carried source target) (shapes source text)
        (shapes source (translate source target text)) ∧
      gaps source (translate source target text) = gaps source text ∧
      translate source target (translate source target text) = translate source target text := by
  rw [translate_of_ne h, translate_of_ne h]
  obtain ⟨hcarried, hgaps⟩ := (reworded_exchanged source target text).carried
  have hwordless := ((List.forall₂_and_left _ _).1
    (hcarried.flip.imp fun _ _ hab => ⟨hab.wordless h, hab⟩)).1
  exact ⟨hcarried, hgaps, exchanged_of_wordless hwordless⟩

/-- Words next to quotes and marks, in a string, at the end of a number and in a comment. -/
def wordyText : Text := "[undefined,null'true',1null]//false"

def rewordedText : Text := "[None,None'true',1null]//false"

theorem translate_exchanges_words_wordy :
    translate .javascript .python wordyText = rewordedText ∧
      List.Forall₂ (Carried .javascript .python) (shapes .javascript wordyText)
        (shapes .javascript rewordedText) ∧
      gaps .javascript rewordedText = gaps .javascript wordyText ∧
      translate .javascript .python rewordedText = rewordedText := by
  have hout : translate .javascript .python wordyText = rewordedText := by decide +kernel
  have h := translate_exchanges_words (by decide : javascript ≠ python) wordyText
  rw [hout] at h
  exact ⟨hout, h⟩

end Language
end Polyglot
