import Polyglot.Proofs.Token.Seam

/-!
# What printed values end in

Only the end of a printed value can run into the text behind it: a number goes on with
what continues numbers, a word for a value without text with what continues names. A
string has its closing quote, and a closing bracket stands for itself.
-/
namespace Polyglot

namespace Token
open Text (size)

variable {l : Language} {c : Char} {r : Text}

theorem scan_run (hc : c.isDigit = true) (hr : ∀ d ∈ r, continuesNumber d = true) {rest : Text}
    (hrest : ∀ d ∈ rest.head?, continuesNumber d = false) (pos : Nat) :
    lexeme l c (r ++ rest) = (.number, r.length) ∧
      scan l 0 pos (c :: r ++ rest) =
        ⟨.number, c :: r, pos⟩ :: scan l 0 (pos + size (c :: r)) rest := by
  obtain ⟨hb, hm, hq⟩ := beginsWord_of_isBare (isBare_of_isDigit hc) l
  have hx : lexeme l c (r ++ rest) = (.number, r.length) := by
    rw [lexeme_other (isPrefixOf_commentMark hm _) hq (not_startsName_of_isDigit hc l), if_pos hc,
      numberTail, takeWhile_append_of_head r hrest, List.takeWhile_eq_self_iff.2 hr]
  exact ⟨hx, scan_lexeme hb hx pos⟩

theorem scan_sign {s : Char} (hs : s = '+' ∨ s = '-') (w : Text) (pos : Nat) :
    scan l 0 pos (s :: w) = ⟨.punct s, [s], pos⟩ :: scan l 0 (pos + s.utf8Size) w := by
  have hx : ∀ l : Language, Text.isBlank s = false ∧ s ∉ l.commentMark ∧
      l.quotes.contains s = false ∧ l.startsName s = false ∧ s.isDigit = false := by
    intro l
    rcases hs with rfl | rfl <;> cases l <;> decide +kernel
  obtain ⟨hb, hm, hq, hn, hd⟩ := hx l
  rw [scan_cons _ _ hb, lexeme_other (isPrefixOf_commentMark hm _) hq hn, hd]
  rfl

inductive Runs : Text → Prop
  | run {c : Char} {r : Text} (hc : c.isDigit = true)
    (hr : ∀ d ∈ r, continuesNumber d = true) : Runs (c :: r)
  | sign {s : Char} {w : Text} (hs : s = '+' ∨ s = '-') (h : Runs w) : Runs (s :: w)
  | power {c s : Char} {r w : Text} (hc : c.isDigit = true)
    (hr : ∀ d ∈ r, continuesNumber d = true) (hs : s = '+' ∨ s = '-') (h : Runs w) :
    Runs (c :: r ++ s :: w)

theorem Runs.last {w : Text} (h : Runs w) (l : Language) (pos : Nat) :
    ∃ ts c r p, scan l 0 pos w = ts ++ [⟨.number, c :: r, p⟩] ∧
      p + size (c :: r) = pos + size w ∧ lexeme l c r = (.number, r.length) := by
  induction h generalizing pos with
  | @run c r hc hr =>
    have hend : ∀ d ∈ ([] : Text).head?, continuesNumber d = false := fun _ hd => nomatch hd
    obtain ⟨hx, hscan⟩ := scan_run (l := l) hc hr hend pos
    rw [List.append_nil] at hx hscan
    exact ⟨[], c, r, pos, hscan, rfl, hx⟩
  | @sign s w hs _ ih =>
    obtain ⟨ts, c, r, p, hscan, hp, hx⟩ := ih (pos + s.utf8Size)
    refine ⟨_ :: ts, c, r, p, by rw [scan_sign hs, hscan]; rfl, ?_, hx⟩
    rw [hp, Nat.add_assoc]
    rfl
  | @power c s r w hc hr hs _ ih =>
    have hstop : ∀ d ∈ (s :: w).head?, continuesNumber d = false := by
      rintro d ⟨⟩
      rcases hs with rfl | rfl <;> decide +kernel
    obtain ⟨-, hrun⟩ := scan_run (l := l) hc hr hstop pos
    obtain ⟨ts, d, u, p, hscan, hp, hx⟩ := ih (pos + size (c :: r) + s.utf8Size)
    refine ⟨_ :: _ :: ts, d, u, p, by rw [hrun, scan_sign hs, hscan]; rfl, ?_, hx⟩
    rw [hp, Text.size_append, Nat.add_assoc, Nat.add_assoc]
    rfl

def Letter (l : Language) (c : Char) : Prop := l.startsName c = true ∧ continuesNumber c = true

instance (l : Language) (c : Char) : Decidable (Letter l c) :=
  inferInstanceAs (Decidable (_ ∧ _))

def Named (l : Language) (w : Text) : Prop :=
  ∃ c u, w = c :: u ∧ Letter l c ∧ (∀ d ∈ u, l.continuesName d = true) ∧
    l.stringMarks.contains (Text.lower (c :: u)) = false

theorem Named.head {c : Char} {u : Text} (h : Named l (c :: u)) : Text.isBlank c = false := by
  obtain ⟨d, v, hw, hd, -⟩ := h
  cases hw
  exact (beginsWord_of_startsName hd.1).blank

end Token

namespace Value
open Token (Runs Named Fused Scans Neat Mates continuesNumber scan tokenize lexeme)
open Text (size)

theorem Digits.continues {ds : Text} (h : Digits ds) : ∀ d ∈ ds, continuesNumber d = true :=
  fun d hd => Token.continuesNumber_of_isDigit (h.2 d hd)

theorem Digits.runs {ds : Text} (h : Digits ds) : Runs ds := by
  obtain ⟨hn, hd⟩ := h
  obtain ⟨c, r, rfl⟩ := List.exists_cons_of_ne_nil hn
  exact .run (hd c List.mem_cons_self) fun d hm =>
    (Digits.continues ⟨hn, hd⟩) d (List.mem_cons_of_mem c hm)

theorem runs_of_isNumber {digits : Text} (h : IsNumber digits) : Runs digits := by
  obtain ⟨sign, whole, fraction, exponent, rfl, hs, hw, hf, he⟩ := isNumber_cases h
  have hfraction : ∀ d ∈ fraction, continuesNumber d = true := by
    obtain rfl | ⟨es, hd, rfl⟩ := hf
    · exact nofun
    · exact List.forall_mem_cons.2 ⟨by decide +kernel, hd.continues⟩
  have hwhole := hw.continues
  obtain ⟨c, r, rfl⟩ := List.exists_cons_of_ne_nil hw.1
  have hc := hw.2 c List.mem_cons_self
  have hrun : ∀ d ∈ r ++ fraction, continuesNumber d = true :=
    List.forall_mem_append.2 ⟨fun d hd => hwhole d (List.mem_cons_of_mem c hd), hfraction⟩
  have hbody : Runs (c :: (r ++ fraction) ++ exponent) := by
    obtain rfl | ⟨s, es, hs, hd, rfl⟩ := he
    · rw [List.append_nil]
      exact .run hc hrun
    · have hmark : ∀ d ∈ r ++ fraction ++ ['e'], continuesNumber d = true :=
        List.forall_mem_append.2 ⟨hrun, List.forall_mem_singleton.2 (by decide +kernel)⟩
      have hsplit : c :: (r ++ fraction) ++ 'e' :: s :: es =
          c :: (r ++ fraction ++ ['e']) ++ s :: es := by simp
      rw [hsplit]
      exact .power hc hmark hs hd.runs
  have hjoin : sign ++ (c :: r) ++ fraction ++ exponent =
      sign ++ (c :: (r ++ fraction) ++ exponent) := by simp
  rw [hjoin]
  rcases hs with rfl | rfl
  · exact hbody
  · exact .sign (.inr rfl) hbody

/-- Whether the character, right behind the printed value, goes on with its last token. -/
def goesOn (l : Language) (d : Char) : Value → Bool
  | number _ => continuesNumber d
  | null => l.continuesName d
  | bool _ => l.continuesName d
  | string _ => false
  | array _ => false
  | object _ => false

variable {l : Language} {rest : Text}

theorem named_of_word (l : Language) {m : Language} {w : Text}
    (h : w ∈ [m.trueWord, m.falseWord, m.nullWord]) : Named l w := by
  have hall : ∀ w ∈ [m.trueWord, m.falseWord, m.nullWord], ∃ c u, w = c :: u ∧
      Token.Letter l c ∧ u.all l.continuesName = true ∧
      l.stringMarks.contains (Text.lower (c :: u)) = false := by
    cases l <;> cases m <;> simp only [List.forall_mem_cons] <;>
      refine ⟨⟨_, _, rfl, ?_⟩, ⟨_, _, rfl, ?_⟩, ⟨_, _, rfl, ?_⟩, nofun⟩ <;> decide +kernel
  obtain ⟨c, u, hw, hc, hu, hm⟩ := hall w h
  exact ⟨c, u, hw, hc, List.all_eq_true.1 hu, hm⟩

theorem fused_word {w : Text} (h : w ∈ [l.trueWord, l.falseWord, l.nullWord]) :
    Fused l w rest ↔ ∃ d, rest.head? = some d ∧ l.continuesName d = true := by
  obtain ⟨c, r, rfl, ⟨hs, -⟩, hr, hw⟩ := named_of_word l h
  have hx : lexeme l c r = (.ident, r.length) := by
    have hend : ∀ d, ([] : Text).head? = some d → l.continuesName d = false :=
      fun _ hd => nomatch hd
    have hname := Token.lexeme_name hs hr hw hend
    rwa [List.append_nil] at hname
  have hb := (Token.beginsWord_of_startsName hs).blank
  have hone : tokenize l (c :: r) = [] ++ [⟨.ident, c :: r, 0⟩] := by
    rw [tokenize, Token.scan_cons _ _ hb, hx, List.take_length, Token.scan_all (Nat.le_refl _)]
    rfl
  rw [Token.fused_iff hone (Nat.zero_add _)]
  constructor
  · intro hlt
    by_contra hno
    rw [Token.lexeme_name hs hr hw fun d hd => ?_] at hlt
    · exact absurd hlt (Nat.lt_irrefl _)
    · exact Bool.eq_false_iff.2 fun hc => hno ⟨d, hd, hc⟩
  · rintro ⟨d, hd, hc⟩
    exact Token.grows_ident hx hd hc

theorem not_fused_bracket {a b : Char} (hm : Mates a b) {w : Text}
    (h : Scans l w fun _ ts => Neat ts) : ¬ Fused l (a :: w ++ [b]) rest := by
  obtain ⟨ts, hs, -⟩ := Token.scan_bracket hm h 0 []
  rw [List.append_nil, Token.scan, List.append_nil, ← List.cons_append] at hs
  have hsize := Token.size_bracket a b w 0
  rw [Nat.zero_add] at hsize
  rw [Token.fused_iff hs hsize.symm, Token.lexeme_mark (Token.marks_of_mates hm).2]
  exact Nat.lt_irrefl 0

theorem not_fused_quoted (s : Text) : ¬ Fused l (quoted s) rest := by
  have hs := scan_quoted l s [] 0
  rw [List.append_nil] at hs
  have hone : tokenize l (quoted s) = [] ++ [⟨.str, '"' :: (s.flatMap escape ++ ['"']), 0⟩] := hs
  rw [Token.fused_iff hone (Nat.zero_add _), lexeme_quoted]
  exact Nat.lt_irrefl _

theorem fused_number {digits : Text} (h : IsNumber digits) :
    Fused l digits rest ↔ ∃ d, rest.head? = some d ∧ continuesNumber d = true := by
  obtain ⟨ts, c, r, p, hs, hp, hx⟩ := (runs_of_isNumber h).last l 0
  rw [Token.fused_iff hs (hp.trans (Nat.zero_add _)), Token.grows_number hx]

/-- A printed value fuses with the text behind it exactly if the next character goes on
with its last token. -/
theorem fused_render {v : Value} (h : v.Proper) :
    Fused l (v.render l) rest ↔ ∃ d, rest.head? = some d ∧ v.goesOn l d = true := by
  have hno : ∀ {w}, v.render l = w → ¬ Fused l w rest → (∀ d, v.goesOn l d = false) →
      (Fused l (v.render l) rest ↔ ∃ d, rest.head? = some d ∧ v.goesOn l d = true) := by
    rintro w rfl hw hv
    simp only [hw, hv, Bool.false_eq_true, and_false, exists_false]
  cases v with
  | number digits => exact fused_number h
  | null => exact fused_word (List.mem_cons_of_mem _ (List.mem_cons_of_mem _ List.mem_cons_self))
  | bool b =>
    cases b with
    | true => exact fused_word List.mem_cons_self
    | false => exact fused_word (List.mem_cons_of_mem _ List.mem_cons_self)
  | string s => exact hno rfl (not_fused_quoted s) fun _ => rfl
  | array items =>
    have hs := Token.scans_join ((prints_scans l).items l items h)
    exact hno rfl (not_fused_bracket .square hs) fun _ => rfl
  | object members =>
    have hs := Token.scans_join ((prints_scans l).members l members h)
    exact hno rfl (not_fused_bracket .curly hs) fun _ => rfl

theorem head_render (l : Language) {v : Value} (h : v.Proper) :
    ∃ c r, v.render l = c :: r ∧ c ∉ l.commentMark := by
  have hp : Prints (fun w => ∃ c r, w = c :: r ∧ c ∉ l.commentMark) fun _ => True := {
    bare := fun w hn hw => by
      obtain ⟨c, r, rfl⟩ := List.exists_cons_of_ne_nil hn
      exact ⟨c, r, rfl, (Token.beginsWord_of_isBare (hw c List.mem_cons_self) l).comment⟩
    quoted := fun s => ⟨'"', _, rfl, by cases l <;> decide⟩
    part := fun _ _ => trivial
    member := fun _ _ _ => trivial
    bracket := fun a b hm parts _ =>
      ⟨a, _, rfl, (Token.beginsMark_of_mem (Token.marks_of_mates hm).1 l).2.comment⟩ }
  exact hp.render l v h

end Value
end Polyglot
