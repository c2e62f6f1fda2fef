import Polyglot.Proofs.Token.Place
import Polyglot.Proofs.Token.Span
import Polyglot.Proofs.Value.Printing
import Polyglot.Unit.Basic

/-!
# Declarations read back

The tokens of a declaration are a name, an equals sign and the tokens of the value, between
what the language puts before and behind them. If nothing in the value ends a statement or a
declarator and no further target begins it, the name and the text of the value are read back.
-/
namespace Polyglot

namespace Language

def opening : Language → Text
  | javascript => "var "
  | python => []

def closing : Language → Text
  | javascript => ";"
  | python => []

theorem declare_eq (l : Language) (n w : Text) :
    l.declare n w = l.opening ++ (n ++ " = " ++ w) ++ l.closing := by
  cases l with
  | javascript => simp only [declare, opening, closing, List.append_assoc]
  | python => simp [declare, opening, closing]

end Language

namespace Token
open Text (size)

variable {l : Language}

theorem scan_name {c : Char} {r : Text} (hs : l.startsName c = true)
    (hr : r.all l.continuesName = true) (rest : Text) (pos : Nat) :
    scan l 0 pos (c :: r ++ ' ' :: rest) =
      ⟨.ident, c :: r, pos⟩ :: scan l 0 (pos + size (c :: r) + 1) rest := by
  obtain ⟨hb, hm, hq⟩ := beginsWord_of_startsName hs
  have hblank : Text.isBlank ' ' = true := by decide
  obtain ⟨-, -, -, -, hc, hquote, -⟩ := Text.separates_of_isBlank hblank l
  have htake : (r ++ ' ' :: rest).takeWhile l.continuesName = r := by
    rw [List.takeWhile_append_of_pos (List.all_eq_true.1 hr), List.takeWhile_cons, hc]
    exact List.append_nil r
  have hx : lexeme l c (r ++ ' ' :: rest) = (.ident, r.length) := by
    have ht : nameTail l (r ++ ' ' :: rest) = r.length := by rw [nameTail, htake]
    rw [lexeme_word l (isPrefixOf_commentMark hm _) hq hs, ht, List.drop_left,
      wordLexeme_of_head (by rintro d ⟨⟩; exact hquote)]
    rfl
  have hone : ' '.utf8Size = 1 := rfl
  rw [List.cons_append, scan_lexeme hb hx, scan_blank _ _ hblank, hone]

def opened : Language → List Token
  | .javascript => [⟨.ident, "var", 0⟩]
  | .python => []

def closed (pos : Nat) : Language → List Token
  | .javascript => [⟨.punct ';', [';'], pos⟩]
  | .python => []

theorem scan_opening (l : Language) (rest : Text) :
    scan l 0 0 (l.opening ++ rest) = opened l ++ scan l 0 (size l.opening) rest := by
  cases l with
  | javascript => exact scan_name (r := "ar") (by decide +kernel) (by decide +kernel) rest 0
  | python => rfl

theorem scan_closing (l : Language) (pos : Nat) : scan l 0 pos l.closing = closed pos l := by
  cases l with
  | javascript => exact scan_mark (by decide) [] pos
  | python => rfl

theorem breaks_closing (l : Language) : Breaks l.closing := by
  cases l with
  | javascript => exact breaks_mark (by decide) []
  | python => exact breaks_nil

def valueStart (l : Language) (n : Text) : Nat := size (l.opening ++ (n ++ " = "))

def named (l : Language) (n : Text) : List Token :=
  [⟨.ident, n, size l.opening⟩, ⟨.punct '=', ['='], size l.opening + size n + 1⟩]

theorem tokenize_declare {c : Char} {r w : Text} {P : Nat → List Token → Prop}
    (hs : l.startsName c = true) (hr : r.all l.continuesName = true) (hw : Scans l w P) :
    ∃ vs, tokenize l (l.declare (c :: r) w) = opened l ++ (named l (c :: r) ++ vs) ++
        closed (valueStart l (c :: r) + size w) l ∧ P (valueStart l (c :: r)) vs := by
  obtain ⟨vs, hv, hp⟩ := hw (valueStart l (c :: r)) l.closing (breaks_closing l)
  refine ⟨vs, ?_, hp⟩
  have hblank : Text.isBlank ' ' = true := by decide
  have hline : l.declare (c :: r) w =
      l.opening ++ (c :: r ++ ' ' :: ('=' :: ' ' :: (w ++ l.closing))) := by
    simp [Language.declare_eq]
  have hone : '='.utf8Size = 1 ∧ ' '.utf8Size = 1 := ⟨rfl, rfl⟩
  have hpos : size l.opening + size (c :: r) + 1 + 1 + 1 = valueStart l (c :: r) := by
    rw [valueStart, Text.size_append, Text.size_append, ← Nat.add_assoc]
    rfl
  rw [tokenize, hline, scan_opening, scan_name hs hr, scan_mark (by decide), scan_blank _ _ hblank,
    hone.1, hone.2, hpos, hv, scan_closing]
  simp [named]

def ended : Language → List (List Token)
  | .javascript => [[]]
  | .python => []

theorem uncutAt_head {sep : Char} (hs : sep = ',' ∨ sep = ';') (l : Language) (n : Text) :
    UncutAt sep (opened l) ∧ UncutAt sep (named l n) := by
  have hword : ∀ {w : Text} {p : Nat}, opens ⟨.ident, w, p⟩ = false ∧
      closes ⟨.ident, w, p⟩ = false ∧ isPunct sep ⟨.ident, w, p⟩ = false :=
    ⟨rfl, rfl, rfl⟩
  have hequals : isPunct sep ⟨.punct '=', ['='], size l.opening + size n + 1⟩ = false := by
    rcases hs with rfl | rfl <;> rfl
  refine ⟨uncutAt_of_forall ?_, uncutAt_of_forall ?_⟩
  · cases l with
    | javascript => exact List.forall_mem_singleton.2 hword
    | python => exact fun t ht => absurd ht List.not_mem_nil
  · exact List.forall_mem_cons.2 ⟨hword, List.forall_mem_singleton.2 ⟨rfl, rfl, hequals⟩⟩

theorem tidy_frame (l : Language) (n : Text) (pos : Nat) :
    Tidy (opened l) ∧ Tidy (named l n) ∧ Tidy (closed pos l) := by
  have hword : ∀ w p, Tidy [⟨.ident, w, p⟩] := fun w p =>
    ⟨List.forall_mem_singleton.2 rfl, List.forall_mem_singleton.2 (fun h => by cases h),
      .step rfl rfl .nil⟩
  have hmark : ∀ c p, c = '=' ∨ c = ';' → Tidy [⟨.punct c, [c], p⟩] := by
    rintro c p (rfl | rfl) <;>
      exact ⟨List.forall_mem_singleton.2 rfl, List.forall_mem_singleton.2 (fun h => by cases h),
        .step rfl rfl .nil⟩
  refine ⟨?_, (hword _ _).append (hmark '=' _ (.inl rfl)), ?_⟩ <;> cases l
  · exact hword _ _
  · exact Neat.nil.toTidy
  · exact hmark ';' _ (.inr rfl)
  · exact Neat.nil.toTidy

theorem splitTopLevel_declare {n : Text} {vs : List Token} (h : UncutAt ';' vs) (pos : Nat) :
    splitTopLevel ';' (opened l ++ (named l n ++ vs) ++ closed pos l) =
      (opened l ++ (named l n ++ vs)) :: ended l := by
  obtain ⟨ho, hn⟩ := uncutAt_head (.inr rfl) l n
  have hwhole := ho.append (hn.append h)
  cases l with
  | javascript => exact hwhole.splitTopLevel_cons rfl rfl rfl []
  | python => rw [closed, List.append_nil, hwhole.splitTopLevel, ended]

end Token

namespace Binding
open Token
open Text (size)

variable {l : Language} {n w : Text}

structure Expression (l : Language) (w : Text) (pos : Nat) (ts : List Token) : Prop where
  first : ts.head?.map start = some pos
  last : ts.getLast?.map stop = some (pos + size w)
  code : ∀ t ∈ ts, t.isComment = false
  semicolon : UncutAt ';' ts
  comma : l = .javascript → UncutAt ',' ts
  value : l = .python → (targets ts).1 = []

theorem Expression.spanText {a b : Text} {ts : List Token} (h : Expression l w (size a) ts)
    (hw : Text.trim w = w) : Token.spanText (a ++ w ++ b) ts = w := by
  rw [spanText_eq h.first h.last, List.append_assoc, Text.slice_append, hw]

theorem Expression.assigns_named {vs : List Token} (h : Expression l w (valueStart l n) vs) :
    ∃ eq, named l n = [⟨.ident, n, size l.opening⟩, eq] ∧ assigns (eq :: vs) = true := by
  refine ⟨_, rfl, ?_⟩
  obtain ⟨v, hv, hfirst⟩ := Option.map_eq_some_iff.1 h.first
  obtain ⟨r, rfl⟩ := List.head?_eq_some_iff.1 hv
  have hpos : valueStart l n = size l.opening + size n + 1 + 1 + 1 := by
    rw [valueStart, Text.size_append, Text.size_append, ← Nat.add_assoc]
    rfl
  have hgap : (v.start == stop ⟨.punct '=', ['='], size l.opening + size n + 1⟩) = false := by
    rw [hfirst, hpos]
    exact beq_eq_false_iff_ne.2 (Nat.succ_ne_self _)
  simp [assigns, isPunct, hgap]

theorem ofTokens_declare {c : Char} {r : Text} (hs : l.startsName c = true)
    (hr : r.all l.continuesName = true)
    (hn : l = .python → Language.python.isReserved (c :: r) = false)
    (hw : Scans l w (Expression l w)) (ht : Text.trim w = w) (hne : w ≠ []) (number : Nat) :
    ofTokens l (l.declare (c :: r) w) number (tokenize l (l.declare (c :: r) w)) =
      [⟨c :: r, w, number⟩] := by
  obtain ⟨vs, htokens, hv⟩ := tokenize_declare hs hr hw
  obtain ⟨eq, hnamed, hassigns⟩ := hv.assigns_named
  have hspan : spanText (l.declare (c :: r) w) vs = w := by
    have hx := hv.spanText (a := l.opening ++ (c :: r ++ " = ")) (b := l.closing) ht
    rwa [List.append_assoc l.opening, ← Language.declare_eq] at hx
  have hempty : w.isEmpty = false := by simp [hne]
  have hcode : Token.code (tokenize l (l.declare (c :: r) w)) =
      tokenize l (l.declare (c :: r) w) := by
    obtain ⟨ho, hn, hc⟩ := tidy_frame l (c :: r) (valueStart l (c :: r) + size w)
    refine code_eq_self ?_
    rw [htokens]
    exact List.forall_mem_append.2
      ⟨List.forall_mem_append.2 ⟨ho.code, List.forall_mem_append.2 ⟨hn.code, hv.code⟩⟩, hc.code⟩
  rw [ofTokens, hcode, htokens, splitTopLevel_declare hv.semicolon, List.flatMap_cons]
  cases l with
  | python =>
    have hvalue := hv.value rfl
    have htargets : targets (named .python (c :: r) ++ vs) = ([c :: r], vs) := by
      rw [hnamed, List.cons_append, List.singleton_append, targets, hn rfl, hassigns, hvalue,
        targets_of_nil hvalue]
      rfl
    simp [ofStatement, ofAssignment, opened, ended, htargets, hspan, hempty]
  | javascript =>
    have hcomma := (uncutAt_head (.inl rfl) .javascript (c :: r)).2.append (hv.comma rfl)
    have hword : (isIdent ⟨.ident, "var", 0⟩ && declarationWords.contains "var".toList) = true := by
      decide
    have hdeclarator : declarator (Language.javascript.declare (c :: r) w) number
        (named .javascript (c :: r) ++ vs) = some ⟨c :: r, w, number⟩ := by
      rw [hnamed, List.cons_append, List.singleton_append, declarator, hassigns]
      simp [isIdent, hspan, hempty]
    simp only [ofStatement, ofDeclaration, opened, List.singleton_append, hword, if_true,
      hcomma.splitTopLevel, ended, List.filterMap_cons, hdeclarator]
    rfl

end Binding
end Polyglot
