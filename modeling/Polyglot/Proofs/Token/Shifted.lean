import Mathlib.Data.List.Basic
import Polyglot.Proofs.Token.Order
import Polyglot.Proofs.Token.Outside
import Polyglot.Proofs.Token.Place

/-!
# Tokens of a text inside a longer one

Where a text stands in a line only moves its tokens. They are cut at the same separators and
have the same texts there, so the names and values read from them are those read from the text
by itself.
-/
namespace Polyglot

namespace Token
open Text (size)

variable {l : Language}

theorem consFirst_map (f : Token → Token) (t : Token) (ps : List (List Token)) :
    consFirst (f t) (ps.map (List.map f)) = (consFirst t ps).map (List.map f) := by
  cases ps <;> rfl

theorem splitTop_map {f : Token → Token} (hf : ∀ t, (f t).kind = t.kind) (sep : Char)
    (depth : Nat) (ts : List Token) :
    splitTop sep depth (ts.map f) = (splitTop sep depth ts).map (List.map f) := by
  induction ts generalizing depth with
  | nil => rfl
  | cons t r ih =>
    have hsep : (f t).isPunct sep = t.isPunct sep := by simp only [isPunct, hf]
    simp only [List.map_cons, splitTop, opens_map hf, closes_map hf, hsep, ih, consFirst_map]
    repeat' split
    all_goals rfl

theorem splitTopLevel_moved (sep : Char) (d : Nat) (ts : List Token) :
    splitTopLevel sep (ts.map (moved d)) = (splitTopLevel sep ts).map (List.map (moved d)) :=
  splitTop_map (f := moved d) (fun _ => rfl) sep 0 ts

theorem ends_moved (d : Nat) (ts : List Token) :
    (ts.map (moved d)).head?.map start = (ts.head?.map start).map (· + d) ∧
      (ts.map (moved d)).getLast?.map stop = (ts.getLast?.map stop).map (· + d) := by
  have hstop : stop ∘ moved d = (· + d) ∘ stop := funext fun t => Nat.add_right_comm _ _ _
  rw [List.head?_map, List.getLast?_map, Option.map_map, Option.map_map, Option.map_map,
    Option.map_map, hstop]
  exact ⟨rfl, rfl⟩

theorem spanText_moved {text : Text} {ts : List Token} (h : ts <:+: tokenize l text)
    (before after : Text) :
    spanText (before ++ (text ++ after)) (ts.map (moved (size before))) = spanText text ts := by
  by_cases hn : ts = []
  · rw [hn]
    rfl
  · obtain ⟨pre, post, h⟩ := h
    rw [List.append_assoc] at h
    obtain ⟨u, w, z, pos, rfl, rfl, -, -, hfirst, hlast⟩ := exists_span h.symm hn
    obtain ⟨hhead, htail⟩ := ends_moved (size before) ts
    rw [hfirst, Option.map_some, Nat.add_comm, ← Text.size_append] at hhead
    rw [hlast, Option.map_some, Nat.add_comm, ← Nat.add_assoc, ← Text.size_append] at htail
    have hline : before ++ (u ++ (w ++ z) ++ after) = before ++ u ++ (w ++ (z ++ after)) := by simp
    rw [spanText_eq hhead htail, spanText_eq hfirst hlast, hline, Text.slice_append,
      Text.slice_append]

end Token

namespace Binding
open Token
open Text (size)

variable {l : Language}

def entry (b : Binding) : Text × Text := (b.name, b.expression)

theorem assigns_moved (d : Nat) (ts : List Token) :
    assigns (ts.map (moved d)) = assigns ts := by
  match ts with
  | [] => rfl
  | [t] => rfl
  | t :: n :: r =>
    have hgap : (n.start + d == t.start + d + size t.text) =
        (n.start == t.start + size t.text) := by
      rw [Nat.add_right_comm, Bool.eq_iff_iff, beq_iff_eq, beq_iff_eq, Nat.add_right_cancel_iff]
    simp only [List.map_cons, assigns, isPunct, moved, stop, hgap]

theorem targets_of_short {ts : List Token}
    (h : ∀ (name eq : Token) (rest : List Token), ts = name :: eq :: rest → False) :
    targets ts = ([], ts) := by
  cases ts with
  | nil => rfl
  | cons name r =>
    cases r with
    | nil => rfl
    | cons eq rest => exact (h name eq rest rfl).elim

theorem targets_again (ts : List Token) : (targets (targets ts).2).1 = [] := by
  fun_induction targets ts with
  | case1 name eq rest h ih => exact ih
  | case2 name eq rest h => rw [targets, if_neg h]
  | case3 ts h => rw [targets_of_short h]

theorem targets_moved (d : Nat) (ts : List Token) :
    targets (ts.map (moved d)) = ((targets ts).1, (targets ts).2.map (moved d)) := by
  fun_induction targets ts with
  | case1 name eq rest h ih =>
    rw [← assigns_moved d] at h
    exact (if_pos h).trans (by rw [ih]; rfl)
  | case2 name eq rest h =>
    rw [← assigns_moved d] at h
    exact if_neg h
  | case3 ts h =>
    rw [targets_of_short]
    intro name eq rest hts
    obtain ⟨a, us, rfl, -, hus⟩ := List.map_eq_cons_iff.1 hts
    obtain ⟨b, vs, rfl, -, -⟩ := List.map_eq_cons_iff.1 hus
    exact h a b vs rfl

theorem targets_suffix (ts : List Token) : (targets ts).2 <:+ ts := by
  fun_induction targets ts with
  | case1 name eq rest h ih =>
    exact ih.trans ((List.suffix_cons eq rest).trans (List.suffix_cons name _))
  | case2 => exact List.suffix_rfl
  | case3 => exact List.suffix_rfl

section
variable {text : Text} {ts : List Token} (h : ts <:+: tokenize l text) (before after : Text)
  (m n : Nat)
include h

theorem declarator_moved :
    (declarator (before ++ (text ++ after)) m (ts.map (moved (size before)))).map entry =
      (declarator text n ts).map entry := by
  cases ts with
  | nil => rfl
  | cons name rest =>
    have hvalue : rest.drop 1 <:+: tokenize l text :=
      ((List.drop_suffix 1 rest).trans (List.suffix_cons name rest)).isInfix.trans h
    have hspan := spanText_moved hvalue before after
    rw [List.map_drop] at hspan
    have hname : isIdent (moved (size before) name) = name.isIdent := rfl
    rw [List.map_cons, declarator, declarator, hspan, assigns_moved, hname]
    split <;> rfl

theorem ofDeclaration_moved :
    (ofDeclaration (before ++ (text ++ after)) m (ts.map (moved (size before)))).map entry =
      (ofDeclaration text n ts).map entry := by
  cases ts with
  | nil => rfl
  | cons word rest =>
    have hrest : rest <:+: tokenize l text := (List.suffix_cons word rest).isInfix.trans h
    have hpieces : ((splitTopLevel ',' (rest.map (moved (size before)))).filterMap
        (declarator (before ++ (text ++ after)) m)).map entry =
        ((splitTopLevel ',' rest).filterMap (declarator text n)).map entry := by
      rw [splitTopLevel_moved, List.filterMap_map, List.map_filterMap, List.map_filterMap]
      exact List.filterMap_congr fun piece hp =>
        declarator_moved ((part_of_mem_splitTopLevel hp).trans hrest) before after m n
    have hword : (isIdent (moved (size before) word) &&
        declarationWords.contains (moved (size before) word).text) =
        (word.isIdent && declarationWords.contains word.text) := rfl
    rw [List.map_cons, ofDeclaration, ofDeclaration, hword]
    split
    · exact hpieces
    · rfl

theorem ofAssignment_moved :
    (ofAssignment (before ++ (text ++ after)) m (ts.map (moved (size before)))).map entry =
      (ofAssignment text n ts).map entry := by
  have hspan := spanText_moved ((targets_suffix ts).isInfix.trans h) before after
  simp only [ofAssignment, targets_moved, hspan]
  split
  · rfl
  · simp only [List.map_map]
    rfl

end

theorem ofStatement_moved {text : Text} {ts : List Token} (h : ts <:+: tokenize l text)
    (before after : Text) (m n : Nat) :
    (ofStatement l (before ++ (text ++ after)) m (ts.map (moved (size before)))).map entry =
      (ofStatement l text n ts).map entry := by
  cases l with
  | javascript => exact ofDeclaration_moved h before after m n
  | python => exact ofAssignment_moved h before after m n

end Binding
end Polyglot
