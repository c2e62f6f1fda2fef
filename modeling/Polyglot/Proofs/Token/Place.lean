import Polyglot.Analysis
import Polyglot.Proofs.Token.Scan

/-!
# Where a binding stands

The pieces between separators are parts of the token list they come from. A binding
found in a line has its name among the tokens, and its expression is the text of some
tokens that stand right behind an equals sign.
-/
namespace Polyglot

namespace Token

theorem consFirst_parts {t : Token} {r : List Token} {ps : List (List Token)}
    (h : (∀ p ∈ ps.head?, p <+: r) ∧ ∀ p ∈ ps, p <:+: r) :
    (∀ p ∈ (consFirst t ps).head?, p <+: t :: r) ∧ ∀ p ∈ consFirst t ps, p <:+: t :: r := by
  cases ps with
  | nil =>
    have ht : [t] <+: t :: r := List.prefix_append [t] r
    simp only [consFirst, List.head?_cons, Option.mem_some, forall_eq', List.mem_singleton,
      forall_eq]
    exact ⟨ht, ht.isInfix⟩
  | cons q qs =>
    have hq : t :: q <+: t :: r := (List.prefix_cons_inj t).2 (h.1 q rfl)
    refine ⟨fun p hp => ?_, fun p hp => ?_⟩
    · cases hp
      exact hq
    · rcases List.mem_cons.1 hp with rfl | hp
      · exact hq.isInfix
      · exact (h.2 p (List.mem_cons_of_mem q hp)).trans (List.suffix_cons t r).isInfix

theorem splitTop_parts (sep : Char) (depth : Nat) (ts : List Token) :
    (∀ p ∈ (splitTop sep depth ts).head?, p <+: ts) ∧ ∀ p ∈ splitTop sep depth ts, p <:+: ts := by
  induction ts generalizing depth with
  | nil => simp [splitTop]
  | cons t r ih =>
    rw [splitTop]
    split
    · exact consFirst_parts (ih _)
    · split
      · exact consFirst_parts (ih _)
      · split
        · refine ⟨fun p hp => ?_, fun p hp => ?_⟩
          · cases hp
            exact List.nil_prefix
          · rcases List.mem_cons.1 hp with rfl | hp
            · exact List.nil_infix
            · exact ((ih 0).2 p hp).trans (List.suffix_cons t r).isInfix
        · exact consFirst_parts (ih _)

theorem part_of_mem_splitTopLevel {sep : Char} {ts p : List Token}
    (h : p ∈ splitTopLevel sep ts) : p <:+: ts :=
  (splitTop_parts sep 0 ts).2 p h

end Token

namespace Binding
open Token

/-- The name is that of a token among `ts`, the expression the text of tokens among
them that follow an equals sign. -/
structure Placed (b : Binding) (line : Text) (ts : List Token) : Prop where
  name : ∃ t ∈ ts, t.isIdent = true ∧ b.name = t.text
  expression : ∃ pre eq value post, ts = (pre ++ [eq]) ++ (value ++ post) ∧
    eq.isPunct '=' = true ∧ value ≠ [] ∧ b.expression = spanText line value

theorem Placed.widen {b : Binding} {line : Text} {part ts : List Token}
    (h : b.Placed line part) (hp : part <:+: ts) : b.Placed line ts := by
  obtain ⟨⟨t, ht, hi, hn⟩, pre, eq, value, post, rfl, he, hv, hx⟩ := h
  obtain ⟨a, z, rfl⟩ := hp
  have hm : t ∈ a ++ (pre ++ [eq] ++ (value ++ post)) ++ z :=
    List.mem_append_left z (List.mem_append_right a ht)
  exact ⟨⟨t, hm, hi, hn⟩, a ++ pre, eq, value, post ++ z, by simp, he, hv, hx⟩

theorem exists_of_assigns {ts : List Token} (h : assigns ts = true) :
    ∃ eq value, ts = eq :: value ∧ eq.isPunct '=' = true := by
  match ts, h with
  | [t], h => exact ⟨t, [], rfl, h⟩
  | t :: n :: r, h =>
    simp only [assigns, Bool.and_eq_true] at h
    exact ⟨t, n :: r, rfl, h.1⟩

theorem ne_nil_of_spanText {line : Text} {ts : List Token}
    (h : (spanText line ts).isEmpty = false) : ts ≠ [] := by
  rintro rfl
  cases h

theorem placed_declarator {line : Text} {number : Nat} {part : List Token} {b : Binding}
    (h : declarator line number part = some b) : b.line = number ∧ b.Placed line part := by
  cases part with
  | nil => cases h
  | cons name rest =>
    rw [declarator] at h
    split at h
    · next hc =>
      cases h
      simp only [Bool.and_eq_true, Bool.not_eq_true'] at hc
      obtain ⟨⟨hi, ha⟩, hv⟩ := hc
      obtain ⟨eq, value, rfl, he⟩ := exists_of_assigns ha
      exact ⟨rfl, ⟨name, List.mem_cons_self, hi, rfl⟩, [name], eq, value, [], by simp, he,
        ne_nil_of_spanText hv, rfl⟩
    · cases h

theorem placed_declaration {line : Text} {number : Nat} {part : List Token} {b : Binding}
    (h : b ∈ ofDeclaration line number part) : b.line = number ∧ b.Placed line part := by
  cases part with
  | nil => cases h
  | cons word rest =>
    rw [ofDeclaration] at h
    split at h
    · obtain ⟨piece, hp, hb⟩ := List.mem_filterMap.1 h
      obtain ⟨hl, hb⟩ := placed_declarator hb
      have hr : rest <:+: word :: rest := (List.suffix_cons word rest).isInfix
      exact ⟨hl, hb.widen ((part_of_mem_splitTopLevel hp).trans hr)⟩
    · cases h

theorem targets_of_nil {ts : List Token} (h : (targets ts).1 = []) : (targets ts).2 = ts := by
  fun_cases targets ts with
  | case1 name eq rest hc => rw [targets, if_pos hc] at h; cases h
  | case2 => rfl
  | case3 => rfl

theorem exists_targets {ts : List Token} (h : (targets ts).1 ≠ []) :
    ∃ pre eq, ts = (pre ++ [eq]) ++ (targets ts).2 ∧ eq.isPunct '=' = true ∧
      ∀ n ∈ (targets ts).1, ∃ t ∈ ts, t.isIdent = true ∧ n = t.text := by
  fun_induction targets ts with
  | case1 name eq rest hc ih =>
    simp only [Bool.and_eq_true] at hc
    obtain ⟨⟨hi, -⟩, ha⟩ := hc
    obtain ⟨e, value, hv, he⟩ := exists_of_assigns ha
    cases hv
    by_cases hr : (targets rest).1 = []
    · refine ⟨[name], eq, ?_, he, fun n hn => ?_⟩
      · have ht : (targets rest).2 = rest := targets_of_nil hr
        simp [ht]
      · rw [hr, List.mem_singleton] at hn
        exact ⟨name, List.mem_cons_self, hi, hn⟩
    · obtain ⟨pre, e, hp, he, hm⟩ := ih hr
      refine ⟨name :: eq :: pre, e, ?_, he, fun n hn => ?_⟩
      · rw [List.cons_append, List.cons_append, List.cons_append, List.cons_append, ← hp]
      · rcases List.mem_cons.1 hn with rfl | hn
        · exact ⟨name, List.mem_cons_self, hi, rfl⟩
        · obtain ⟨t, ht, htn⟩ := hm n hn
          exact ⟨t, List.mem_cons_of_mem _ (List.mem_cons_of_mem _ ht), htn⟩
  | case2 => exact absurd rfl h
  | case3 => exact absurd rfl h

theorem not_reserved_of_targets {ts : List Token} {n : Text} (h : n ∈ (targets ts).1) :
    Language.python.isReserved n = false := by
  fun_induction targets ts with
  | case1 name eq rest hc ih =>
    simp only [Bool.and_eq_true, Bool.not_eq_true'] at hc
    rcases List.mem_cons.1 h with rfl | h
    · exact hc.1.2
    · exact ih h
  | case2 => cases h
  | case3 => cases h

theorem not_reserved_of_assignment {line : Text} {number : Nat} {part : List Token} {b : Binding}
    (h : b ∈ ofAssignment line number part) : Language.python.isReserved b.name = false := by
  unfold ofAssignment at h
  dsimp only at h
  split at h
  · cases h
  · obtain ⟨n, hn, rfl⟩ := List.mem_map.1 h
    exact not_reserved_of_targets hn

theorem placed_assignment {line : Text} {number : Nat} {part : List Token} {b : Binding}
    (h : b ∈ ofAssignment line number part) : b.line = number ∧ b.Placed line part := by
  unfold ofAssignment at h
  dsimp only at h
  cases hv : (spanText line (targets part).2).isEmpty with
  | true => rw [hv, if_pos rfl] at h; cases h
  | false =>
    rw [hv, if_neg Bool.false_ne_true] at h
    obtain ⟨n, hn, rfl⟩ := List.mem_map.1 h
    obtain ⟨pre, eq, hp, he, hm⟩ := exists_targets (List.ne_nil_of_mem hn)
    exact ⟨rfl, hm n hn, pre, eq, (targets part).2, [], by rw [List.append_nil]; exact hp, he,
      ne_nil_of_spanText hv, rfl⟩

theorem placed_of_mem {l : Language} {line : Text} {number : Nat} {ts : List Token} {b : Binding}
    (h : b ∈ ofTokens l line number ts) : b.line = number ∧ b.Placed line (code ts) := by
  obtain ⟨part, hp, hb⟩ := List.mem_flatMap.1 h
  have hi := part_of_mem_splitTopLevel hp
  have hpart : b.line = number ∧ b.Placed line part := by
    cases l with
    | javascript => exact placed_declaration hb
    | python => exact placed_assignment hb
  exact ⟨hpart.1, hpart.2.widen hi⟩

end Binding
end Polyglot
