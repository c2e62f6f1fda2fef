import Polyglot.Analysis
import Polyglot.Proofs.Token.Shifted
import Polyglot.Proofs.Token.Shut

/-!
# Statements on one line

Two simple statements with a semicolon between them are one line whose tokens are those of the
one, the semicolon, and those of the other. What is read from the line is what is read from the
one statement and then from the other; whether it is an import is told by its beginning.
-/
namespace Polyglot

namespace Token
open Text (size)

variable {l : Language}

instance (mark : Char) (ts : List Token) : Decidable (Free mark ts) :=
  inferInstanceAs (Decidable (∀ t ∈ outside 0 ts, t.isPunct mark = false))

/-- One statement: nothing stands before it, it has no comment, its brackets nest and its
strings are closed, no semicolon outside brackets ends it, and it introduces no function. -/
structure Simple (l : Language) (text : Text) : Prop where
  first : text.head?.any (!Text.isBlank ·) = true
  code : ∀ t ∈ tokenize l text, t.isComment = false
  nested : Nested (tokenize l text)
  closed : ∀ t ∈ tokenize l text, shut l t = true
  single : Free ';' (tokenize l text)
  plain : Header.introducer l (tokenize l text) = none

def joined (u v : Text) : Text := u ++ "; " ++ v

def between (u : Text) : Token := ⟨.punct ';', [';'], size u⟩

variable {u v : Text}

theorem tokenize_joined (hu : Simple l u) (v : Text) :
    tokenize l (joined u v) = tokenize l u ++
      between u :: (tokenize l v).map (moved (size (u ++ "; "))) := by
  have hbreak : Breaks (';' :: ' ' :: v) := breaks_mark (by decide) _
  have hline : joined u v = u ++ (';' :: ' ' :: v) := List.append_assoc u "; ".toList v
  have hend : ∀ t ∈ (scan l 0 0 u).getLast?, t.isComment = false ∧ shut l t = true := by
    intro t ht
    have hm := List.mem_of_getLast? ht
    exact ⟨hu.code t hm, hu.closed t hm⟩
  have hone : ';'.utf8Size = 1 ∧ ' '.utf8Size = 1 := ⟨rfl, rfl⟩
  have hpos : size (u ++ "; ") = size u + 1 + 1 := Text.size_append u "; "
  have hblank : Text.isBlank ' ' = true := by decide
  rw [tokenize, hline, scan_append_of_shut hbreak hend, scan_mark (by decide),
    scan_blank _ _ hblank, hone.1, hone.2, Nat.zero_add, ← hpos,
    scan_eq_moved (size (u ++ "; "))]
  rfl

theorem code_joined (hu : Simple l u) (hv : Simple l v) :
    ∀ t ∈ tokenize l (joined u v), t.isComment = false := by
  rw [tokenize_joined hu]
  exact List.forall_mem_append.2
    ⟨hu.code, List.forall_mem_cons.2 ⟨rfl, List.forall_mem_map.2 hv.code⟩⟩

end Token

namespace Binding
open Token
open Text (size)

variable {l : Language} {u v : Text}

theorem ofTokens_simple (hu : Simple l u) (n : Nat) :
    ofTokens l u n (tokenize l u) = ofStatement l u n (tokenize l u) := by
  rw [ofTokens, code_eq_self hu.code, (hu.nested.uncutAt hu.single).splitTopLevel]
  exact List.flatMap_singleton ..

theorem entries_joined (hu : Simple l u) (hv : Simple l v) (m i j : Nat) :
    (ofTokens l (joined u v) m (tokenize l (joined u v))).map entry =
      (ofTokens l u i (tokenize l u)).map entry ++ (ofTokens l v j (tokenize l v)).map entry := by
  have hfirst := ofStatement_moved (List.infix_refl (tokenize l u)) [] ("; " ++ v) m i
  have hsecond := ofStatement_moved (List.infix_refl (tokenize l v)) (u ++ "; ") [] m j
  have hstay : (tokenize l u).map (moved (size [])) = tokenize l u := List.map_id' _
  rw [hstay, List.nil_append, ← List.append_assoc] at hfirst
  rw [List.append_nil] at hsecond
  have hcut : splitTopLevel ';' ((tokenize l v).map (moved (size (u ++ "; ")))) =
      [(tokenize l v).map (moved (size (u ++ "; ")))] := by
    rw [splitTopLevel_moved, (hv.nested.uncutAt hv.single).splitTopLevel]
    rfl
  rw [ofTokens, code_eq_self (code_joined hu hv), tokenize_joined hu,
    (hu.nested.uncutAt hu.single).splitTopLevel_cons rfl rfl rfl, hcut, ofTokens_simple hu,
    ofTokens_simple hv, List.flatMap_cons, List.flatMap_singleton, List.map_append, joined, hfirst,
    hsecond]

theorem entries_number (text : Text) (m n : Nat) :
    (ofTokens l text m (tokenize l text)).map entry =
      (ofTokens l text n (tokenize l text)).map entry := by
  rw [ofTokens, ofTokens, List.map_flatMap, List.map_flatMap]
  refine List.flatMap_congr fun part hp => ?_
  have hpart := (part_of_mem_splitTopLevel hp).trans (code_initial l 0 0 text).isInfix
  have hmoved := ofStatement_moved (l := l) hpart [] [] m n
  have hstay : part.map (moved (size [])) = part := List.map_id' _
  rwa [hstay, List.append_nil, List.nil_append] at hmoved

theorem targets_of_reserved {a : Token} (h : Language.python.isReserved a.text = true)
    (ts : List Token) : (targets (a :: ts)).1 = [] := by
  cases ts with
  | nil => rfl
  | cons b r => simp [targets, h]

end Binding

namespace Line
open Token

section
variable {l : Language} {ts r : List Token} {t : Token} (h : t.kind = .punct ';')
include h

theorem isWordAt_append (w : Text) : isWordAt (ts ++ t :: r) w = isWordAt ts w := by
  cases ts with
  | nil => simp [isWordAt, isWord, isIdent, h]
  | cons a s => rfl

theorem isParenAt_append : isParenAt (ts ++ t :: r) = isParenAt ts := by
  cases ts with
  | nil => simp [isParenAt, isPunct, h]
  | cons a s => rfl

theorem requiresModule_append (heq : ∃ x ∈ ts, x.isPunct '=' = true) :
    requiresModule (ts ++ t :: r) = requiresModule ts := by
  induction ts with
  | nil =>
    obtain ⟨x, hx, -⟩ := heq
    cases hx
  | cons a s ih =>
    cases ha : a.isPunct '=' with
    | true =>
      simp only [requiresModule, List.cons_append, List.dropWhile_cons, ha, Bool.not_true,
        Bool.false_eq_true, if_false, List.drop_succ_cons, List.drop_zero]
      rw [isWordAt_append h]
      cases s with
      | nil => simp [isWordAt]
      | cons b s => rw [List.cons_append, List.drop_succ_cons, List.drop_zero, isParenAt_append h,
          List.drop_succ_cons, List.drop_zero]
    | false =>
      obtain ⟨x, hx, hxe⟩ := heq
      have hs : ∃ x ∈ s, x.isPunct '=' = true := by
        rcases List.mem_cons.1 hx with rfl | hx
        · rw [ha] at hxe
          cases hxe
        · exact ⟨x, hx, hxe⟩
      have hdrop : ∀ us : List Token, requiresModule (a :: us) = requiresModule us := by
        intro us
        simp only [requiresModule, List.dropWhile_cons, ha, Bool.not_false, if_true]
      rw [List.cons_append, hdrop, hdrop, ih hs]

theorem importsIn_word {a : Token} (s : List Token)
    (hw : (isWordAt [a] "import" || isWordAt [a] "require") = true) :
    importsIn .javascript (a :: s ++ t :: r) = importsIn .javascript (a :: s) := by
  have hword : ∀ (us : List Token) (w : Text), isWordAt (a :: us) w = isWordAt [a] w :=
    fun _ _ => rfl
  simp only [importsIn, List.cons_append, hword, List.drop_succ_cons, List.drop_zero,
    isParenAt_append h]
  rcases Bool.or_eq_true_iff.1 hw with hw | hw <;> simp only [hw, if_true]

omit h in
theorem importsIn_declaration {a : Token} (s : List Token)
    (hw : (isWordAt [a] "import" || isWordAt [a] "require") = false) :
    importsIn .javascript (a :: s) =
      ((a.isIdent && Binding.declarationWords.contains a.text) && requiresModule (a :: s)) := by
  obtain ⟨hi, hr⟩ := Bool.or_eq_false_iff.1 hw
  have hword : ∀ w : Text, isWordAt (a :: s) w = isWordAt [a] w := fun _ => rfl
  simp only [importsIn, hword, hi, hr, Bool.false_eq_true, if_false]
  rfl

omit h in
theorem exists_of_requiresModule (hr : requiresModule ts = true) :
    ∃ x ∈ ts, x.isPunct '=' = true := by
  by_contra hno
  have hnone : ts.dropWhile (!isPunct '=' ·) = [] := by
    refine List.dropWhile_eq_nil_iff.2 fun x hx => ?_
    rw [Bool.not_eq_true', ← Bool.not_eq_true]
    exact fun he => hno ⟨x, hx, he⟩
  simp [requiresModule, hnone, isWordAt] at hr

theorem importsIn_append (hi : importsIn l ts = true) : importsIn l (ts ++ t :: r) = true := by
  cases ts with
  | nil => cases l <;> cases hi
  | cons a s =>
    cases l with
    | python =>
      simp only [importsIn, Bool.or_eq_true, Bool.and_eq_true] at hi ⊢
      refine hi.imp (fun hw => hw) fun hw => ⟨hw.1, ?_⟩
      rw [List.any_append, hw.2, Bool.true_or]
    | javascript =>
      cases hw : isWordAt [a] "import" || isWordAt [a] "require" with
      | true => rwa [importsIn_word h s hw]
      | false =>
        rw [importsIn_declaration s hw, Bool.and_eq_true] at hi
        rw [List.cons_append, importsIn_declaration _ hw, Bool.and_eq_true, ← List.cons_append,
          requiresModule_append h (exists_of_requiresModule hi.2)]
        exact hi

theorem ofStatement_of_importsIn (hi : importsIn l (ts ++ t :: r) = true)
    (hn : importsIn l ts = false) (line : Text) (n : Nat) :
    Binding.ofStatement l line n ts = [] := by
  cases ts with
  | nil => cases l <;> rfl
  | cons a s =>
    cases l with
    | python =>
      have hword : ∀ us : List Token, isWordAt (a :: us) "import" = a.isWord "import" :=
        fun _ => rfl
      simp only [importsIn, List.cons_append, hword, Bool.or_eq_false_iff] at hi hn
      rw [hn.1, Bool.false_or, Bool.and_eq_true] at hi
      have hfrom : a.isIdent = true ∧ a.text = "from".toList := by
        simpa only [isWordAt, List.head?_cons, Option.any_some, isWord, Bool.and_eq_true,
          beq_iff_eq] using hi.1
      have hnone : (Binding.targets (a :: s)).1 = [] := by
        refine Binding.targets_of_reserved ?_ s
        rw [hfrom.2]
        decide +kernel
      simp [Binding.ofStatement, Binding.ofAssignment, hnone]
    | javascript =>
      cases hw : isWordAt [a] "import" || isWordAt [a] "require" with
      | true =>
        rw [importsIn_word h s hw, hn] at hi
        cases hi
      | false =>
        rw [importsIn_declaration s hw] at hn
        rw [List.cons_append, importsIn_declaration _ hw, Bool.and_eq_true,
          ← List.cons_append] at hi
        rw [hi.1, Bool.true_and] at hn
        refine List.eq_nil_iff_forall_not_mem.2 fun b hb => ?_
        have hb : b ∈ Binding.ofDeclaration line n (a :: s) := hb
        obtain ⟨-, -, pre, eq, value, post, hts, he, -⟩ := Binding.placed_declaration hb
        have hmem : eq ∈ a :: s := by rw [hts]; simp
        rw [requiresModule_append h ⟨eq, hmem, he⟩, hn] at hi
        cases hi.2

end

end Line

namespace Header
open Token
variable {l : Language} {ts r : List Token} {t : Token}

theorem skipAsync_append (ht : t.text = [';']) :
    skipAsync (ts ++ t :: r) = skipAsync ts ++ t :: r := by
  cases ts with
  | nil => simp [skipAsync, ht]
  | cons a s =>
    rw [List.cons_append, skipAsync, skipAsync]
    split <;> rfl

theorem introducer_append (h : t.kind = .punct ';') (ht : t.text = [';'])
    (hn : introducer l ts = none) : introducer l (ts ++ t :: r) = none := by
  have hident : t.isIdent = false := by simp [isIdent, h]
  have hparen : t.isPunct '(' = false := by simp [isPunct, h]
  unfold introducer at hn ⊢
  rw [skipAsync_append ht]
  generalize skipAsync ts = us at hn ⊢
  cases us with
  | nil =>
    rw [List.nil_append]
    split
    · next word name paren rest he =>
      obtain ⟨rfl, -⟩ := List.cons.inj he
      simp [isWord, hident]
    · rfl
  | cons word us =>
    cases us with
    | nil => cases r <;> simp [hident]
    | cons name us =>
      cases us with
      | nil => simp [hparen]
      | cons paren rest =>
        dsimp only at hn
        split at hn
        · cases hn
        · next hc => exact if_neg hc

end Header

namespace Token
variable {l : Language} {u v : Text}

theorem Nested.balanced {ts : List Token} (h : Nested ts) : openBraces ts = closeBraces ts := by
  induction h with
  | nil => rfl
  | @step t r ho hc _ ih =>
    have hplain : t.isPunct '\x7b' = false ∧ t.isPunct '\x7d' = false := by
      simp only [opens, closes, Bool.or_eq_false_iff] at ho hc
      exact ⟨ho.2, hc.2⟩
    simp only [openBraces, closeBraces, List.countP_cons, hplain] at ih ⊢
    simpa using ih
  | @group o c a b inner r hm ho hc _ _ ihi ihr =>
    simp only [openBraces, closeBraces, List.countP_cons, List.countP_append] at ihi ihr ⊢
    cases hm <;> simp [isPunct, ho, hc] <;> omega

end Token
end Polyglot
