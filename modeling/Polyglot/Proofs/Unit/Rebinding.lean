import Polyglot.Proofs.Token.Shifted
import Polyglot.Proofs.Token.Shut
import Polyglot.Proofs.Unit.Declaring

/-!
# Bindings declared again

The expression of a binding is the text of tokens that nothing cuts and no further target
begins. Cut out of a line whose strings are closed it has these tokens wherever it is put, so
the declaration made of the binding binds the same name to the same text.
-/
namespace Polyglot.Binding
open Token
open Text (size)

variable {l : Language} {ts : List Token}

/-- Nothing among the tokens ends a statement or a declarator, and no further target begins
them. -/
structure Valued (l : Language) (ts : List Token) : Prop where
  nested : Nested ts
  code : ∀ t ∈ ts, t.isComment = false
  semicolon : Free ';' ts
  comma : l = .javascript → Free ',' ts
  target : l = .python → (targets ts).1 = []

theorem valued_moved_iff (d : Nat) : Valued l (ts.map (moved d)) ↔ Valued l ts := by
  have hkind : ∀ t, (moved d t).kind = t.kind := fun _ => rfl
  have hcode : (∀ t ∈ ts.map (moved d), t.isComment = false) ↔ ∀ t ∈ ts, t.isComment = false :=
    List.forall_mem_map
  have htarget : (targets (ts.map (moved d))).1 = (targets ts).1 := by rw [targets_moved]
  constructor
  · intro h
    exact {
      nested := (nested_map_iff hkind ts).1 h.nested
      code := hcode.1 h.code
      semicolon := (free_map_iff hkind ';' ts).1 h.semicolon
      comma := fun hl => (free_map_iff hkind ',' ts).1 (h.comma hl)
      target := fun hl => htarget.symm.trans (h.target hl) }
  · intro h
    exact {
      nested := (nested_map_iff hkind ts).2 h.nested
      code := hcode.2 h.code
      semicolon := (free_map_iff hkind ';' ts).2 h.semicolon
      comma := fun hl => (free_map_iff hkind ',' ts).2 (h.comma hl)
      target := fun hl => htarget.trans (h.target hl) }

theorem Valued.expression {w : Text} {pos : Nat} (h : Valued l ts)
    (hfirst : ts.head?.map start = some pos)
    (hlast : ts.getLast?.map stop = some (pos + size w)) : Expression l w pos ts where
  first := hfirst
  last := hlast
  code := h.code
  semicolon := h.nested.uncutAt h.semicolon
  comma := fun hl => h.nested.uncutAt (h.comma hl)
  value := h.target

theorem nested_value {name eq : Token} {r : List Token} (h : Nested (name :: eq :: r))
    (hi : name.isIdent = true) (he : eq.isPunct '=' = true) :
    Nested r ∧ ∀ t ∈ outside 0 r, t ∈ outside 0 (name :: eq :: r) := by
  have hno : name.opens = false ∧ eq.opens = false := by
    simp only [isIdent, isPunct, beq_iff_eq] at hi he
    simp [opens, isPunct, hi, he]
  obtain ⟨hc, hr⟩ := h.tail hno.1
  obtain ⟨hce, hr⟩ := hr.tail hno.2
  rw [outside_passes hno.1 hc, outside_passes hno.2 hce]
  exact ⟨hr, fun t ht => List.mem_cons_of_mem _ (List.mem_cons_of_mem _ ht)⟩

theorem nested_targets {ts : List Token} (h : Nested ts) :
    Nested (targets ts).2 ∧ ∀ t ∈ outside 0 (targets ts).2, t ∈ outside 0 ts := by
  fun_induction targets ts with
  | case1 name eq rest hc ih =>
    simp only [Bool.and_eq_true] at hc
    obtain ⟨⟨hi, -⟩, ha⟩ := hc
    obtain ⟨e, value, hv, he⟩ := exists_of_assigns ha
    cases hv
    obtain ⟨hn, hout⟩ := nested_value h hi he
    obtain ⟨hvalue, hin⟩ := ih hn
    exact ⟨hvalue, fun t ht => hout t (hin t ht)⟩
  | case2 => exact ⟨h, fun _ ht => ht⟩
  | case3 => exact ⟨h, fun _ ht => ht⟩

section
variable {line : Text} {number : Nat} {b : Binding} {part : List Token}

theorem valued_of_declarator (hn : Nested part) (hc : ∀ t ∈ part, t.isComment = false)
    (hsemi : Free ';' part) (hcomma : Free ',' part) (h : declarator line number part = some b) :
    ∃ vs, vs <:+ part ∧ vs ≠ [] ∧ b.expression = spanText line vs ∧ Valued .javascript vs := by
  cases part with
  | nil => cases h
  | cons name rest =>
    rw [declarator] at h
    split at h
    · next hcond =>
      cases h
      simp only [Bool.and_eq_true, Bool.not_eq_true'] at hcond
      obtain ⟨⟨hi, ha⟩, hv⟩ := hcond
      obtain ⟨eq, vs, rfl, he⟩ := exists_of_assigns ha
      obtain ⟨hvs, hout⟩ := nested_value hn hi he
      have hsuffix : vs <:+ name :: eq :: vs :=
        (List.suffix_cons eq vs).trans (List.suffix_cons name _)
      exact ⟨vs, hsuffix, ne_nil_of_spanText hv, rfl, {
        nested := hvs
        code := fun t ht => hc t (hsuffix.subset ht)
        semicolon := fun t ht => hsemi t (hout t ht)
        comma := fun _ t ht => hcomma t (hout t ht)
        target := fun hl => by cases hl }⟩
    · cases h

theorem valued_of_assignment (hn : Nested part) (hc : ∀ t ∈ part, t.isComment = false)
    (hsemi : Free ';' part) (h : b ∈ ofAssignment line number part) :
    ∃ vs, vs <:+ part ∧ vs ≠ [] ∧ b.expression = spanText line vs ∧ Valued .python vs := by
  unfold ofAssignment at h
  dsimp only at h
  cases hv : (spanText line (targets part).2).isEmpty with
  | true => rw [hv, if_pos rfl] at h; cases h
  | false =>
    rw [hv, if_neg Bool.false_ne_true] at h
    obtain ⟨n, hmem, rfl⟩ := List.mem_map.1 h
    obtain ⟨hvs, hout⟩ := nested_targets hn
    have hsuffix := targets_suffix part
    exact ⟨(targets part).2, hsuffix, ne_nil_of_spanText hv, rfl, {
      nested := hvs
      code := fun t ht => hc t (hsuffix.subset ht)
      semicolon := fun t ht => hsemi t (hout t ht)
      comma := fun hl => by cases hl
      target := fun _ => targets_again part }⟩

theorem exists_valued {ts : List Token} (hn : Nested (Token.code ts))
    (hb : b ∈ ofTokens l line number ts) :
    ∃ vs, vs <:+: Token.code ts ∧ vs ≠ [] ∧ b.expression = spanText line vs ∧ Valued l vs := by
  obtain ⟨part, hp, hb⟩ := List.mem_flatMap.1 hb
  have hwithin := part_of_mem_splitTopLevel hp
  have hcode : ∀ t ∈ part, t.isComment = false := by
    intro t ht
    have hm := (List.mem_filter.1 (hwithin.subset ht)).2
    simpa using hm
  obtain ⟨hpart, hout⟩ := hn.of_mem_splitTopLevel hp
  have hsemi : Free ';' part := fun t ht => (hout t ht).2
  cases l with
  | python =>
    obtain ⟨vs, hvs, hne, he, hv⟩ := valued_of_assignment hpart hcode hsemi hb
    exact ⟨vs, hvs.isInfix.trans hwithin, hne, he, hv⟩
  | javascript =>
    cases part with
    | nil => cases hb
    | cons word rest =>
      rw [ofStatement, ofDeclaration] at hb
      split at hb
      · next hword =>
        simp only [Bool.and_eq_true, isIdent, beq_iff_eq] at hword
        have hno : word.opens = false := by simp [opens, isPunct, hword.1]
        obtain ⟨hc, hrest⟩ := hpart.tail hno
        obtain ⟨piece, hpiece, hb⟩ := List.mem_filterMap.1 hb
        have hsub := part_of_mem_splitTopLevel hpiece
        have hbehind : rest <:+: word :: rest := (List.suffix_cons word rest).isInfix
        obtain ⟨hnested, hin⟩ := hrest.of_mem_splitTopLevel hpiece
        rw [Free, outside_passes hno hc, List.forall_mem_cons] at hsemi
        obtain ⟨vs, hvs, hne, he, hv⟩ := valued_of_declarator hnested
          (fun t ht => hcode t (List.mem_cons_of_mem _ (hsub.subset ht)))
          (fun t ht => hsemi.2 t (hin t ht).1) (fun t ht => (hin t ht).2) hb
        exact ⟨vs, ((hvs.isInfix.trans hsub).trans hbehind).trans hwithin, hne, he, hv⟩
      · cases hb

end

theorem eq_some_of_shift {o : Option Nat} {d n : Nat} (h : o.map (· + d) = some (d + n)) :
    o = some n := by
  obtain ⟨m, rfl, hm⟩ := Option.map_eq_some_iff.1 h
  rw [Nat.add_comm d n, Nat.add_right_cancel_iff] at hm
  rw [hm]

theorem scans_expression {line : Text} {pre vs post : List Token}
    (h : tokenize l line = pre ++ (vs ++ post)) (hne : vs ≠ []) (hv : Valued l vs)
    (hs : ∀ t ∈ vs, shut l t = true) :
    Scans l (spanText line vs) (Expression l (spanText line vs)) ∧
      Text.trim (spanText line vs) = spanText line vs ∧ spanText line vs ≠ [] := by
  obtain ⟨u, z, -, hscan, htrim, hfirst, hlast⟩ :=
    exists_cut_of_shut h hne fun t ht => ⟨hv.code t ht, hs t ht⟩
  generalize spanText line vs = w at hscan htrim hlast ⊢
  have hmoved : ∀ pos, scan l 0 pos w = (tokenize l w).map (moved pos) := fun pos =>
    scan_eq_moved pos w
  rw [hmoved] at hscan
  generalize tokenize l w = ts at hscan hmoved
  subst hscan
  obtain ⟨hhead, htail⟩ := ends_moved (size u) ts
  rw [hhead] at hfirst
  rw [htail] at hlast
  rw [valued_moved_iff] at hv
  refine ⟨fun pos rest hr => ⟨_, scan_append_of_shut hr fun t ht => ?_, ?_⟩, htrim, ?_⟩
  · rw [hmoved] at ht
    obtain ⟨x, hx, rfl⟩ := List.mem_map.1 (List.mem_of_getLast? ht)
    exact ⟨hv.code x hx, hs (moved (size u) x) (List.mem_map_of_mem hx)⟩
  · rw [hmoved]
    obtain ⟨hhead, htail⟩ := ends_moved pos ts
    refine ((valued_moved_iff pos).2 hv).expression ?_ ?_
    · rw [hhead, eq_some_of_shift (n := 0) hfirst, Option.map_some, Nat.zero_add]
    · rw [htail, eq_some_of_shift hlast, Option.map_some, Nat.add_comm]
  · rintro rfl
    have hnil := hmoved 0
    rw [scan] at hnil
    exact hne (by rw [List.map_eq_nil_iff.1 hnil.symm]; rfl)

/-- A binding of a line whose brackets are nested and whose strings are closed is all that is
read from the declaration made of it. -/
theorem declare_reads_back {line : Text} {number : Nat} {b : Binding}
    (hn : Nested (Token.code (tokenize l line))) (hs : ∀ t ∈ tokenize l line, shut l t = true)
    (hb : b ∈ ofTokens l line number (tokenize l line)) (next : Nat) :
    ofTokens l (l.declare b.name b.expression) next
        (tokenize l (l.declare b.name b.expression)) =
      [⟨b.name, b.expression, next⟩] := by
  obtain ⟨vs, hvs, hne, he, hv⟩ := exists_valued hn hb
  have hcode := code_initial l 0 0 line
  obtain ⟨pre, post, hline⟩ := hvs.trans hcode.isInfix
  rw [List.append_assoc] at hline
  obtain ⟨hw, htrim, hempty⟩ := scans_expression hline.symm hne hv fun t ht =>
    hs t (hcode.subset (hvs.subset ht))
  rw [← he] at hw htrim hempty
  obtain ⟨-, ⟨t, ht, hi, hname⟩, -⟩ := placed_of_mem hb
  obtain ⟨c, r, htext, hstart, hr⟩ := exists_of_isIdent (hcode.subset ht) hi
  have hname : b.name = c :: r := hname.trans htext
  rw [hname]
  refine ofTokens_declare hstart hr ?_ hw htrim hempty next
  rintro rfl
  obtain ⟨part, -, hb⟩ := List.mem_flatMap.1 hb
  have hfree := not_reserved_of_assignment hb
  rwa [hname] at hfree

/-- A line with several statements, chained targets, marks inside brackets and strings, and a
comment behind. -/
def braided : Text := "n = 0; x = y = r\"#;\" + k(z=(1, 2)) # c"

theorem declare_reads_back_braided :
    Nested (Token.code (tokenize .python braided)) ∧
      (∀ t ∈ tokenize .python braided, shut .python t = true) ∧
      (⟨"y", "r\"#;\" + k(z=(1, 2))", 1⟩ : Binding) ∈
        ofTokens .python braided 1 (tokenize .python braided) ∧
      ofTokens .python (Language.python.declare "y" "r\"#;\" + k(z=(1, 2))") 7
          (tokenize .python (Language.python.declare "y" "r\"#;\" + k(z=(1, 2))")) =
        [⟨"y", "r\"#;\" + k(z=(1, 2))", 7⟩] := by
  have hn : Nested (Token.code (tokenize .python braided)) := by decide +kernel
  have hs : ∀ t ∈ tokenize .python braided, shut .python t = true := by decide +kernel
  have hb : (⟨"y", "r\"#;\" + k(z=(1, 2))", 1⟩ : Binding) ∈
      ofTokens .python braided 1 (tokenize .python braided) := by decide +kernel
  exact ⟨hn, hs, hb, declare_reads_back hn hs hb 7⟩

end Polyglot.Binding
