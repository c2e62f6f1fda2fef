import Polyglot.Proofs.Token.Nested

/-!
# Tokens outside brackets

Whether brackets pair up is decided with a stack of those still open. Cutting nested tokens
at a separator gives nested pieces: the cuts are made among the tokens outside all brackets,
and what stands outside the brackets of a piece stands outside those of the whole.
-/
namespace Polyglot.Token

def mate? (c : Char) : Option Char :=
  if c = '(' then some ')'
  else if c = '[' then some ']'
  else if c = '\x7b' then some '\x7d'
  else none

def settles : List Char → List Token → Bool
  | stack, [] => stack.isEmpty
  | stack, t :: r =>
    match t.kind with
    | .punct c =>
      match mate? c with
      | some d => settles (d :: stack) r
      | none =>
        if t.closes then
          match stack with
          | [] => false
          | d :: s => c == d && settles s r
        else settles stack r
    | _ => settles stack r

theorem mate?_eq_some {a b : Char} : mate? a = some b ↔ Mates a b := by
  constructor
  · intro h
    unfold mate? at h
    split at h
    · next ha => cases h; exact ha ▸ .round
    split at h
    · next ha => cases h; exact ha ▸ .square
    split at h
    · next ha => cases h; exact ha ▸ .curly
    · cases h
  · intro h
    cases h <;> rfl

section
variable {t : Token} {stack : List Char} {r : List Token}

theorem settles_opens {a b : Char} (hm : Mates a b) (hk : t.kind = .punct a) :
    settles stack (t :: r) = settles (b :: stack) r := by
  simp only [settles, hk, mate?_eq_some.2 hm]

theorem settles_closes {a b : Char} (hm : Mates a b) (hk : t.kind = .punct b) :
    settles (b :: stack) (t :: r) = settles stack r := by
  have hn : mate? b = none := by cases hm <;> rfl
  simp [settles, hk, hn, (closes_of_kind hm hk).2]

theorem settles_passes (ho : t.opens = false) (hc : t.closes = false) :
    settles stack (t :: r) = settles stack r := by
  rw [settles]
  split
  · next c hk =>
    have hn : mate? c = none := by
      cases hm : mate? c with
      | none => rfl
      | some d => rw [opens_of_kind (mate?_eq_some.1 hm) hk] at ho; cases ho
    simp [hn, hc]
  · rfl

theorem token_cases (t : Token) :
    (∃ a b, Mates a b ∧ t.kind = .punct a) ∨ (∃ a b, Mates a b ∧ t.kind = .punct b) ∨
      t.opens = false ∧ t.closes = false := by
  cases ho : t.opens with
  | true =>
    simp only [opens, isPunct, Bool.or_eq_true, beq_iff_eq] at ho
    obtain (h | h) | h := ho
    · exact .inl ⟨_, _, .round, h⟩
    · exact .inl ⟨_, _, .square, h⟩
    · exact .inl ⟨_, _, .curly, h⟩
  | false =>
    cases hc : t.closes with
    | true =>
      simp only [closes, isPunct, Bool.or_eq_true, beq_iff_eq] at hc
      obtain (h | h) | h := hc
      · exact .inr (.inl ⟨_, _, .round, h⟩)
      · exact .inr (.inl ⟨_, _, .square, h⟩)
      · exact .inr (.inl ⟨_, _, .curly, h⟩)
    | false => exact .inr (.inr ⟨rfl, rfl⟩)

end

theorem Nested.settles {ts : List Token} (h : Nested ts) (stack : List Char) (r : List Token) :
    settles stack (ts ++ r) = settles stack r := by
  induction h generalizing stack r with
  | nil => rfl
  | step ho hc _ ih => rw [List.cons_append, settles_passes ho hc, ih]
  | group hm ho hc _ _ ihi ihr =>
    rw [List.cons_append, List.append_assoc, List.cons_append, settles_opens hm ho, ihi,
      settles_closes hm hc, ihr]

theorem nested_of_settles {stack : List Char} {ts : List Token} (h : settles stack ts = true) :
    match stack with
    | [] => Nested ts
    | d :: s => ∃ inner c r, ts = inner ++ c :: r ∧ Nested inner ∧ c.kind = .punct d ∧
        settles s r = true := by
  -- A group is followed by tokens that are shorter by the group, so the induction is on length.
  induction hn : ts.length using Nat.strongRecOn generalizing stack ts with
  | ind n ih =>
    cases ts with
    | nil =>
      cases stack with
      | nil => exact .nil
      | cons d s => cases h
    | cons t r =>
      rw [List.length_cons] at hn
      rcases token_cases t with ⟨a, b, hm, hk⟩ | ⟨a, b, hm, hk⟩ | ⟨ho, hc⟩
      · rw [settles_opens hm hk] at h
        obtain ⟨inner, c, u, rfl, hi, hc, hu⟩ := ih r.length (by omega) h rfl
        have hlen : u.length < n := by
          rw [List.length_append, List.length_cons] at hn
          omega
        have hrest := ih u.length hlen hu rfl
        cases stack with
        | nil => exact .group hm hk hc hi hrest
        | cons d s =>
          obtain ⟨inner', c', u', rfl, hi', hc', hu'⟩ := hrest
          exact ⟨t :: (inner ++ c :: inner'), c', u', by simp, .group hm hk hc hi hi', hc', hu'⟩
      · have hnone : mate? b = none := by cases hm <;> rfl
        cases stack with
        | nil => simp [settles, hk, hnone, (closes_of_kind hm hk).2] at h
        | cons d s =>
          simp only [settles, hk, hnone, (closes_of_kind hm hk).2, if_true, Bool.and_eq_true,
            beq_iff_eq] at h
          exact ⟨[], t, r, rfl, .nil, h.1 ▸ hk, h.2⟩
      · rw [settles_passes ho hc] at h
        have hrest := ih r.length (by omega) h rfl
        cases stack with
        | nil => exact .step ho hc hrest
        | cons d s =>
          obtain ⟨inner, c, u, rfl, hi, hk, hu⟩ := hrest
          exact ⟨t :: inner, c, u, rfl, .step ho hc hi, hk, hu⟩

theorem nested_iff_settles {ts : List Token} : Nested ts ↔ settles [] ts = true := by
  constructor
  · intro h
    have hs := h.settles [] []
    rw [List.append_nil] at hs
    rw [hs]
    rfl
  · exact fun h => nested_of_settles h

instance (ts : List Token) : Decidable (Nested ts) := decidable_of_iff _ nested_iff_settles.symm

theorem Nested.tail {t : Token} {r : List Token} (h : Nested (t :: r)) (ho : t.opens = false) :
    t.closes = false ∧ Nested r := by
  generalize hx : t :: r = ts at h
  cases h with
  | nil => cases hx
  | step _ hc hr =>
    obtain ⟨rfl, rfl⟩ := List.cons.inj hx
    exact ⟨hc, hr⟩
  | group hm hk _ _ _ =>
    obtain ⟨rfl, -⟩ := List.cons.inj hx
    rw [opens_of_kind hm hk] at ho
    cases ho

def outside : (depth : Nat) → List Token → List Token
  | _, [] => []
  | depth, t :: r =>
    if t.opens then outside (depth + 1) r
    else if t.closes then outside (depth - 1) r
    else if depth = 0 then t :: outside 0 r
    else outside depth r

def Free (mark : Char) (ts : List Token) : Prop := ∀ t ∈ outside 0 ts, t.isPunct mark = false

section
variable {t : Token} {r : List Token}

theorem outside_passes (ho : t.opens = false) (hc : t.closes = false) :
    outside 0 (t :: r) = t :: outside 0 r := by
  simp [outside, ho, hc]

theorem Nested.outside_succ {ts : List Token} (h : Nested ts) (d : Nat) (r : List Token) :
    outside (d + 1) (ts ++ r) = outside (d + 1) r := by
  induction h generalizing d r with
  | nil => rfl
  | step ho hc _ ih => simp [outside, ho, hc, ih]
  | group hm ho hc _ _ ihi ihr =>
    obtain ⟨hno, hcl⟩ := closes_of_kind hm hc
    simp [outside, opens_of_kind hm ho, hno, hcl, ihi, ihr]

theorem outside_group {o c : Token} {a b : Char} {inner : List Token} (hm : Mates a b)
    (ho : o.kind = .punct a) (hc : c.kind = .punct b) (hi : Nested inner) :
    outside 0 (o :: (inner ++ c :: r)) = outside 0 r := by
  obtain ⟨hno, hcl⟩ := closes_of_kind hm hc
  simp [outside, opens_of_kind hm ho, hi.outside_succ, hno, hcl]

end

section
variable {f : Token → Token} (hf : ∀ t, (f t).kind = t.kind)
include hf

theorem opens_map (t : Token) : (f t).opens = t.opens := by simp [opens, isPunct, hf]

theorem closes_map (t : Token) : (f t).closes = t.closes := by simp [closes, isPunct, hf]

theorem settles_map (stack : List Char) (ts : List Token) :
    settles stack (ts.map f) = settles stack ts := by
  induction ts generalizing stack with
  | nil => rfl
  | cons t r ih => simp only [List.map_cons, settles, hf, closes_map hf, ih]

theorem nested_map_iff (ts : List Token) : Nested (ts.map f) ↔ Nested ts := by
  rw [nested_iff_settles, nested_iff_settles, settles_map hf]

theorem outside_map (depth : Nat) (ts : List Token) :
    outside depth (ts.map f) = (outside depth ts).map f := by
  induction ts generalizing depth with
  | nil => rfl
  | cons t r ih =>
    simp only [List.map_cons, outside, opens_map hf, closes_map hf, ih]
    repeat' split
    all_goals rfl

theorem free_map_iff (mark : Char) (ts : List Token) : Free mark (ts.map f) ↔ Free mark ts := by
  simp only [Free, outside_map hf, List.forall_mem_map, isPunct, hf]

end

theorem exists_splitTop (sep : Char) (depth : Nat) (ts : List Token) :
    ∃ q qs, splitTop sep depth ts = q :: qs := by
  have hcons : ∀ (t : Token) (ps : List (List Token)), ∃ q qs, consFirst t ps = q :: qs := by
    intro t ps
    cases ps with
    | nil => exact ⟨_, _, rfl⟩
    | cons q qs => exact ⟨_, _, rfl⟩
  cases ts with
  | nil => exact ⟨_, _, rfl⟩
  | cons t r =>
    rw [splitTop]
    split
    · exact hcons t _
    · split
      · exact hcons t _
      · split
        · exact ⟨_, _, rfl⟩
        · exact hcons t _

theorem Nested.of_mem_splitTopLevel {ts p : List Token} {sep : Char} (h : Nested ts)
    (hp : p ∈ splitTopLevel sep ts) :
    Nested p ∧ ∀ t ∈ outside 0 p, t ∈ outside 0 ts ∧ t.isPunct sep = false := by
  rw [splitTopLevel] at hp
  induction h generalizing p with
  | nil =>
    obtain rfl := List.mem_singleton.1 hp
    exact ⟨.nil, fun _ ht => absurd ht List.not_mem_nil⟩
  | @step x r ho hc hr ih =>
    rw [outside_passes ho hc]
    have hrest : ∀ q ∈ Token.splitTop sep 0 r, Nested q ∧
        ∀ t ∈ outside 0 q, t ∈ x :: outside 0 r ∧ t.isPunct sep = false := by
      intro q hq
      obtain ⟨hn, hout⟩ := ih hq
      exact ⟨hn, fun t ht => ⟨List.mem_cons_of_mem x (hout t ht).1, (hout t ht).2⟩⟩
    cases hs : x.isPunct sep with
    | true =>
      rw [splitTop_separator ho hc hs] at hp
      rcases List.mem_cons.1 hp with rfl | hp
      · exact ⟨.nil, fun _ ht => absurd ht List.not_mem_nil⟩
      · exact hrest p hp
    | false =>
      rw [splitTop_passes ho hc (.inl hs)] at hp
      obtain ⟨q, qs, hq⟩ := exists_splitTop sep 0 r
      rw [hq] at hp hrest
      rcases List.mem_cons.1 hp with rfl | hp
      · obtain ⟨hn, hout⟩ := hrest q List.mem_cons_self
        rw [outside_passes ho hc]
        exact ⟨.step ho hc hn, List.forall_mem_cons.2 ⟨⟨List.mem_cons_self, hs⟩, hout⟩⟩
      · exact hrest p (List.mem_cons_of_mem q hp)
  | @group o c a b inner r hm ho hc hi _ _ ih =>
    -- A group stays whole, in front of the first piece of what is behind it.
    rw [outside_group hm ho hc hi]
    rw [splitTop_group hm ho hc hi] at hp
    obtain ⟨q, qs, hq⟩ := exists_splitTop sep 0 r
    rw [hq] at ih hp
    rw [consAll_cons] at hp
    rcases List.mem_cons.1 hp with rfl | hp
    · obtain ⟨hn, hout⟩ := ih List.mem_cons_self
      have hx : o :: (inner ++ [c]) ++ q = o :: (inner ++ c :: q) := by simp
      rw [hx, outside_group hm ho hc hi]
      exact ⟨.group hm ho hc hi hn, hout⟩
    · exact ih (List.mem_cons_of_mem q hp)

theorem Nested.uncutAt {ts : List Token} {sep : Char} (h : Nested ts) (hf : Free sep ts) :
    UncutAt sep ts := by
  intro r
  induction h with
  | nil => rfl
  | step ho hc _ ih =>
    rw [Free, outside_passes ho hc, List.forall_mem_cons] at hf
    rw [List.cons_append, splitTop_passes ho hc (.inl hf.1), ih hf.2]
    rfl
  | @group o c a b inner r' hm ho hc hi _ _ ih =>
    rw [Free, outside_group hm ho hc hi] at hf
    have hx : o :: (inner ++ c :: r') = o :: (inner ++ [c]) ++ r' := by simp
    rw [List.cons_append, List.append_assoc, List.cons_append, splitTop_group hm ho hc hi, ih hf,
      ← consAll_append, ← hx]

end Polyglot.Token
