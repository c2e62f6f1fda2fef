import Polyglot.Proofs.Token.Scan
import Polyglot.Token

/-!
# Nested tokens

The count of open brackets does not come back to zero before the bracket that closes
the first one, so whatever opens between the two is closed between them. Tokens are
nested if their brackets pair up, kind by kind, and their strings end by themselves. A
list is cut at a separator only where no bracket is open, so the cuts pass such tokens by.
-/
namespace Polyglot.Token

variable {ts : List Token} {d e i j k : Nat}

def depthAfter (d : Nat) (t : Token) : Nat :=
  if t.opens then d + 1 else if t.closes then d - 1 else d

theorem closeFrom_cons (hd : 0 < d) (t : Token) (r : List Token) :
    closeFrom d (t :: r) =
      if depthAfter d t = 0 then some 0 else (closeFrom (depthAfter d t) r).map (· + 1) := by
  obtain ⟨d, rfl⟩ : ∃ n, d = n + 1 := Nat.exists_eq_succ_of_ne_zero (Nat.ne_of_gt hd)
  rw [closeFrom.eq_def, depthAfter]
  cases ho : t.opens with
  | true => simp [ho]
  | false =>
    cases hc : t.closes with
    | false => simp [ho, hc]
    | true => cases d <;> simp [ho, hc]

theorem closeFrom_opens {t : Token} (h : t.opens = true) (d : Nat) (r : List Token) :
    closeFrom d (t :: r) = (closeFrom (d + 1) r).map (· + 1) := by
  rw [closeFrom.eq_def]
  simp only [h, if_true]

theorem depthAfter_lt (he : 0 < e) (hd : e < d) (t : Token) : depthAfter e t < depthAfter d t := by
  unfold depthAfter
  split
  · omega
  · split <;> omega

theorem closeFrom_lower (he : 0 < e) (hd : e < d) (h : closeFrom d ts = some j) :
    ∃ m < j, closeFrom e ts = some m := by
  induction ts generalizing d e j with
  | nil => cases h
  | cons t r ih =>
    have hlt := depthAfter_lt he hd t
    rw [closeFrom_cons (Nat.lt_trans he hd), if_neg (by omega)] at h
    obtain ⟨j, hj, rfl⟩ := Option.map_eq_some_iff.1 h
    rw [closeFrom_cons he]
    by_cases hz : depthAfter e t = 0
    · exact ⟨0, Nat.succ_pos j, if_pos hz⟩
    · obtain ⟨m, hm, hc⟩ := ih (Nat.pos_of_ne_zero hz) hlt hj
      exact ⟨m + 1, Nat.succ_lt_succ hm, by rw [if_neg hz, hc, Option.map_some]⟩

theorem closeFrom_drop (hd : 0 < d) (h : closeFrom d ts = some j) (hk : k ≤ j) :
    ∃ d', 0 < d' ∧ closeFrom d' (ts.drop k) = some (j - k) := by
  induction ts generalizing d j k with
  | nil => cases h
  | cons t r ih =>
    cases k with
    | zero => exact ⟨d, hd, h⟩
    | succ k =>
      rw [closeFrom_cons hd] at h
      by_cases hz : depthAfter d t = 0
      · rw [if_pos hz] at h
        cases h
        omega
      · rw [if_neg hz] at h
        obtain ⟨j, hj, rfl⟩ := Option.map_eq_some_iff.1 h
        rw [List.drop_succ_cons, Nat.add_sub_add_right]
        exact ih (Nat.pos_of_ne_zero hz) hj (Nat.le_of_succ_le_succ hk)

theorem opens_of_closes {t : Token} (h : t.closes = true) : t.opens = false := by
  simp only [closes, Bool.or_eq_true, isPunct, beq_iff_eq] at h
  rcases h with (h | h) | h <;> simp [opens, isPunct, h]

theorem isIdent_of_closes {t : Token} (h : t.closes = true) : t.isIdent = false := by
  simp only [closes, Bool.or_eq_true, isPunct, beq_iff_eq] at h
  rcases h with (h | h) | h <;> simp [isIdent, h]

theorem closes_of_closeFrom (hd : 0 < d) (h : closeFrom d ts = some j) :
    ∃ t, ts[j]? = some t ∧ t.closes = true := by
  induction ts generalizing d j with
  | nil => cases h
  | cons t r ih =>
    rw [closeFrom_cons hd] at h
    by_cases hz : depthAfter d t = 0
    · rw [if_pos hz] at h
      cases h
      refine ⟨t, rfl, ?_⟩
      unfold depthAfter at hz
      split at hz
      · exact absurd hz (Nat.succ_ne_zero d)
      · split at hz
        · assumption
        · omega
    · rw [if_neg hz] at h
      obtain ⟨j, hj, rfl⟩ := Option.map_eq_some_iff.1 h
      exact ih (Nat.pos_of_ne_zero hz) hj

theorem matchingClose_iff {t : Token} (ht : ts[i]? = some t) (ho : t.opens = true) :
    matchingClose ts i = some j ↔ ∃ k, closeFrom 1 (ts.drop (i + 1)) = some k ∧ i + 1 + k = j := by
  obtain ⟨hi, rfl⟩ := List.getElem?_eq_some_iff.1 ht
  rw [matchingClose, List.drop_eq_getElem_cons hi, closeFrom_opens ho, Option.map_map,
    Option.map_eq_some_iff]
  refine exists_congr fun k => and_congr_right fun _ => ?_
  rw [Function.comp_apply]
  omega

theorem closes_of_matchingClose {t : Token} (ht : ts[i]? = some t) (ho : t.opens = true)
    (h : matchingClose ts i = some j) : i < j ∧ ∃ u, ts[j]? = some u ∧ u.closes = true := by
  obtain ⟨k, hk, rfl⟩ := (matchingClose_iff ht ho).1 h
  obtain ⟨u, hu, hc⟩ := closes_of_closeFrom Nat.one_pos hk
  rw [List.getElem?_drop] at hu
  exact ⟨by omega, u, hu, hc⟩

theorem exists_matchingClose {t u : Token} (ht : ts[i]? = some t) (hto : t.opens = true)
    (h : matchingClose ts i = some j) (hik : i < k) (hkj : k ≤ j) (hu : ts[k]? = some u)
    (huo : u.opens = true) : ∃ m < j, matchingClose ts k = some m := by
  obtain ⟨n, hn, rfl⟩ := (matchingClose_iff ht hto).1 h
  have hne : k ≠ i + 1 + n := by
    rintro rfl
    obtain ⟨-, v, hv, hc⟩ := closes_of_matchingClose ht hto h
    rw [hu, Option.some_inj] at hv
    rw [hv, opens_of_closes hc] at huo
    cases huo
  obtain ⟨hk, rfl⟩ := List.getElem?_eq_some_iff.1 hu
  obtain ⟨d, hd, hr⟩ := closeFrom_drop (k := k - (i + 1)) Nat.one_pos hn (by omega)
  rw [List.drop_drop, Nat.add_sub_cancel' hik, List.drop_eq_getElem_cons hk,
    closeFrom_opens huo] at hr
  obtain ⟨m, hm, he⟩ := Option.map_eq_some_iff.1 hr
  obtain ⟨m', hm', hc⟩ := closeFrom_lower Nat.one_pos (Nat.succ_lt_succ hd) hm
  exact ⟨k + 1 + m', by omega, (matchingClose_iff hu huo).2 ⟨m', hc, rfl⟩⟩

end Polyglot.Token

namespace Polyglot.Token

/-- An opening bracket, and the closing one of its kind. -/
inductive Mates : Char → Char → Prop
  | round : Mates '(' ')'
  | square : Mates '[' ']'
  | curly : Mates '{' '}'

/-- Every bracket is closed by its mate, the last one opened first. -/
inductive Nested : List Token → Prop
  | nil : Nested []
  | step {t : Token} {r : List Token} (ho : t.opens = false) (hc : t.closes = false)
      (hr : Nested r) : Nested (t :: r)
  | group {o c : Token} {a b : Char} {inner r : List Token} (hm : Mates a b)
      (ho : o.kind = .punct a) (hc : c.kind = .punct b) (hi : Nested inner) (hr : Nested r) :
      Nested (o :: (inner ++ c :: r))

def Closed (t : Token) : Prop :=
  t.kind = .str → ∃ q r, t.text = q :: r ∧ ∀ rest, stringTail q (r ++ rest) = r.length

/-- No comment, no string left open, no bracket left open or closed unopened. -/
structure Tidy (ts : List Token) : Prop where
  code : ∀ t ∈ ts, t.isComment = false
  closed : ∀ t ∈ ts, t.Closed
  nested : Nested ts

structure Neat (ts : List Token) : Prop extends Tidy ts where
  unequal : ∀ t ∈ ts, t.isPunct '=' = false

theorem opens_of_kind {t : Token} {a b : Char} (hm : Mates a b) (h : t.kind = .punct a) :
    t.opens = true := by
  cases hm <;> simp [opens, isPunct, h]

theorem closes_of_kind {t : Token} {a b : Char} (hm : Mates a b) (h : t.kind = .punct b) :
    t.opens = false ∧ t.closes = true := by
  cases hm <;> simp [opens, closes, isPunct, h]

namespace Nested

theorem append {ts us : List Token} (h : Nested ts) (hu : Nested us) : Nested (ts ++ us) := by
  induction h with
  | nil => exact hu
  | step ho hc _ ih => exact .step ho hc ih
  | group hm ho hc hi _ _ ih =>
    rw [List.cons_append, List.append_assoc]
    exact .group hm ho hc hi ih

theorem of_forall {ts : List Token} (h : ∀ t ∈ ts, t.opens = false ∧ t.closes = false) :
    Nested ts := by
  induction ts with
  | nil => exact .nil
  | cons t r ih =>
    obtain ⟨ho, hc⟩ := h t List.mem_cons_self
    exact .step ho hc (ih fun x hx => h x (List.mem_cons_of_mem t hx))

end Nested

section
variable {ts us : List Token}

theorem Tidy.append (h : Tidy ts) (hu : Tidy us) : Tidy (ts ++ us) where
  code := List.forall_mem_append.2 ⟨h.code, hu.code⟩
  closed := List.forall_mem_append.2 ⟨h.closed, hu.closed⟩
  nested := h.nested.append hu.nested

theorem code_eq_self (h : ∀ t ∈ ts, t.isComment = false) : code ts = ts := by
  rw [code, List.filter_eq_self]
  intro t ht
  rw [h t ht]
  rfl

theorem Neat.nil : Neat [] where
  code := nofun
  closed := nofun
  nested := .nil
  unequal := nofun

theorem Neat.append (h : Neat ts) (hu : Neat us) : Neat (ts ++ us) where
  toTidy := h.toTidy.append hu.toTidy
  unequal := List.forall_mem_append.2 ⟨h.unequal, hu.unequal⟩

end

def consAll (ts : List Token) (ps : List (List Token)) : List (List Token) := ts.foldr consFirst ps

theorem consAll_cons (ts p : List Token) (ps : List (List Token)) :
    consAll ts (p :: ps) = (ts ++ p) :: ps := by
  induction ts with
  | nil => rfl
  | cons t r ih =>
    have hr : consAll (t :: r) (p :: ps) = consFirst t (consAll r (p :: ps)) := rfl
    rw [hr, ih]
    rfl

theorem consAll_append (ts us : List Token) (ps : List (List Token)) :
    consAll (ts ++ us) ps = consAll ts (consAll us ps) := List.foldr_append

theorem splitTop_opens (sep : Char) (depth : Nat) {t : Token} (h : t.opens = true)
    (r : List Token) : splitTop sep depth (t :: r) = consFirst t (splitTop sep (depth + 1) r) := by
  rw [splitTop, if_pos h]

theorem splitTop_closes (sep : Char) (depth : Nat) {t : Token} (ho : t.opens = false)
    (hc : t.closes = true) (r : List Token) :
    splitTop sep depth (t :: r) = consFirst t (splitTop sep (depth - 1) r) := by
  rw [splitTop, ho, hc]
  simp

theorem splitTop_passes {sep : Char} {depth : Nat} {t : Token} (ho : t.opens = false)
    (hc : t.closes = false) (hs : t.isPunct sep = false ∨ depth ≠ 0) (r : List Token) :
    splitTop sep depth (t :: r) = consFirst t (splitTop sep depth r) := by
  have hcut : (t.isPunct sep && depth == 0) = false := by
    rcases hs with hs | hs
    · rw [hs, Bool.false_and]
    · simp [hs]
  rw [splitTop, ho, hc, hcut]
  simp

theorem Nested.splitTop {ts : List Token} (h : Nested ts) (sep : Char) (d : Nat)
    (r : List Token) :
    splitTop sep (d + 1) (ts ++ r) = consAll ts (splitTop sep (d + 1) r) := by
  induction h generalizing d r with
  | nil => rfl
  | step ho hc _ ih =>
    rw [List.cons_append, splitTop_passes ho hc (.inr (Nat.succ_ne_zero d)), ih]
    rfl
  | @group o c a b inner _ hm ho hc _ _ ihi ihr =>
    obtain ⟨hco, hcc⟩ := closes_of_kind hm hc
    rw [List.cons_append, List.append_assoc, splitTop_opens sep _ (opens_of_kind hm ho), ihi,
      List.cons_append, splitTop_closes sep _ hco hcc, Nat.add_sub_cancel, ihr]
    have hx : ∀ x, consAll (o :: (inner ++ c :: x)) = fun ps =>
        consFirst o (consAll inner (consFirst c (consAll x ps))) := by
      intro x
      funext ps
      exact congrArg (consFirst o) (consAll_append inner (c :: x) ps)
    rw [hx]

def UncutAt (sep : Char) (ts : List Token) : Prop :=
  ∀ r, splitTop sep 0 (ts ++ r) = consAll ts (splitTop sep 0 r)

section
variable {sep : Char} {ts us : List Token}

theorem UncutAt.append (h : UncutAt sep ts) (hu : UncutAt sep us) : UncutAt sep (ts ++ us) := by
  intro r
  rw [List.append_assoc, h, hu, consAll_append]

theorem uncutAt_of_forall
    (h : ∀ t ∈ ts, t.opens = false ∧ t.closes = false ∧ t.isPunct sep = false) :
    UncutAt sep ts := by
  intro r
  induction ts with
  | nil => rfl
  | cons t us ih =>
    obtain ⟨ho, hc, hs⟩ := h t List.mem_cons_self
    rw [List.cons_append, splitTop_passes ho hc (.inl hs),
      ih fun x hx => h x (List.mem_cons_of_mem t hx)]
    rfl

theorem UncutAt.splitTopLevel (h : UncutAt sep ts) : splitTopLevel sep ts = [ts] := by
  have hx := h []
  rw [List.append_nil] at hx
  rw [Token.splitTopLevel, hx, splitTop, consAll_cons, List.append_nil]

theorem splitTop_separator {t : Token} (ho : t.opens = false) (hc : t.closes = false)
    (ht : t.isPunct sep = true) (r : List Token) :
    splitTop sep 0 (t :: r) = [] :: splitTop sep 0 r := by
  rw [splitTop, ho, hc, ht]
  rfl

theorem UncutAt.splitTopLevel_cons (h : UncutAt sep ts) {t : Token} (ho : t.opens = false)
    (hc : t.closes = false) (ht : t.isPunct sep = true) (r : List Token) :
    Token.splitTopLevel sep (ts ++ t :: r) = ts :: Token.splitTopLevel sep r := by
  rw [Token.splitTopLevel, h, splitTop_separator ho hc ht, consAll_cons, List.append_nil,
    Token.splitTopLevel]

end

def Uncut (ts : List Token) : Prop := ∀ sep, sep = ',' ∨ sep = ';' →
  ∀ r, splitTop sep 0 (ts ++ r) = consAll ts (splitTop sep 0 r)

theorem Uncut.at {ts : List Token} (h : Uncut ts) {sep : Char} (hs : sep = ',' ∨ sep = ';') :
    UncutAt sep ts :=
  h sep hs

theorem uncut_of_forall {ts : List Token} (h : ∀ t ∈ ts, t.opens = false ∧ t.closes = false ∧
    t.isPunct ',' = false ∧ t.isPunct ';' = false) : Uncut ts := by
  intro sep hs
  refine uncutAt_of_forall fun t ht => ?_
  obtain ⟨ho, hc, hcomma, hsemi⟩ := h t ht
  refine ⟨ho, hc, ?_⟩
  rcases hs with rfl | rfl <;> assumption

theorem splitTop_group {o c : Token} {a b : Char} {inner : List Token} (hm : Mates a b)
    (ho : o.kind = .punct a) (hc : c.kind = .punct b) (hi : Nested inner) (sep : Char)
    (r : List Token) : splitTop sep 0 (o :: (inner ++ c :: r)) =
      consAll (o :: (inner ++ [c])) (splitTop sep 0 r) := by
  obtain ⟨hco, hcc⟩ := closes_of_kind hm hc
  have hx : consAll (o :: (inner ++ [c])) (splitTop sep 0 r) =
      consFirst o (consAll inner (consFirst c (splitTop sep 0 r))) :=
    congrArg (consFirst o) (consAll_append inner [c] _)
  rw [hx, splitTop_opens sep _ (opens_of_kind hm ho), hi.splitTop, splitTop_closes sep _ hco hcc]

theorem uncut_group {o c : Token} {a b : Char} {inner : List Token} (hm : Mates a b)
    (ho : o.kind = .punct a) (hc : c.kind = .punct b) (hi : Nested inner) :
    Uncut (o :: (inner ++ [c])) := by
  intro sep _ r
  rw [List.cons_append, List.append_assoc]
  exact splitTop_group hm ho hc hi sep r

end Polyglot.Token
