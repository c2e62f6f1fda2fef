import Mathlib.Data.Nat.Find
import Mathlib.Order.Bounds.Defs
import Polyglot.Proofs.Token.Nested
import Polyglot.Proofs.Token.Outside

/-!
# Pairs of brackets

All kinds of brackets are counted together. The search from an opening bracket ends at the first
token up to which as many brackets have closed as opened. Where brackets pair up kind by kind,
that token is the other one of the pair, and a list is cut just at those separators that no pair
encloses.
-/
namespace Polyglot.Token

variable {ts : List Token} {d i j k : Nat}

/-- Among the tokens from `i` to `j` as many brackets close as open. -/
def Level (ts : List Token) (i j : Nat) : Prop :=
  i < j ∧ j < ts.length ∧
    ((ts.take (j + 1)).drop i).countP opens = ((ts.take (j + 1)).drop i).countP closes

def Spent (d : Nat) (ts : List Token) (k : Nat) : Prop :=
  k < ts.length ∧ d + (ts.take (k + 1)).countP opens = (ts.take (k + 1)).countP closes

theorem depthAfter_add (hd : 0 < d) (t : Token) :
    depthAfter d t + (if t.closes = true then 1 else 0) =
      d + (if t.opens = true then 1 else 0) := by
  unfold depthAfter
  cases hc : t.closes with
  | true =>
    rw [opens_of_closes hc]
    simp only [if_true, Bool.false_eq_true, if_false]
    omega
  | false => cases t.opens <;> simp

theorem spent_zero (hd : 0 < d) (t : Token) (r : List Token) :
    Spent d (t :: r) 0 ↔ depthAfter d t = 0 := by
  have ha := depthAfter_add hd t
  simp only [Spent, List.length_cons, List.take_succ_cons, List.take_zero, List.countP_cons,
    List.countP_nil]
  omega

theorem spent_succ (hd : 0 < d) (t : Token) (r : List Token) :
    Spent d (t :: r) (k + 1) ↔ Spent (depthAfter d t) r k := by
  have ha := depthAfter_add hd t
  simp only [Spent, List.length_cons, List.take_succ_cons, List.countP_cons]
  omega

theorem isLeast_add_iff {P Q : Nat → Prop} (n : Nat) (h : ∀ m, P m ↔ ∃ k, Q k ∧ n + k = m) :
    IsLeast {m | P m} j ↔ ∃ k, IsLeast {k | Q k} k ∧ n + k = j := by
  constructor
  · rintro ⟨hj, hle⟩
    obtain ⟨k, hk, rfl⟩ := (h j).1 hj
    refine ⟨k, ⟨hk, fun m hm => ?_⟩, rfl⟩
    exact Nat.le_of_add_le_add_left (hle ((h _).2 ⟨m, hm, rfl⟩))
  · rintro ⟨k, ⟨hk, hle⟩, rfl⟩
    refine ⟨(h _).2 ⟨k, hk, rfl⟩, fun m hm => ?_⟩
    obtain ⟨l, hl, rfl⟩ := (h m).1 hm
    exact Nat.add_le_add_left (hle hl) n

theorem closeFrom_eq_some_iff (hd : 0 < d) :
    closeFrom d ts = some j ↔ IsLeast {k | Spent d ts k} j := by
  induction ts generalizing d j with
  | nil => exact ⟨nofun, fun h => absurd h.1.1 (Nat.not_lt_zero j)⟩
  | cons t r ih =>
    rw [closeFrom_cons hd]
    by_cases hz : depthAfter d t = 0
    · have h0 : Spent d (t :: r) 0 := (spent_zero hd t r).2 hz
      rw [if_pos hz, Option.some_inj]
      constructor
      · rintro rfl
        exact ⟨h0, fun m _ => Nat.zero_le m⟩
      · exact fun h => (Nat.le_zero.1 (h.2 h0)).symm
    · rw [if_neg hz, Option.map_eq_some_iff, isLeast_add_iff (Q := Spent (depthAfter d t) r) 1]
      · simp only [ih (Nat.pos_of_ne_zero hz), Nat.add_comm 1]
      · intro m
        cases m with
        | zero => simp [spent_zero hd, hz]
        | succ m => simp [spent_succ hd, Nat.add_comm 1]

/-- The match of an opening bracket is the first token up to which as many brackets close as
open. -/
theorem matchingClose_eq_some_iff {t : Token} (ht : ts[i]? = some t) (ho : t.opens = true) :
    matchingClose ts i = some j ↔ IsLeast {k | Level ts i k} j := by
  obtain ⟨hi, hget⟩ := List.getElem?_eq_some_iff.1 ht
  have hc : t.closes = false := by
    cases hc : t.closes with
    | false => rfl
    | true => rw [opens_of_closes hc] at ho; cases ho
  rw [matchingClose_iff ht ho, isLeast_add_iff (Q := Spent 1 (ts.drop (i + 1))) (i + 1)]
  · simp only [closeFrom_eq_some_iff Nat.one_pos]
  · -- The bracket itself is the one that is open before the tokens behind it.
    have hspan : ∀ k, (ts.take (i + 1 + k + 1)).drop i =
        t :: (ts.drop (i + 1)).take (k + 1) := by
      intro k
      have hlen : i + 1 + k + 1 - i = k + 1 + 1 := by omega
      rw [List.drop_take, List.drop_eq_getElem_cons hi, hget, hlen, List.take_succ_cons]
    have hlevel : ∀ k, Level ts i (i + 1 + k) ↔ Spent 1 (ts.drop (i + 1)) k := by
      intro k
      simp only [Level, Spent, hspan, List.countP_cons, ho, hc, List.length_drop, if_true,
        Bool.false_eq_true, if_false]
      omega
    intro m
    constructor
    · intro hm
      have hle : i < m := hm.1
      obtain ⟨k, rfl⟩ := Nat.exists_eq_add_of_le (Nat.succ_le_of_lt hle)
      exact ⟨k, (hlevel k).1 hm, rfl⟩
    · rintro ⟨k, hk, rfl⟩
      exact (hlevel k).2 hk

theorem matchingClose_eq_none_iff {t : Token} (ht : ts[i]? = some t) (ho : t.opens = true) :
    matchingClose ts i = none ↔ ∀ k, ¬ Level ts i k := by
  classical
  constructor
  · intro h k hk
    have hleast : IsLeast {m | Level ts i m} (Nat.find ⟨k, hk⟩) :=
      ⟨Nat.find_spec ⟨k, hk⟩, fun _ hm => Nat.find_min' ⟨k, hk⟩ hm⟩
    rw [(matchingClose_eq_some_iff ht ho).2 hleast] at h
    cases h
  · intro h
    refine Option.eq_none_iff_forall_not_mem.2 fun j hj => ?_
    exact h j ((matchingClose_eq_some_iff ht ho).1 hj).1

/-- An opening bracket and a closing one of its kind. -/
def Mated (o c : Token) : Prop := ∃ a b, Mates a b ∧ o.kind = .punct a ∧ c.kind = .punct b

/-- The bracket at `j` closes the one at `i`: it is of the same kind, and those between the two
pair up among themselves. -/
def Paired (ts : List Token) (i j : Nat) : Prop :=
  i < j ∧ (∃ o ∈ ts[i]?, ∃ c ∈ ts[j]?, Mated o c) ∧ Nested ((ts.take j).drop (i + 1))

def Unenclosed (ts : List Token) (k : Nat) : Prop :=
  ∀ i j, Paired ts i j → ¬ (i < k ∧ k < j)

instance (o c : Token) : Decidable (Mated o c) :=
  decidable_of_iff
    (∃ m ∈ [('(', ')'), ('[', ']'), ('\x7b', '\x7d')], o.kind = .punct m.1 ∧ c.kind = .punct m.2)
    (by
      constructor
      · rintro ⟨m, hm, ho, hc⟩
        simp only [List.mem_cons, List.not_mem_nil, or_false] at hm
        obtain rfl | rfl | rfl := hm
        · exact ⟨_, _, .round, ho, hc⟩
        · exact ⟨_, _, .square, ho, hc⟩
        · exact ⟨_, _, .curly, ho, hc⟩
      · rintro ⟨a, b, hm, ho, hc⟩
        exact ⟨(a, b), by cases hm <;> simp, ho, hc⟩)

instance (ts : List Token) (i j : Nat) : Decidable (Paired ts i j) :=
  inferInstanceAs (Decidable (_ ∧ _ ∧ _))

theorem Paired.lt_length (h : Paired ts i j) : j < ts.length := by
  obtain ⟨-, ⟨-, -, c, hc, -⟩, -⟩ := h
  exact (List.getElem?_eq_some_iff.1 hc).1

instance (ts : List Token) (k : Nat) : Decidable (Unenclosed ts k) :=
  decidable_of_iff (∀ i < k, ∀ j < ts.length, k < j → ¬ Paired ts i j)
    ⟨fun h i j hp hk => h i hk.1 j hp.lt_length hk.2 hp,
      fun h i hi j _ hj hp => h i j hp ⟨hi, hj⟩⟩

theorem paired_append_iff (us : List Token) :
    Paired (us ++ ts) (us.length + i) (us.length + j) ↔ Paired ts i j := by
  have hinner : ((us ++ ts).take (us.length + j)).drop (us.length + i + 1) =
      (ts.take j).drop (i + 1) := by
    rw [List.take_length_add_append, Nat.add_assoc, List.drop_length_add_append]
  rw [Paired, Paired, hinner, List.getElem?_append_right (Nat.le_add_right _ _),
    List.getElem?_append_right (Nat.le_add_right _ _), Nat.add_sub_cancel_left,
    Nat.add_sub_cancel_left, Nat.add_lt_add_iff_left]

theorem Paired.append (h : Paired ts i j) (us : List Token) : Paired (ts ++ us) i j := by
  have hj := h.lt_length
  have hi := h.1
  rw [Paired, List.getElem?_append_left hj, List.getElem?_append_left (by omega),
    List.take_append_of_le_length (Nat.le_of_lt hj)]
  exact h

theorem paired_group {o c : Token} {inner : List Token} (hm : Mated o c) (hi : Nested inner)
    (r : List Token) : Paired (o :: (inner ++ c :: r)) 0 (inner.length + 1) := by
  refine ⟨Nat.succ_pos _, ⟨o, rfl, c, ?_, hm⟩, ?_⟩
  · rw [List.getElem?_cons_succ, List.getElem?_append_right (Nat.le_refl _), Nat.sub_self]
    rfl
  · rw [List.take_succ_cons, List.drop_succ_cons, List.drop_zero, List.take_left]
    exact hi

def AllPaired (ts : List Token) : Prop :=
  ∀ i t, ts[i]? = some t → t.opens = true → ∃ j, Paired ts i j

theorem AllPaired.append {us : List Token} (h : AllPaired ts) (hu : AllPaired us) :
    AllPaired (ts ++ us) := by
  intro i t ht ho
  rcases Nat.lt_or_ge i ts.length with hlt | hge
  · rw [List.getElem?_append_left hlt] at ht
    obtain ⟨j, hj⟩ := h i t ht ho
    exact ⟨j, hj.append us⟩
  · obtain ⟨k, rfl⟩ := Nat.exists_eq_add_of_le hge
    rw [List.getElem?_append_right hge, Nat.add_sub_cancel_left] at ht
    obtain ⟨j, hj⟩ := hu k t ht ho
    exact ⟨ts.length + j, (paired_append_iff ts).2 hj⟩

theorem allPaired_singleton {t : Token} (h : t.opens = false) : AllPaired [t] := by
  intro i u hu ho
  rw [List.mem_singleton.1 (List.mem_of_getElem? hu), h] at ho
  cases ho

theorem Nested.allPaired (h : Nested ts) : AllPaired ts := by
  induction h with
  | nil => exact nofun
  | step ho _ _ ih => exact (allPaired_singleton ho).append ih
  | @group o c a b inner r hm ho hc hi _ ihi ihr =>
    have hinner := ihi.append (allPaired_singleton (closes_of_kind hm hc).1)
    have hgroup : AllPaired (o :: (inner ++ [c])) := by
      rintro (_ | i) t ht hopens
      · exact ⟨_, paired_group ⟨a, b, hm, ho, hc⟩ hi []⟩
      · obtain ⟨j, hj⟩ := hinner i t ht hopens
        exact ⟨1 + j, Nat.add_comm 1 i ▸ (paired_append_iff [o]).2 hj⟩
    have happend := hgroup.append ihr
    rwa [List.cons_append, List.append_assoc, List.singleton_append] at happend

theorem Nested.closeFrom (h : Nested ts) (d : Nat) (r : List Token) :
    closeFrom (d + 1) (ts ++ r) = (closeFrom (d + 1) r).map (· + ts.length) := by
  induction h generalizing d r with
  | nil => simp
  | @step t u ho hc _ ih =>
    have hdepth : depthAfter (d + 1) t = d + 1 := by simp [depthAfter, ho, hc]
    rw [List.cons_append, closeFrom_cons (Nat.succ_pos d), hdepth, if_neg (Nat.succ_ne_zero d), ih,
      Option.map_map]
    rfl
  | @group o c a b inner u hm hko hkc _ _ ihi ihr =>
    obtain ⟨hno, hcl⟩ := closes_of_kind hm hkc
    have hdepth : depthAfter (d + 2) c = d + 1 := by simp [depthAfter, hno, hcl]
    rw [List.cons_append, List.append_assoc, List.cons_append,
      closeFrom_opens (opens_of_kind hm hko), ihi, closeFrom_cons (Nat.succ_pos _), hdepth,
      if_neg (Nat.succ_ne_zero d), ihr, Option.map_map, Option.map_map, Option.map_map]
    congr 1
    funext n
    simp only [Function.comp_apply, List.length_cons, List.length_append]
    omega

theorem Paired.matchingClose (h : Paired ts i j) : matchingClose ts i = some j := by
  obtain ⟨hij, ⟨o, ho, c, hc, a, b, hm, hko, hkc⟩, hn⟩ := h
  obtain ⟨hj, hget⟩ := List.getElem?_eq_some_iff.1 hc
  obtain ⟨hno, hcl⟩ := closes_of_kind hm hkc
  have hrest : ts.drop (i + 1) = (ts.take j).drop (i + 1) ++ c :: ts.drop (j + 1) := by
    rw [← hget, ← List.drop_eq_getElem_cons hj, List.drop_take]
    conv_lhs => rw [← List.take_append_drop (j - (i + 1)) (ts.drop (i + 1)), List.drop_drop,
      Nat.add_sub_cancel' hij]
  have hlen : ((ts.take j).drop (i + 1)).length = j - (i + 1) := by
    rw [List.length_drop, List.length_take, Nat.min_eq_left (Nat.le_of_lt hj)]
  have hdepth : depthAfter (0 + 1) c = 0 := by simp [depthAfter, hno, hcl]
  refine (matchingClose_iff ho (opens_of_kind hm hko)).2 ⟨j - (i + 1), ?_, Nat.add_sub_cancel' hij⟩
  rw [hrest, hn.closeFrom 0, closeFrom_cons Nat.one_pos, if_pos hdepth, hlen]
  simp

/-- The list cut wherever the test holds of a token and its index, counted from `n`; what it holds
of is left out. -/
def cutWhere (p : Token × Nat → Bool) (n : Nat) (ts : List Token) : List (List Token) :=
  ((ts.zipIdx n).splitOnP p).map (·.map Prod.fst)

def cuts (sep : Char) (ts : List Token) (x : Token × Nat) : Bool :=
  x.1.isPunct sep && decide (Unenclosed ts x.2)

def rejoin (parts : List (List Token)) (seps : List Token) : List Token :=
  (List.zipWith (· ++ ·) parts (seps.map ([·]) ++ [[]])).flatten

theorem cutWhere_cons (p : Token × Nat → Bool) (n : Nat) (t : Token) (r : List Token) :
    cutWhere p n (t :: r) =
      if p (t, n) = true then [] :: cutWhere p (n + 1) r
      else consFirst t (cutWhere p (n + 1) r) := by
  simp only [cutWhere, List.zipIdx_cons, List.splitOnP_cons_eq_if_modifyHead]
  split
  · rfl
  · obtain ⟨q, qs, hq⟩ := List.exists_cons_of_ne_nil (List.splitOnP_ne_nil p (r.zipIdx (n + 1)))
    rw [hq]
    rfl

theorem cutWhere_append {p : Token × Nat → Bool} {n : Nat} {g : List Token}
    (h : ∀ k t, g[k]? = some t → p (t, n + k) = false) (r : List Token) :
    cutWhere p n (g ++ r) = consAll g (cutWhere p (n + g.length) r) := by
  induction g generalizing n with
  | nil => rfl
  | cons t g ih =>
    have hrest : ∀ k u, g[k]? = some u → p (u, n + 1 + k) = false := by
      intro k u hu
      rw [Nat.add_assoc, Nat.add_comm 1]
      exact h (k + 1) u hu
    have hlen : n + (t :: g).length = n + 1 + g.length := by
      rw [List.length_cons]
      omega
    have hfirst : p (t, n) = false := h 0 t rfl
    rw [List.cons_append, cutWhere_cons, hfirst, if_neg Bool.false_ne_true, ih hrest, hlen]
    rfl

theorem rejoin_cutWhere (p : Token × Nat → Bool) (n : Nat) (ts : List Token) :
    rejoin (cutWhere p n ts) (((ts.zipIdx n).filter p).map Prod.fst) = ts := by
  have hspec := congrArg (List.map Prod.fst) (List.splitOnP_spec (p := p) (ts.zipIdx n))
  have hseps : (((ts.zipIdx n).filter p).map Prod.fst).map ([·]) ++ [[]] =
      (((ts.zipIdx n).filter p).map ([·]) ++ [[]]).map (List.map Prod.fst) := by
    rw [List.map_append, List.map_map, List.map_map]
    rfl
  rw [List.zipIdx_map_fst, List.map_flatten, List.map_zipWith] at hspec
  simp only [List.map_append] at hspec
  rw [rejoin, cutWhere, hseps, List.zipWith_map]
  exact hspec

theorem unenclosed_append_iff {g r : List Token} (hg : Nested g) :
    Unenclosed (g ++ r) (g.length + k) ↔ Unenclosed r k := by
  constructor
  · intro h i j hp hk
    exact h _ _ ((paired_append_iff g).2 hp) (by omega)
  · intro h i j hp hk
    rcases Nat.lt_or_ge i g.length with hlt | hge
    · -- The bracket at `i` has its pair in `g`, and no other one.
      have hfound := hp.matchingClose
      obtain ⟨-, ⟨o, ho, c, -, a, b, hm, hko, -⟩, -⟩ := hp
      rw [Option.mem_def, List.getElem?_append_left hlt] at ho
      obtain ⟨m, hown⟩ := hg.allPaired i o ho (opens_of_kind hm hko)
      have hlast := hown.lt_length
      rw [(hown.append r).matchingClose, Option.some_inj] at hfound
      omega
    · have hij := hp.1
      obtain ⟨i, rfl⟩ := Nat.exists_eq_add_of_le hge
      obtain ⟨j, rfl⟩ := Nat.exists_eq_add_of_le (Nat.le_of_lt (Nat.lt_of_le_of_lt hge hij))
      exact h i j ((paired_append_iff g).1 hp) (by omega)

theorem cuts_append {g r : List Token} (hg : Nested g) (sep : Char) (t : Token) :
    cuts sep (g ++ r) (t, g.length + k) = cuts sep r (t, k) := by
  rw [cuts, cuts, decide_eq_decide.2 (unenclosed_append_iff hg)]

theorem cuts_group {o c : Token} {inner : List Token} (hm : Mated o c) (hi : Nested inner)
    {sep : Char} (hsep : ∀ a b, Mates a b → sep ≠ a ∧ sep ≠ b) (r : List Token) {t : Token}
    (ht : (o :: (inner ++ [c]))[k]? = some t) :
    cuts sep (o :: (inner ++ c :: r)) (t, k) = false := by
  have hpair := paired_group hm hi r
  obtain ⟨a, b, hm, ho, hc⟩ := hm
  obtain ⟨ha, hb⟩ := hsep a b hm
  have hlen := (List.getElem?_eq_some_iff.1 ht).1
  simp only [List.length_cons, List.length_append, List.length_nil] at hlen
  rw [cuts, Bool.and_eq_false_iff, decide_eq_false_iff_not]
  rcases Nat.eq_zero_or_pos k with rfl | hpos
  · left
    cases ht
    simp [isPunct, ho, Ne.symm ha]
  rcases Nat.eq_or_lt_of_le (Nat.le_of_lt_succ hlen) with rfl | hlt
  · left
    rw [List.getElem?_cons_succ, List.getElem?_append_right (Nat.le_refl _), Nat.sub_self] at ht
    cases ht
    simp [isPunct, hc, Ne.symm hb]
  · right
    exact fun h => h 0 _ hpair ⟨hpos, by omega⟩

theorem Nested.splitTop_eq_cutWhere (h : Nested ts) {sep : Char}
    (hsep : ∀ a b, Mates a b → sep ≠ a ∧ sep ≠ b) {p : Token × Nat → Bool} {n : Nat}
    (hp : ∀ k t, ts[k]? = some t → p (t, n + k) = cuts sep ts (t, k)) :
    Token.splitTop sep 0 ts = cutWhere p n ts := by
  induction h generalizing n with
  | nil => rfl
  | @step t r ho hc _ ih =>
    have hg : Nested [t] := .step ho hc .nil
    have hfirst : p (t, n) = t.isPunct sep := by
      have hfree : Unenclosed (t :: r) 0 := fun i j _ hk => Nat.not_lt_zero i hk.1
      have hzero := hp 0 t rfl
      rwa [cuts, decide_eq_true hfree, Bool.and_true] at hzero
    have hrest : ∀ k u, r[k]? = some u → p (u, n + 1 + k) = cuts sep r (u, k) := by
      intro k u hu
      rw [← cuts_append hg, List.length_singleton, Nat.add_assoc, Nat.add_comm 1]
      exact hp (k + 1) u hu
    rw [cutWhere_cons, hfirst]
    cases hs : t.isPunct sep with
    | true => rw [splitTop_separator ho hc hs, ih hrest, if_pos rfl]
    | false => rw [splitTop_passes ho hc (.inl hs), ih hrest, if_neg Bool.false_ne_true]
  | @group o c a b inner r hm ho hc hi _ _ ih =>
    have hmated : Mated o c := ⟨a, b, hm, ho, hc⟩
    have hg : Nested (o :: (inner ++ [c])) := .group hm ho hc hi .nil
    have hx : o :: (inner ++ c :: r) = o :: (inner ++ [c]) ++ r := by simp
    have hgroup : ∀ k t, (o :: (inner ++ [c]))[k]? = some t → p (t, n + k) = false := by
      intro k t ht
      have hlt := (List.getElem?_eq_some_iff.1 ht).1
      rw [hp k t (by rw [hx, List.getElem?_append_left hlt, ht])]
      exact cuts_group hmated hi hsep r ht
    have hrest : ∀ k u, r[k]? = some u →
        p (u, n + (o :: (inner ++ [c])).length + k) = cuts sep r (u, k) := by
      intro k u hu
      rw [← cuts_append hg, ← hx, Nat.add_assoc]
      refine hp _ u ?_
      rw [hx, List.getElem?_append_right (Nat.le_add_right _ _), Nat.add_sub_cancel_left, hu]
    rw [splitTop_group hm ho hc hi, ih hrest, hx, cutWhere_append hgroup]

/-- The search from an opening bracket ends at the first token up to which as many brackets close
as open, and fails only if there is none. Among nested tokens that is the one bracket with which
it makes a pair; and the list is cut just at the separators that no pair encloses, into nested
parts that give the list back with the separators between them. -/
theorem pairs_and_cuts (ts : List Token) :
    (∀ i t, ts[i]? = some t → t.opens = true →
      (∀ j, matchingClose ts i = some j ↔ IsLeast {k | Level ts i k} j) ∧
        (matchingClose ts i = none ↔ ∀ k, ¬ Level ts i k)) ∧
    (Nested ts →
      (∀ i t, ts[i]? = some t → t.opens = true →
        ∃ j, matchingClose ts i = some j ∧ ∀ k, Paired ts i k ↔ k = j) ∧
      ∀ sep, (∀ a b, Mates a b → sep ≠ a ∧ sep ≠ b) →
        splitTopLevel sep ts = cutWhere (cuts sep ts) 0 ts ∧
          (∀ part ∈ splitTopLevel sep ts, Nested part) ∧
          rejoin (splitTopLevel sep ts) ((ts.zipIdx.filter (cuts sep ts)).map Prod.fst) = ts) := by
  refine ⟨fun i t ht ho => ⟨fun j => matchingClose_eq_some_iff ht ho,
    matchingClose_eq_none_iff ht ho⟩, fun h => ⟨fun i t ht ho => ?_, fun sep hsep => ?_⟩⟩
  · obtain ⟨j, hj⟩ := h.allPaired i t ht ho
    have hfound := hj.matchingClose
    refine ⟨j, hfound, fun k => ⟨fun hk => ?_, fun hk => hk ▸ hj⟩⟩
    rwa [hk.matchingClose, Option.some_inj] at hfound
  · have hsplit : splitTopLevel sep ts = cutWhere (cuts sep ts) 0 ts :=
      h.splitTop_eq_cutWhere hsep fun k t _ => by rw [Nat.zero_add]
    refine ⟨hsplit, fun part hpart => (h.of_mem_splitTopLevel hpart).1, ?_⟩
    rw [hsplit]
    exact rejoin_cutWhere (cuts sep ts) 0 ts

/-- Commas outside all brackets and inside them, and a bracket in a string. -/
def groupedText : Text := "[f(1, 2), x], g\x7ba: 1, b\x7d, ')'"

def groupedTokens : List Token := tokenize .javascript groupedText

theorem pairs_and_cuts_grouped :
    groupedTokens[0]? = some ⟨.punct '[', "[", 0⟩ ∧ Nested groupedTokens ∧
      matchingClose groupedTokens 0 = some 9 ∧ Paired groupedTokens 0 9 ∧
      IsLeast {k | Level groupedTokens 0 k} 9 ∧
      (splitTopLevel ',' groupedTokens).map (·.length) = [10, 8, 1] ∧
      splitTopLevel ',' groupedTokens = cutWhere (cuts ',' groupedTokens) 0 groupedTokens ∧
      ∀ part ∈ splitTopLevel ',' groupedTokens, Nested part := by
  have hfirst : groupedTokens[0]? = some ⟨.punct '[', "[", 0⟩ := by decide +kernel
  have hn : Nested groupedTokens := by decide +kernel
  have hfound : matchingClose groupedTokens 0 = some 9 := by decide +kernel
  have hsep : ∀ a b, Mates a b → ',' ≠ a ∧ ',' ≠ b := by
    intro a b hm
    cases hm <;> decide
  obtain ⟨hcounts, hnested⟩ := pairs_and_cuts groupedTokens
  obtain ⟨hpairs, hcuts⟩ := hnested hn
  obtain ⟨j, hj, hpair⟩ := hpairs 0 _ hfirst rfl
  obtain ⟨hsplit, hparts, -⟩ := hcuts ',' hsep
  rw [hfound, Option.some_inj] at hj
  exact ⟨hfirst, hn, hfound, (hpair 9).2 hj, ((hcounts 0 _ hfirst rfl).1 9).1 hfound,
    by decide +kernel, hsplit, hparts⟩

end Polyglot.Token
