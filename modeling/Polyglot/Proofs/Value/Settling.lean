import Mathlib.Data.Char
import Mathlib.Data.List.Lex
import Mathlib.Order.MinMax
import Polyglot.Proofs.Globals.Reading

/-!
# What settling gives

The names of a settled object ascend, so settling it again keeps its members where they are.
The reserved name may come to stand first among them, but never alone: then the text of the
object, read on its own, stands for nothing, and otherwise for the object.
-/
namespace Polyglot

namespace Value

theorem precedes_iff {a b : Text} : precedes a b = true ↔ a < b := by
  induction a generalizing b with
  | nil => cases b <;> simp [precedes]
  | cons c r ih => cases b <;> simp [precedes, List.cons_lt_cons_iff, ih]

def Ascend (members : List (Text × Value)) : Prop := (members.map Prod.fst).Pairwise (· < ·)

variable {k : Text} {v : Value} {members : List (Text × Value)}

theorem name_mem_insertMember (k : Text) (v : Value) (members : List (Text × Value)) :
    ∀ j, j ∈ (insertMember k v members).map Prod.fst ↔ j = k ∨ j ∈ members.map Prod.fst := by
  intro j
  induction members with
  | nil => simp [insertMember]
  | cons n r ih =>
    obtain ⟨i, w⟩ := n
    unfold insertMember
    split
    · next h => simp [h]
    · split
      · simp
      · rw [List.map_cons, List.mem_cons, ih, List.map_cons, List.mem_cons]
        tauto

theorem name_mem_sortMembers (members : List (Text × Value)) :
    ∀ j, j ∈ (sortMembers members).map Prod.fst ↔ j ∈ members.map Prod.fst := by
  intro j
  have hfold : ∀ sorted, j ∈ (members.foldl (fun sorted m => insertMember m.1 m.2 sorted)
      sorted).map Prod.fst ↔ j ∈ sorted.map Prod.fst ∨ j ∈ members.map Prod.fst := by
    induction members with
    | nil => simp
    | cons m r ih =>
      intro sorted
      rw [List.foldl_cons, ih, name_mem_insertMember, List.map_cons, List.mem_cons]
      tauto
  exact (hfold []).trans (by simp)

theorem ascend_insertMember (h : Ascend members) : Ascend (insertMember k v members) := by
  induction members with
  | nil => exact List.pairwise_singleton _ _
  | cons n r ih =>
    obtain ⟨j, w⟩ := n
    obtain ⟨hj, hr⟩ := List.pairwise_cons.1 h
    unfold insertMember
    split
    · next he => exact he ▸ h
    · next hne =>
      split
      · next hp =>
        have hk := precedes_iff.1 hp
        exact List.pairwise_cons.2 ⟨List.forall_mem_cons.2 ⟨hk, fun i hi => hk.trans (hj i hi)⟩, h⟩
      · next hp =>
        have hk : j < k := lt_of_le_of_ne (not_lt.1 fun hlt => hp (precedes_iff.2 hlt)) hne
        refine List.pairwise_cons.2 ⟨fun i hi => ?_, ih hr⟩
        rcases (name_mem_insertMember k v r i).1 hi with rfl | hi
        · exact hk
        · exact hj i hi

theorem ascend_sortMembers (members : List (Text × Value)) : Ascend (sortMembers members) := by
  have hfold : ∀ sorted, Ascend sorted →
      Ascend (members.foldl (fun sorted m => insertMember m.1 m.2 sorted) sorted) := by
    induction members with
    | nil => exact fun _ h => h
    | cons m r ih => exact fun _ h => ih _ (ascend_insertMember h)
  exact hfold [] List.Pairwise.nil

theorem insertMember_last (h : ∀ m ∈ members, m.1 < k) :
    insertMember k v members = members ++ [(k, v)] := by
  induction members with
  | nil => rfl
  | cons n r ih =>
    obtain ⟨j, w⟩ := n
    obtain ⟨hj, hr⟩ := List.forall_mem_cons.1 h
    have hno : ¬ precedes k j = true := fun hp => lt_asymm hj (precedes_iff.1 hp)
    rw [insertMember, if_neg hj.ne, if_neg hno, ih hr, List.cons_append]

theorem sortMembers_of_ascend (h : Ascend members) : sortMembers members = members := by
  have hfold : ∀ sorted, Ascend (sorted ++ members) →
      members.foldl (fun sorted m => insertMember m.1 m.2 sorted) sorted = sorted ++ members := by
    clear h
    induction members with
    | nil => intro sorted _; rw [List.append_nil]; rfl
    | cons n r ih =>
      intro sorted h
      have hlast : ∀ m ∈ sorted, m.1 < n.1 := by
        rw [Ascend, List.map_append, List.pairwise_append] at h
        exact fun m hm => h.2.2 m.1 (List.mem_map_of_mem hm) n.1 List.mem_cons_self
      rw [List.foldl_cons, insertMember_last hlast, ih _ (by simpa using h), List.append_assoc]
      rfl
  exact hfold [] h

mutual

def Settled : Value → Prop
  | array items => SettledItems items
  | object members =>
    (Ascend members ∧ members.map Prod.fst ≠ [numberMark]) ∧ SettledMembers members
  | null => True
  | bool _ => True
  | number _ => True
  | string _ => True

def SettledItems : List Value → Prop
  | [] => True
  | v :: r => v.Settled ∧ SettledItems r

def SettledMembers : List (Text × Value) → Prop
  | [] => True
  | (_, v) :: r => v.Settled ∧ SettledMembers r

end

mutual

def unmarked : Value → Bool
  | array items => unmarkedItems items
  | object members => !isMarked members && unmarkedMembers members
  | null => true
  | bool _ => true
  | number _ => true
  | string _ => true

def unmarkedItems : List Value → Bool
  | [] => true
  | v :: r => v.unmarked && unmarkedItems r

def unmarkedMembers : List (Text × Value) → Bool
  | [] => true
  | (_, v) :: r => v.unmarked && unmarkedMembers r

end

theorem settledMembers_iff : SettledMembers members ↔ ∀ m ∈ members, m.2.Settled := by
  induction members with
  | nil => simp [SettledMembers]
  | cons m r ih => rw [SettledMembers, ih, List.forall_mem_cons]

theorem depthMembers_le_iff {d : Nat} :
    depthMembers members ≤ d ↔ ∀ m ∈ members, m.2.depth ≤ d := by
  induction members with
  | nil => simp [depthMembers]
  | cons m r ih => rw [depthMembers, Nat.max_le, ih, List.forall_mem_cons]

theorem map_fst_sortMembers_ne (h : ∀ m ∈ members.head?, m.1 ≠ k) :
    (sortMembers members).map Prod.fst ≠ [k] := by
  intro he
  cases members with
  | nil => cases he
  | cons m r =>
    have hm := (name_mem_sortMembers (m :: r) m.1).2 List.mem_cons_self
    rw [he, List.mem_singleton] at hm
    exact h m rfl hm

theorem isMarked_eq_false_iff :
    isMarked members = false ↔ ∀ m ∈ members.head?, m.1 ≠ numberMark := by
  cases members <;> simp [isMarked]

theorem isMarked_normalMembers (members : List (Text × Value)) :
    isMarked (normalMembers members) = isMarked members := by
  cases members <;> rfl

mutual

theorem settled_normal : (v : Value) → v.unmarked = true → (normal v).Settled
  | null, _ => trivial
  | bool _, _ => trivial
  | number _, _ => trivial
  | string _, _ => trivial
  | array items, h => settled_normalItems items h
  | object members, h => by
    rw [unmarked, Bool.and_eq_true, Bool.not_eq_true', ← isMarked_normalMembers] at h
    have hs := settledMembers_iff.1 (settled_normalMembers members h.2)
    exact ⟨⟨ascend_sortMembers _, map_fst_sortMembers_ne (isMarked_eq_false_iff.1 h.1)⟩,
      settledMembers_iff.2 fun m hm => hs m (mem_sortMembers hm)⟩

theorem settled_normalItems : (items : List Value) → unmarkedItems items = true →
    SettledItems (normalItems items)
  | [], _ => trivial
  | v :: r, h =>
    have h := Bool.and_eq_true_iff.1 h
    ⟨settled_normal v h.1, settled_normalItems r h.2⟩

theorem settled_normalMembers : (members : List (Text × Value)) →
    unmarkedMembers members = true → SettledMembers (normalMembers members)
  | [], _ => trivial
  | (_, v) :: r, h =>
    have h := Bool.and_eq_true_iff.1 h
    ⟨settled_normal v h.1, settled_normalMembers r h.2⟩

end

mutual

theorem depth_normal_le : (v : Value) → (normal v).depth ≤ v.depth
  | null => Nat.le_refl _
  | bool _ => Nat.le_refl _
  | number _ => Nat.le_refl _
  | string _ => Nat.le_refl _
  | array items => Nat.succ_le_succ (depth_normalItems_le items)
  | object members => Nat.succ_le_succ <| depthMembers_le_iff.2 fun m hm =>
    depthMembers_le_iff.1 (depth_normalMembers_le members) m (mem_sortMembers hm)

theorem depth_normalItems_le : (items : List Value) →
    depthItems (normalItems items) ≤ depthItems items
  | [] => Nat.le_refl _
  | v :: r => max_le_max (depth_normal_le v) (depth_normalItems_le r)

theorem depth_normalMembers_le : (members : List (Text × Value)) →
    depthMembers (normalMembers members) ≤ depthMembers members
  | [] => Nat.le_refl _
  | (_, v) :: r => max_le_max (depth_normal_le v) (depth_normalMembers_le r)

end

mutual

theorem unmarked_of_unmark : (v : Value) → ∀ w, unmark? v = some w →
    w.unmarked = true ∧ w.depth ≤ v.depth
  | null, _, h => by cases h; exact ⟨rfl, Nat.le_refl _⟩
  | bool _, _, h => by cases h; exact ⟨rfl, Nat.le_refl _⟩
  | number _, _, h => by cases h; exact ⟨rfl, Nat.le_refl _⟩
  | string _, _, h => by cases h; exact ⟨rfl, Nat.le_refl _⟩
  | array items, w, h => by
    obtain ⟨vs, hs, rfl⟩ := Option.map_eq_some_iff.1 h
    obtain ⟨hu, hd⟩ := unmarked_of_unmarkItems items vs hs
    exact ⟨hu, Nat.succ_le_succ hd⟩
  | object members, w, h => by
    unfold unmark? at h
    split at h
    · unfold markedNumber? at h
      split at h
      · split at h <;> cases h
        exact ⟨rfl, Nat.zero_le _⟩
      · cases h
    · next hm =>
      obtain ⟨ms, hs, rfl⟩ := Option.map_eq_some_iff.1 h
      obtain ⟨hn, hu, hd⟩ := unmarked_of_unmarkMembers members ms hs
      rw [unmarked, hn, Bool.eq_false_iff.2 hm, hu]
      exact ⟨rfl, Nat.succ_le_succ hd⟩

theorem unmarked_of_unmarkItems : (items : List Value) → ∀ vs, unmarkItems? items = some vs →
    unmarkedItems vs = true ∧ depthItems vs ≤ depthItems items
  | [], _, h => by cases h; exact ⟨rfl, Nat.le_refl _⟩
  | v :: r, ws, h => by
    unfold unmarkItems? at h
    split at h
    · cases h
    · next w hw =>
      obtain ⟨vs, hs, rfl⟩ := Option.map_eq_some_iff.1 h
      obtain ⟨hu, hd⟩ := unmarked_of_unmark v w hw
      obtain ⟨hus, hds⟩ := unmarked_of_unmarkItems r vs hs
      exact ⟨Bool.and_eq_true_iff.2 ⟨hu, hus⟩, max_le_max hd hds⟩

theorem unmarked_of_unmarkMembers : (members : List (Text × Value)) →
    ∀ ms, unmarkMembers? members = some ms →
      isMarked ms = isMarked members ∧ unmarkedMembers ms = true ∧
        depthMembers ms ≤ depthMembers members
  | [], _, h => by cases h; exact ⟨rfl, rfl, Nat.le_refl _⟩
  | (k, v) :: r, ws, h => by
    unfold unmarkMembers? at h
    split at h
    · cases h
    · next w hw =>
      obtain ⟨ms, hs, rfl⟩ := Option.map_eq_some_iff.1 h
      obtain ⟨hu, hd⟩ := unmarked_of_unmark v w hw
      obtain ⟨-, hus, hds⟩ := unmarked_of_unmarkMembers r ms hs
      exact ⟨rfl, Bool.and_eq_true_iff.2 ⟨hu, hus⟩, max_le_max hd hds⟩

end

theorem settled_of_settle {u : Value} (h : u.settle? = some v) :
    v.Settled ∧ v.depth ≤ u.depth := by
  obtain ⟨w, hw, rfl⟩ := Option.map_eq_some_iff.1 h
  obtain ⟨hu, hd⟩ := unmarked_of_unmark u w hw
  exact ⟨settled_normal w hu, (depth_normal_le w).trans hd⟩

mutual

theorem normal_of_settled : (v : Value) → v.Settled → normal v = v
  | null, _ => rfl
  | bool _, _ => rfl
  | number _, _ => rfl
  | string _, _ => rfl
  | array items, h => by rw [normal, normalItems_of_settled items h]
  | object members, h => by
    rw [normal, normalMembers_of_settled members h.2, sortMembers_of_ascend h.1.1]

theorem normalItems_of_settled : (items : List Value) → SettledItems items →
    normalItems items = items
  | [], _ => rfl
  | v :: r, h => by rw [normalItems, normal_of_settled v h.1, normalItems_of_settled r h.2]

theorem normalMembers_of_settled : (members : List (Text × Value)) → SettledMembers members →
    normalMembers members = members
  | [], _ => rfl
  | (_, v) :: r, h => by
    rw [normalMembers, normal_of_settled v h.1, normalMembers_of_settled r h.2]

end

theorem markedNumber_of_ne (hm : isMarked members = true)
    (hn : members.map Prod.fst ≠ [numberMark]) : markedNumber? members = none := by
  unfold markedNumber?
  split
  · next k s =>
    have hk : k = numberMark := beq_iff_eq.1 hm
    exact absurd (congrArg (fun k => [k]) hk) hn
  · rfl

mutual

theorem unmark_of_settled : (v : Value) → v.Settled →
    unmark? v = if v.unmarked = true then some v else none
  | null, _ => rfl
  | bool _, _ => rfl
  | number _, _ => rfl
  | string _, _ => rfl
  | array items, h => by
    rw [unmark?, unmarkItems_of_settled items h, unmarked]
    split <;> rfl
  | object members, h => by
    rw [unmark?, unmarkMembers_of_settled members h.2, unmarked]
    cases hm : isMarked members with
    | true => simp [markedNumber_of_ne hm h.1.2]
    | false => cases unmarkedMembers members <;> simp

theorem unmarkItems_of_settled : (items : List Value) → SettledItems items →
    unmarkItems? items = if unmarkedItems items = true then some items else none
  | [], _ => rfl
  | v :: r, h => by
    rw [unmarkItems?, unmark_of_settled v h.1, unmarkItems_of_settled r h.2, unmarkedItems]
    cases v.unmarked <;> cases unmarkedItems r <;> rfl

theorem unmarkMembers_of_settled : (members : List (Text × Value)) → SettledMembers members →
    unmarkMembers? members = if unmarkedMembers members = true then some members else none
  | [], _ => rfl
  | (k, v) :: r, h => by
    rw [unmarkMembers?, unmark_of_settled v h.1, unmarkMembers_of_settled r h.2, unmarkedMembers]
    cases v.unmarked <;> cases unmarkedMembers r <;> rfl

end

theorem settle_of_settled (h : v.Settled) :
    v.settle? = if v.unmarked = true then some v else none := by
  rw [settle?, unmark_of_settled v h]
  split
  · rw [Option.map_some, normal_of_settled v h]
  · rfl

end Value

theorem Globals.settled_of_read {t : Text} {g : Globals} (h : read? t = some g) {n : Text}
    {v : Value} (hv : g.value? n = some v) : v.Settled ∧ v.depth < Value.maxDepth := by
  obtain ⟨members, u, hd, hu, hs⟩ := exists_of_read h hv
  have hdepth : Value.depthMembers members + 1 ≤ Value.maxDepth := (Value.of_readDocument hd).2
  obtain ⟨hsettled, hle⟩ := Value.settled_of_settle hs
  have hmember := Value.depthMembers_le_iff.1 (Nat.le_refl _) _ hu
  exact ⟨hsettled, Nat.lt_of_le_of_lt (hle.trans hmember) hdepth⟩

end Polyglot
