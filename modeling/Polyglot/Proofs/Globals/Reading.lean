import Polyglot.Proofs.Run.Answers
import Polyglot.Proofs.Value.Parsing

/-!
# Values as they are read

The numbers in a value that was read are numbers of JSON, whatever the document. So are
those in the globals of a run, which all come from result files.
-/
namespace Polyglot

namespace Value

theorem proper_of_readAtom {t : Text} {p : Value × Text} (h : readAtom t = some p) :
    p.1.Proper ∧ p.1.depth = 0 := by
  have hword : ∀ {word : Text} {v : Value}, v.Proper ∧ v.depth = 0 →
      afterWord word v t = some p → p.1.Proper ∧ p.1.depth = 0 := by
    intro word v hv h
    unfold afterWord at h
    split at h <;> cases h
    exact hv
  unfold readAtom at h
  split at h
  · exact hword (v := bool true) ⟨trivial, rfl⟩ h
  · exact hword (v := bool false) ⟨trivial, rfl⟩ h
  · exact hword (v := null) ⟨trivial, rfl⟩ h
  · obtain ⟨q, hq, rfl⟩ := Option.map_eq_some_iff.1 h
    exact ⟨⟨t, q.2, hq⟩, rfl⟩

structure ReadsProper (fuel : Nat) : Prop where
  value : ∀ {depth t p}, readValue fuel depth t = some p → p.1.Proper ∧ p.1.depth ≤ depth
  items : ∀ {depth t p}, readItems fuel depth t = some p →
    ProperItems p.1 ∧ depthItems p.1 ≤ depth
  members : ∀ {depth t p}, readMembers fuel depth t = some p →
    ProperMembers p.1 ∧ depthMembers p.1 ≤ depth

namespace ReadsProper
variable {fuel depth : Nat} {t : Text} (ih : ReadsProper fuel)
include ih

theorem value_succ {p : Value × Text} (h : readValue (fuel + 1) depth t = some p) :
    p.1.Proper ∧ p.1.depth ≤ depth := by
  unfold readValue at h
  split at h
  · cases h
  split at h
  · obtain ⟨q, -, rfl⟩ := Option.map_eq_some_iff.1 h
    exact ⟨trivial, Nat.zero_le _⟩
  split at h
  · split at h
    · cases h
    · cases h
      exact ⟨trivial, Nat.succ_le_succ (Nat.zero_le _)⟩
    · obtain ⟨q, hq, rfl⟩ := Option.map_eq_some_iff.1 h
      obtain ⟨hp, hd⟩ := ih.items hq
      exact ⟨hp, Nat.succ_le_succ hd⟩
  split at h
  · split at h
    · cases h
    · cases h
      exact ⟨trivial, Nat.succ_le_succ (Nat.zero_le _)⟩
    · obtain ⟨q, hq, rfl⟩ := Option.map_eq_some_iff.1 h
      obtain ⟨hp, hd⟩ := ih.members hq
      exact ⟨hp, Nat.succ_le_succ hd⟩
  · obtain ⟨hp, hd⟩ := proper_of_readAtom h
    exact ⟨hp, hd ▸ Nat.zero_le depth⟩

theorem items_succ {p : List Value × Text} (h : readItems (fuel + 1) depth t = some p) :
    ProperItems p.1 ∧ depthItems p.1 ≤ depth := by
  unfold readItems at h
  split at h
  · cases h
  · next v r hv =>
    obtain ⟨hp, hd⟩ := ih.value hv
    split at h
    · cases h
      exact ⟨⟨hp, trivial⟩, Nat.max_le.2 ⟨hd, Nat.zero_le _⟩⟩
    · obtain ⟨q, hq, rfl⟩ := Option.map_eq_some_iff.1 h
      obtain ⟨hps, hds⟩ := ih.items hq
      exact ⟨⟨hp, hps⟩, Nat.max_le.2 ⟨hd, hds⟩⟩
    · cases h

theorem members_succ {p : List (Text × Value) × Text}
    (h : readMembers (fuel + 1) depth t = some p) :
    ProperMembers p.1 ∧ depthMembers p.1 ≤ depth := by
  unfold readMembers at h
  split at h
  · cases h
  split at h
  · cases h
  · next v r hv =>
    obtain ⟨hp, hd⟩ := ih.value hv
    split at h
    · cases h
      exact ⟨⟨hp, trivial⟩, Nat.max_le.2 ⟨hd, Nat.zero_le _⟩⟩
    · obtain ⟨q, hq, rfl⟩ := Option.map_eq_some_iff.1 h
      obtain ⟨hps, hds⟩ := ih.members hq
      exact ⟨⟨hp, hps⟩, Nat.max_le.2 ⟨hd, hds⟩⟩
    · cases h

end ReadsProper

theorem readsProper (fuel : Nat) : ReadsProper fuel := by
  induction fuel with
  | zero => exact ⟨nofun, nofun, nofun⟩
  | succ fuel ih => exact ⟨ih.value_succ, ih.items_succ, ih.members_succ⟩

theorem of_readDocument {t : Text} {v : Value} (h : readDocument? t = some v) :
    v.Proper ∧ v.depth ≤ maxDepth := by
  unfold readDocument? complete? at h
  split at h
  · next a r hr =>
    split at h <;> cases h
    exact (readsProper _).value hr
  · cases h

mutual

theorem proper_of_unmark : (v : Value) → v.Proper → ∀ w, unmark? v = some w → w.Proper
  | null, _, _, h => by cases h; trivial
  | bool _, _, _, h => by cases h; trivial
  | number _, hv, _, h => by cases h; exact hv
  | string _, _, _, h => by cases h; trivial
  | array items, hv, w, h => by
    obtain ⟨vs, hs, rfl⟩ := Option.map_eq_some_iff.1 h
    exact proper_of_unmarkItems items hv vs hs
  | object members, hv, w, h => by
    unfold unmark? at h
    split at h
    · unfold markedNumber? at h
      split at h
      · split at h
        · next hd =>
          cases h
          exact ⟨_, [], hd⟩
        · cases h
      · cases h
    · obtain ⟨ms, hm, rfl⟩ := Option.map_eq_some_iff.1 h
      exact proper_of_unmarkMembers members hv ms hm

theorem proper_of_unmarkItems : (items : List Value) → ProperItems items →
    ∀ vs, unmarkItems? items = some vs → ProperItems vs
  | [], _, _, h => by cases h; trivial
  | v :: r, hv, ws, h => by
    unfold unmarkItems? at h
    split at h
    · cases h
    · next w hw =>
      obtain ⟨vs, hs, rfl⟩ := Option.map_eq_some_iff.1 h
      exact ⟨proper_of_unmark v hv.1 w hw, proper_of_unmarkItems r hv.2 vs hs⟩

theorem proper_of_unmarkMembers : (members : List (Text × Value)) → ProperMembers members →
    ∀ ms, unmarkMembers? members = some ms → ProperMembers ms
  | [], _, _, h => by cases h; trivial
  | (k, v) :: r, hv, ws, h => by
    unfold unmarkMembers? at h
    split at h
    · cases h
    · next w hw =>
      obtain ⟨ms, hs, rfl⟩ := Option.map_eq_some_iff.1 h
      exact ⟨proper_of_unmark v hv.1 w hw, proper_of_unmarkMembers r hv.2 ms hs⟩

end

section
variable {k : Text} {v : Value} {members : List (Text × Value)}

theorem mem_insertMember {m : Text × Value} (h : m ∈ insertMember k v members) :
    m = (k, v) ∨ m ∈ members := by
  induction members with
  | nil => exact .inl (List.mem_singleton.1 h)
  | cons n r ih =>
    obtain ⟨j, w⟩ := n
    unfold insertMember at h
    split at h
    · exact (List.mem_cons.1 h).imp_right (List.mem_cons_of_mem _)
    · split at h
      · exact List.mem_cons.1 h
      · rcases List.mem_cons.1 h with rfl | h
        · exact .inr List.mem_cons_self
        · exact (ih h).imp_right (List.mem_cons_of_mem _)

theorem mem_sortMembers {m : Text × Value} (h : m ∈ sortMembers members) : m ∈ members := by
  have hfold : ∀ sorted, m ∈ members.foldl (fun sorted m => insertMember m.1 m.2 sorted) sorted →
      m ∈ sorted ∨ m ∈ members := by
    clear h
    induction members with
    | nil => exact fun _ h => .inl h
    | cons n r ih =>
      intro sorted h
      rcases ih _ h with h | h
      · rcases mem_insertMember h with rfl | h
        · exact .inr List.mem_cons_self
        · exact .inl h
      · exact .inr (List.mem_cons_of_mem n h)
  exact (hfold [] h).resolve_left List.not_mem_nil

theorem properMembers_iff : ProperMembers members ↔ ∀ m ∈ members, m.2.Proper := by
  induction members with
  | nil => simp [ProperMembers]
  | cons m r ih => rw [ProperMembers, ih, List.forall_mem_cons]

theorem properMembers_sortMembers (h : ProperMembers members) :
    ProperMembers (sortMembers members) :=
  properMembers_iff.2 fun m hm => properMembers_iff.1 h m (mem_sortMembers hm)

end

mutual

theorem proper_normal : (v : Value) → v.Proper → (normal v).Proper
  | null, h => h
  | bool _, h => h
  | number _, h => h
  | string _, h => h
  | array items, h => proper_normalItems items h
  | object members, h => properMembers_sortMembers (proper_normalMembers members h)

theorem proper_normalItems : (items : List Value) → ProperItems items →
    ProperItems (normalItems items)
  | [], h => h
  | v :: r, h => ⟨proper_normal v h.1, proper_normalItems r h.2⟩

theorem proper_normalMembers : (members : List (Text × Value)) → ProperMembers members →
    ProperMembers (normalMembers members)
  | [], h => h
  | (_, v) :: r, h => ⟨proper_normal v h.1, proper_normalMembers r h.2⟩

end

theorem proper_of_settle {v w : Value} (hv : v.Proper) (h : v.settle? = some w) : w.Proper := by
  obtain ⟨u, hu, rfl⟩ := Option.map_eq_some_iff.1 h
  exact proper_normal u (proper_of_unmark v hv u hu)

end Value

namespace Globals

theorem value?_eq_some {g : Globals} {n : Text} {v : Value} :
    g.value? n = some v ↔ (n, v) ∈ g.items := by
  rw [value?, Option.map_eq_some_iff]
  constructor
  · rintro ⟨m, hm, rfl⟩
    obtain ⟨hmem, rfl⟩ := Catalog.find?_eq_some.1 hm
    exact hmem
  · exact fun h => ⟨(n, v), Catalog.find?_eq_some.2 ⟨h, rfl⟩, rfl⟩

theorem proper_iff {g : Globals} : g.Proper ↔ ∀ n v, g.value? n = some v → v.Proper :=
  ⟨fun h n v hv => h (n, v) (value?_eq_some.1 hv), fun h m hm => h m.1 m.2 (value?_eq_some.2 hm)⟩

theorem mem_of_foldl_put {ms : List (Text × Value)} {g : Globals} {n : Text} {v : Value}
    (h : value? (ms.foldl Catalog.put g) n = some v) : g.value? n = some v ∨ (n, v) ∈ ms := by
  induction ms generalizing g with
  | nil => exact .inl h
  | cons m r ih =>
    rcases ih h with hv | hv
    · rw [value?_put] at hv
      split at hv
      · next he =>
        obtain rfl := Option.some_inj.1 hv
        exact .inr (he ▸ List.mem_cons_self)
      · exact .inl hv
    · exact .inr (List.mem_cons_of_mem m hv)

theorem exists_of_mapM_settleMember {members ms : List (Text × Value)}
    (h : members.mapM settleMember? = some ms) {n : Text} {v : Value} (hm : (n, v) ∈ ms) :
    ∃ u, (n, u) ∈ members ∧ u.settle? = some v := by
  induction members generalizing ms with
  | nil =>
    cases h
    cases hm
  | cons m r ih =>
    simp only [List.mapM_cons, Option.pure_def, Option.bind_eq_bind, Option.bind_eq_some_iff,
      Option.some.injEq] at h
    obtain ⟨x, hx, xs, hxs, rfl⟩ := h
    obtain ⟨w, hw, rfl⟩ := Option.map_eq_some_iff.1 hx
    rcases List.mem_cons.1 hm with he | hm
    · cases he
      exact ⟨m.2, List.mem_cons_self, hw⟩
    · obtain ⟨u, hu, hv⟩ := ih hxs hm
      exact ⟨u, List.mem_cons_of_mem m hu, hv⟩

theorem exists_of_read {t : Text} {g : Globals} (h : read? t = some g) {n : Text} {v : Value}
    (hv : g.value? n = some v) : ∃ members u, Value.readDocument? t = some (.object members) ∧
      (n, u) ∈ members ∧ u.settle? = some v := by
  unfold read? at h
  split at h
  · next members hd =>
    obtain ⟨ms, hm, rfl⟩ := Option.map_eq_some_iff.1 h
    have hmem := (mem_of_foldl_put hv).resolve_left nofun
    obtain ⟨u, hu, hs⟩ := exists_of_mapM_settleMember hm hmem
    exact ⟨members, u, hd, hu, hs⟩
  · cases h

theorem proper_of_read {t : Text} {g : Globals} (h : read? t = some g) : g.Proper := by
  refine proper_iff.2 fun n v hv => ?_
  obtain ⟨members, u, hd, hu, hs⟩ := exists_of_read h hv
  have hp : Value.ProperMembers members := (Value.of_readDocument hd).1
  exact Value.proper_of_settle (Value.properMembers_iff.1 hp _ hu) hs

end Globals

theorem History.proper_table {h : History} (hp : ∀ r ∈ h, Globals.Proper r) :
    h.table.Proper := by
  refine Globals.proper_iff.2 fun n v hv => ?_
  have hn : n ≠ Globals.returnKey := by
    rintro rfl
    have hm := Globals.value?_isSome.1 (Option.isSome_of_eq_some hv)
    exact h.returnKey_not_mem_table hm
  rw [h.value?_table hn] at hv
  obtain ⟨r, hr, hv⟩ := List.exists_of_findSome?_eq_some hv
  exact Globals.proper_iff.1 (hp r (List.mem_reverse.1 hr)) n v hv

/-- The globals of a run come from result files, so each of them is a value of JSON. -/
theorem Program.proper_globals (p : Program) (s : Scheduler) :
    ∀ t ∈ p.turns s, t.state.globals.Proper := by
  intro t ht
  obtain ⟨i, rfl⟩ := List.get_of_mem ht
  rw [p.globals_turn s i]
  refine History.proper_table fun r hr => ?_
  obtain ⟨u, hu, hv⟩ := List.mem_filterMap.1 hr
  obtain ⟨t, ht⟩ := Reply.exists_read (Turn.values_of_reply hv).1
  exact Globals.proper_of_read ht

end Polyglot
