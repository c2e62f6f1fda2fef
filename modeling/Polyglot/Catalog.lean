import Polyglot.Text.Basic

/-!
# Names and catalogs

A list of names keeps the order in which names were first added and holds each
of them once: `extend` adds what is missing, `distinct` starts from nothing. A
catalog lists items under their names in that order. Putting an item under a known
name replaces the old one where it stood, so no two items share a name.
-/
namespace Polyglot.Names

def insert (names : List Text) (n : Text) : List Text :=
  if n ∈ names then names else names ++ [n]

def extend (names extra : List Text) : List Text := extra.foldl insert names

def distinct (names : List Text) : List Text := extend [] names

theorem mem_insert {names : List Text} {n m : Text} : m ∈ insert names n ↔ m ∈ names ∨ m = n := by
  unfold insert
  split
  · next h => exact ⟨Or.inl, fun hm => hm.elim id (fun e => e ▸ h)⟩
  · simp

theorem nodup_insert {names : List Text} (h : names.Nodup) (n : Text) : (insert names n).Nodup := by
  unfold insert
  split
  · exact h
  · next hn => exact List.nodup_append.2 ⟨h, by simp, by simp; exact fun a ha e => hn (e ▸ ha)⟩

theorem mem_extend {names extra : List Text} {m : Text} :
    m ∈ extend names extra ↔ m ∈ names ∨ m ∈ extra := by
  induction extra generalizing names with
  | nil => simp [extend]
  | cons x xs ih =>
    rw [show extend names (x :: xs) = extend (insert names x) xs from rfl, ih, mem_insert]
    simp [or_assoc]

theorem nodup_extend {names : List Text} (h : names.Nodup) (extra : List Text) :
    (extend names extra).Nodup := by
  induction extra generalizing names with
  | nil => exact h
  | cons x xs ih => exact ih (nodup_insert h x)

theorem extend_append (names a b : List Text) :
    extend (extend names a) b = extend names (a ++ b) := by
  simp only [extend, List.foldl_append]

theorem mem_distinct {names : List Text} {n : Text} : n ∈ distinct names ↔ n ∈ names := by
  simp only [distinct, mem_extend, List.not_mem_nil, false_or]

theorem nodup_distinct (names : List Text) : (distinct names).Nodup :=
  nodup_extend List.nodup_nil names

end Polyglot.Names

namespace Polyglot

structure Catalog (α : Type) (key : α → Text) where
  items : List α
  nodup : (items.map key).Nodup

namespace Catalog
variable {α : Type} {key : α → Text}

def empty : Catalog α key := ⟨[], by simp⟩

def find? (c : Catalog α key) (name : Text) : Option α := c.items.find? (key · == name)

def names (c : Catalog α key) : List Text := c.items.map key

def contains (c : Catalog α key) (name : Text) : Bool := (c.find? name).isSome

def putIn (key : α → Text) (a : α) : List α → List α
  | [] => [a]
  | b :: r => if key b = key a then a :: r else b :: putIn key a r

theorem map_putIn (a : α) (l : List α) :
    (putIn key a l).map key = if key a ∈ l.map key then l.map key else l.map key ++ [key a] := by
  induction l with
  | nil => simp [putIn]
  | cons b r ih =>
    unfold putIn
    by_cases h : key b = key a
    · simp [h]
    · have h' : ¬ key a = key b := fun e => h e.symm
      simp only [h, if_false, List.map_cons, List.mem_cons, h', false_or, ih]
      split <;> simp

theorem nodup_putIn {l : List α} (h : (l.map key).Nodup) (a : α) :
    ((putIn key a l).map key).Nodup := by
  rw [map_putIn]
  split
  · exact h
  · next hn => exact List.nodup_append.2 ⟨h, by simp, by
      intro x hx y hy e
      simp only [List.mem_singleton] at hy
      exact hn (hy ▸ e ▸ hx)⟩

def put (c : Catalog α key) (a : α) : Catalog α key :=
  ⟨putIn key a c.items, nodup_putIn c.nodup a⟩

theorem names_put (c : Catalog α key) (a : α) :
    (c.put a).names = if key a ∈ c.names then c.names else c.names ++ [key a] := map_putIn a c.items

theorem putIn_of_not_mem {a : α} {l : List α} (h : key a ∉ l.map key) :
    putIn key a l = l ++ [a] := by
  induction l with
  | nil => rfl
  | cons b r ih =>
    rw [List.map_cons, List.mem_cons, not_or] at h
    rw [putIn, if_neg fun e => h.1 e.symm, ih h.2, List.cons_append]

theorem find?_putIn (a : α) (l : List α) (n : Text) :
    (putIn key a l).find? (key · == n) =
      if key a = n then some a else l.find? (key · == n) := by
  induction l with
  | nil => by_cases h : key a = n <;> simp [putIn, h]
  | cons b r ih =>
    by_cases hb : key b = key a
    · by_cases h : key a = n <;> simp [putIn, hb, h]
    · by_cases h : key a = n
      · have hn : ¬ key b = n := fun e => hb (e.trans h.symm)
        simpa [putIn, hb, hn, h] using ih
      · by_cases hn : key b = n
        · simp [putIn, hn, h, Ne.symm h]
        · simpa [putIn, hb, hn, h] using ih

theorem find?_put (c : Catalog α key) (a : α) (n : Text) :
    (c.put a).find? n = if key a = n then some a else c.find? n :=
  find?_putIn a c.items n

theorem find?_of_mem {l : List α} (h : (l.map key).Nodup) {a : α} (ha : a ∈ l) :
    l.find? (key · == key a) = some a := by
  induction l with
  | nil => cases ha
  | cons b r ih =>
    rw [List.map_cons, List.nodup_cons] at h
    rcases List.mem_cons.1 ha with rfl | ha
    · simp only [List.find?_cons, beq_self_eq_true]
    · have hb : ¬ key b = key a := fun e => h.1 (e ▸ List.mem_map_of_mem ha)
      rw [List.find?_cons, beq_eq_false_iff_ne.2 hb]
      exact ih h.2 ha

theorem find?_eq_some {c : Catalog α key} {n : Text} {a : α} :
    c.find? n = some a ↔ a ∈ c.items ∧ key a = n := by
  constructor
  · exact fun h => ⟨List.mem_of_find?_eq_some h, by simpa using List.find?_some h⟩
  · rintro ⟨ha, rfl⟩
    exact find?_of_mem c.nodup ha

theorem find?_isSome (c : Catalog α key) (n : Text) : (c.find? n).isSome = true ↔ n ∈ c.names := by
  simp [find?, names, List.find?_isSome]

end Catalog
end Polyglot
