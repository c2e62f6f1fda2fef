import Mathlib.Data.List.Nodup
import Polyglot.Plan
import Polyglot.Proofs.Text.Pieces

/-!
# What calls lead to

Widening a selection of functions keeps what it has, and a step that adds nothing is
the last that could. There are no more such steps than functions in the table, so the
closure of some roots is the least selection that has the roots and that calls within
the language do not lead out of. It can be found with a stack: the name on top is
skipped if it has been seen or is no function of the language, and else makes room for
the names that its function calls. The stack may hold a name many times, but every name
is seen once, and so the search ends. Main statement: the search finds the closure.
-/
namespace Polyglot.FunctionTable

variable {t : FunctionTable} {l : Language}

/-- Functions of one language, picked from the table in its order. -/
structure Selection (t : FunctionTable) (l : Language) (fs : List FunctionDef) : Prop where
  sublist : fs.Sublist t.items
  language : ∀ f ∈ fs, f.language = l

theorem mem_widen {reached : List FunctionDef} {f : FunctionDef} :
    f ∈ t.widen l reached ↔
      f ∈ t.items ∧ f.language = l ∧
        (f ∈ reached ∨ ∃ g ∈ reached, f.name ∈ t.referenced l g.source) := by
  simp only [widen, callsAny, List.mem_filter, Bool.and_eq_true, Bool.or_eq_true, beq_iff_eq,
    List.contains_iff_mem, List.any_eq_true]

theorem selection_rooted (t : FunctionTable) (l : Language) (roots : List Text) :
    t.Selection l (t.rooted l roots) := by
  refine ⟨List.filter_sublist, fun f hf => ?_⟩
  have hp := (List.mem_filter.1 hf).2
  rw [Bool.and_eq_true, beq_iff_eq] at hp
  exact hp.1

theorem selection_widen (t : FunctionTable) (l : Language) (reached : List FunctionDef) :
    t.Selection l (t.widen l reached) :=
  ⟨List.filter_sublist, fun _ hf => (mem_widen.1 hf).2.1⟩

theorem Selection.sublist_widen {reached : List FunctionDef} (h : t.Selection l reached) :
    reached.Sublist (t.widen l reached) := by
  have hs := h.sublist.filter fun f =>
    f.language == l && (reached.contains f || t.callsAny l reached f.name)
  rw [List.filter_eq_self.2 fun f hf => ?_] at hs
  · exact hs
  · rw [Bool.and_eq_true, beq_iff_eq, Bool.or_eq_true]
    exact ⟨h.language f hf, .inl (List.contains_iff_mem.2 hf)⟩

theorem selection_reachIn (n : Nat) {reached : List FunctionDef} (h : t.Selection l reached) :
    t.Selection l (t.reachIn l n reached) := by
  induction n generalizing reached with
  | zero => exact h
  | succ n ih => exact ih (selection_widen t l reached)

theorem sublist_reachIn (n : Nat) {reached : List FunctionDef} (h : t.Selection l reached) :
    reached.Sublist (t.reachIn l n reached) := by
  induction n generalizing reached with
  | zero => exact List.Sublist.refl reached
  | succ n ih => exact h.sublist_widen.trans (ih (selection_widen t l reached))

theorem reachIn_of_widen_eq (n : Nat) {reached : List FunctionDef}
    (h : t.widen l reached = reached) : t.reachIn l n reached = reached := by
  induction n with
  | zero => rfl
  | succ n ih => rw [reachIn, h, ih]

theorem widen_reachIn (n : Nat) {reached : List FunctionDef} (h : t.Selection l reached) :
    t.widen l (t.reachIn l n reached) = t.reachIn l n reached ∨
      reached.length + n ≤ (t.reachIn l n reached).length := by
  induction n generalizing reached with
  | zero => exact .inr (Nat.le_refl _)
  | succ n ih =>
    by_cases hw : t.widen l reached = reached
    · left
      rw [reachIn_of_widen_eq (n + 1) hw, hw]
    · have hlt : reached.length < (t.widen l reached).length := by
        refine Nat.lt_of_le_of_ne h.sublist_widen.length_le fun he => hw ?_
        exact (h.sublist_widen.eq_of_length he).symm
      rcases ih (selection_widen t l reached) with hfix | hlen
      · exact .inl hfix
      · right
        rw [reachIn]
        omega

theorem widen_closure (t : FunctionTable) (l : Language) (roots : List Text) :
    t.widen l (t.closure l roots) = t.closure l roots := by
  have hs := selection_rooted t l roots
  rcases widen_reachIn t.items.length hs with hfix | hlen
  · exact hfix
  · have hw := (selection_reachIn t.items.length hs).sublist_widen
    have hle := (selection_widen t l (t.closure l roots)).sublist.length_le
    exact (hw.eq_of_length_le (by rw [closure] at hle; omega)).symm

theorem selection_closure (t : FunctionTable) (l : Language) (roots : List Text) :
    t.Selection l (t.closure l roots) :=
  selection_reachIn _ (selection_rooted t l roots)

theorem mem_closure_of_root {roots : List Text} {f : FunctionDef} (hf : f ∈ t.items)
    (hl : f.language = l) (hr : f.name ∈ roots) : f ∈ t.closure l roots := by
  refine (sublist_reachIn _ (selection_rooted t l roots)).subset (List.mem_filter.2 ⟨hf, ?_⟩)
  rw [Bool.and_eq_true, beq_iff_eq]
  exact ⟨hl, List.contains_iff_mem.2 hr⟩

theorem mem_closure_of_referenced {roots : List Text} {f g : FunctionDef}
    (hg : g ∈ t.closure l roots) (hf : f ∈ t.items) (hl : f.language = l)
    (hr : f.name ∈ t.referenced l g.source) : f ∈ t.closure l roots := by
  rw [← widen_closure]
  exact mem_widen.2 ⟨hf, hl, .inr ⟨g, hg, hr⟩⟩

theorem isIn_iff {name : Text} :
    t.isIn l name = true ↔ ∃ f, t.find? name = some f ∧ f.language = l := by
  rw [isIn]
  cases t.find? name with
  | none => simp
  | some f => simp

theorem mem_referenced {text name : Text} :
    name ∈ t.referenced l text ↔ name ∈ t.headsIn l text ∧ t.isIn l name = true := by
  rw [referenced, Names.mem_distinct, List.mem_filter]

theorem headsIn_unlines (ls : List Text) :
    t.headsIn l (Text.unlines ls) = ls.flatMap (t.headsIn l) := by
  induction ls with
  | nil => rfl
  | cons a r ih =>
    cases r with
    | nil => simp [Text.unlines, Text.joinWith]
    | cons b r =>
      rw [Text.unlines_cons_cons, headsIn, Text.splitOn_append_cons, List.flatMap_append,
        List.flatMap_cons, ← ih]
      rfl

end Polyglot.FunctionTable

namespace Polyglot.FunctionTable

variable {t : FunctionTable} {l : Language} {roots : List Text}

/-- The functions hold the roots and what calls from them lead to, and nothing else; each
of them stands there once, in table order. -/
structure IsClosure (t : FunctionTable) (l : Language) (roots : List Text)
    (fs : List FunctionDef) : Prop where
  picked : t.Selection l fs
  once : (fs.map (·.name)).Nodup
  rooted : ∀ f ∈ t.items, f.language = l → f.name ∈ roots → f ∈ fs
  closed : ∀ g ∈ fs, ∀ n ∈ t.referenced l g.source, ∃ f ∈ fs, f.name = n
  least : ∀ D : FunctionDef → Prop,
    (∀ f ∈ t.items, f.language = l → f.name ∈ roots → D f) →
    (∀ g ∈ t.items, g.language = l → D g →
      ∀ f ∈ t.items, f.language = l → f.name ∈ t.referenced l g.source → D f) →
    ∀ f ∈ fs, D f

theorem eq_of_name {f g : FunctionDef} (hf : f ∈ t.items) (hg : g ∈ t.items)
    (hn : f.name = g.name) : f = g := List.inj_on_of_nodup_map t.nodup hf hg hn

theorem exists_of_isIn {n : Text} (h : t.isIn l n = true) :
    ∃ f ∈ t.items, f.name = n ∧ f.language = l := by
  obtain ⟨f, hf, hl⟩ := isIn_iff.1 h
  obtain ⟨hm, hn⟩ := Catalog.find?_eq_some.1 hf
  exact ⟨f, hm, hn, hl⟩

theorem isIn_of_mem {f : FunctionDef} (hf : f ∈ t.items) (hl : f.language = l) :
    t.isIn l f.name = true :=
  isIn_iff.2 ⟨f, Catalog.find?_eq_some.2 ⟨hf, rfl⟩, hl⟩

theorem least_reachIn {D : FunctionDef → Prop}
    (hD : ∀ g ∈ t.items, g.language = l → D g →
      ∀ f ∈ t.items, f.language = l → f.name ∈ t.referenced l g.source → D f)
    (n : Nat) {reached : List FunctionDef} (hs : t.Selection l reached)
    (h : ∀ f ∈ reached, D f) : ∀ f ∈ t.reachIn l n reached, D f := by
  induction n generalizing reached with
  | zero => exact h
  | succ n ih =>
    refine ih (selection_widen t l reached) fun f hf => ?_
    obtain ⟨hm, hl, hf | ⟨g, hg, hr⟩⟩ := mem_widen.1 hf
    · exact h f hf
    · exact hD g (hs.sublist.subset hg) (hs.language g hg) (h g hg) f hm hl hr

theorem isClosure_closure (t : FunctionTable) (l : Language) (roots : List Text) :
    IsClosure t l roots (t.closure l roots) where
  picked := selection_closure t l roots
  once := t.nodup.sublist ((selection_closure t l roots).sublist.map _)
  rooted := fun _ hf hl hr => mem_closure_of_root hf hl hr
  closed := by
    intro g hg n hn
    obtain ⟨f, hf, rfl, hl⟩ := exists_of_isIn (mem_referenced.1 hn).2
    exact ⟨f, mem_closure_of_referenced hg hf hl hn, rfl⟩
  least := by
    intro D hroots hD
    refine least_reachIn hD _ (selection_rooted t l roots) fun f hf => ?_
    obtain ⟨hm, hp⟩ := List.mem_filter.1 hf
    rw [Bool.and_eq_true, beq_iff_eq, List.contains_iff_mem] at hp
    exact hroots f hm hp.1 hp.2

theorem IsClosure.subset {fs gs : List FunctionDef} (h : IsClosure t l roots fs)
    (k : IsClosure t l roots gs) : fs ⊆ gs := by
  refine h.least (· ∈ gs) k.rooted fun g _ _ hg f hf _ hr => ?_
  obtain ⟨f', hf', hn⟩ := k.closed g hg f.name hr
  exact eq_of_name (k.picked.sublist.subset hf') hf hn ▸ hf'

def unseen (t : FunctionTable) (seen : List Text) : Nat :=
  (t.items.filter fun f => !seen.contains f.name).length

theorem unseen_lt {seen : List Text} {n : Text} {f : FunctionDef} (hf : t.find? n = some f)
    (hn : seen.contains n = false) : t.unseen (seen ++ [n]) < t.unseen seen := by
  obtain ⟨hm, rfl⟩ := Catalog.find?_eq_some.1 hf
  have hsplit : t.items.filter (fun g => !(seen ++ [f.name]).contains g.name) =
      (t.items.filter fun g => !seen.contains g.name).filter fun g => !(g.name == f.name) := by
    rw [List.filter_filter]
    refine List.filter_congr fun g _ => ?_
    rw [List.contains_append, List.contains_cons, List.contains_nil, Bool.or_false,
      Bool.not_or, Bool.and_comm]
  rw [unseen, unseen, hsplit, List.length_filter_lt_length_iff_exists]
  exact ⟨f, List.mem_filter.2 ⟨hm, by rw [hn]; rfl⟩, by simp⟩

/-- The names seen in the end; the top of the stack comes first. -/
def search (t : FunctionTable) (l : Language) (seen : List Text) : List Text → List Text
  | [] => seen
  | n :: stack =>
    if _ : seen.contains n = true then t.search l seen stack
    else
      match _ : t.find? n with
      | none => t.search l seen stack
      | some f =>
        if f.language = l then
          t.search l (seen ++ [n]) ((t.referenced l f.source).reverse ++ stack)
        else t.search l seen stack
termination_by stack => (t.unseen seen, stack.length)
decreasing_by
  all_goals first
    | exact .right _ (Nat.lt_succ_self _)
    | exact .left _ _ (unseen_lt ‹_› (Bool.eq_false_iff.2 ‹_›))

def found (t : FunctionTable) (l : Language) (roots : List Text) : List FunctionDef :=
  t.items.filter fun f => (t.search l [] roots.reverse).contains f.name

variable {seen stack : List Text}

theorem mem_search_of_seen {n : Text} (h : n ∈ seen) : n ∈ t.search l seen stack := by
  fun_induction t.search l seen stack with
  | case1 seen => exact h
  | case2 seen m stack hm ih => exact ih h
  | case3 seen m stack hm hf ih => exact ih h
  | case4 seen m stack hm f hf hl ih => exact ih (List.mem_append_left _ h)
  | case5 seen m stack hm f hf hl ih => exact ih h

theorem mem_search_of_stack {n : Text} (h : n ∈ stack) (hn : t.isIn l n = true) :
    n ∈ t.search l seen stack := by
  fun_induction t.search l seen stack with
  | case1 seen => cases h
  | case2 seen m stack hm ih =>
    rcases List.mem_cons.1 h with rfl | h
    · exact mem_search_of_seen (List.contains_iff_mem.1 hm)
    · exact ih h
  | case3 seen m stack hm hf ih =>
    rcases List.mem_cons.1 h with rfl | h
    · rw [isIn, hf] at hn
      cases hn
    · exact ih h
  | case4 seen m stack hm f hf hl ih =>
    rcases List.mem_cons.1 h with rfl | h
    · exact mem_search_of_seen (List.mem_append_right _ List.mem_cons_self)
    · exact ih (List.mem_append_right _ h)
  | case5 seen m stack hm f hf hl ih =>
    rcases List.mem_cons.1 h with rfl | h
    · rw [isIn, hf, Option.any_some, beq_iff_eq] at hn
      exact absurd hn hl
    · exact ih h

theorem closed_search (h : ∀ f ∈ t.items, f.name ∈ seen → ∀ m ∈ t.referenced l f.source,
    m ∈ seen ∨ m ∈ stack) : ∀ f ∈ t.items, f.name ∈ t.search l seen stack →
      ∀ m ∈ t.referenced l f.source, m ∈ t.search l seen stack := by
  -- A call of a function that was seen leads to what was seen, or is still to be looked at.
  fun_induction t.search l seen stack with
  | case1 seen =>
    intro f hf hn m hm
    exact (h f hf hn m hm).resolve_right List.not_mem_nil
  | case2 seen n stack hn ih =>
    refine ih fun f hf hs m hm => ?_
    rcases h f hf hs m hm with hm | hm
    · exact .inl hm
    · rcases List.mem_cons.1 hm with rfl | hm
      · exact .inl (List.contains_iff_mem.1 hn)
      · exact .inr hm
  | case3 seen n stack hn hnone ih =>
    refine ih fun f hf hs m hm => ?_
    rcases h f hf hs m hm with hs | hs
    · exact .inl hs
    · rcases List.mem_cons.1 hs with rfl | hs
      · have hin := (mem_referenced.1 hm).2
        rw [isIn, hnone] at hin
        cases hin
      · exact .inr hs
  | case4 seen n stack hn g hg hl ih =>
    obtain ⟨hgm, rfl⟩ := Catalog.find?_eq_some.1 hg
    refine ih fun f hf hs m hm => ?_
    rcases List.mem_append.1 hs with hs | hs
    · rcases h f hf hs m hm with hm | hm
      · exact .inl (List.mem_append_left _ hm)
      · rcases List.mem_cons.1 hm with rfl | hm
        · exact .inl (List.mem_append_right _ List.mem_cons_self)
        · exact .inr (List.mem_append_right _ hm)
    · rw [eq_of_name hf hgm (List.mem_singleton.1 hs)] at hm
      exact .inr (List.mem_append_left _ (List.mem_reverse.2 hm))
  | case5 seen n stack hn g hg hl ih =>
    refine ih fun f hf hs m hm => ?_
    rcases h f hf hs m hm with hs | hs
    · exact .inl hs
    · rcases List.mem_cons.1 hs with rfl | hs
      · have hin := (mem_referenced.1 hm).2
        rw [isIn, hg, Option.any_some, beq_iff_eq] at hin
        exact absurd hin hl
      · exact .inr hs

theorem least_search {D : FunctionDef → Prop}
    (hD : ∀ g ∈ t.items, g.language = l → D g →
      ∀ f ∈ t.items, f.language = l → f.name ∈ t.referenced l g.source → D f)
    (hseen : ∀ n ∈ seen, ∃ f ∈ t.items, f.name = n ∧ f.language = l ∧ D f)
    (hstack : ∀ f ∈ t.items, f.language = l → f.name ∈ stack → D f) :
    ∀ n ∈ t.search l seen stack, ∃ f ∈ t.items, f.name = n ∧ f.language = l ∧ D f := by
  have hrest : ∀ {n : Text} {stack : List Text},
      (∀ f ∈ t.items, f.language = l → f.name ∈ n :: stack → D f) →
      ∀ f ∈ t.items, f.language = l → f.name ∈ stack → D f :=
    fun h f hf hl hs => h f hf hl (List.mem_cons_of_mem _ hs)
  fun_induction t.search l seen stack with
  | case1 seen => exact hseen
  | case2 seen n stack hn ih => exact ih hseen (hrest hstack)
  | case3 seen n stack hn hnone ih => exact ih hseen (hrest hstack)
  | case4 seen n stack hn g hg hl ih =>
    obtain ⟨hgm, rfl⟩ := Catalog.find?_eq_some.1 hg
    have hDg := hstack g hgm hl List.mem_cons_self
    refine ih (List.forall_mem_append.2 ⟨hseen, List.forall_mem_singleton.2
      ⟨g, hgm, rfl, hl, hDg⟩⟩) fun f hf hfl hs => ?_
    rcases List.mem_append.1 hs with hs | hs
    · exact hD g hgm hl hDg f hf hfl (List.mem_reverse.1 hs)
    · exact hrest hstack f hf hfl hs
  | case5 seen n stack hn g hg hl ih => exact ih hseen (hrest hstack)

theorem mem_found {f : FunctionDef} : f ∈ t.found l roots ↔
    f ∈ t.items ∧ f.name ∈ t.search l [] roots.reverse := by
  rw [found, List.mem_filter, List.contains_iff_mem]

theorem isClosure_found (t : FunctionTable) (l : Language) (roots : List Text) :
    IsClosure t l roots (t.found l roots) := by
  have hleast : ∀ D : FunctionDef → Prop,
      (∀ f ∈ t.items, f.language = l → f.name ∈ roots → D f) →
      (∀ g ∈ t.items, g.language = l → D g →
        ∀ f ∈ t.items, f.language = l → f.name ∈ t.referenced l g.source → D f) →
      ∀ f ∈ t.found l roots, f.language = l ∧ D f := by
    intro D hroots hD f hf
    obtain ⟨hm, hs⟩ := mem_found.1 hf
    obtain ⟨g, hg, hn, hl, hDg⟩ := least_search hD (List.forall_mem_nil _)
      (fun f hf hl hr => hroots f hf hl (List.mem_reverse.1 hr)) f.name hs
    exact eq_of_name hg hm hn ▸ ⟨hl, hDg⟩
  refine ⟨⟨List.filter_sublist, fun f hf => ?_⟩, t.nodup.sublist (List.filter_sublist.map _),
    fun f hf hl hr => ?_, fun g hg n hn => ?_, fun D hroots hD f hf => (hleast D hroots hD f hf).2⟩
  · exact (hleast (fun _ => True) (fun _ _ _ _ => trivial) (fun _ _ _ _ _ _ _ _ => trivial)
      f hf).1
  · exact mem_found.2 ⟨hf, mem_search_of_stack (List.mem_reverse.2 hr) (isIn_of_mem hf hl)⟩
  · obtain ⟨hgm, hs⟩ := mem_found.1 hg
    obtain ⟨f, hf, rfl, hl⟩ := exists_of_isIn (mem_referenced.1 hn).2
    exact ⟨f, mem_found.2 ⟨hf,
      closed_search (fun _ _ hn => absurd hn List.not_mem_nil) g hgm hs _ hn⟩, rfl⟩

theorem found_eq_closure (t : FunctionTable) (l : Language) (roots : List Text) :
    t.found l roots = t.closure l roots := by
  have hf := isClosure_found t l roots
  have hc := isClosure_closure t l roots
  rw [← widen_closure, found, widen]
  refine List.filter_congr fun f hm => Bool.eq_iff_iff.2 ?_
  have hfound : (t.search l [] roots.reverse).contains f.name = true ↔ f ∈ t.found l roots := by
    rw [found, List.mem_filter]
    exact ⟨fun h => ⟨hm, h⟩, fun h => h.2⟩
  have hwiden : (f.language == l && ((t.closure l roots).contains f ||
      t.callsAny l (t.closure l roots) f.name)) = true ↔
        f ∈ t.widen l (t.closure l roots) := by
    rw [widen, List.mem_filter]
    exact ⟨fun h => ⟨hm, h⟩, fun h => h.2⟩
  rw [hfound, hwiden, widen_closure]
  exact ⟨fun h => hf.subset hc h, fun h => hc.subset hf h⟩

end Polyglot.FunctionTable
