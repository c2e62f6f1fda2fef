import Polyglot.Catalog
import Polyglot.Program
import Polyglot.Run.Execution
import Polyglot.Value.Reader

/-!
# What a program is to run

A run merges the results of its units one after the other. The table that comes of
it is read off the history of results: its names are those of the results, in the
order in which they first appeared, and each name has the value of the latest
result that holds it. The key of return values is in no such table.

A unit is generated for a task: a whole segment, a block of code by way of its
template, a call, or the continuation of a calling line. The expansion of a plan lists
a slot for each. Only the continuation is open until the run: it has its slot if every
call of the line gave a value, which the results of the run tell.
-/
namespace Polyglot

theorem Catalog.names_put_eq_insert {α : Type} {key : α → Text} (c : Catalog α key) (a : α) :
    (c.put a).names = Names.insert c.names (key a) := names_put c a

namespace Globals

theorem value?_put (g : Globals) (m : Text × Value) (n : Text) :
    value? (g.put m) n = if m.1 = n then some m.2 else g.value? n := by
  simp only [value?, Catalog.find?_put]
  split <;> rfl

theorem value?_isSome {g : Globals} {n : Text} : (g.value? n).isSome = true ↔ n ∈ g.names := by
  rw [value?, Option.isSome_map, Catalog.find?_isSome]

theorem value?_eq_none {g : Globals} {n : Text} : g.value? n = none ↔ n ∉ g.names := by
  rw [← value?_isSome, Option.not_isSome_iff_eq_none]

theorem names_mergeEntry (g : Globals) (m : Text × Value) :
    (g.mergeEntry m).names = Names.extend g.names ([m.1].filter (· != returnKey)) := by
  by_cases h : m.1 = returnKey
  · simp [mergeEntry, h, Names.extend]
  · simp [mergeEntry, h, Names.extend, Catalog.names_put_eq_insert]

theorem names_merge (g r : Globals) :
    (g.merge r).names = Names.extend g.names (r.names.filter (· != returnKey)) := by
  simp only [merge, Catalog.names]
  generalize r.items = items
  induction items generalizing g with
  | nil => rfl
  | cons m rest ih =>
    have hm := names_mergeEntry g m
    simp only [Catalog.names] at hm
    rw [List.foldl_cons, ih, hm, Names.extend_append, ← List.filter_append]
    rfl

theorem names_foldl_merge (g : Globals) (rs : List Globals) :
    (rs.foldl merge g).names =
      Names.extend g.names ((rs.flatMap Catalog.names).filter (· != returnKey)) := by
  induction rs generalizing g with
  | nil => rfl
  | cons r rest ih =>
    rw [List.foldl_cons, ih, names_merge, Names.extend_append, ← List.filter_append,
      List.flatMap_cons]

theorem value?_mergeEntry (g : Globals) (m : Text × Value) {n : Text} (hn : n ≠ returnKey) :
    (g.mergeEntry m).value? n = if m.1 = n then some m.2 else g.value? n := by
  by_cases h : m.1 = returnKey
  · have hm : ¬ m.1 = n := fun e => hn (e ▸ h)
    rw [mergeEntry, if_pos h, if_neg hm]
  · rw [mergeEntry, if_neg h, value?_put]

theorem value?_foldl_mergeEntry (g : Globals) {n : Text} (hn : n ≠ returnKey)
    {items : List (Text × Value)} (hd : (items.map Prod.fst).Nodup) :
    (items.foldl mergeEntry g).value? n =
      ((items.find? (·.1 == n)).map (·.2)).or (g.value? n) := by
  induction items generalizing g with
  | nil => rfl
  | cons m rest ih =>
    rw [List.map_cons, List.nodup_cons] at hd
    rw [List.foldl_cons, ih _ hd.2, value?_mergeEntry g m hn]
    by_cases h : m.1 = n
    · have hr : rest.find? (·.1 == n) = none := by
        rw [List.find?_eq_none]
        intro x hx he
        have hxn : x.1 = n := by simpa using he
        exact hd.1 (List.mem_map.2 ⟨x, hx, hxn.trans h.symm⟩)
      simp [hr, h]
    · simp [h]

theorem value?_merge (g r : Globals) {n : Text} (hn : n ≠ returnKey) :
    (g.merge r).value? n = (r.value? n).or (g.value? n) :=
  value?_foldl_mergeEntry g hn r.nodup

end Globals

/-- The results of the units that completed, the earliest first. -/
abbrev History := List Globals

namespace History

def table (h : History) : Globals := h.foldl Globals.merge Catalog.empty

/-- The names in the results, in the order in which they first appeared. -/
def seen (h : History) : List Text :=
  Names.distinct ((h.flatMap Catalog.names).filter (· != Globals.returnKey))

def latest? (h : History) (n : Text) : Option Value := h.reverse.findSome? (·.value? n)

theorem names_table (h : History) : h.table.names = h.seen :=
  Globals.names_foldl_merge Catalog.empty h

theorem mem_seen {h : History} {n : Text} :
    n ∈ h.seen ↔ n ≠ Globals.returnKey ∧ ∃ r ∈ h, n ∈ r.names := by
  simp [seen, Names.mem_distinct, and_comm]

theorem value?_table (h : History) {n : Text} (hn : n ≠ Globals.returnKey) :
    h.table.value? n = h.latest? n := by
  suffices hg : ∀ g : Globals, (h.foldl Globals.merge g).value? n =
      (h.latest? n).or (g.value? n) by
    rw [table, hg]
    exact Option.or_none
  induction h with
  | nil => intro g; rfl
  | cons r rest ih =>
    intro g
    rw [List.foldl_cons, ih, Globals.value?_merge g r hn]
    simp [latest?, List.findSome?_append, Option.or_assoc]

theorem returnKey_not_mem_table (h : History) : Globals.returnKey ∉ h.table.names := by
  rw [names_table, mem_seen]
  exact fun hm => hm.1 rfl

end History

def Plan.own : Plan → List Text
  | simple => []
  | split _ own => own

def Part.context (p : Part) (gen : Generator) : SegmentContext :=
  Execution.contextOf gen p p.plan.own

/-- What is known when the blocks of `pre` are behind. -/
def Template.knownAfter (known : List Text) (pre : List Block) : List Text :=
  pre.foldl (fun k b => Names.extend k b.bound) known

theorem Template.exists_block_of_mem {ctx : SegmentContext} {known : List Text}
    {blocks : List Block} {t : Template} (h : some t ∈ ofBlocks ctx known blocks) :
    ∃ pre text line bound post, blocks = pre ++ .code text line bound :: post ∧
      t = ofCode ctx (knownAfter known pre) text line bound := by
  induction blocks generalizing known with
  | nil => cases h
  | cons x r ih =>
    cases x with
    | code text line bound =>
      rw [ofBlocks, List.mem_cons, Option.some.injEq] at h
      rcases h with rfl | h
      · exact ⟨[], text, line, bound, r, rfl, rfl⟩
      · obtain ⟨pre, text', line', bound', post, rfl, ht⟩ := ih h
        exact ⟨.code text line bound :: pre, text', line', bound', post, rfl, ht⟩
    | call text line calls bound =>
      rw [ofBlocks, List.mem_cons] at h
      rcases h with h | h
      · cases h
      · obtain ⟨pre, text', line', bound', post, rfl, ht⟩ := ih h
        exact ⟨.call text line calls bound :: pre, text', line', bound', post, rfl, ht⟩

theorem Template.eq_of_fill {t : Template} {g : Globals} {u : GuestUnit} (h : t.fill g = .ok u) :
    ∃ preamble, u = (t.draft preamble).unit t.language .segment t.tracked t.firstLine := by
  unfold fill at h
  cases hf : Placeholder.fill (t.valueOf g) t.preamble with
  | error e => rw [hf] at h; cases h
  | ok preamble => rw [hf] at h; cases h; exact ⟨preamble, rfl⟩

inductive Task
  | segment
  | code (t : Template)
  | call (c : CallSite) (f : FunctionDef)
  | continuation (text : Text) (line : Nat) (calls : List CallSite) (returns : List Value)
      (bound : List Text)

namespace Task

def isCode : Task → Bool
  | code _ => true
  | _ => false

def isContinuation : Task → Bool
  | continuation _ _ _ _ _ => true
  | _ => false

def unit? (gen : Generator) (p : Part) (g : Globals) : Task → Except Undefined GuestUnit
  | segment => .ok (Generator.simpleUnit p.segment p.analysis.bound g)
  | code t => t.fill g
  | call c f => .ok (gen.invocationUnit c f p.segment.language g)
  | continuation text line calls returns bound =>
    .ok (Generator.continuationUnit (p.context gen) text line calls returns bound g)

def draft? (gen : Generator) (p : Part) (g : Globals) : Task → Except Undefined Draft
  | segment => .ok (Generator.simpleDraft p.segment p.analysis.bound g)
  | code t => (Placeholder.fill (t.valueOf g) t.preamble).map t.draft
  | call c f => .ok (gen.invocationDraft c f p.segment.language g)
  | continuation text line calls returns bound =>
    .ok (Generator.continuationDraft (p.context gen) text line calls returns bound g)

def bound (p : Part) : Task → List Text
  | segment => p.analysis.bound
  | code _ => []
  | call _ _ => []
  | continuation _ _ _ _ bound => bound

/-- The task is one that the plan of the part asks for. -/
def Planned (gen : Generator) (p : Part) : Task → Prop
  | segment => p.plan = .simple
  | code t => ∃ g pre text line bound post, p.plan.blocks = pre ++ .code text line bound :: post ∧
      t = .ofCode (p.context gen)
        (Template.knownAfter (Globals.visible g p.segment.language) pre) text line bound
  | call c f => (∃ b ∈ p.plan.blocks, c ∈ b.calls) ∧ gen.functions.find? c.callee = some f
  | continuation text line calls returns bound =>
      .call text line calls bound ∈ p.plan.blocks ∧ returns.length = calls.length

end Task

/-- The place of one unit: its kind, its language and its line. -/
structure Slot where
  kind : UnitKind
  language : Language
  line : Nat
  deriving DecidableEq

def GuestUnit.slot (u : GuestUnit) : Slot := ⟨u.kind, u.language, u.firstLine⟩

def UnitRecord.slot (r : UnitRecord) : Slot := ⟨r.kind, r.language, r.firstLine⟩

/-- One unit, or the calls of a line with the continuation that may follow. -/
inductive Stage
  | unit (slot : Slot)
  | calls (slots : List Slot) (continuation : Slot)
  deriving DecidableEq

namespace Stage

def slots : Stage → List Slot
  | unit x => [x]
  | calls xs k => xs ++ [k]

/-- The slots of the stages, given the results of the units in order. -/
def expand : List Stage → History → List Slot
  | [], _ => []
  | unit x :: r, h => x :: expand r h.tail
  | calls xs k :: r, h =>
    xs ++
      if (h.take xs.length).all (Catalog.contains · Globals.returnKey) then
        k :: expand r (h.drop xs.length).tail
      else expand r (h.drop xs.length)

end Stage

def Task.slot (p : Part) : Task → Slot
  | segment => ⟨.segment, p.segment.language, p.segment.firstLine⟩
  | code t => ⟨.segment, t.language, t.firstLine⟩
  | call c f => ⟨.invocation, f.language, c.line⟩
  | continuation _ line _ _ _ => ⟨.continuation, p.segment.language, line⟩

def CallSite.slot (functions : FunctionTable) (caller : Language) (c : CallSite) : Slot :=
  ⟨.invocation, (functions.find? c.callee).elim caller FunctionDef.language, c.line⟩

def Block.stage (functions : FunctionTable) (caller : Language) : Block → Stage
  | code _ line _ => .unit ⟨.segment, caller, line⟩
  | call _ line calls _ =>
    .calls (calls.map (CallSite.slot functions caller)) ⟨.continuation, caller, line⟩

def Part.stages (functions : FunctionTable) (p : Part) : List Stage :=
  match p.plan with
  | .simple => [.unit ⟨.segment, p.segment.language, p.segment.firstLine⟩]
  | .split blocks _ => blocks.map (Block.stage functions p.segment.language)

def Program.stages (p : Program) : List Stage := p.parts.flatMap (Part.stages p.functions)

theorem Task.slot_of_unit {gen : Generator} {p : Part} {g : Globals} {task : Task} {u : GuestUnit}
    (hu : task.unit? gen p g = .ok u) : u.slot = task.slot p := by
  cases task with
  | segment => cases hu; rfl
  | call c f => cases hu; rfl
  | continuation text line calls returns bound => cases hu; rfl
  | code t =>
    obtain ⟨preamble, rfl⟩ := Template.eq_of_fill hu
    rfl

namespace Stage

theorem expand_nil (h : History) : expand [] h = [] := rfl

theorem expand_units (xs : List Slot) (more : List Stage) (h : History) :
    expand (xs.map unit ++ more) h = xs ++ expand more (h.drop xs.length) := by
  induction xs generalizing h with
  | nil => rfl
  | cons x r ih =>
    rw [List.map_cons, List.cons_append, expand, ih, List.cons_append, List.length_cons,
      List.drop_tail]

theorem expand_calls {xs : List Slot} {k : Slot} {h : History} (hl : h.length = xs.length)
    (more : List Stage) (later : History) :
    expand (calls xs k :: more) (h ++ later) =
      xs ++ if h.all (Catalog.contains · Globals.returnKey) then expand (unit k :: more) later
        else expand more later := by
  have hk : expand (unit k :: more) later = k :: expand more later.tail := rfl
  rw [hk, expand, List.take_left' hl, List.drop_left' hl]

theorem isPrefix_expand_calls (xs : List Slot) (k : Slot) (more : List Stage) (h : History) :
    xs <+: expand (calls xs k :: more) h := List.prefix_append _ _

theorem sublist_expand (stages : List Stage) (h : History) :
    (expand stages h).Sublist (stages.flatMap slots) := by
  induction stages generalizing h with
  | nil => exact List.Sublist.refl _
  | cons a r ih =>
    rw [List.flatMap_cons]
    cases a with
    | unit x => exact (ih h.tail).cons_cons x
    | calls xs k =>
      rw [expand, slots, List.append_assoc]
      refine (List.Sublist.refl xs).append ?_
      split
      · exact (ih _).cons_cons k
      · exact (ih _).cons k

end Stage
end Polyglot
