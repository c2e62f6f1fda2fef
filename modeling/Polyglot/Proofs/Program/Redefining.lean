import Polyglot.Proofs.Program.Errors

/-!
# Redefinitions

All bindings and functions of a file make one sequence of entries, segment after segment,
the bindings of a segment ahead of its functions. The two tables know of each name the
latest entry so far, so the first entry that takes up a name it may not have is found, and
with it the latest one that has the name. A sequence without one leaves each name's last
binding in the ledger, and all functions in the table.
-/
namespace Polyglot.Program

inductive Entry
  | binding (d : Declaration)
  | function (f : FunctionDef)

namespace Entry

def kind : Entry → SymbolKind
  | binding _ => .binding
  | function _ => .function

def name : Entry → Text
  | binding d => d.name
  | function f => f.name

def line : Entry → Nat
  | binding d => d.line
  | function f => f.line

def bound? : Entry → Option Text
  | binding d => some d.name
  | function _ => none

def function? : Entry → Option FunctionDef
  | binding _ => none
  | function f => some f

def Exclusive : Entry → Prop
  | binding d => d.language = .javascript
  | function _ => True

end Entry

/-- What a segment enters: its bindings, and then its functions. -/
def entriesOf (sa : Segment × Analysis) : List Entry :=
  sa.2.bindings.map (fun b => .binding (declarationOf sa.1 b)) ++ sa.2.functions.map .function

def entries (sas : List (Segment × Analysis)) : List Entry := sas.flatMap entriesOf

def boundNames (xs : List Entry) : List Text := xs.filterMap Entry.bound?

def latest? (xs : List Entry) (k : SymbolKind) (n : Text) : Option Entry :=
  (xs.filter fun x => x.kind == k && x.name == n).getLast?

/-- The entry may not come behind the others, since one of them has its name. -/
def Redefines (before : List Entry) (x : Entry) : Prop :=
  x.Exclusive ∧ ∃ y ∈ before, y.kind = x.kind ∧ y.name = x.name

def RedefinesAt (xs : List Entry) (i : Nat) : Prop := ∃ x, xs[i]? = some x ∧ Redefines (xs.take i) x

/-- What is told of the first entry that redefines a name: its own line, and that of the
latest entry before it with its kind and name. -/
def FirstRedefined (xs : List Entry) (r : Redefinition) : Prop :=
  ∃ i x y, xs[i]? = some x ∧ RedefinesAt xs i ∧ (∀ j < i, ¬ RedefinesAt xs j) ∧
    latest? (xs.take i) x.kind x.name = some y ∧ r = ⟨x.kind, x.name, x.line, y.line⟩

section
variable {xs : List Entry} {x : Entry} {i : Nat} {r r' : Redefinition}

theorem latest?_concat (xs : List Entry) (x : Entry) (k : SymbolKind) (n : Text) :
    latest? (xs ++ [x]) k n = if x.kind = k ∧ x.name = n then some x else latest? xs k n := by
  rw [latest?, List.filter_append, List.getLast?_append, List.filter_cons, List.filter_nil]
  by_cases h : x.kind = k ∧ x.name = n
  · simp [h]
  · have hb : (x.kind == k && x.name == n) = false := by simpa using h
    rw [hb, if_neg Bool.false_ne_true, if_neg h, List.getLast?_nil, Option.none_or, latest?]

theorem redefines_iff : Redefines xs x ↔ x.Exclusive ∧ ∃ y, latest? xs x.kind x.name = some y := by
  refine and_congr_right fun _ => ⟨fun ⟨y, hy, hk⟩ => ?_, fun ⟨y, hy⟩ => ?_⟩
  · have hm : y ∈ xs.filter fun z => z.kind == x.kind && z.name == x.name :=
      List.mem_filter.2 ⟨hy, by simpa using hk⟩
    exact ⟨_, List.getLast?_eq_some_getLast (List.ne_nil_of_mem hm)⟩
  · obtain ⟨hm, hk⟩ := List.mem_filter.1 (List.mem_of_getLast? hy)
    exact ⟨y, hm, by simpa using hk⟩

theorem redefinesAt_concat : RedefinesAt (xs ++ [x]) i ↔
    RedefinesAt xs i ∨ i = xs.length ∧ Redefines xs x := by
  rcases Nat.lt_trichotomy i xs.length with h | rfl | h
  · have hne := Nat.ne_of_lt h
    simp only [RedefinesAt, List.getElem?_append_left h,
      List.take_append_of_le_length (Nat.le_of_lt h), hne, false_and, or_false]
  · simp [RedefinesAt]
  · have hne := Nat.ne_of_gt h
    have hx : (xs ++ [x])[i]? = none := by simp; omega
    have hxs : xs[i]? = none := by simp; omega
    simp [RedefinesAt, hx, hxs, hne]

theorem RedefinesAt.lt (h : RedefinesAt xs i) : i < xs.length := by
  obtain ⟨x, hx, -⟩ := h
  exact (List.getElem?_eq_some_iff.1 hx).1

theorem FirstRedefined.concat (h : FirstRedefined xs r) (x : Entry) :
    FirstRedefined (xs ++ [x]) r := by
  obtain ⟨i, z, y, hz, hi, hfirst, hy, rfl⟩ := h
  have hlt := hi.lt
  refine ⟨i, z, y, ?_, redefinesAt_concat.2 (.inl hi), fun j hj => ?_, ?_, rfl⟩
  · rw [List.getElem?_append_left hlt, hz]
  · rw [redefinesAt_concat]
    rintro (h | ⟨h, -⟩)
    · exact hfirst j hj h
    · omega
  · rw [List.take_append_of_le_length (Nat.le_of_lt hlt), hy]

theorem FirstRedefined.unique (h : FirstRedefined xs r) (h' : FirstRedefined xs r') : r = r' := by
  obtain ⟨i, x, y, hx, hi, hfi, hy, rfl⟩ := h
  obtain ⟨j, z, w, hz, hj, hfj, hw, rfl⟩ := h'
  rcases Nat.lt_trichotomy i j with hlt | rfl | hlt
  · exact absurd hi (hfj i hlt)
  · obtain rfl := Option.some_inj.1 (hx.symm.trans hz)
    obtain rfl := Option.some_inj.1 (hy.symm.trans hw)
    rfl
  · exact absurd hj (hfi j hlt)

end

structure Tables where
  declarations : Declarations
  functions : FunctionTable

namespace Tables

def none : Tables := ⟨Catalog.empty, Catalog.empty⟩

def enter (t : Tables) : Entry → Except Redefinition Tables
  | .binding d => (t.declarations.declare d).map (⟨·, t.functions⟩)
  | .function f => (t.functions.define f).map (⟨t.declarations, ·⟩)

def enterAll : Tables → List Entry → Except Redefinition Tables
  | t, [] => .ok t
  | t, x :: r =>
    match t.enter x with
    | .ok t => enterAll t r
    | .error e => .error e

theorem enterAll_append (t : Tables) (xs ys : List Entry) :
    t.enterAll (xs ++ ys) = match t.enterAll xs with
      | .ok t' => t'.enterAll ys
      | .error e => .error e := by
  induction xs generalizing t with
  | nil => rfl
  | cons x r ih =>
    rw [List.cons_append, enterAll, enterAll]
    cases t.enter x with
    | error e => rfl
    | ok t' => exact ih t'

/-- The tables after the entries: of each name the latest entry, the names of the ledger in
the order in which they first came, and all functions. -/
structure IsAfter (t : Tables) (xs : List Entry) : Prop where
  declared : ∀ n, (t.declarations.find? n).map Entry.binding = latest? xs .binding n
  defined : ∀ n, (t.functions.find? n).map Entry.function = latest? xs .function n
  names : t.declarations.names = Names.distinct (boundNames xs)
  functions : t.functions.items = xs.filterMap Entry.function?

theorem isAfter_none : none.IsAfter [] where
  declared _ := rfl
  defined _ := rfl
  names := rfl
  functions := rfl

variable {t t' : Tables} {xs : List Entry} {x : Entry} {r : Redefinition}

theorem IsAfter.binding (h : t.IsAfter xs) (d : Declaration) :
    IsAfter ⟨t.declarations.put d, t.functions⟩ (xs ++ [.binding d]) where
  declared n := by
    rw [latest?_concat, Catalog.find?_put, ← h.declared]
    by_cases hn : d.name = n <;> simp [Entry.kind, Entry.name, hn]
  defined n := by
    rw [latest?_concat, if_neg (by simp [Entry.kind]), h.defined]
  names := by
    have hn : boundNames (xs ++ [.binding d]) = boundNames xs ++ [d.name] := by
      rw [boundNames, List.filterMap_append]
      rfl
    rw [hn, Names.distinct, ← Names.extend_append, ← Names.distinct, ← h.names]
    exact Catalog.names_put t.declarations d
  functions := by
    rw [List.filterMap_append, ← h.functions]
    exact (List.append_nil _).symm

theorem IsAfter.function (h : t.IsAfter xs) {f : FunctionDef}
    (hf : t.functions.find? f.name = .none) :
    IsAfter ⟨t.declarations, t.functions.put f⟩ (xs ++ [.function f]) where
  declared n := by
    rw [latest?_concat, if_neg (by simp [Entry.kind]), h.declared]
  defined n := by
    rw [latest?_concat, Catalog.find?_put, ← h.defined]
    by_cases hn : f.name = n <;> simp [Entry.kind, Entry.name, hn]
  names := by
    have hn : boundNames (xs ++ [.function f]) = boundNames xs := by
      rw [boundNames, List.filterMap_append]
      exact List.append_nil _
    rw [hn, h.names]
  functions := by
    rw [List.filterMap_append, ← h.functions]
    exact items_define (by rw [FunctionTable.define, hf])

theorem IsAfter.enter_ok (h : t.IsAfter xs) (he : t.enter x = .ok t') :
    t'.IsAfter (xs ++ [x]) ∧ ¬ Redefines xs x := by
  rw [redefines_iff]
  cases x with
  | binding d =>
    have hd := h.declared d.name
    simp only [enter, Declarations.declare] at he
    cases hf : t.declarations.find? d.name with
    | none =>
      rw [hf] at he hd
      cases he
      exact ⟨h.binding d, fun ⟨_, y, hy⟩ => nomatch hd.trans hy⟩
    | some previous =>
      cases hl : d.language with
      | javascript => simp [hf, hl, Language.declaresOnce, Except.map] at he
      | python =>
        simp only [hf, hl, Language.declaresOnce, Bool.false_eq_true, if_false] at he
        cases he
        exact ⟨h.binding d, fun ⟨hx, _⟩ => nomatch hl.symm.trans hx⟩
  | function f =>
    have hd := h.defined f.name
    simp only [enter, FunctionTable.define] at he
    cases hf : t.functions.find? f.name with
    | some previous => rw [hf] at he; cases he
    | none =>
      rw [hf] at he hd
      cases he
      exact ⟨h.function hf, fun ⟨_, y, hy⟩ => nomatch hd.trans hy⟩

theorem IsAfter.enter_error (h : t.IsAfter xs) (he : t.enter x = .error r) :
    Redefines xs x ∧ ∃ y, latest? xs x.kind x.name = some y ∧
      r = ⟨x.kind, x.name, x.line, y.line⟩ := by
  rw [redefines_iff]
  cases x with
  | binding d =>
    have hd := h.declared d.name
    simp only [enter, Declarations.declare] at he
    cases hf : t.declarations.find? d.name with
    | none => rw [hf] at he; cases he
    | some previous =>
      rw [hf] at he hd
      cases hl : d.language with
      | python => simp [hl, Language.declaresOnce, Except.map] at he
      | javascript =>
        simp only [hl, Language.declaresOnce, if_true] at he
        cases he
        exact ⟨⟨hl, _, hd.symm⟩, _, hd.symm, rfl⟩
  | function f =>
    have hd := h.defined f.name
    simp only [enter, FunctionTable.define] at he
    cases hf : t.functions.find? f.name with
    | none => rw [hf] at he; cases he
    | some previous =>
      rw [hf] at he hd
      cases he
      exact ⟨⟨trivial, _, hd.symm⟩, _, hd.symm, rfl⟩

/-- All entries are taken, or it is told of the first one that redefines a name. -/
theorem outcome_enterAll (xs : List Entry) :
    (∀ t, none.enterAll xs = .ok t → t.IsAfter xs ∧ ∀ i, ¬ RedefinesAt xs i) ∧
      ∀ r, none.enterAll xs = .error r → FirstRedefined xs r := by
  induction xs using List.reverseRecOn with
  | nil =>
    refine ⟨fun t h => ?_, nofun⟩
    cases h
    exact ⟨isAfter_none, fun i ⟨x, hx, _⟩ => nomatch hx⟩
  | append_singleton xs x ih =>
    rw [enterAll_append]
    cases ht : none.enterAll xs with
    | error e =>
      refine ⟨nofun, fun r h => ?_⟩
      cases h
      exact (ih.2 e ht).concat x
    | ok t =>
      obtain ⟨hafter, hnone⟩ := ih.1 t ht
      dsimp only
      rw [enterAll]
      cases he : t.enter x with
      | ok t' =>
        obtain ⟨hafter', hx⟩ := hafter.enter_ok he
        refine ⟨fun u hu => ?_, nofun⟩
        cases hu
        refine ⟨hafter', fun i hi => ?_⟩
        exact (redefinesAt_concat.1 hi).elim (hnone i) fun h => hx h.2
      | error e =>
        obtain ⟨hx, y, hy, rfl⟩ := hafter.enter_error he
        refine ⟨nofun, fun r hr => ?_⟩
        cases hr
        refine ⟨xs.length, x, y, by simp, redefinesAt_concat.2 (.inr ⟨rfl, hx⟩), fun j hj => ?_,
          by simpa using hy, rfl⟩
        rw [redefinesAt_concat]
        exact fun h => h.elim (hnone j) fun h => Nat.ne_of_lt hj h.1

theorem enterAll_eq_error_iff : none.enterAll xs = .error r ↔ FirstRedefined xs r := by
  refine ⟨(outcome_enterAll xs).2 r, fun h => ?_⟩
  cases he : none.enterAll xs with
  | ok t =>
    obtain ⟨i, -, -, -, hi, -⟩ := h
    exact absurd hi (((outcome_enterAll xs).1 t he).2 i)
  | error r' => rw [((outcome_enterAll xs).2 r' he).unique h]

theorem exists_error_iff : (∃ r, none.enterAll xs = .error r) ↔ ∃ i, RedefinesAt xs i := by
  constructor
  · rintro ⟨r, hr⟩
    obtain ⟨i, -, -, -, hi, -⟩ := enterAll_eq_error_iff.1 hr
    exact ⟨i, hi⟩
  · rintro ⟨i, hi⟩
    cases he : none.enterAll xs with
    | ok t => exact absurd hi (((outcome_enterAll xs).1 t he).2 i)
    | error r => exact ⟨r, rfl⟩

end Tables

def Symbols.tables (t : Symbols) : Tables := ⟨t.declarations, t.functions⟩

theorem enterAll_bindings (s : Segment) (t : Tables) (bs : List Binding) :
    t.enterAll (bs.map fun b => .binding (declarationOf s b)) =
      (declareAll s t.declarations bs).map (⟨·, t.functions⟩) := by
  induction bs generalizing t with
  | nil => rfl
  | cons b r ih =>
    rw [List.map_cons, Tables.enterAll, Tables.enter, declareAll]
    cases t.declarations.declare (declarationOf s b) with
    | error e => rfl
    | ok declarations => exact ih ⟨declarations, t.functions⟩

theorem enterAll_functions (t : Tables) (fs : List FunctionDef) :
    t.enterAll (fs.map .function) = (defineAll t.functions fs).map (⟨t.declarations, ·⟩) := by
  induction fs generalizing t with
  | nil => rfl
  | cons f r ih =>
    rw [List.map_cons, Tables.enterAll, Tables.enter, defineAll]
    cases t.functions.define f with
    | error e => rfl
    | ok functions => exact ih ⟨t.declarations, functions⟩

theorem enter_eq (t : Symbols) (s : Segment) (a : Analysis) :
    enter t s a = (t.tables.enterAll (entriesOf (s, a))).map fun u =>
      ⟨t.analyzed ++ [(s, a)], u.declarations, u.functions⟩ := by
  rw [entriesOf, Tables.enterAll_append, enterAll_bindings, enter, Symbols.tables]
  cases declareAll s t.declarations a.bindings with
  | error e => rfl
  | ok declarations =>
    simp only [Except.map, enterAll_functions]
    cases defineAll t.functions a.functions <;> rfl

theorem analyzeAll_eq {sas : List (Segment × Analysis)}
    (ha : ∀ sa ∈ sas, Analysis.ofSegment sa.1 = .ok sa.2) (t : Symbols) :
    analyzeAll t (sas.map Prod.fst) = match t.tables.enterAll (entries sas) with
      | .ok u => .ok ⟨t.analyzed ++ sas, u.declarations, u.functions⟩
      | .error r => .error (.redefinition r) := by
  induction sas generalizing t with
  | nil =>
    rw [List.map_nil, analyzeAll, entries, List.flatMap_nil, Tables.enterAll, List.append_nil]
    rfl
  | cons sa r ih =>
    obtain ⟨hsa, hr⟩ := List.forall_mem_cons.1 ha
    rw [List.map_cons, analyzeAll, hsa, entries, List.flatMap_cons, Tables.enterAll_append]
    simp only [enter_eq]
    cases t.tables.enterAll (entriesOf sa) with
    | error e => rfl
    | ok u =>
      have hnext := ih hr ⟨t.analyzed ++ [sa], u.declarations, u.functions⟩
      rw [List.append_assoc, List.singleton_append] at hnext
      exact hnext

theorem ofSymbols_ne_redefinition (warnings : List SegmentWarning) (t : Symbols)
    (r : Redefinition) : ofSymbols warnings t ≠ .error (.redefinition r) := by
  intro h
  unfold ofSymbols at h
  cases hp : planAll t.functions t.analyzed with
  | ok parts => rw [hp] at h; cases h
  | error e =>
    rw [hp] at h
    cases h
    obtain ⟨sa, -, hs⟩ := error_of_planAll hp
    obtain ⟨p, -, hc⟩ := Plan.error_of_ofSegment hs
    obtain ⟨t, r, -, hr⟩ := Plan.rejects_of_callsOf hc
    cases hr

/-- Where all segments of a source analyze, compilation fails for a redefinition exactly if
an entry of the sequence redefines a name: a JavaScript binding a name that is bound
before, a function one that is defined before. The first such entry is told, with the
latest one before it of its kind and name. Without one the ledger has each bound name once,
in the order in which they first came, with its last binding, and the table has all
functions. -/
theorem redefinition_iff {e : Engine} {source : Text} {g : Segmentation}
    (hg : Segmentation.ofSource e source = .ok g) {sas : List (Segment × Analysis)}
    (hs : sas.map Prod.fst = g.segments)
    (ha : ∀ sa ∈ sas, Analysis.ofSegment sa.1 = .ok sa.2) :
    ((∃ r, analyzeAll Symbols.none g.segments = .error (.redefinition r)) ↔
      ∃ i, RedefinesAt (entries sas) i) ∧
    (∀ r, (analyzeAll Symbols.none g.segments = .error (.redefinition r) ↔
        FirstRedefined (entries sas) r) ∧
      (compile e source = .error (.redefinition r) ↔ FirstRedefined (entries sas) r)) ∧
    ((∀ i, ¬ RedefinesAt (entries sas) i) →
      ∃ t, analyzeAll Symbols.none g.segments = .ok t ∧
        compile e source = ofSymbols g.warnings t ∧
        t.declarations.names = Names.distinct (boundNames (entries sas)) ∧
        (∀ d ∈ t.declarations.items,
          latest? (entries sas) .binding d.name = some (.binding d)) ∧
        t.functions.items = (entries sas).filterMap Entry.function?) := by
  have hstage := analyzeAll_eq ha Symbols.none
  rw [hs] at hstage
  have hnone : Symbols.none.tables = Tables.none := rfl
  have hok := (Tables.outcome_enterAll (entries sas)).1
  rw [hnone] at hstage
  rw [← Tables.exists_error_iff]
  simp only [← Tables.enterAll_eq_error_iff]
  cases he : Tables.none.enterAll (entries sas) with
  | error r =>
    have hrefused : analyzeAll Symbols.none g.segments = .error (.redefinition r) := by
      rw [hstage, he]
    rw [compile_of_refused hg hrefused, hrefused]
    refine ⟨by simp, by simp, fun h => ?_⟩
    obtain ⟨i, hi⟩ := Tables.exists_error_iff.1 ⟨r, he⟩
    exact absurd hi (h i)
  | ok u =>
    obtain ⟨hafter, -⟩ := hok u he
    have hanalyzed : analyzeAll Symbols.none g.segments =
        .ok ⟨Symbols.none.analyzed ++ sas, u.declarations, u.functions⟩ := by
      rw [hstage, he]
    rw [compile_of_analyzed hg hanalyzed, hanalyzed]
    refine ⟨by simp, fun r => by simp [ofSymbols_ne_redefinition], fun _ => ⟨_, rfl, rfl,
      hafter.names, fun d hd => ?_, hafter.functions⟩⟩
    rw [← hafter.declared, Catalog.find?_eq_some.2 ⟨hd, rfl⟩, Option.map_some]

def analyses (ss : List Segment) : List (Segment × Analysis) :=
  ss.filterMap fun s => (Analysis.ofSegment s).toOption.map (s, ·)

theorem ofSegment_of_mem_analyses {ss : List Segment} {sa : Segment × Analysis}
    (h : sa ∈ analyses ss) : Analysis.ofSegment sa.1 = .ok sa.2 := by
  obtain ⟨s, -, hs⟩ := List.mem_filterMap.1 h
  cases ha : Analysis.ofSegment s with
  | error e => rw [ha] at hs; cases hs
  | ok a =>
    rw [ha] at hs
    cases hs
    exact ha

/-- A name that Python binds twice, and that a function may have, is bound in JavaScript. -/
def reboundSource : Text :=
  "[py]\nx = 1\ny = x = 2\n[js]\nfunction x() \x7b\n\x7d\n[js]\nlet z = 1; let x = z"

theorem redefinition_iff_rebound :
    ∃ g sas, Segmentation.ofSource .standard reboundSource = .ok g ∧
      sas.map Prod.fst = g.segments ∧ (∀ sa ∈ sas, Analysis.ofSegment sa.1 = .ok sa.2) ∧
      compile .standard reboundSource = .error (.redefinition ⟨.binding, "x", 8, 3⟩) ∧
      FirstRedefined (entries sas) ⟨.binding, "x", 8, 3⟩ := by
  have hv : (Segmentation.ofSource .standard reboundSource).toOption.map (fun g =>
      decide ((analyses g.segments).map Prod.fst = g.segments)) = some true := by decide +kernel
  have hc : compile .standard reboundSource = .error (.redefinition ⟨.binding, "x", 8, 3⟩) :=
    compile_of_error? (by decide +kernel)
  cases hg : Segmentation.ofSource .standard reboundSource with
  | error err => rw [hg] at hv; cases hv
  | ok g =>
    rw [hg] at hv
    have hs := of_decide_eq_true (Option.some.inj hv)
    have ha : ∀ sa ∈ analyses g.segments, Analysis.ofSegment sa.1 = .ok sa.2 :=
      fun _ => ofSegment_of_mem_analyses
    exact ⟨g, _, rfl, hs, ha, hc, ((redefinition_iff hg hs ha).2.1 _).2.1 hc⟩

end Polyglot.Program
