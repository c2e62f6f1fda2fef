import Mathlib.Data.List.Nodup
import Polyglot.Program
import Polyglot.Proofs.Analysis.Origin
import Polyglot.Proofs.Segment.Lossless

/-!
# What has been through the compilation

A compiled program is consistent: each part carries the analysis and the plan of its
own segment, the function table lists the functions of the analyses one after the
other, the ordinals count the parts, and the parts stand in the order of the file. So
the functions that the table has for a segment are those that its analysis found.

The ledger keeps the names of all bindings of the segments behind. So a part whose
language declares once binds no name that an earlier part binds, whatever the language
of that part; nor does it bind a name twice.
-/
namespace Polyglot

namespace Program

theorem items_define {t t' : FunctionTable} {f : FunctionDef} (h : t.define f = .ok t') :
    t'.items = t.items ++ [f] := by
  unfold FunctionTable.define at h
  cases hf : t.find? f.name with
  | some g => rw [hf] at h; cases h
  | none =>
    rw [hf] at h
    cases h
    refine Catalog.putIn_of_not_mem fun hm => ?_
    obtain ⟨g, hg, hn⟩ := List.mem_map.1 hm
    have hx := List.find?_eq_none.1 hf g hg
    simp [hn] at hx

theorem items_defineAll {t t' : FunctionTable} {fs : List FunctionDef}
    (h : defineAll t fs = .ok t') : t'.items = t.items ++ fs := by
  induction fs generalizing t with
  | nil => cases h; rw [List.append_nil]
  | cons f r ih =>
    rw [defineAll] at h
    cases hd : t.define f with
    | error e => rw [hd] at h; cases h
    | ok t₁ =>
      rw [hd] at h
      rw [ih h, items_define hd, List.append_assoc, List.singleton_append]

theorem names_declare {t t' : Declarations} {d : Declaration} (h : t.declare d = .ok t')
    (hd : d.language.declaresOnce = true) : d.name ∉ t.names ∧ t'.names = t.names ++ [d.name] := by
  unfold Declarations.declare at h
  cases hf : t.find? d.name with
  | some previous => simp only [hf, hd, if_true] at h; cases h
  | none =>
    simp only [hf] at h
    cases h
    have hn : d.name ∉ t.names := by
      rw [← Catalog.find?_isSome, hf]
      exact Bool.false_ne_true
    exact ⟨hn, by rw [Catalog.names_put, if_neg hn]⟩

theorem nodup_declareAll {s : Segment} {t t' : Declarations} {bs : List Binding}
    (h : declareAll s t bs = .ok t') (hs : s.language.declaresOnce = true) :
    (bs.map (·.name)).Nodup ∧ ∀ b ∈ bs, b.name ∉ t.names := by
  induction bs generalizing t with
  | nil => exact ⟨List.nodup_nil, fun _ hb => nomatch hb⟩
  | cons b r ih =>
    rw [declareAll] at h
    cases hd : t.declare (declarationOf s b) with
    | error e => rw [hd] at h; cases h
    | ok t₁ =>
      rw [hd] at h
      obtain ⟨hb, hn⟩ := names_declare hd hs
      obtain ⟨hr, hx⟩ := ih h
      have hx : ∀ c ∈ r, c.name ∉ t.names ∧ ¬ c.name = b.name := by
        intro c hc
        have hc := hx c hc
        rw [hn, List.mem_append, not_or, List.mem_singleton] at hc
        exact hc
      refine ⟨List.nodup_cons.2 ⟨fun hm => ?_, hr⟩, fun c hc => ?_⟩
      · obtain ⟨c, hc, he⟩ := List.mem_map.1 hm
        exact (hx c hc).2 he
      · rcases List.mem_cons.1 hc with rfl | hc
        · exact hb
        · exact (hx c hc).1

namespace Symbols

theorem exists_of_enter {t t' : Symbols} {s : Segment} {a : Analysis}
    (h : enter t s a = .ok t') :
    ∃ declarations functions, declareAll s t.declarations a.bindings = .ok declarations ∧
      defineAll t.functions a.functions = .ok functions ∧
      t' = ⟨t.analyzed ++ [(s, a)], declarations, functions⟩ := by
  unfold enter at h
  cases hd : declareAll s t.declarations a.bindings with
  | error e => rw [hd] at h; cases h
  | ok declarations =>
    simp only [hd] at h
    cases hf : defineAll t.functions a.functions with
    | error e => rw [hf] at h; cases h
    | ok functions =>
      rw [hf] at h
      exact ⟨declarations, functions, rfl, rfl, (Except.ok.inj h).symm⟩

theorem exists_of_analyzeAll_cons {t t' : Symbols} {s : Segment} {r : List Segment}
    (h : analyzeAll t (s :: r) = .ok t') :
    ∃ a t₁, Analysis.ofSegment s = .ok a ∧ enter t s a = .ok t₁ ∧ analyzeAll t₁ r = .ok t' := by
  rw [analyzeAll] at h
  cases ha : Analysis.ofSegment s with
  | error e => rw [ha] at h; cases h
  | ok a =>
    simp only [ha] at h
    cases he : enter t s a with
    | error e => rw [he] at h; cases h
    | ok t₁ =>
      rw [he] at h
      exact ⟨a, t₁, rfl, he, h⟩

theorem keeps_analyzeAll {P : Symbols → Prop}
    (hstep : ∀ t t' s a, P t → Analysis.ofSegment s = .ok a → enter t s a = .ok t' → P t')
    {t t' : Symbols} {ss : List Segment} (ht : P t) (h : analyzeAll t ss = .ok t') : P t' := by
  induction ss generalizing t with
  | nil => cases h; exact ht
  | cons s r ih =>
    obtain ⟨a, t₁, ha, he, hr⟩ := exists_of_analyzeAll_cons h
    exact ih (hstep t t₁ s a ht ha he) hr

theorem analyzed_analyzeAll {t t' : Symbols} {ss : List Segment}
    (h : analyzeAll t ss = .ok t') :
    t'.analyzed.map Prod.fst = t.analyzed.map Prod.fst ++ ss := by
  induction ss generalizing t with
  | nil => cases h; exact (List.append_nil _).symm
  | cons s r ih =>
    obtain ⟨a, t₁, -, he, hr⟩ := exists_of_analyzeAll_cons h
    obtain ⟨declarations, functions, -, -, rfl⟩ := exists_of_enter he
    rw [ih hr, List.map_append, List.append_assoc]
    rfl

theorem mem_of_analyzed {t : Symbols} {ss : List Segment}
    (h : analyzeAll Symbols.none ss = .ok t) {sa : Segment × Analysis} (hsa : sa ∈ t.analyzed) :
    sa.1 ∈ ss := by
  have hl : t.analyzed.map Prod.fst = [] ++ ss := analyzed_analyzeAll h
  rw [List.nil_append] at hl
  exact hl ▸ List.mem_map_of_mem hsa

structure Sound (t : Symbols) : Prop where
  analyzed : ∀ sa ∈ t.analyzed, Analysis.ofSegment sa.1 = .ok sa.2
  once : ∀ sa ∈ t.analyzed, sa.1.language.declaresOnce = true →
    (sa.2.bindings.map (·.name)).Nodup
  functions : t.functions.items = t.analyzed.flatMap (·.2.functions)

theorem sound_none : Symbols.none.Sound :=
  ⟨fun _ hm => (nomatch hm), fun _ hm => (nomatch hm), rfl⟩

theorem sound_enter (t t' : Symbols) (s : Segment) (a : Analysis) (ht : t.Sound)
    (ha : Analysis.ofSegment s = .ok a) (h : enter t s a = .ok t') : t'.Sound := by
  obtain ⟨declarations, functions, hd, hf, rfl⟩ := exists_of_enter h
  refine ⟨?_, ?_, ?_⟩
  · exact List.forall_mem_append.2 ⟨ht.analyzed, List.forall_mem_singleton.2 ha⟩
  · exact List.forall_mem_append.2
      ⟨ht.once, List.forall_mem_singleton.2 fun ho => (nodup_declareAll hd ho).1⟩
  · rw [List.flatMap_append, ← ht.functions, List.flatMap_singleton]
    exact items_defineAll hf

theorem sound_analyzeAll {t : Symbols} {ss : List Segment}
    (h : analyzeAll Symbols.none ss = .ok t) : t.Sound :=
  keeps_analyzeAll sound_enter sound_none h

end Symbols

theorem planned_planAll {functions : FunctionTable} {sas : List (Segment × Analysis)}
    {parts : List Part} (h : planAll functions sas = .ok parts) :
    parts.map (fun p => (p.segment, p.analysis)) = sas ∧
      ∀ p ∈ parts, Plan.ofSegment functions p.segment p.analysis = .ok p.plan := by
  induction sas generalizing parts with
  | nil => cases h; exact ⟨rfl, fun _ hp => (nomatch hp)⟩
  | cons sa r ih =>
    obtain ⟨s, a⟩ := sa
    rw [planAll] at h
    cases hp : Plan.ofSegment functions s a with
    | error e => rw [hp] at h; cases h
    | ok plan =>
      simp only [hp] at h
      cases hr : planAll functions r with
      | error e => rw [hr] at h; cases h
      | ok rest =>
        rw [hr] at h
        cases h
        obtain ⟨hm, hx⟩ := ih hr
        refine ⟨by rw [List.map_cons, hm], fun q hq => ?_⟩
        rcases List.mem_cons.1 hq with rfl | hq
        · exact hp
        · exact hx q hq

/-- The program is what its segments give. -/
structure Compiled (p : Program) : Prop where
  analyzed : ∀ part ∈ p.parts, Analysis.ofSegment part.segment = .ok part.analysis
  once : ∀ part ∈ p.parts, part.segment.language.declaresOnce = true →
    (part.analysis.bindings.map (·.name)).Nodup
  planned : ∀ part ∈ p.parts,
    Plan.ofSegment p.functions part.segment part.analysis = .ok part.plan
  functions : p.functions.items = p.parts.flatMap (·.analysis.functions)
  ordinals : p.parts.map (·.segment.ordinal) = List.range p.parts.length
  ordered : p.parts.Pairwise fun a b => a.segment.stop ≤ b.segment.firstLine

section
variable {e : Engine} {source : Text} {g : Segmentation}

theorem compile_of_refused {err : EngineError} (hg : Segmentation.ofSource e source = .ok g)
    (h : analyzeAll Symbols.none g.segments = .error err) : compile e source = .error err := by
  simp only [compile, hg, ofSegmentation, h]

theorem compile_of_analyzed {t : Symbols} (hg : Segmentation.ofSource e source = .ok g)
    (h : analyzeAll Symbols.none g.segments = .ok t) :
    compile e source = ofSymbols g.warnings t := by
  simp only [compile, hg, ofSegmentation, h]

end

theorem exists_stages {e : Engine} {source : Text} {p : Program}
    (h : compile e source = .ok p) :
    ∃ g t, Segmentation.ofSource e source = .ok g ∧
      analyzeAll Symbols.none g.segments = .ok t ∧ planAll t.functions t.analyzed = .ok p.parts ∧
      p = ⟨p.parts, g.warnings, t.declarations, t.functions⟩ := by
  unfold compile at h
  cases hg : Segmentation.ofSource e source with
  | error err => rw [hg] at h; cases h
  | ok g =>
    simp only [hg, ofSegmentation] at h
    cases ha : analyzeAll Symbols.none g.segments with
    | error err => rw [ha] at h; cases h
    | ok t =>
      simp only [ha, ofSymbols] at h
      cases hp : planAll t.functions t.analyzed with
      | error err => rw [hp] at h; cases h
      | ok parts =>
        rw [hp] at h
        cases h
        exact ⟨g, t, rfl, ha, hp, rfl⟩

theorem segments_of_stages {g : Segmentation} {t : Symbols} {parts : List Part}
    (ha : analyzeAll Symbols.none g.segments = .ok t)
    (hp : planAll t.functions t.analyzed = .ok parts) : parts.map (·.segment) = g.segments := by
  have hl := Symbols.analyzed_analyzeAll ha
  rw [← (planned_planAll hp).1, List.map_map] at hl
  exact hl

theorem compiled_of_compile {e : Engine} {source : Text} {p : Program}
    (h : compile e source = .ok p) : p.Compiled := by
  obtain ⟨g, t, hg, ha, hp, he⟩ := exists_stages h
  have hfun : p.functions = t.functions := congrArg Program.functions he
  have ht := Symbols.sound_analyzeAll ha
  obtain ⟨hm, hx⟩ := planned_planAll hp
  have hseg := segments_of_stages ha hp
  have hmem : ∀ part ∈ p.parts, (part.segment, part.analysis) ∈ t.analyzed :=
    fun part hpart => hm ▸ List.mem_map_of_mem hpart
  refine ⟨fun part hpart => ht.analyzed _ (hmem part hpart),
    fun part hpart => ht.once _ (hmem part hpart), ?_, ?_, ?_, ?_⟩
  · rw [hfun]
    exact hx
  · rw [hfun, ht.functions, ← hm, List.flatMap_map]
  · have hc := Segmentation.counted_of_ofSource hg
    unfold Segmentation.Counted at hc
    rw [← hseg, List.map_map, List.length_map] at hc
    exact hc
  · have ho := Segmentation.ordered_of_ofSource hg
    rw [← hseg, List.pairwise_map] at ho
    exact ho

theorem segment_of_mem_functions {s : Segment} {a : Analysis} (h : Analysis.ofSegment s = .ok a)
    {f : FunctionDef} (hf : f ∈ a.functions) : f.segment = s.ordinal := by
  unfold Analysis.ofSegment at h
  cases hy : Layout.ofLines s.language s.lines with
  | error e => rw [hy] at h; cases h
  | ok y =>
    rw [hy] at h
    cases h
    obtain ⟨e, -, rfl⟩ := List.mem_map.1 hf
    rfl

variable {p : Program}

theorem Compiled.inSegment (h : p.Compiled) {part : Part} (hp : part ∈ p.parts) :
    FunctionTable.inSegment p.functions part.segment.ordinal = part.analysis.functions := by
  have hn : (p.parts.map (·.segment.ordinal)).Nodup := h.ordinals ▸ List.nodup_range
  have hs : ∀ q ∈ p.parts, ∀ f ∈ q.analysis.functions, f.segment = q.segment.ordinal :=
    fun q hq f hf => segment_of_mem_functions (h.analyzed q hq) hf
  rw [FunctionTable.inSegment, h.functions]
  generalize p.parts = parts at hp hn hs
  induction parts with
  | nil => cases hp
  | cons q r ih =>
    rw [List.map_cons, List.nodup_cons] at hn
    rw [List.flatMap_cons, List.filter_append]
    have hq := hs q List.mem_cons_self
    have hr : ∀ x ∈ r, ∀ f ∈ x.analysis.functions, f.segment = x.segment.ordinal :=
      fun x hx => hs x (List.mem_cons_of_mem q hx)
    rcases List.mem_cons.1 hp with rfl | hp
    · have hkeep : part.analysis.functions.filter (·.segment == part.segment.ordinal) =
          part.analysis.functions := List.filter_eq_self.2 fun f hf => by simp [hq f hf]
      have hdrop : (r.flatMap (·.analysis.functions)).filter
          (·.segment == part.segment.ordinal) = [] := by
        rw [List.filter_eq_nil_iff]
        intro f hf he
        obtain ⟨x, hx, hf⟩ := List.mem_flatMap.1 hf
        rw [hr x hx f hf, beq_iff_eq] at he
        exact hn.1 (he ▸ List.mem_map_of_mem (f := fun y : Part => y.segment.ordinal) hx)
      rw [hkeep, hdrop, List.append_nil]
    · have hdrop : q.analysis.functions.filter (·.segment == part.segment.ordinal) = [] := by
        rw [List.filter_eq_nil_iff]
        intro f hf he
        rw [hq f hf, beq_iff_eq] at he
        exact hn.1 (he ▸ List.mem_map_of_mem (f := fun y : Part => y.segment.ordinal) hp)
      rw [hdrop, List.nil_append]
      exact ih hp hn.2 hr

theorem exists_of_compile {α : Type} {e : Engine} {source : Text} {f : Program → α} {a : α}
    (h : (compile e source).toOption.map f = some a) : ∃ p, compile e source = .ok p ∧ f p = a := by
  cases hc : compile e source with
  | error err => rw [hc] at h; cases h
  | ok p => rw [hc] at h; exact ⟨p, rfl, Option.some.inj h⟩

end Program
end Polyglot

namespace Polyglot.Program

theorem put_of_declare {t t' : Declarations} {d : Declaration} (h : t.declare d = .ok t') :
    t' = t.put d := by
  unfold Declarations.declare at h
  split at h
  · split at h
    · cases h
    · exact (Except.ok.inj h).symm
  · exact (Except.ok.inj h).symm

theorem names_declare_insert {t t' : Declarations} {d : Declaration} (h : t.declare d = .ok t') :
    t'.names = Names.insert t.names d.name := by
  rw [put_of_declare h]
  exact Catalog.names_put t d

theorem names_declareAll {s : Segment} {t t' : Declarations} {bs : List Binding}
    (h : declareAll s t bs = .ok t') : t'.names = Names.extend t.names (bs.map (·.name)) := by
  induction bs generalizing t with
  | nil => cases h; rfl
  | cons b r ih =>
    rw [declareAll] at h
    cases hd : t.declare (declarationOf s b) with
    | error e => rw [hd] at h; cases h
    | ok t₁ =>
      rw [hd] at h
      rw [ih h, names_declare_insert hd]
      rfl

def Apart (x y : Segment × Analysis) : Prop :=
  y.1.language.declaresOnce = true →
    ∀ b ∈ x.2.bindings, ∀ c ∈ y.2.bindings, b.name ≠ c.name

structure Symbols.Ledgered (t : Symbols) : Prop where
  names : ∀ sa ∈ t.analyzed, ∀ b ∈ sa.2.bindings, b.name ∈ t.declarations.names
  apart : t.analyzed.Pairwise Apart

theorem Symbols.ledgered_enter (t t' : Symbols) (s : Segment) (a : Analysis) (ht : t.Ledgered)
    (_ : Analysis.ofSegment s = .ok a) (h : enter t s a = .ok t') : t'.Ledgered := by
  obtain ⟨declarations, functions, hd, -, rfl⟩ := exists_of_enter h
  have hn : ∀ n, n ∈ declarations.names ↔
      n ∈ t.declarations.names ∨ n ∈ a.bindings.map (·.name) := by
    intro n
    rw [names_declareAll hd]
    exact Names.mem_extend
  refine ⟨fun sa hm b hb => (hn _).2 ?_, List.pairwise_append.2
    ⟨ht.apart, List.pairwise_singleton _ _, fun x hx y hy ho b hb c hc he => ?_⟩⟩
  · rcases List.mem_append.1 hm with hm | hm
    · exact .inl (ht.names sa hm b hb)
    · rw [List.mem_singleton.1 hm] at hb
      exact .inr (List.mem_map_of_mem hb)
  · rw [List.mem_singleton.1 hy] at ho hc
    have hnew := (nodup_declareAll hd ho).2 c hc
    exact hnew (he ▸ ht.names x hx b hb)

theorem apart_of_compile {e : Engine} {source : Text} {p : Program}
    (h : compile e source = .ok p) :
    p.parts.Pairwise fun x y => Apart (x.segment, x.analysis) (y.segment, y.analysis) := by
  obtain ⟨g, t, -, ha, hp, -⟩ := exists_stages h
  have hn : Symbols.none.Ledgered := ⟨List.forall_mem_nil _, List.Pairwise.nil⟩
  have ht := (Symbols.keeps_analyzeAll Symbols.ledgered_enter hn ha).apart
  rw [← (planned_planAll hp).1, List.pairwise_map] at ht
  exact ht

/-- Some binding at the top level of a line before the given one has the name. -/
def BoundBefore (p : Program) (line : Nat) (n : Text) : Prop :=
  ∃ part ∈ p.parts, ∃ b ∈ part.analysis.bindings, b.line < line ∧ b.name = n

variable {p : Program}

theorem BoundBefore.mono {k m : Nat} {n : Text} (h : p.BoundBefore k n) (hk : k ≤ m) :
    p.BoundBefore m n := by
  obtain ⟨part, hp, b, hb, hl, hn⟩ := h
  exact ⟨part, hp, b, hb, by omega, hn⟩

theorem Compiled.line_of_binding (h : p.Compiled) {part : Part} (hp : part ∈ p.parts)
    {b : Binding} (hb : b ∈ part.analysis.bindings) :
    part.segment.firstLine ≤ b.line ∧ b.line < part.segment.stop :=
  Analysis.line_of_binding (h.analyzed part hp) hb

theorem Compiled.boundBefore_stop (h : p.Compiled) {part : Part} (hp : part ∈ p.parts)
    {b : Binding} (hb : b ∈ part.analysis.bindings) :
    p.BoundBefore part.segment.stop b.name :=
  ⟨part, hp, b, hb, (h.line_of_binding hp hb).2, rfl⟩

theorem eq_or_of_pairwise {α : Type} {R : α → α → Prop} {xs : List α} (h : xs.Pairwise R)
    {x y : α} (hx : x ∈ xs) (hy : y ∈ xs) : x = y ∨ R x y ∨ R y x := by
  induction h with
  | nil => cases hx
  | @cons z _ hr _ ih =>
    rcases List.mem_cons.1 hx with hxz | hx <;> rcases List.mem_cons.1 hy with hyz | hy
    · exact .inl (hxz.trans hyz.symm)
    · exact .inr (.inl (hxz ▸ hr y hy))
    · exact .inr (.inr (hyz ▸ hr x hx))
    · exact ih hx hy

theorem not_boundBefore {e : Engine} {source : Text} (hc : compile e source = .ok p)
    {part : Part} (hp : part ∈ p.parts) (ho : part.segment.language.declaresOnce = true)
    {b : Binding} (hb : b ∈ part.analysis.bindings) {k : Nat} (hk : k ≤ b.line) :
    ¬ p.BoundBefore k b.name := by
  rintro ⟨other, hq, c, hm, hl, hn⟩
  have h := compiled_of_compile hc
  have hbl := h.line_of_binding hp hb
  have hcl := h.line_of_binding hq hm
  rcases eq_or_of_pairwise ((apart_of_compile hc).and h.ordered) hq hp with
    rfl | ⟨hapart, -⟩ | ⟨-, hafter⟩
  · have hone : c = b := List.inj_on_of_nodup_map (h.once other hq ho) hm hb hn
    rw [hone] at hl
    omega
  · exact hapart ho c hm b hb hn
  · omega

end Polyglot.Program
