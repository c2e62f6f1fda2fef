import Polyglot.Proofs.Analysis.Origin
import Polyglot.Proofs.Program.Compiled
import Polyglot.Proofs.Segment.Lossless
import Polyglot.Proofs.Unit.Invocation

/-!
# Errors at the text that caused them

A compilation that fails names lines of the source, and what it says of a line stands
there. Each stage stops at the first item that it rejects, so its error is that of one
item behind others that passed; and what a later stage knows of an earlier item it knows
from the line that the item came from.
-/
namespace Polyglot

theorem Catalog.mem_putIn {α : Type} {key : α → Text} {items : List α} {a b : α}
    (h : b ∈ putIn key a items) : b ∈ items ∨ b = a := by
  induction items with
  | nil => exact .inr (List.mem_singleton.1 h)
  | cons x r ih =>
    rw [putIn] at h
    split at h
    · rcases List.mem_cons.1 h with rfl | h
      · exact .inr rfl
      · exact .inl (List.mem_cons_of_mem x h)
    · rcases List.mem_cons.1 h with rfl | h
      · exact .inl List.mem_cons_self
      · exact (ih h).imp_left (List.mem_cons_of_mem x)

namespace Plan

/-- What is wrong with a call head: its bracket is not closed, its line may not hold
calls, or the function takes another number of arguments. -/
inductive Rejects (l : Language) (functions : FunctionTable) (line : Text) (number : Nat)
    (t : Token) (r : List Token) : EngineError → Prop
  | unclosed (h : Token.closeFrom 0 r = none) :
    Rejects l functions line number t r (.layout ⟨.unclosedCall t.text, number⟩)
  | inBlock : Rejects l functions line number t r (.layout ⟨.callInBlock t.text, number⟩)
  | arity {i : Nat} {f : FunctionDef} (h : Token.closeFrom 0 r = some i)
    (hf : functions.find? t.text = some f)
    (hn : f.arity ≠ (CallSite.arguments line ((r.take i).drop 1)).length) :
    Rejects l functions line number t r
      (.arity ⟨t.text, f.arity, (CallSite.arguments line ((r.take i).drop 1)).length, number⟩)

variable {l : Language} {functions : FunctionTable} {own : List Text} {err : EngineError}

theorem error_of_checkArities {cs : List CallSite} (h : checkArities functions cs = .error err) :
    ∃ c ∈ cs, ∃ f, functions.find? c.callee = some f ∧ f.arity ≠ c.args.length ∧
      err = .arity ⟨c.callee, f.arity, c.args.length, c.line⟩ := by
  induction cs with
  | nil => cases h
  | cons c r ih =>
    have hlater : checkArities functions r = .error err → ∃ c' ∈ c :: r, ∃ f,
        functions.find? c'.callee = some f ∧ f.arity ≠ c'.args.length ∧
          err = .arity ⟨c'.callee, f.arity, c'.args.length, c'.line⟩ := by
      intro hr
      obtain ⟨c', hc, hf⟩ := ih hr
      exact ⟨c', List.mem_cons_of_mem c hc, hf⟩
    rw [checkArities, checkArity] at h
    cases hf : functions.find? c.callee with
    | none =>
      rw [hf] at h
      exact hlater h
    | some f =>
      by_cases hn : f.arity = c.args.length
      · simp only [hf, if_pos hn] at h
        exact hlater h
      · simp only [hf, if_neg hn] at h
        cases h
        exact ⟨c, List.mem_cons_self, f, hf, hn, rfl⟩

theorem rejects_of_callsOf {p : Line × Role} (h : callsOf l functions own p = .error err) :
    ∃ t r, CallSite.HeadIn l (CallSite.knows functions own) none
        (Token.tokenize l p.1.text) t r ∧
      Rejects l functions p.1.text p.1.number t r err := by
  have hs := CallSite.scanned_onLine (l := l) functions own p.1.number p.1.text
  unfold callsOf at h
  generalize CallSite.onLine l functions own p.1.number p.1.text = o at h hs
  rcases o with e | _ | ⟨c, cs⟩
  · obtain ⟨t, r, hh, hi, rfl⟩ := hs
    cases h
    exact ⟨t, r, hh, .unclosed hi⟩
  · cases h
  · dsimp only at h
    split at h
    · obtain ⟨t, r, i, hh, -, rfl⟩ := hs c List.mem_cons_self
      cases h
      exact ⟨t, r, hh, .inBlock⟩
    · split at h
      · cases h
      · next e he =>
        cases h
        obtain ⟨c', hc, f, hf, hn, rfl⟩ := error_of_checkArities he
        obtain ⟨t, r, i, hh, hi, rfl⟩ := hs c' hc
        exact ⟨t, r, hh, .arity hi hf hn⟩

theorem error_of_blocksFrom {a : Analysis} {pending : List Line} {ps : List (Line × Role)}
    (h : blocksFrom l functions own a pending ps = .error err) :
    ∃ p ∈ ps, callsOf l functions own p = .error err := by
  induction ps generalizing pending with
  | nil => cases h
  | cons p r ih =>
    have hlater : ∀ pending', blocksFrom l functions own a pending' r = .error err →
        ∃ p' ∈ p :: r, callsOf l functions own p' = .error err := by
      intro pending' hr
      obtain ⟨p', hp, hc⟩ := ih hr
      exact ⟨p', List.mem_cons_of_mem p hp, hc⟩
    rw [blocksFrom] at h
    split at h
    · exact hlater _ h
    · rcases hc : callsOf l functions own p with e | _ | ⟨c, cs⟩
      · rw [hc] at h
        cases h
        exact ⟨p, List.mem_cons_self, hc⟩
      · simp only [hc] at h
        split at h <;> exact hlater _ h
      · simp only [hc] at h
        cases hb : blocksFrom l functions own a [] r with
        | error e =>
          rw [hb] at h
          cases h
          exact hlater _ hb
        | ok rest => rw [hb] at h; cases h

theorem error_of_ofSegment {s : Segment} {a : Analysis}
    (h : ofSegment functions s a = .error err) :
    ∃ p ∈ a.lines, callsOf s.language functions (ownNames functions s) p = .error err := by
  unfold ofSegment at h
  cases hb : blocksFrom s.language functions (ownNames functions s) a [] a.lines with
  | error e =>
    rw [hb] at h
    cases h
    exact error_of_blocksFrom hb
  | ok blocks => rw [hb] at h; cases h

end Plan

namespace Program

theorem mem_items_declare {t t' : Declarations} {d x : Declaration} (h : t.declare d = .ok t')
    (hx : x ∈ t'.items) : x ∈ t.items ∨ x = d := by
  rw [put_of_declare h] at hx
  exact Catalog.mem_putIn hx

theorem error_of_declareAll {s : Segment} {t : Declarations} {bs : List Binding}
    {err : Redefinition} (h : declareAll s t bs = .error err) :
    ∃ pre b post d, bs = pre ++ b :: post ∧ s.language.declaresOnce = true ∧
      (d ∈ t.items ∨ d ∈ pre.map (declarationOf s)) ∧ d.name = b.name ∧
        err = ⟨.binding, b.name, b.line, d.line⟩ := by
  induction bs generalizing t with
  | nil => cases h
  | cons b r ih =>
    rw [declareAll] at h
    cases hd : t.declare (declarationOf s b) with
    | error e =>
      rw [hd] at h
      cases h
      unfold Declarations.declare at hd
      split at hd
      · next d hf =>
        split at hd
        · next ho =>
          cases hd
          obtain ⟨hm, hn⟩ := Catalog.find?_eq_some.1 hf
          exact ⟨[], b, r, d, rfl, ho, .inl hm, hn, rfl⟩
        · cases hd
      · cases hd
    | ok t₁ =>
      rw [hd] at h
      obtain ⟨pre, c, post, d, rfl, ho, hm, hn, rfl⟩ := ih h
      refine ⟨b :: pre, c, post, d, rfl, ho, ?_, hn, rfl⟩
      rw [List.map_cons, List.mem_cons]
      rcases hm with hm | hm
      · exact (mem_items_declare hd hm).imp_right .inl
      · exact .inr (.inr hm)

theorem mem_items_declareAll {s : Segment} {t t' : Declarations} {bs : List Binding}
    (h : declareAll s t bs = .ok t') {x : Declaration} (hx : x ∈ t'.items) :
    x ∈ t.items ∨ x ∈ bs.map (declarationOf s) := by
  induction bs generalizing t with
  | nil => cases h; exact .inl hx
  | cons b r ih =>
    rw [declareAll] at h
    cases hd : t.declare (declarationOf s b) with
    | error e => rw [hd] at h; cases h
    | ok t₁ =>
      rw [hd] at h
      rw [List.map_cons, List.mem_cons]
      rcases ih h with hm | hm
      · exact (mem_items_declare hd hm).imp_right .inl
      · exact .inr (.inr hm)

theorem error_of_defineAll {t : FunctionTable} {fs : List FunctionDef} {err : Redefinition}
    (h : defineAll t fs = .error err) :
    ∃ pre f post g, fs = pre ++ f :: post ∧ g ∈ t.items ++ pre ∧ g.name = f.name ∧
      err = ⟨.function, f.name, f.line, g.line⟩ := by
  induction fs generalizing t with
  | nil => cases h
  | cons f r ih =>
    rw [defineAll] at h
    cases hd : t.define f with
    | error e =>
      rw [hd] at h
      cases h
      unfold FunctionTable.define at hd
      split at hd
      · next g hf =>
        cases hd
        obtain ⟨hm, hn⟩ := Catalog.find?_eq_some.1 hf
        exact ⟨[], f, r, g, rfl, List.mem_append_left _ hm, hn, rfl⟩
      · cases hd
    | ok t₁ =>
      rw [hd] at h
      obtain ⟨pre, f', post, g, rfl, hm, hn, rfl⟩ := ih h
      rw [items_define hd, List.append_assoc, List.singleton_append] at hm
      exact ⟨f :: pre, f', post, g, rfl, hm, hn, rfl⟩

theorem error_of_analyzeAll {t : Symbols} {ss : List Segment} {err : EngineError}
    (h : analyzeAll t ss = .error err) :
    ∃ pre s post t', ss = pre ++ s :: post ∧ analyzeAll t pre = .ok t' ∧
      ((∃ r, Analysis.ofSegment s = .error r ∧ err = .layout r) ∨
        ∃ a r, Analysis.ofSegment s = .ok a ∧ enter t' s a = .error r ∧
          err = .redefinition r) := by
  induction ss generalizing t with
  | nil => cases h
  | cons s r ih =>
    rw [analyzeAll] at h
    cases ha : Analysis.ofSegment s with
    | error e =>
      rw [ha] at h
      cases h
      exact ⟨[], s, r, t, rfl, rfl, .inl ⟨e, ha, rfl⟩⟩
    | ok a =>
      simp only [ha] at h
      cases he : enter t s a with
      | error e =>
        rw [he] at h
        cases h
        exact ⟨[], s, r, t, rfl, rfl, .inr ⟨a, e, ha, he, rfl⟩⟩
      | ok t₁ =>
        simp only [he] at h
        obtain ⟨pre, s', post, t', rfl, hp, hr⟩ := ih h
        refine ⟨s :: pre, s', post, t', rfl, ?_, hr⟩
        rw [analyzeAll, ha]
        simp only [he]
        exact hp

theorem error_of_planAll {functions : FunctionTable} {sas : List (Segment × Analysis)}
    {err : EngineError} (h : planAll functions sas = .error err) :
    ∃ sa ∈ sas, Plan.ofSegment functions sa.1 sa.2 = .error err := by
  induction sas with
  | nil => cases h
  | cons sa r ih =>
    obtain ⟨s, a⟩ := sa
    rw [planAll] at h
    cases hp : Plan.ofSegment functions s a with
    | error e =>
      rw [hp] at h
      cases h
      exact ⟨(s, a), List.mem_cons_self, hp⟩
    | ok plan =>
      simp only [hp] at h
      cases hr : planAll functions r with
      | error e =>
        rw [hr] at h
        cases h
        obtain ⟨sa, hm, he⟩ := ih hr
        exact ⟨sa, List.mem_cons_of_mem _ hm, he⟩
      | ok rest => rw [hr] at h; cases h

def Symbols.Declared (t : Symbols) : Prop :=
  ∀ d ∈ t.declarations.items, ∃ sa ∈ t.analyzed, d ∈ sa.2.bindings.map (declarationOf sa.1)

theorem Symbols.declared_enter (t t' : Symbols) (s : Segment) (a : Analysis)
    (ht : t.Declared) (_ : Analysis.ofSegment s = .ok a) (h : enter t s a = .ok t') :
    t'.Declared := by
  obtain ⟨declarations, functions, hd, -, rfl⟩ := exists_of_enter h
  intro d hm
  rcases mem_items_declareAll hd hm with hm | hm
  · obtain ⟨sa, hsa, hm⟩ := ht d hm
    exact ⟨sa, List.mem_append_left _ hsa, hm⟩
  · exact ⟨(s, a), List.mem_append_right _ List.mem_cons_self, hm⟩

theorem Symbols.declared_analyzeAll {t : Symbols} {ss : List Segment}
    (h : analyzeAll Symbols.none ss = .ok t) : t.Declared :=
  have hn : Symbols.none.Declared := List.forall_mem_nil _
  keeps_analyzeAll declared_enter hn h

theorem error_of_enter {t : Symbols} {s : Segment} {a : Analysis} {err : Redefinition}
    (h : enter t s a = .error err) : declareAll s t.declarations a.bindings = .error err ∨
      defineAll t.functions a.functions = .error err := by
  unfold enter at h
  cases hd : declareAll s t.declarations a.bindings with
  | error e =>
    rw [hd] at h
    exact .inl (congrArg Except.error (Except.error.inj h))
  | ok declarations =>
    simp only [hd] at h
    cases hf : defineAll t.functions a.functions with
    | error e =>
      rw [hf] at h
      exact .inr (congrArg Except.error (Except.error.inj h))
    | ok functions => rw [hf] at h; cases h

end Program

namespace Segmentation
variable (e : Engine) (source : Text)

/-- The line is one of code that introduces a function of the name. -/
def IntroducesAt (l : Language) (n : Nat) (name : Text) (params : List Text) : Prop :=
  ∃ line, CodeAt e source l n line ∧
    Header.introducer l (Token.tokenize l line) = some (name, params)

/-- The line is one of code that binds the name. -/
def BindsAt (l : Language) (n : Nat) (name : Text) : Prop :=
  ∃ line, CodeAt e source l n line ∧
    ∃ b ∈ Binding.ofTokens l line n (Token.tokenize l line), b.name = name

/-- Some line introduces a function of the name with so many parameters. -/
def Defines (name : Text) (arity : Nat) : Prop :=
  ∃ l n params, IntroducesAt e source l n name params ∧ params.length = arity

/-- The line is one of code with a call head of the name, and `r` is what follows it. -/
def HeadAt (l : Language) (n : Nat) (line name : Text) (r : List Token) : Prop :=
  CodeAt e source l n line ∧
    ∃ t, CallSite.HeadIn l (fun _ => true) none (Token.tokenize l line) t r ∧ t.text = name

end Segmentation

namespace EngineError
open Segmentation

/-- All line numbers that the error tells. -/
def lines : EngineError → List Nat
  | validation tags => tags.map (·.line)
  | layout e => [e.line]
  | redefinition e => [e.line, e.previous]
  | arity e => [e.line]
  | undefined e => [e.line]
  | runtime _ => []

/-- What is wrong is what the error says, on the line that it names. Errors of a run do
not belong here. -/
def PointsAt (e : Engine) (source : Text) : EngineError → Prop
  | validation tags => tags ≠ [] ∧ tags.Pairwise (fun a b => a.line < b.line) ∧
      ∀ t, t ∈ tags ↔ ∃ line, source.LineAt t.line line ∧ parseTag line = some t.tag ∧
        e.specOfTag? t.tag = none
  | layout ⟨.codeOutsideSegment, n⟩ => ∃ line, source.LineAt n line ∧
      Text.allBlank line = false ∧ ∀ k x, k ≤ n → source.LineAt k x → parseTag x = none
  | layout ⟨.unclosedFunction name, n⟩ => ∃ params,
      IntroducesAt e source .javascript n name params
  | layout ⟨.callInBlock name, n⟩ => (∃ k, Defines e source name k) ∧
      ∃ l line r, HeadAt e source l n line name r
  | layout ⟨.unclosedCall name, n⟩ => (∃ k, Defines e source name k) ∧
      ∃ l line r, HeadAt e source l n line name r ∧ Token.closeFrom 0 r = none
  | arity ⟨name, expected, actual, n⟩ => Defines e source name expected ∧ expected ≠ actual ∧
      ∃ l line r i, HeadAt e source l n line name r ∧ Token.closeFrom 0 r = some i ∧
        (CallSite.arguments line ((r.take i).drop 1)).length = actual
  | redefinition ⟨.binding, name, n, previous⟩ => BindsAt e source .javascript n name ∧
      previous ≤ n ∧ ∃ l, BindsAt e source l previous name
  | redefinition ⟨.function, name, n, previous⟩ =>
      (∃ l params, IntroducesAt e source l n name params) ∧
        previous < n ∧ ∃ l params, IntroducesAt e source l previous name params
  | undefined _ => False
  | runtime _ => False

variable {e : Engine} {source : Text}

theorem bounds_of_pointsAt {err : EngineError} (h : err.PointsAt e source) :
    ∀ n ∈ err.lines, 1 ≤ n ∧ n ≤ (Text.lines source).length := by
  unfold PointsAt at h
  split at h
  · intro n hn
    obtain ⟨t, ht, rfl⟩ := List.mem_map.1 hn
    obtain ⟨line, hl, -⟩ := (h.2.2 t).1 ht
    exact hl.bounds
  · obtain ⟨line, hl, -⟩ := h
    exact List.forall_mem_singleton.2 hl.bounds
  · obtain ⟨params, line, hc, -⟩ := h
    exact List.forall_mem_singleton.2 hc.1.bounds
  · obtain ⟨-, l, line, r, hc, -⟩ := h
    exact List.forall_mem_singleton.2 hc.1.bounds
  · obtain ⟨-, l, line, r, ⟨hc, -⟩, -⟩ := h
    exact List.forall_mem_singleton.2 hc.1.bounds
  · obtain ⟨-, -, l, line, r, i, ⟨hc, -⟩, -⟩ := h
    exact List.forall_mem_singleton.2 hc.1.bounds
  · obtain ⟨⟨line, hc, -⟩, -, l, line', hc', -⟩ := h
    exact List.forall_mem_cons.2 ⟨hc.1.bounds, List.forall_mem_singleton.2 hc'.1.bounds⟩
  · obtain ⟨⟨l, params, line, hc, -⟩, -, l', params', line', hc', -⟩ := h
    exact List.forall_mem_cons.2 ⟨hc.1.bounds, List.forall_mem_singleton.2 hc'.1.bounds⟩
  · exact h.elim
  · exact h.elim

end EngineError

namespace Program
open Segmentation
variable {e : Engine} {source : Text} {g : Segmentation}

theorem bindsAt_of_mem (hg : ofSource e source = .ok g) {s : Segment} (hs : s ∈ g.segments)
    {a : Analysis} (ha : Analysis.ofSegment s = .ok a) {b : Binding} (hb : b ∈ a.bindings) :
    BindsAt e source s.language b.line b.name := by
  obtain ⟨x, hx, hb⟩ := Analysis.exists_tokens_of_binding ha hb
  have hl := (Binding.placed_of_mem hb).1
  rw [Segment.tokens_of_mem hx, ← hl] at hb
  exact ⟨x.text, hl ▸ codeAt_of_mem hg hs hx, b, hb, rfl⟩

theorem introducesAt_of_header (hg : ofSource e source = .ok g) {s : Segment}
    (hs : s ∈ g.segments) {x : Line} (hx : x ∈ s.lines) {h : Header}
    (hh : Header.ofLine? s.language x = some h) :
    IntroducesAt e source s.language h.line h.name h.params := by
  obtain ⟨hi, hl⟩ := Header.ofLine?_eq_some.1 hh
  rw [Segment.tokens_of_mem hx] at hi
  exact ⟨x.text, hl ▸ codeAt_of_mem hg hs hx, hi⟩

theorem introducesAt_of_mem (hg : ofSource e source = .ok g) {s : Segment}
    (hs : s ∈ g.segments) {a : Analysis} (ha : Analysis.ofSegment s = .ok a) {f : FunctionDef}
    (hf : f ∈ a.functions) : IntroducesAt e source s.language f.line f.name f.params := by
  obtain ⟨x, hx, hh⟩ := Analysis.exists_header_of_function ha hf
  exact introducesAt_of_header hg hs hx hh

theorem eq_javascript_of_declaresOnce {l : Language} (h : l.declaresOnce = true) :
    l = .javascript := by
  cases l with
  | javascript => rfl
  | python => cases h

theorem pointsAt_of_enter (hg : ofSource e source = .ok g) {pre post : List Segment}
    {s : Segment} (hss : g.segments = pre ++ s :: post) {t : Symbols}
    (ht : analyzeAll Symbols.none pre = .ok t) {a : Analysis} (ha : Analysis.ofSegment s = .ok a)
    {err : Redefinition} (h : enter t s a = .error err) :
    (EngineError.redefinition err).PointsAt e source := by
  have hsound := Symbols.sound_analyzeAll ht
  have hs : s ∈ g.segments := hss ▸ List.mem_append_right pre List.mem_cons_self
  have hbehind : ∀ sa ∈ t.analyzed, sa.1 ∈ g.segments ∧ sa.1.stop ≤ s.firstLine := by
    intro sa hsa
    have hm : sa.1 ∈ pre := Symbols.mem_of_analyzed ht hsa
    have ho := ordered_of_ofSource hg
    rw [hss, List.pairwise_append] at ho
    exact ⟨hss ▸ List.mem_append_left _ hm, ho.2.2 _ hm s List.mem_cons_self⟩
  rcases error_of_enter h with h | h
  · obtain ⟨before, b, after, d, hbs, ho, hd, hn, rfl⟩ := error_of_declareAll h
    have hb : b ∈ a.bindings := hbs ▸ List.mem_append_right before List.mem_cons_self
    have hl := eq_javascript_of_declaresOnce ho
    refine ⟨hl ▸ bindsAt_of_mem hg hs ha hb, ?_⟩
    -- The earlier binding is one of a segment behind, or of this one.
    rcases hd with hd | hd
    · obtain ⟨sa, hsa, hd⟩ := Symbols.declared_analyzeAll ht d hd
      obtain ⟨c, hc, rfl⟩ := List.mem_map.1 hd
      obtain ⟨hm, hstop⟩ := hbehind sa hsa
      have hc₁ := (Analysis.line_of_binding (hsound.analyzed sa hsa) hc).2
      have hb₁ := (Analysis.line_of_binding ha hb).1
      have hle : c.line ≤ b.line := by omega
      exact ⟨hle, sa.1.language, hn ▸ bindsAt_of_mem hg hm (hsound.analyzed sa hsa) hc⟩
    · obtain ⟨c, hc, rfl⟩ := List.mem_map.1 hd
      have hp := Analysis.pairwise_bindings ha
      rw [hbs, List.pairwise_append] at hp
      have hle : c.line ≤ b.line := hp.2.2 c hc b List.mem_cons_self
      have hca : c ∈ a.bindings := hbs ▸ List.mem_append_left _ hc
      exact ⟨hle, s.language, hn ▸ bindsAt_of_mem hg hs ha hca⟩
  · obtain ⟨before, f, after, k, hfs, hk, hn, rfl⟩ := error_of_defineAll h
    have hf : f ∈ a.functions := hfs ▸ List.mem_append_right before List.mem_cons_self
    refine ⟨⟨_, _, introducesAt_of_mem hg hs ha hf⟩, ?_⟩
    -- And so is the earlier function.
    rcases List.mem_append.1 hk with hk | hk
    · rw [hsound.functions] at hk
      obtain ⟨sa, hsa, hk⟩ := List.mem_flatMap.1 hk
      obtain ⟨hm, hstop⟩ := hbehind sa hsa
      have hk₁ := (Analysis.line_of_function (hsound.analyzed sa hsa) hk).2
      have hf₁ := (Analysis.line_of_function ha hf).1
      have hlt : k.line < f.line := by omega
      exact ⟨hlt, _, _, hn ▸ introducesAt_of_mem hg hm (hsound.analyzed sa hsa) hk⟩
    · have hp := Analysis.pairwise_functions ha
      rw [hfs, List.pairwise_append] at hp
      have hlt : k.line < f.line := hp.2.2 k hk f List.mem_cons_self
      have hka : k ∈ a.functions := hfs ▸ List.mem_append_left _ hk
      exact ⟨hlt, _, _, hn ▸ introducesAt_of_mem hg hs ha hka⟩

theorem pointsAt_of_planAll (hg : ofSource e source = .ok g) {t : Symbols}
    (ht : analyzeAll Symbols.none g.segments = .ok t) {err : EngineError}
    (h : planAll t.functions t.analyzed = .error err) : err.PointsAt e source := by
  have hsound := Symbols.sound_analyzeAll ht
  have hmem : ∀ {sa}, sa ∈ t.analyzed → sa.1 ∈ g.segments := Symbols.mem_of_analyzed ht
  have hdefines : ∀ name f, t.functions.find? name = some f → Defines e source name f.arity := by
    intro name f hf
    obtain ⟨hm, rfl⟩ := Catalog.find?_eq_some.1 hf
    rw [hsound.functions] at hm
    obtain ⟨sa, hsa, hm⟩ := List.mem_flatMap.1 hm
    exact ⟨_, _, _, introducesAt_of_mem hg (hmem hsa) (hsound.analyzed sa hsa) hm, rfl⟩
  obtain ⟨⟨s, a⟩, hsa, hp⟩ := error_of_planAll h
  obtain ⟨p, hpa, hc⟩ := Plan.error_of_ofSegment hp
  obtain ⟨tok, r, ⟨before, htok, hh⟩, hr⟩ := Plan.rejects_of_callsOf hc
  obtain ⟨hknown, hany⟩ := CallSite.isHead_iff.1 hh
  have hcode := codeAt_of_mem hg (hmem hsa)
    (Analysis.mem_lines_of_mem (hsound.analyzed _ hsa) hpa)
  have hhead : HeadAt e source s.language p.1.number p.1.text tok.text r :=
    ⟨hcode, tok, ⟨before, htok, hany⟩, rfl⟩
  have hdef : ∃ k, Defines e source tok.text k := by
    have hs := (CallSite.knows_iff.1 hknown).1
    rw [Catalog.contains, Option.isSome_iff_exists] at hs
    obtain ⟨f, hf⟩ := hs
    exact ⟨f.arity, hdefines _ f hf⟩
  cases hr with
  | unclosed hi => exact ⟨hdef, _, _, r, hhead, hi⟩
  | inBlock => exact ⟨hdef, _, _, r, hhead⟩
  | arity hi hf hn => exact ⟨hdefines _ _ hf, hn, _, _, r, _, hhead, hi, rfl⟩

theorem pointsAt_of_ofSource {err : EngineError} (h : ofSource e source = .error err) :
    err.PointsAt e source := by
  unfold ofSource ofLines at h
  split at h
  · next hk =>
    have hc := collected_of_known hk
    generalize collect e ⟨[], []⟩ none (numberFrom 1 (Text.lines source)) = o at h hc
    cases o with
    | ok out => cases h
    | error r =>
      cases h
      obtain ⟨hfault, before, line, after, hl, hb, ht, hbefore⟩ := hc
      obtain ⟨fault, n⟩ := r
      cases hfault
      dsimp only at hl
      refine ⟨line, ?_, hb, fun k x hk hx => ?_⟩
      · rw [Text.LineAt, hl]
        exact List.mem_append_right _ List.mem_cons_self
      · have hp := pairwise_numberFrom 1 (Text.lines source)
        rw [hl, List.pairwise_append, List.pairwise_cons] at hp
        rw [Text.LineAt, hl, List.mem_append, List.mem_cons] at hx
        rcases hx with hx | hx | hx
        · exact hbefore _ hx
        · cases hx
          exact ht
        · exact absurd (hp.2.1.1 _ hx) (Nat.not_lt.2 hk)
  · next hk =>
    cases h
    refine ⟨fun hn => hk (by rw [hn]; rfl), pairwise_unknownTags (pairwise_numberFrom _ _),
      fun t => mem_unknownTags⟩

/-- A source that does not compile has an error that points at lines of it, and each of
them holds what the error says. -/
theorem errors_point_at_source {e : Engine} {source : Text} {err : EngineError}
    (h : compile e source = .error err) :
    (∀ n ∈ err.lines, 1 ≤ n ∧ n ≤ (Text.lines source).length) ∧ err.PointsAt e source := by
  have hp : err.PointsAt e source := by
    unfold compile at h
    cases hg : ofSource e source with
    | error r =>
      rw [hg] at h
      cases h
      exact pointsAt_of_ofSource hg
    | ok g =>
      simp only [hg, ofSegmentation] at h
      cases ha : analyzeAll Symbols.none g.segments with
      | error r =>
        rw [ha] at h
        cases h
        obtain ⟨pre, s, post, t, hss, ht, ⟨r, hr, rfl⟩ | ⟨a, r, hs, hr, rfl⟩⟩ :=
          error_of_analyzeAll ha
        · have hs : s ∈ g.segments := hss ▸ List.mem_append_right pre List.mem_cons_self
          obtain ⟨x, hx, k, hk, rfl, hl⟩ := Analysis.exists_line_of_error hr
          rw [← hl] at hk
          exact ⟨_, hl ▸ introducesAt_of_header hg hs hx hk⟩
        · exact pointsAt_of_enter hg hss ht hs hr
      | ok t =>
        simp only [ha, ofSymbols] at h
        cases hp : planAll t.functions t.analyzed with
        | error r =>
          rw [hp] at h
          cases h
          exact pointsAt_of_planAll hg ha hp
        | ok parts => rw [hp] at h; cases h
  exact ⟨EngineError.bounds_of_pointsAt hp, hp⟩

def error? (e : Engine) (source : Text) : Option EngineError :=
  match compile e source with
  | .error err => some err
  | .ok _ => none

theorem compile_of_error? {err : EngineError} (h : error? e source = some err) :
    compile e source = .error err := by
  unfold error? at h
  split at h
  · next r hr => rw [hr, Option.some.inj h]
  · cases h

/-- A name that the other language has bound is declared again. -/
def shadowingSource : Text := "[py]\nx = 1\n[js]\nlet x = 2"

theorem errors_point_at_shadowing :
    compile .standard shadowingSource = .error (.redefinition ⟨.binding, "x", 4, 2⟩) ∧
      (∀ n ∈ [4, 2], 1 ≤ n ∧ n ≤ (Text.lines shadowingSource).length) ∧
      (EngineError.redefinition ⟨.binding, "x", 4, 2⟩).PointsAt .standard shadowingSource := by
  have h : compile .standard shadowingSource = .error (.redefinition ⟨.binding, "x", 4, 2⟩) :=
    compile_of_error? (by decide +kernel)
  exact ⟨h, errors_point_at_source h⟩

end Program
end Polyglot
