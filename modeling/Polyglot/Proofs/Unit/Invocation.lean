import Polyglot.Proofs.Call.Heads
import Polyglot.Proofs.Call.Search
import Polyglot.Proofs.Plan.Groups
import Polyglot.Proofs.Program.Compiled
import Polyglot.Proofs.Run.Expansion

/-!
# What an invocation carries

Every call site of a plan calls a function of the table, on the line of its block. The
line of a function calls none but those of its segment, and an expression that calls a
function of another segment makes its line a block of its own.

So the functions that an invocation unit carries call, within the unit, none but one
another: a body calls functions of its own segment only, and those are in the language
of the unit. An argument may call any function of the program, and what it calls is
carried if and only if it is in that language. An argument that calls a function of
the caller's language leaves the unit open.
-/
namespace Polyglot.Plan

/-- The text calls a function that the segment does not define itself. -/
def CallsAbroad (functions : FunctionTable) (own : List Text) (l : Language) (x : Text) : Prop :=
  ∃ f, f ∈ CallSite.heads l (CallSite.knows functions own) none (Token.tokenize l x)

variable {functions : FunctionTable} {s : Segment} {a : Analysis} {plan : Plan}

theorem call_mem_ofBlocks {own : List Text} {blocks : List Block} {b : Block} (hb : b ∈ blocks)
    (hc : b.isCall = true) : b ∈ (ofBlocks own blocks).blocks := by
  rw [ofBlocks, if_pos (List.any_eq_true.2 ⟨b, hb, hc⟩)]
  exact hb

theorem own_of_mem (hp : ofSegment functions s a = .ok plan) {b : Block} (hb : b ∈ plan.blocks) :
    plan.own = ownNames functions s := by
  obtain ⟨blocks, -, rfl⟩ := exists_blocksFrom hp
  unfold ofBlocks at hb ⊢
  split at hb
  · next hc => rw [if_pos hc]; rfl
  · cases hb

theorem known_of_call (h : ofSegment functions s a = .ok plan) {b : Block} (hb : b ∈ plan.blocks)
    {c : CallSite} (hc : c ∈ b.calls) :
    (∃ f, functions.find? c.callee = some f) ∧ c.line = b.firstLine := by
  obtain ⟨blocks, hf, rfl⟩ := exists_blocksFrom h
  have hcall : b.isCall = true := by
    cases b with
    | code text line bound => cases hc
    | call text line calls bound => rfl
  obtain ⟨p, -, hcalls, hb⟩ := (cut_of_blocksFrom hf).exists_of_isCall (blocks_ofBlocks hb) hcall
  obtain ⟨hk, hl⟩ := CallSite.known_of_mem_onLine (onLine_of_callsOf hcalls) hc
  have hs := (CallSite.knows_iff.1 hk).1
  rw [Catalog.contains, Option.isSome_iff_exists] at hs
  exact ⟨hs, by rw [hl, hb]; rfl⟩

theorem own_of_mem_heads (h : ofSegment functions s a = .ok plan) {p : Line × Role}
    (hp : p ∈ a.lines) (hr : p.2 = .inFunction) {n : Text}
    (hn : n ∈ CallSite.heads s.language (CallSite.knows functions []) none
      (Token.tokenize s.language p.1.text)) : n ∈ ownNames functions s := by
  obtain ⟨blocks, hf, -⟩ := exists_blocksFrom h
  have hi : Analysis.isImport s.language p = false := by simp [Analysis.isImport, hr]
  obtain ⟨calls, hcalls, -⟩ := (cut_of_blocksFrom hf).mem_of_callsOf hp hi
  by_contra ho
  obtain ⟨hk, hany⟩ := CallSite.mem_heads_iff.1 hn
  have hknows : CallSite.knows functions (ownNames functions s) n = true :=
    CallSite.knows_iff.2 ⟨(CallSite.knows_iff.1 hk).1, ho⟩
  have hne : calls ≠ [] := CallSite.ne_nil_of_heads (onLine_of_callsOf hcalls)
    (List.ne_nil_of_mem (CallSite.mem_heads_iff.2 ⟨hknows, hany⟩))
  rw [topLevel_of_callsOf hcalls hne] at hr
  cases hr

theorem exists_call_of_callsAbroad (ha : Analysis.ofSegment s = .ok a)
    (hp : ofSegment functions s a = .ok plan) {b : Binding} (hb : b ∈ a.bindings)
    (hx : CallsAbroad functions (ownNames functions s) s.language b.expression) :
    ∃ text calls bound, .call text b.line calls bound ∈ plan.blocks := by
  obtain ⟨p, hm, hr, hi, hl, -, pre, eq, value, post, hts, he, hv, hval⟩ :=
    Analysis.exists_line_of_binding ha hb
  obtain ⟨f, hf⟩ := hx
  obtain ⟨rest, hrest⟩ := Token.code_initial s.language 0 0 p.1.text
  have htok : Token.tokenize s.language p.1.text =
      (pre ++ [eq]) ++ (value ++ (post ++ rest)) := by
    rw [Token.tokenize, ← hrest]
    rw [Token.tokenize] at hts
    rw [hts]
    simp only [List.append_assoc]
  rw [hval, CallSite.heads_spanText htok hv] at hf
  have hline := CallSite.mem_heads_of_part pre (post ++ rest) he hf
  rw [← htok] at hline
  obtain ⟨blocks, hbf, rfl⟩ := exists_blocksFrom hp
  obtain ⟨calls, hcalls, hcall⟩ := (cut_of_blocksFrom hbf).mem_of_callsOf hm hi
  have hne : calls ≠ [] :=
    CallSite.ne_nil_of_heads (onLine_of_callsOf hcalls) (List.ne_nil_of_mem hline)
  rw [hl]
  exact ⟨_, _, _, call_mem_ofBlocks (hcall hne) rfl⟩

end Polyglot.Plan

namespace Polyglot

namespace Program
variable {p : Program}

theorem Compiled.exists_part (h : p.Compiled) {f : FunctionDef} (hf : f ∈ p.functions.items) :
    ∃ part ∈ p.parts, f ∈ part.analysis.functions :=
  List.mem_flatMap.1 (h.functions ▸ hf)

theorem Compiled.mem_functions (h : p.Compiled) {part : Part} (hp : part ∈ p.parts)
    {f : FunctionDef} (hf : f ∈ part.analysis.functions) : f ∈ p.functions.items :=
  h.functions ▸ List.mem_flatMap.2 ⟨part, hp, hf⟩

theorem Compiled.exists_of_headsIn (h : p.Compiled) {f : FunctionDef}
    (hf : f ∈ p.functions.items) {n : Text}
    (hn : n ∈ p.functions.headsIn f.language f.source) :
    ∃ g ∈ p.functions.items, g.name = n ∧ g.language = f.language ∧ g.segment = f.segment := by
  obtain ⟨part, hp, hf⟩ := h.exists_part hf
  have ha := h.analyzed part hp
  obtain ⟨hl, ps, hs, hps⟩ := Analysis.exists_lines_of_function ha hf
  rw [hl, hs, FunctionTable.headsIn_unlines] at hn
  obtain ⟨t, ht, hn⟩ := List.mem_flatMap.1 hn
  obtain ⟨q, hq, rfl⟩ := List.mem_map.1 ht
  obtain ⟨hm, hrole⟩ := hps q hq
  have hline := Analysis.mem_lines_of_mem ha hm
  rw [FunctionTable.headsIn, Text.splitOn_of_not_mem (Segment.feed_not_mem hline),
    List.flatMap_singleton] at hn
  have hr : q.2 = .inFunction := by
    rcases hrole with hd | hr
    · rw [Segment.tokens_of_mem hline] at hd
      rw [CallSite.heads_of_isDead hd] at hn
      cases hn
    · exact hr
  have ho := Plan.own_of_mem_heads (h.planned part hp) hm hr hn
  rw [Plan.ownNames, h.inSegment hp] at ho
  obtain ⟨g, hg, hgn⟩ := List.mem_map.1 ho
  refine ⟨g, h.mem_functions hp hg, hgn, ?_, ?_⟩
  · rw [(Analysis.exists_lines_of_function ha hg).1, hl]
  · rw [segment_of_mem_functions ha hg, segment_of_mem_functions ha hf]

theorem Compiled.exists_of_closure (h : p.Compiled) {l : Language} {roots : List Text}
    {f : FunctionDef} (hf : f ∈ p.functions.closure l roots) {n : Text}
    (hn : n ∈ p.functions.headsIn l f.source) :
    ∃ g ∈ p.functions.closure l roots, g.name = n ∧ g.segment = f.segment := by
  have hs := p.functions.selection_closure l roots
  have hl : f.language = l := hs.language f hf
  obtain ⟨g, hg, rfl, hgl, hseg⟩ := h.exists_of_headsIn (hs.sublist.subset hf) (hl ▸ hn)
  have hgl : g.language = l := hgl.trans hl
  have hin : p.functions.isIn l g.name = true :=
    FunctionTable.isIn_iff.2 ⟨g, Catalog.find?_eq_some.2 ⟨hg, rfl⟩, hgl⟩
  exact ⟨g, FunctionTable.mem_closure_of_referenced hf hg hgl
    (FunctionTable.mem_referenced.2 ⟨hn, hin⟩), rfl, hseg⟩

end Program

namespace Generator

/-- What is carried for a call of `f` with the arguments `args`, already in the language
of `f`: functions of that language in the order of the table, with `f` among them. -/
structure Carried (functions : FunctionTable) (f : FunctionDef) (args : List Text)
    (carried : List FunctionDef) : Prop where
  picked : functions.Selection f.language carried
  callee : f ∈ carried
  closed : ∀ n ∈ functions.headsIn f.language (Text.unlines (carried.map (·.source))),
    ∃ g ∈ carried, g.name = n
  open_iff : ∀ x ∈ args, ∀ n ∈ functions.headsIn f.language x,
    (∃ g ∈ carried, g.name = n) ↔ functions.isIn f.language n = true

variable {gen : Generator} {c : CallSite} {f : FunctionDef} {caller : Language}

theorem selection_carriedFor (gen : Generator) (c : CallSite) (f : FunctionDef)
    (caller : Language) : gen.functions.Selection f.language (gen.carriedFor c f caller) :=
  FunctionTable.selection_closure _ _ _

theorem mem_carriedFor_callee (hf : f ∈ gen.functions.items) :
    f ∈ gen.carriedFor c f caller :=
  FunctionTable.mem_closure_of_root hf rfl (Names.mem_extend.2 (.inl List.mem_cons_self))

theorem mem_carriedFor_argument {x : Text} (hx : x ∈ argumentsFor c f caller) {g : FunctionDef}
    (hg : g ∈ gen.functions.items) (hl : g.language = f.language)
    (hr : g.name ∈ gen.functions.referenced f.language x) : g ∈ gen.carriedFor c f caller :=
  FunctionTable.mem_closure_of_root hg hl
    (Names.mem_extend.2 (.inr (List.mem_flatMap.2 ⟨x, hx, hr⟩)))

end Generator

namespace Program
variable {p : Program}

theorem Compiled.closed_carriedFor (h : p.Compiled) (c : CallSite) (f : FunctionDef)
    (caller : Language) {n : Text}
    (hn : n ∈ p.functions.headsIn f.language
      (Text.unlines (((Execution.generatorOf p).carriedFor c f caller).map (·.source)))) :
    ∃ g ∈ (Execution.generatorOf p).carriedFor c f caller, g.name = n := by
  rw [FunctionTable.headsIn_unlines] at hn
  obtain ⟨t, ht, hn⟩ := List.mem_flatMap.1 hn
  obtain ⟨k, hk, rfl⟩ := List.mem_map.1 ht
  obtain ⟨g, hg, hgn, -⟩ := h.exists_of_closure hk hn
  exact ⟨g, hg, hgn⟩

theorem Compiled.carried_carriedFor (h : p.Compiled) {c : CallSite} {f : FunctionDef}
    (hf : p.functions.find? c.callee = some f) (caller : Language) :
    Generator.Carried p.functions f (Generator.argumentsFor c f caller)
      ((Execution.generatorOf p).carriedFor c f caller) := by
  have hs := (Execution.generatorOf p).selection_carriedFor c f caller
  refine ⟨hs, Generator.mem_carriedFor_callee (Catalog.find?_eq_some.1 hf).1,
    fun n hn => h.closed_carriedFor c f caller hn, fun x hx n hn => ⟨?_, fun hin => ?_⟩⟩
  · rintro ⟨g, hg, rfl⟩
    exact FunctionTable.isIn_iff.2
      ⟨g, Catalog.find?_eq_some.2 ⟨hs.sublist.subset hg, rfl⟩, hs.language g hg⟩
  · obtain ⟨g, hfound, hl⟩ := FunctionTable.isIn_iff.1 hin
    obtain ⟨hg, rfl⟩ := Catalog.find?_eq_some.1 hfound
    exact ⟨g, Generator.mem_carriedFor_argument hx hg hl
      (FunctionTable.mem_referenced.2 ⟨hn, hin⟩), rfl⟩

/-- Every call site of a compiled program calls a function of the table, and its unit
defines the functions it carries and calls that function with the arguments. All that
the definitions call is carried; what an argument calls is carried exactly if it is in
the language of the unit. -/
theorem exists_carried {e : Engine} {source : Text} {p : Program}
    (hc : compile e source = .ok p) {part : Part} (hp : part ∈ p.parts) {b : Block}
    (hb : b ∈ part.plan.blocks) {c : CallSite} (hcall : c ∈ b.calls) :
    ∃ f carried, p.functions.find? c.callee = some f ∧
      Generator.Carried p.functions f (Generator.argumentsFor c f part.segment.language) carried ∧
      ∀ g : Globals, ∃ u d, (Task.call c f).unit? (Execution.generatorOf p) part g = .ok u ∧
        (Task.call c f).draft? (Execution.generatorOf p) part g = .ok d ∧ u.source = d.text ∧
        d.definitions = Text.unlines (carried.map (·.source)) ∧
        d.body = f.language.capture
          (Generator.callText f (Generator.argumentsFor c f part.segment.language)) := by
  have h := compiled_of_compile hc
  obtain ⟨⟨f, hf⟩, -⟩ := Plan.known_of_call (h.planned part hp) hb hcall
  exact ⟨f, _, hf, h.carried_carriedFor hf part.segment.language,
    fun g => ⟨_, _, rfl, rfl, rfl, rfl, rfl⟩⟩

/-- A call with an argument that calls a function of another segment, in the language of
the caller. -/
def nestedSource : Text :=
  "[py]\ndef g(n):\n    return n\n[js]\nfunction h() \x7b\n  return 1\n\x7d\n[js]\nlet z = g(h())"

theorem exists_carried_nestedSource :
    ∃ p part b c f carried x n, compile .standard nestedSource = .ok p ∧ part ∈ p.parts ∧
      b ∈ part.plan.blocks ∧ c ∈ b.calls ∧ p.functions.find? c.callee = some f ∧
      Generator.Carried p.functions f (Generator.argumentsFor c f part.segment.language) carried ∧
      x ∈ Generator.argumentsFor c f part.segment.language ∧
      n ∈ p.functions.headsIn f.language x ∧ ¬ ∃ g ∈ carried, g.name = n := by
  have h : (compile .standard nestedSource).toOption.map (fun p =>
      p.parts.any fun part => part.plan.blocks.any fun b => b.calls.any fun c =>
        (p.functions.find? c.callee).any fun f =>
          (Generator.argumentsFor c f part.segment.language).any fun x =>
            (p.functions.headsIn f.language x).any fun n => !p.functions.isIn f.language n) =
      some true := by
    decide +kernel
  obtain ⟨p, hc, h⟩ := exists_of_compile h
  obtain ⟨part, hp, h⟩ := List.any_eq_true.1 h
  obtain ⟨b, hb, h⟩ := List.any_eq_true.1 h
  obtain ⟨c, hcall, h⟩ := List.any_eq_true.1 h
  obtain ⟨f, carried, hf, hcar, -⟩ := exists_carried hc hp hb hcall
  rw [hf, Option.any_some] at h
  obtain ⟨x, hx, h⟩ := List.any_eq_true.1 h
  obtain ⟨n, hn, hin⟩ := List.any_eq_true.1 h
  refine ⟨p, part, b, c, f, carried, x, n, hc, hp, hb, hcall, hf, hcar, hx, hn, fun hg => ?_⟩
  rw [(hcar.open_iff x hx n hn).1 hg] at hin
  cases hin

end Program
end Polyglot

namespace Polyglot.Program

variable {p : Program}

theorem Compiled.segment_of_closure (h : p.Compiled) {f : FunctionDef}
    (hf : f ∈ p.functions.items) {g : FunctionDef}
    (hg : g ∈ p.functions.closure f.language [f.name]) : g.segment = f.segment := by
  refine (p.functions.isClosure_closure f.language [f.name]).least
    (fun g => g.segment = f.segment) (fun g hg _ hr => ?_) (fun k hk hl hs g hg _ hr => ?_) g hg
  · rw [FunctionTable.eq_of_name hg hf (List.mem_singleton.1 hr)]
  · obtain ⟨g', hg', hn, -, hseg⟩ := h.exists_of_headsIn hk
      (hl ▸ (FunctionTable.mem_referenced.1 hr).1)
    rw [← FunctionTable.eq_of_name hg' hg hn, hseg, hs]

/-- In a compiled program every custom function that a function calls is of the segment of
that function. In any table, the search for what calls from some roots lead to ends with
the least selection that has the roots and that calls do not lead out of. So what the calls
of a function lead to is of its segment, and calls no custom function but its own. -/
theorem functions_closed {e : Engine} {source : Text} (hc : compile e source = .ok p) :
    (∀ f ∈ p.functions.items, ∀ n ∈ p.functions.headsIn f.language f.source,
      ∃ g ∈ p.functions.items, g.name = n ∧ g.segment = f.segment) ∧
    (∀ (t : FunctionTable) (l : Language) (roots : List Text),
      t.found l roots = t.closure l roots ∧ t.IsClosure l roots (t.closure l roots)) ∧
    ∀ f ∈ p.functions.items, ∀ g ∈ p.functions.closure f.language [f.name],
      g.segment = f.segment ∧ ∀ n ∈ p.functions.headsIn g.language g.source,
        ∃ k ∈ p.functions.closure f.language [f.name], k.name = n := by
  have h := compiled_of_compile hc
  refine ⟨fun f hf n hn => ?_, fun t l roots => ⟨t.found_eq_closure l roots,
    t.isClosure_closure l roots⟩, fun f hf g hg => ⟨h.segment_of_closure hf hg, fun n hn => ?_⟩⟩
  · obtain ⟨g, hg, hgn, -, hseg⟩ := h.exists_of_headsIn hf hn
    exact ⟨g, hg, hgn, hseg⟩
  · have hl := (p.functions.selection_closure f.language [f.name]).language g hg
    obtain ⟨k, hk, hkn, -⟩ := h.exists_of_closure hg (hl ▸ hn)
    exact ⟨k, hk, hkn⟩

/-- Two functions that call each other, and one of another segment. -/
def mutualSource : Text :=
  "[py]\ndef even(n):\n    return n == 0 or odd(n - 1)\ndef odd(n):\n    return n != 0 and even(n - 1)\n[py]\ndef half(n):\n    return n // 2"

theorem functions_closed_mutual :
    ∃ p f, compile .standard mutualSource = .ok p ∧ f ∈ p.functions.items ∧
      p.functions.names = ["even".toList, "odd".toList, "half".toList] ∧
      (p.functions.found f.language [f.name]).map (·.name) = ["even".toList, "odd".toList] ∧
      ∀ g ∈ p.functions.closure f.language [f.name], g.segment = f.segment := by
  have h : (compile .standard mutualSource).toOption.map (fun p => (p.functions.names,
      p.functions.items.head?.map fun f =>
        (p.functions.closure f.language [f.name]).map (·.name))) =
      some (["even".toList, "odd".toList, "half".toList],
        some ["even".toList, "odd".toList]) := by
    decide +kernel
  obtain ⟨p, hc, h⟩ := exists_of_compile h
  obtain ⟨hnames, hhead⟩ := Prod.mk.inj h
  obtain ⟨f, hf, hclosure⟩ := Option.map_eq_some_iff.1 hhead
  have hf : f ∈ p.functions.items := List.mem_of_head? hf
  obtain ⟨-, hsearch, hsegment⟩ := functions_closed hc
  refine ⟨p, f, hc, hf, hnames, ?_, fun g hg => (hsegment f hf g hg).1⟩
  rw [(hsearch p.functions f.language [f.name]).1]
  exact hclosure

end Polyglot.Program
