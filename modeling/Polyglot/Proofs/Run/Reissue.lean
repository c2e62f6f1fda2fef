import Polyglot.Proofs.Run.Dispatch
import Polyglot.Proofs.Run.Threading
import Polyglot.Proofs.Unit.Invocation
import Polyglot.Proofs.Unit.Tracking

/-!
# Calls that are issued again

A name without a value is declared again from the expression that its segment bound it
to. If that expression calls a function of another segment, the call would now be made
in the wrong language. This happens to the names of a calling line that left no value,
and to no others.
-/
namespace Polyglot

namespace Task

/-- What the unit declares from source expressions, for want of a value. -/
def redeclared (gen : Generator) (p : Part) (g : Globals) : Task → List (Text × Text)
  | segment => []
  | code t => t.placeholders.filterMap fun n =>
      if (g.value? n).isSome then none else (t.fallback? n).map fun x => (n, x)
  | call _ _ => []
  | continuation _ line _ _ bound => Generator.carriedBindings (p.context gen) line bound g

variable {gen : Generator} {p : Part} {g : Globals}

theorem mem_redeclared_code {t : Template} {n x : Text} :
    (n, x) ∈ (code t).redeclared gen p g ↔
      n ∈ t.placeholders ∧ n ∉ g.names ∧ t.fallback? n = some x := by
  rw [← Globals.value?_eq_none]
  constructor
  · intro hn
    obtain ⟨k, hk, hkx⟩ := List.mem_filterMap.1 hn
    split at hkx
    · cases hkx
    · next hv =>
      obtain ⟨y, hy, he⟩ := Option.map_eq_some_iff.1 hkx
      cases he
      exact ⟨hk, Option.not_isSome_iff_eq_none.1 hv, hy⟩
  · rintro ⟨hk, hv, hx⟩
    refine List.mem_filterMap.2 ⟨n, hk, ?_⟩
    rw [hv, hx]
    rfl

theorem declared_of_redeclared {task : Task} {ds es : List (Text × Text)}
    (hd : task.declared? gen p g = .ok (ds, es)) {n x : Text}
    (hn : (n, x) ∈ task.redeclared gen p g) :
    ∃ m, (m, x) ∈ ds ++ es ∧ (Placeholder.nameAt n = [] ∨ task.isContinuation = true → m = n) := by
  cases task with
  | segment => cases hn
  | call c f => cases hn
  | continuation text line calls returns bound =>
    cases hd
    exact ⟨n, List.mem_append_right _ hn, fun _ => rfl⟩
  | code t =>
    obtain ⟨hm, rfl⟩ := pairs_of_declared hd
    obtain ⟨hk, hg, hx⟩ := mem_redeclared_code.1 hn
    obtain ⟨d, hf⟩ := exists_of_mapM hm hk
    obtain ⟨hd2, hd1⟩ := Placeholder.exists_fillPair hf
    have hval : t.valueOf g n = .ok x := by
      rw [Template.valueOf, Globals.value?_eq_none.2 hg, hx]
    rw [hval] at hd2
    cases hd2
    refine ⟨d.1, List.mem_append_left _ ((mem_of_mapM hm).2 ⟨n, hk, hf⟩), ?_⟩
    rintro (hz | hz)
    · rcases hd1 with ⟨-, he⟩ | ⟨hne, -⟩
      · exact he
      · exact absurd hz hne
    · cases hz

theorem value_of_mem_declared {l : Language} {skip : List Text} {m x : Text}
    (h : (m, x) ∈ g.declared l skip) : ∃ v, g.value? m = some v ∧ x = v.render l := by
  obtain ⟨n, hn, he⟩ := List.mem_map.1 h
  cases he
  have hm : m ∈ g.names := (List.mem_filter.1 (List.mem_filter.1 hn).1).1
  obtain ⟨v, hv⟩ := Option.isSome_iff_exists.1 (Globals.value?_isSome.2 hm)
  exact ⟨v, hv, by rw [Globals.rendered, hv]⟩

theorem value_or_redeclared {task : Task} {u : GuestUnit} (hu : task.unit? gen p g = .ok u)
    {ds es : List (Text × Text)} (hd : task.declared? gen p g = .ok (ds, es)) {m x : Text}
    (hm : (m, x) ∈ ds ++ es) :
    (∃ n v, g.value? n = some v ∧ x = v.render u.language) ∨
      ∃ n, (n, x) ∈ task.redeclared gen p g := by
  cases task with
  | segment =>
    cases hu
    cases hd
    rw [List.append_nil] at hm
    exact .inl ⟨m, value_of_mem_declared hm⟩
  | call c f =>
    cases hu
    cases hd
    rw [List.append_nil] at hm
    exact .inl ⟨m, value_of_mem_declared hm⟩
  | continuation text line calls returns bound =>
    cases hu
    cases hd
    rcases List.mem_append.1 hm with hm | hm
    · exact .inl ⟨m, value_of_mem_declared hm⟩
    · exact .inr ⟨m, hm⟩
  | code t =>
    obtain ⟨preamble, rfl⟩ := Template.eq_of_fill hu
    obtain ⟨hf, rfl⟩ := pairs_of_declared hd
    rw [List.append_nil] at hm
    obtain ⟨n, hn, hp⟩ := (mem_of_mapM hf).1 hm
    have hx := (Placeholder.exists_fillPair hp).1
    rw [Template.valueOf] at hx
    cases hv : g.value? n with
    | some v =>
      rw [hv] at hx
      cases hx
      exact .inl ⟨n, v, hv, rfl⟩
    | none =>
      rw [hv] at hx
      cases hb : t.fallback? n with
      | none => rw [hb] at hx; cases hx
      | some y =>
        rw [hb] at hx
        cases hx
        exact .inr ⟨n, mem_redeclared_code.2 ⟨hn, Globals.value?_eq_none.1 hv, hb⟩⟩

end Task

def Turn.redeclared (gen : Generator) (t : Turn) : List (Text × Text) :=
  t.task.redeclared gen t.part t.state.globals

namespace Program
variable {p : Program}

theorem Compiled.not_bound (h : p.Compiled) {part : Part} (hp : part ∈ p.parts) {block : Block}
    (hb : block ∈ part.plan.blocks) {b : Binding} (hm : b ∈ part.analysis.bindings)
    (hl : b.line < block.firstLine) :
    ¬ (part.segment.language.declaresOnce = true ∧ b.name ∈ block.bound) := by
  rintro ⟨ho, hn⟩
  obtain ⟨ls, hh⟩ := Plan.madeOf_of_mem (h.planned part hp) hb
  obtain ⟨e, he, hf, hen⟩ := hh.exists_binding hn
  have hx := Catalog.find?_of_mem (h.once part hp ho) hm
  rw [← hen, Catalog.find?_of_mem (h.once part hp ho) he] at hx
  cases hx
  exact Nat.lt_irrefl _ (Nat.lt_of_lt_of_le hl hf)

theorem unit_of_fill {t : Template} {g : Globals} {u : GuestUnit} (h : t.fill g = .ok u) :
    u.kind = .segment ∧ u.firstLine = t.firstLine := by
  obtain ⟨preamble, rfl⟩ := Template.eq_of_fill h
  exact ⟨rfl, rfl⟩

theorem bound_of_redeclared {gen : Generator} {part : Part} {g : Globals} {task : Task}
    (ht : task.Planned gen part) {u : GuestUnit} (hu : task.unit? gen part g = .ok u)
    {n x : Text} (hn : (n, x) ∈ task.redeclared gen part g) :
    u.kind ≠ .invocation ∧ n ∉ g.names ∧
      ∃ b, part.analysis.lastBefore? u.firstLine n = some b ∧ b.expression = x := by
  cases task with
  | segment => cases hn
  | call c f => cases hn
  | continuation text line calls returns bound =>
    cases hu
    obtain ⟨hb, hg, -⟩ := Task.mem_carriedBindings.1 hn
    exact ⟨nofun, hg, hb⟩
  | code t =>
    obtain ⟨hk, hl⟩ := unit_of_fill hu
    obtain ⟨-, hg, hf⟩ := Task.mem_redeclared_code.1 hn
    obtain ⟨g', pre, text, line, bound, post, -, rfl⟩ := ht
    rw [Task.fallback?_ofCode] at hf
    rw [hk, hl]
    exact ⟨nofun, hg, Option.map_eq_some_iff.1 hf⟩

theorem exists_block_of_redeclared {gen : Generator} {part : Part} {g : Globals} {task : Task}
    (ht : task.Planned gen part) {n x : Text} (hn : (n, x) ∈ task.redeclared gen part g) :
    ∃ b, b ∈ part.plan.blocks := by
  cases task with
  | segment => cases hn
  | call c f => cases hn
  | continuation text line calls returns bound => exact ⟨_, ht.1⟩
  | code t =>
    obtain ⟨g', pre, text, line, bound, post, hb, -⟩ := ht
    exact ⟨_, hb ▸ List.mem_append_right _ List.mem_cons_self⟩

theorem Compiled.redeclared_of_call (h : p.Compiled) {part : Part} (hp : part ∈ p.parts)
    {g : Globals} {task : Task} (ht : task.Planned (Execution.generatorOf p) part) {u : GuestUnit}
    (hu : task.unit? (Execution.generatorOf p) part g = .ok u) (hk : u.kind ≠ .invocation)
    {b : Binding} {n : Text} (hb : part.analysis.lastBefore? u.firstLine n = some b)
    {text : Text} {calls : List CallSite} {bound : List Text}
    (hc : .call text b.line calls bound ∈ part.plan.blocks) (hg : n ∉ g.names) :
    (n, b.expression) ∈ task.redeclared (Execution.generatorOf p) part g := by
  obtain ⟨hm, hl, rfl⟩ := Analysis.lastBefore?_mem hb
  cases task with
  | segment =>
    have hs : part.plan = .simple := ht
    rw [hs] at hc
    cases hc
  | call c f => cases hu; exact absurd rfl hk
  | continuation text' line calls' returns bound' =>
    cases hu
    exact Task.mem_carriedBindings.2 ⟨⟨b, hb, rfl⟩, hg, h.not_bound hp ht.1 hm hl⟩
  | code t =>
    obtain ⟨-, hline⟩ := unit_of_fill hu
    rw [hline] at hb hl
    obtain ⟨g', pre, text', line, bound', post, hbs, rfl⟩ := ht
    have hcode : .code text' line bound' ∈ part.plan.blocks :=
      hbs ▸ List.mem_append_right _ List.mem_cons_self
    have hnb := h.not_bound hp hcode hm hl
    -- The calling block stands before the block of code, so the template knows its names.
    have hpre : .call text b.line calls bound ∈ pre := by
      have ho := Plan.pairwise_blocks (h.analyzed part hp) (h.planned part hp)
      rw [hbs] at ho hc
      rcases List.mem_append.1 hc with hc | hc
      · exact hc
      · rcases List.mem_cons.1 hc with hc | hc
        · cases hc
        · have hlt : line < b.line := (List.pairwise_cons.1 (List.pairwise_append.1 ho).2.1).1 _ hc
          exact absurd hl (Nat.lt_asymm hlt)
    obtain ⟨ls, hh⟩ := Plan.madeOf_of_mem (h.planned part hp) hc
    have hbound : b.name ∈ bound :=
      hh.bound_call ▸ Block.mem_boundBetween.2 ⟨b, hm, Nat.le_refl _, Nat.le_refl _, rfl⟩
    refine Task.mem_redeclared_code.2 ⟨List.mem_filter.2 ⟨?_, ?_⟩, hg, ?_⟩
    · exact Template.mem_knownAfter.2 (.inr ⟨_, hpre, hbound⟩)
    · have hd : (part.segment.language.declaresOnce && bound'.contains b.name) = false := by
        rw [← Bool.not_eq_true, Bool.and_eq_true, List.contains_iff_mem]
        exact hnb
      exact (congrArg (!·) hd).trans rfl
    · have hlast : part.analysis.lastBefore? line b.name = some b := hb
      rw [Task.fallback?_ofCode, hlast]
      rfl

theorem Compiled.reissues_iff_of_planned (h : p.Compiled) {part : Part} (hp : part ∈ p.parts)
    {g : Globals} {task : Task} (ht : task.Planned (Execution.generatorOf p) part) {u : GuestUnit}
    (hu : task.unit? (Execution.generatorOf p) part g = .ok u) (n x : Text) :
    ((n, x) ∈ task.redeclared (Execution.generatorOf p) part g ∧
        Plan.CallsAbroad p.functions part.plan.own part.segment.language x) ↔
      u.kind ≠ .invocation ∧ n ∉ g.names ∧
        Plan.CallsAbroad p.functions part.plan.own part.segment.language x ∧
        ∃ b, part.analysis.lastBefore? u.firstLine n = some b ∧ b.expression = x ∧
          ∃ text calls bound, .call text b.line calls bound ∈ part.plan.blocks := by
  constructor
  · rintro ⟨hn, hx⟩
    obtain ⟨hk, hg, b, hb, rfl⟩ := bound_of_redeclared ht hu hn
    obtain ⟨block, hblock⟩ := exists_block_of_redeclared ht hn
    have hcall := hx
    rw [Plan.own_of_mem (h.planned part hp) hblock] at hcall
    exact ⟨hk, hg, hx, b, hb, rfl, Plan.exists_call_of_callsAbroad (h.analyzed part hp)
      (h.planned part hp) (Analysis.lastBefore?_mem hb).1 hcall⟩
  · rintro ⟨hk, hg, hx, b, hb, rfl, text, calls, bound, hcall⟩
    exact ⟨h.redeclared_of_call hp ht hu hk hb hcall hg, hx⟩

/-- In every run of a compiled program, whatever a unit declares has a value from a
result or is declared again. It is declared again from an expression that calls a
function of another segment exactly if the segment bound the name so, last before the
unit and on a calling line, and none of the results so far has the name. -/
theorem reissues_iff {e : Engine} {source : Text} {p : Program} (hc : compile e source = .ok p)
    (s : Scheduler) (i : Fin (p.turns s).length) {u : GuestUnit}
    (hu : ((p.turns s).get i).unit? (Execution.generatorOf p) = .ok u) :
    (∃ d ds es, ((p.turns s).get i).draft? (Execution.generatorOf p) = .ok d ∧ u.source = d.text ∧
      d.preamble = Placeholder.declareLines u.language ds ∧
      d.carried = Placeholder.declareLines u.language es ∧
      (∀ m x, (m, x) ∈ ds ++ es →
        (∃ n v, (p.past s i).table.value? n = some v ∧ x = v.render u.language) ∨
          ∃ n, (n, x) ∈ ((p.turns s).get i).redeclared (Execution.generatorOf p)) ∧
      ∀ n x, (n, x) ∈ ((p.turns s).get i).redeclared (Execution.generatorOf p) →
        ∃ m, (m, x) ∈ ds ++ es ∧
          (Placeholder.nameAt n = [] ∨ ((p.turns s).get i).task.isContinuation = true → m = n)) ∧
    ∀ n x,
      ((n, x) ∈ ((p.turns s).get i).redeclared (Execution.generatorOf p) ∧
          Plan.CallsAbroad p.functions ((p.turns s).get i).part.plan.own
            ((p.turns s).get i).part.segment.language x) ↔
        u.kind ≠ .invocation ∧ n ∉ (p.past s i).seen ∧
          Plan.CallsAbroad p.functions ((p.turns s).get i).part.plan.own
            ((p.turns s).get i).part.segment.language x ∧
          ∃ b, ((p.turns s).get i).part.analysis.lastBefore? u.firstLine n = some b ∧
            b.expression = x ∧
            ∃ text calls bound,
              .call text b.line calls bound ∈ ((p.turns s).get i).part.plan.blocks := by
  obtain ⟨hp, ht⟩ := planned_of_mem (List.get_mem (p.turns s) i)
  have hg := p.globals_turn s i
  have h := compiled_of_compile hc
  generalize (p.turns s).get i = t at hp ht hg hu ⊢
  unfold Turn.unit? at hu
  unfold Turn.draft? Turn.redeclared
  rw [hg] at hu ⊢
  rw [← History.names_table]
  refine ⟨?_, h.reissues_iff_of_planned hp ht hu⟩
  obtain ⟨d, ds, es, hd, hs, hds, hpre, hcar, -⟩ :=
    Task.exists_draft_of_planned (h.analyzed _ hp) (h.planned _ hp)
      (fun _ _ => ht) hu
  exact ⟨d, ds, es, hd, hs, hpre, hcar, fun m x hm => Task.value_or_redeclared hu hds hm,
    fun n x hn => Task.declared_of_redeclared hds hn⟩

theorem exists_fill_of_fallback {t : Template} {g : Globals} {n x : Text} (hs : t.Sound)
    (hnames : t.placeholders = [n]) (hw : Placeholder.IsWord n) (hn : Placeholder.nameAt n = [])
    (hg : n ∉ g.names) (hx : t.fallback? n = some x) : ∃ u, t.fill g = .ok u := by
  have hv : t.valueOf g n = .ok x := by
    rw [Template.valueOf, Globals.value?_eq_none.2 hg, hx]
  have hone : ∀ m ∈ t.placeholders, m = n := by
    rw [hnames]
    exact fun m hm => List.mem_singleton.1 hm
  exact Template.exists_fill hs (fun m hm => hone m hm ▸ hw) (fun m hm => hone m hm ▸ hn)
    fun m hm => ⟨x, hone m hm ▸ hv⟩

theorem exists_turn_after_call {p : Program} {s : Scheduler} {part : Part} {rest : List Part}
    (hp : p.parts = part :: rest) {text text' : Text} {line line' : Nat} {c : CallSite}
    {bound bound' own : List Text} {blocks : List Block}
    (hs : part.plan = .split (.call text line [c] bound :: .code text' line' bound' :: blocks) own)
    {f : FunctionDef} (hf : p.functions.find? c.callee = some f)
    (hr : (Execution.runCall (Execution.generatorOf p) part.segment.language
      (Execution.enterPart (Execution.opening p s) part) c).result = .ok none) :
    ∃ st, (p.turns s)[1]? = some ⟨part, .code (.ofCode (part.context (Execution.generatorOf p))
        (Names.extend (Globals.visible (Execution.enterPart (Execution.opening p s) part).globals
          part.segment.language) bound) text' line' bound'), st⟩ ∧
      st.globals = (Execution.runCall (Execution.generatorOf p) part.segment.language
        (Execution.enterPart (Execution.opening p s) part) c).state.globals := by
  have hcalls : (Execution.runCalls (Execution.generatorOf p) part.segment.language
      (Execution.enterPart (Execution.opening p s) part) [c]).result = .ok [] := by
    rw [Execution.runCalls, Outcome.andThen, hr]
    rfl
  have hstate : (Execution.runCalls (Execution.generatorOf p) part.segment.language
      (Execution.enterPart (Execution.opening p s) part) [c]).state =
      (Execution.runCall (Execution.generatorOf p) part.segment.language
        (Execution.enterPart (Execution.opening p s) part) c).state := by
    rw [Execution.runCalls, Outcome.andThen, hr]
    rfl
  have hf : (Execution.generatorOf p).functions.find? c.callee = some f := hf
  rw [turns, hp, Execution.partsTurns, Execution.partTurns, hs]
  dsimp only
  rw [Template.plan, Template.ofBlocks, Template.ofBlocks, List.zip_cons_cons, List.zip_cons_cons,
    Execution.blocksTurns_skip hcalls Nat.zero_lt_one, Execution.callTurns, Execution.callTurn, hf,
    Execution.follow, hr, hstate]
  dsimp only
  rw [Execution.callTurns, Execution.blocksTurns, Execution.blockTurns]
  refine ⟨_, rfl, ?_⟩
  exact ((RunState.quiet_warn _ _).trans (RunState.quiet_noteHidden _ _ _)).globals

theorem runCall_bare {gen : Generator} (caller : Language) {s : RunState} {c : CallSite}
    {f : FunctionDef} (hf : gen.functions.find? c.callee = some f)
    (hq : Quiet (.start (.start .standard .bare [])) s) :
    (Execution.runCall gen caller s c).result = .ok none ∧
      (Execution.runCall gen caller s c).state.globals = Catalog.empty := by
  have hn := (hq.trans (s.quiet_noteHidden f.language c.line)).trans
    ((s.noteHidden f.language c.line).quiet_say (Execution.generated "invocation unit"
      [("callee", f.name), ("line", Text.decimal c.line)]))
  rw [Execution.runCall, hf]
  dsimp only
  obtain ⟨hr, hg⟩ := RunState.execute_unhindered
    ((Scheduler.unhindered_replying [] _).congr hn.engine hn.scratch hn.machine)
    (by rw [hn.machine]; exact Reply.values?_default)
    (u := gen.invocationUnit c f caller (s.noteHidden f.language c.line).globals)
  exact ⟨hr, hg.trans hn.globals⟩

/-- A call that gives no value, and code after it. -/
def silentSource : Text := "[js]\nlet y = g(1)\nconsole.log(2)\n[py]\ndef g(a):\n    pass"

theorem compile_silentSource :
    ∃ p part rest f, compile .standard silentSource = .ok p ∧ p.parts = part :: rest ∧
      part.segment.language = .javascript ∧
      part.plan = .split [.call "let y = g(1)" 2 [⟨"g", ["1"], 8, 12, 2⟩] ["y"],
        .code "console.log(2)" 3 []] [] ∧
      part.analysis.lastBefore? 3 "y" = some ⟨"y", "g(1)", 2⟩ ∧ p.functions.find? "g" = some f ∧
      Plan.CallsAbroad p.functions [] .javascript "g(1)" := by
  have h : (compile .standard silentSource).toOption.map (fun p =>
      (p.parts.map fun part => (part.segment.language, part.plan, part.analysis.lastBefore? 3 "y"),
        (p.functions.find? "g").isSome,
        CallSite.heads .javascript (CallSite.knows p.functions []) none
          (Token.tokenize .javascript "g(1)"))) =
      some (([(.javascript, .split [.call "let y = g(1)" 2 [⟨"g", ["1"], 8, 12, 2⟩] ["y"],
        .code "console.log(2)" 3 []] [], some ⟨"y", "g(1)", 2⟩), (.python, .simple, none)],
        true, ["g"]) : List (Language × Plan × Option Binding) × Bool × List Text) := by
    decide +kernel
  obtain ⟨p, hc, h⟩ := exists_of_compile h
  obtain ⟨hparts, h⟩ := Prod.mk.inj h
  obtain ⟨hfound, hheads⟩ := Prod.mk.inj h
  obtain ⟨part, rest, hp, hpart, -⟩ := List.map_eq_cons_iff.1 hparts
  obtain ⟨hl, hpart⟩ := Prod.mk.inj hpart
  obtain ⟨hplan, hlast⟩ := Prod.mk.inj hpart
  obtain ⟨f, hf⟩ := Option.isSome_iff_exists.1 hfound
  exact ⟨p, part, rest, f, hc, hp, hl, hplan, hlast, hf, "g", hheads ▸ List.mem_cons_self⟩

theorem reissues_iff_silentSource :
    ∃ p s, ∃ i : Fin (p.turns s).length, ∃ u, compile .standard silentSource = .ok p ∧
      ((p.turns s).get i).unit? (Execution.generatorOf p) = .ok u ∧
      ("y".toList, "g(1)".toList) ∈ ((p.turns s).get i).redeclared (Execution.generatorOf p) ∧
      Plan.CallsAbroad p.functions ((p.turns s).get i).part.plan.own
        ((p.turns s).get i).part.segment.language "g(1)" := by
  obtain ⟨p, part, rest, f, hc, hp, hl, hplan, hlast, hf, habroad⟩ := compile_silentSource
  have hq := (Execution.quiet_opening p (.start .standard .bare [])).trans
    (Execution.quiet_enterPart part _)
  have hfound : (Execution.generatorOf p).functions.find? "g" = some f := hf
  obtain ⟨hr, hg⟩ := runCall_bare part.segment.language (c := ⟨"g", ["1"], 8, 12, 2⟩) hfound hq
  obtain ⟨st, hturn, hst⟩ := exists_turn_after_call hp hplan hf hr
  obtain ⟨hlt, hget⟩ := List.getElem?_eq_some_iff.1 hturn
  have hvisible : Globals.visible (Execution.enterPart (Execution.opening p
      (.start .standard .bare [])) part).globals part.segment.language = [] := by
    rw [hq.globals]
    rfl
  rw [hvisible] at hget
  -- What the template of the code after the call is made of.
  have hnames : (Template.ofCode (part.context (Execution.generatorOf p))
      (Names.extend [] ["y"]) "console.log(2)" 3 []).placeholders = ["y"] := by
    have hctx : (part.context (Execution.generatorOf p)).language = .javascript := hl
    rw [Template.ofCode, hctx]
    rfl
  have hfall : (Template.ofCode (part.context (Execution.generatorOf p)) (Names.extend [] ["y"])
      "console.log(2)" 3 []).fallback? "y" = some "g(1)" := by
    rw [Task.fallback?_ofCode, hlast]
    rfl
  have hnone : "y".toList ∉ Catalog.names st.globals := by
    rw [hst, hg]
    exact List.not_mem_nil
  obtain ⟨u, hu⟩ := exists_fill_of_fallback (t := .ofCode (part.context (Execution.generatorOf p))
    (Names.extend [] ["y"]) "console.log(2)" 3 []) ⟨rfl, rfl⟩ hnames (by decide +kernel)
    (by decide +kernel) hnone hfall
  have hget : (p.turns (.start .standard .bare [])).get ⟨1, hlt⟩ = _ := hget
  have hunit : ((p.turns (.start .standard .bare [])).get ⟨1, hlt⟩).unit?
      (Execution.generatorOf p) = .ok u := by
    rw [hget]
    exact hu
  obtain ⟨-, hiff⟩ := reissues_iff hc (.start .standard .bare []) ⟨1, hlt⟩ hunit
  refine ⟨p, _, ⟨1, hlt⟩, u, hc, hunit, (hiff "y" "g(1)").2 ?_⟩
  obtain ⟨hkind, hfirst⟩ := unit_of_fill hu
  have hseen : "y".toList ∉ (p.past (.start .standard .bare []) 1).seen := by
    rw [← History.names_table, ← p.globals_turn _ ⟨1, hlt⟩, hget]
    exact hnone
  rw [hget, hplan, hl, hkind, hfirst]
  exact ⟨by decide, hseen, habroad, _, hlast, rfl, _, _, _, List.mem_cons_self⟩

end Program
end Polyglot
