import Polyglot.Proofs.Run.Hidden
import Polyglot.Proofs.Run.Reissue
import Polyglot.Proofs.Run.Resolving
import Polyglot.Proofs.Unit.Arrangement

/-!
# Where a declaration stands

A name without a value is declared again from the expression that its segment bound it to
last. The names are declared in the order in which they came up first: those of the globals,
then those of the segment in the order of their first bindings, and all of them ahead of the
definitions. So such a declaration stands behind what its expression may need only if it
calls no function of the segment, and if no name that the segment bound before has come up
after its own.
-/
namespace Polyglot

structure Turn.Enters (gen : Generator) (first t : Turn) : Prop where
  part : first.part = t.part
  names : ∀ n ∈ first.state.globals.names, n ∈ t.state.globals.names
  planned : ∀ tpl, t.task = .code tpl → some tpl ∈
    Template.plan (t.part.context gen) t.part.plan.blocks first.state.globals

namespace Execution
variable {gen : Generator} {p : Part} {s : RunState}

theorem enters_partTurns {t : Turn} (h : t ∈ partTurns gen s p) :
    ∃ first post, partTurns gen s p = first :: post ∧ first.Enters gen t := by
  have hj := journey_part gen p s
  have htask : ∀ tpl, t.task = .code tpl →
      some tpl ∈ Template.plan (p.context gen) p.plan.blocks s.globals :=
    fun tpl ht => template_of_partTurns h ht
  have hpart := (planned_partTurns h).1
  obtain ⟨first, post, hcons⟩ := List.exists_cons_of_ne_nil (List.ne_nil_of_mem h)
  have hfirst := (planned_partTurns (hcons ▸ List.mem_cons_self : first ∈ partTurns gen s p)).1
  have hq : Quiet s first.state := by
    rw [hcons] at hj
    cases hj with
    | turn hq _ => exact hq
  refine ⟨first, post, hcons, hfirst.trans hpart.symm, fun n hn => ?_, ?_⟩
  · exact hj.names_of_mem h (hq.globals ▸ hn)
  · rw [hpart, hq.globals]
    exact htask

theorem exists_entry {ps : List Part} {t : Turn} (h : t ∈ partsTurns gen s ps)
    (hd : (ps.map (·.segment.ordinal)).Nodup) : ∃ pre first post,
      partsTurns gen s ps = pre ++ first :: post ∧
      (∀ x ∈ pre, x.part.segment.ordinal ≠ t.part.segment.ordinal) ∧ first.Enters gen t := by
  induction ps generalizing s with
  | nil => cases h
  | cons p r ih =>
    rw [List.map_cons, List.nodup_cons] at hd
    rw [partsTurns, List.mem_append] at h
    rcases h with h | h
    · obtain ⟨first, post, hcons, he⟩ := enters_partTurns h
      exact ⟨[], first, post ++ _, by rw [partsTurns, hcons]; rfl,
        fun x hx => absurd hx List.not_mem_nil, he⟩
    · obtain ⟨_, hok, h⟩ := mem_follow h
      obtain ⟨pre, first, post, hs, hne, he⟩ := ih h hd.2
      refine ⟨partTurns gen s p ++ pre, first, post, ?_, fun x hx => ?_, he⟩
      · rw [partsTurns, follow, hok, List.append_assoc, ← hs]
      · rcases List.mem_append.1 hx with hx | hx
        · rw [(planned_partTurns hx).1]
          exact fun e => hd.1 (e ▸ List.mem_map_of_mem (planned_partsTurns h).1)
        · exact hne x hx

end Execution

namespace Program
variable {p : Program}

/-- How many turns the run has before it enters the part. -/
def arrival (p : Program) (s : Scheduler) (part : Part) : Nat :=
  (p.turns s).findIdx (·.part.segment.ordinal == part.segment.ordinal)

theorem Compiled.exists_arrival (h : p.Compiled) (s : Scheduler) {t : Turn} (ht : t ∈ p.turns s) :
    ∃ first : Turn, first.Enters (Execution.generatorOf p) t ∧
      first.state.globals = (p.past s (p.arrival s t.part)).table := by
  have hd : (p.parts.map (·.segment.ordinal)).Nodup := h.ordinals ▸ List.nodup_range
  obtain ⟨pre, first, post, hs, hne, he⟩ := Execution.exists_entry ht hd
  have hs : p.turns s = pre ++ first :: post := hs
  have hlt : pre.length < (p.turns s).length := by simp [hs]
  have hget : (p.turns s).get ⟨pre.length, hlt⟩ = first := by simp [hs]
  have hlen : p.arrival s t.part = pre.length := by
    have hnone : ∀ x ∈ pre, (x.part.segment.ordinal == t.part.segment.ordinal) = false :=
      fun x hx => beq_eq_false_iff_ne.2 (hne x hx)
    have hpre := List.findIdx_eq_length.2 hnone
    have hhere : (first.part.segment.ordinal == t.part.segment.ordinal) = true := by
      rw [he.part]
      exact beq_self_eq_true _
    rw [arrival, hs, List.findIdx_append, hpre, if_neg (Nat.lt_irrefl _), List.findIdx_cons, hhere]
    exact Nat.zero_add _
  refine ⟨first, he, ?_⟩
  rw [hlen, ← p.globals_turn s ⟨pre.length, hlt⟩, hget]

end Program

theorem Globals.not_contains_iff {g : Globals} {n : Text} :
    (!g.contains n) = true ↔ n ∉ g.names := by
  rw [← Catalog.find?_isSome, Bool.not_eq_true', Bool.not_eq_true]
  rfl

theorem Language.declarable_python {l : Language} (hl : l = .python) (skip names : List Text) :
    l.declarable skip names = names := by
  subst hl
  exact List.filter_eq_self.2 fun _ _ => rfl

namespace Task
variable {gen : Generator} {part : Part} {g : Globals}

theorem speaks_of_isSplit {task : Task} (hs : task.isSplit = true) :
    task.speaks part = part.segment.language := by
  cases task with
  | segment => cases hs
  | call c f => cases hs
  | code t => rfl
  | continuation text line calls returns bound => rfl

theorem mem_visible_iff (ha : Analysis.ofSegment part.segment = .ok part.analysis)
    (hl : part.segment.language = .python) {c : Binding} (hc : c ∈ part.analysis.bindings) :
    c.name ∈ g.visible part.segment.language ↔ c.name ∈ g.names := by
  rw [Globals.visible, List.mem_filter, hl]
  exact and_iff_left (Analysis.validName_of_binding ha hl hc)

theorem map_fst_carriedBindings (hl : part.segment.language = .python) (line : Nat)
    (bound : List Text) :
    (Generator.carriedBindings (part.context gen) line bound g).map Prod.fst =
      (Names.distinct (part.analysis.namesBefore line)).filter fun n => !g.contains n := by
  rw [← Analysis.map_name_bindingsBefore]
  have hctx : (part.context gen).language.declaresOnce = false := by
    have hc : (part.context gen).language = .python := hl
    rw [hc]
    rfl
  simp only [Generator.carriedBindings, SegmentContext.fallbacks, hctx, Bool.false_and,
    Bool.not_false, Bool.and_true, List.filter_map, List.map_map]
  rfl

def ahead (task : Task) (entry g : Globals) : Globals := if task.isCode then entry else g

theorem precedes_names_iff (ha : Analysis.ofSegment part.segment = .ok part.analysis)
    (hp : Plan.ofSegment gen.functions part.segment part.analysis = .ok part.plan)
    (hl : part.segment.language = .python) {entry : Globals} {task : Task}
    (hs : task.isSplit = true)
    (ht : ∀ tpl, task = .code tpl →
      some tpl ∈ Template.plan (part.context gen) part.plan.blocks entry)
    (hg : ∀ n ∈ entry.names, n ∈ g.names) {n x : Text}
    (hn : (n, x) ∈ task.redeclared gen part g) {c : Binding} (hc : c ∈ part.analysis.bindings) :
    Names.Precedes (task.names gen part g) c.name n ↔
      c.name ∈ (task.ahead entry g).names ∨
        Names.Precedes (part.analysis.bindings.map (·.name)) c.name n := by
  cases task with
  | segment => cases hs
  | call c f => cases hs
  | continuation text line calls returns bound =>
    obtain ⟨⟨b, hb, -⟩, hnone, -⟩ := mem_carriedBindings.1 hn
    have hv : n ∉ g.visible part.segment.language := fun h => hnone (List.mem_filter.1 h).1
    rw [names, Language.declarable_python hl, map_fst_carriedBindings hl,
      Names.precedes_append_of_not_mem hv, mem_visible_iff ha hl hc]
    by_cases hcg : c.name ∈ g.names
    · exact iff_of_true (.inl hcg) (.inl hcg)
    · rw [Names.precedes_filter (Globals.not_contains_iff.2 hcg)
        (Globals.not_contains_iff.2 hnone),
        Names.precedes_distinct, Analysis.precedes_namesBefore ha (Analysis.mem_namesBefore hb)]
      rfl
  | code tpl =>
    obtain ⟨-, hnone, hx⟩ := mem_redeclared_code.1 hn
    obtain ⟨pre, text, line, bound, post, hblocks, htpl⟩ :=
      Template.exists_block_of_mem (ht tpl rfl)
    have hctx : (part.context gen).language = part.segment.language := rfl
    rw [hctx] at htpl
    subst htpl
    rw [fallback?_ofCode] at hx
    obtain ⟨b, hb, -⟩ := Option.map_eq_some_iff.1 hx
    have hv : n ∉ entry.visible part.segment.language :=
      fun h => hnone (hg n (List.mem_filter.1 h).1)
    have hnames : (code (Template.ofCode (part.context gen)
        (Template.knownAfter (entry.visible part.segment.language) pre) text line bound)).names
          gen part g =
        Names.extend (entry.visible part.segment.language) (part.analysis.namesBefore line) :=
      (Language.declarable_python hl _ _).trans (Plan.knownAfter_eq ha hp hblocks _)
    rw [hnames, Names.precedes_extend_of_not_mem hv, mem_visible_iff ha hl hc,
      Analysis.precedes_namesBefore ha (Analysis.mem_namesBefore hb)]
    rfl

theorem nodup_names {task : Task} (ht : task.Planned gen part) :
    (task.names gen part g).Nodup := by
  cases task with
  | segment => exact (Globals.nodup_visible g _).filter _
  | call c f => exact (Globals.nodup_visible g _).filter _
  | code t =>
    obtain ⟨g', pre, text, line, bound, post, -, rfl⟩ := ht
    exact (Template.nodup_knownAfter (Globals.nodup_visible g' _) pre).filter _
  | continuation text line calls returns bound =>
    have hcarried : ((Generator.carriedBindings (part.context gen) line bound g).map
        Prod.fst).Nodup := by
      have hbefore : ((part.analysis.bindingsBefore line).map (·.name)).Nodup :=
        Analysis.nodup_latest _
      refine List.Nodup.sublist (List.filter_sublist.map Prod.fst) ?_
      rw [SegmentContext.fallbacks, List.map_map]
      exact hbefore
    refine List.nodup_append.2 ⟨(Globals.nodup_visible g _).filter _, hcarried, ?_⟩
    rintro n hn m hm rfl
    obtain ⟨⟨k, x⟩, hk, rfl⟩ := List.mem_map.1 hm
    obtain ⟨-, hnone, -⟩ := mem_carriedBindings.1 hk
    exact hnone (List.mem_filter.1 (List.mem_filter.1 hn).1).1

theorem exists_labelled {task : Task} {ds es : List (Text × Text)}
    (hd : task.declared? gen part g = .ok (ds, es)) {n x : Text}
    (hn : (n, x) ∈ task.redeclared gen part g) :
    ∃ d, (n, d) ∈ task.labelled gen part g (ds ++ es) ∧ d.2 = x ∧
      (Placeholder.nameAt n = [] ∨ task.isContinuation = true → d.1 = n) := by
  have hmap := map_fst_labelled hd
  cases task with
  | segment => cases hn
  | call c f => cases hn
  | continuation text line calls returns bound =>
    cases hd
    have hlab : (continuation text line calls returns bound).labelled gen part g
        (g.declared part.segment.language bound ++
          Generator.carriedBindings (part.context gen) line bound g) =
        (g.declared part.segment.language bound ++
          Generator.carriedBindings (part.context gen) line bound g).map fun d => (d.1, d) := by
      rw [List.map_prod_right_eq_zip, List.map_append, Globals.map_fst_declared]
      rfl
    refine ⟨(n, x), ?_, rfl, fun _ => rfl⟩
    rw [hlab]
    exact List.mem_map.2 ⟨(n, x), List.mem_append_right _ hn, rfl⟩
  | code t =>
    obtain ⟨hm, rfl⟩ := pairs_of_declared hd
    obtain ⟨hk, hnone, hx⟩ := mem_redeclared_code.1 hn
    have hval : t.valueOf g n = .ok x := by
      rw [Template.valueOf, Globals.value?_eq_none.2 hnone, hx]
    have hk : n ∈ (code t).names gen part g := hk
    rw [← hmap] at hk
    obtain ⟨⟨k, d⟩, hd, he⟩ := List.mem_map.1 hk
    obtain rfl : k = n := he
    have hzip : (k, d) ∈ t.placeholders.zip ds := by
      rw [← List.append_nil ds]
      exact hd
    obtain ⟨hd2, hd1⟩ :=
      Placeholder.exists_fillPair ((List.forall₂_iff_zip.1 (mapM_ok_iff.1 hm)).2 hzip)
    refine ⟨d, hd, Except.ok.inj (hd2.symm.trans hval), ?_⟩
    rintro (hz | hz)
    · rcases hd1 with ⟨-, he⟩ | ⟨hne, -⟩
      · exact he
      · exact absurd hz hne
    · cases hz

end Task

/-- The declaration of a binding stands behind all that the binding may need: the definition
of every function of the segment that its expression calls, and the declarations of all other
names that the segment bound on lines before. -/
structure Piece.InPlace (functions : FunctionTable) (part : Part) (b : Binding)
    (d : Text × Text) (ps : List Piece) : Prop where
  definitions : ∀ f ∈ part.analysis.functions,
    f.name ∈ functions.headsIn part.segment.language b.expression →
      [definition f, declaration b.name d].Sublist ps
  declarations : ∀ c ∈ part.analysis.bindings, c.line < b.line → c.name ≠ b.name →
    ∃ d', [declaration c.name d', declaration b.name d].Sublist ps

/-- The pieces of the unit, given its declarations and its code. -/
def Turn.pieces (gen : Generator) (t : Turn) (u : GuestUnit) (ds : List (Text × Text))
    (body : Text) : List Piece :=
  Piece.arrange t.part.analysis.importSource (t.task.labelled gen t.part t.state.globals ds)
    t.part.analysis.functions body (u.language.postamble u.tracked)

namespace Program
variable {p : Program}

/-- The names of results that the unit declares ahead of what its segment binds: those that
were there when the templates were planned, or for a continuation those that are there. -/
def settled (p : Program) (s : Scheduler) (t : Turn) : List Text :=
  if t.task.isCode then (p.past s (p.arrival s t.part)).seen else t.state.globals.names

theorem Compiled.precedes_iff (h : p.Compiled) {s : Scheduler} {t : Turn} (hm : t ∈ p.turns s)
    (hl : t.part.segment.language = .python) (hs : t.task.isSplit = true) {n x : Text}
    (hn : (n, x) ∈ t.redeclared (Execution.generatorOf p)) {c : Binding}
    (hc : c ∈ t.part.analysis.bindings) :
    Names.Precedes (t.task.names (Execution.generatorOf p) t.part t.state.globals) c.name n ↔
      c.name ∈ p.settled s t ∨
        Names.Precedes (t.part.analysis.bindings.map (·.name)) c.name n := by
  obtain ⟨hp, ht⟩ := planned_of_mem hm
  obtain ⟨first, he, hfirst⟩ := h.exists_arrival s hm
  have hsettled : (t.task.ahead first.state.globals t.state.globals).names = p.settled s t := by
    unfold Task.ahead settled
    split
    · rw [hfirst, History.names_table]
    · rfl
  rw [← hsettled]
  exact Task.precedes_names_iff (h.analyzed _ hp) (h.planned _ hp) hl hs he.planned he.names hn hc

/-- In every run of a compiled program, the unit of a split Python segment is its pieces in
their order, and what it declares again for want of a value it declares from the last binding
before it. That declaration stands behind all that the binding may need exactly if its
expression calls no function of the segment, and each other name that was bound on lines
before is settled or was first bound ahead of it. -/
theorem inPlace_iff {e : Engine} {source : Text} (hc : compile e source = .ok p)
    (s : Scheduler) {t : Turn} (hm : t ∈ p.turns s) {u : GuestUnit}
    (hu : t.unit? (Execution.generatorOf p) = .ok u)
    (hl : t.part.segment.language = .python) (hs : t.task.isSplit = true) :
    ∃ ds es body, t.task.declared? (Execution.generatorOf p) t.part t.state.globals =
        .ok (ds, es) ∧
      u.source = Draft.assemble
        ((t.pieces (Execution.generatorOf p) u (ds ++ es) body).map (Piece.text .python)) ∧
      ∀ n x, (n, x) ∈ t.redeclared (Execution.generatorOf p) → ∃ b d,
        t.part.analysis.lastBefore? u.firstLine n = some b ∧ b.expression = x ∧
        .declaration n d ∈ t.pieces (Execution.generatorOf p) u (ds ++ es) body ∧ d.2 = x ∧
        (Placeholder.nameAt n = [] ∨ t.task.isContinuation = true → d.1 = n) ∧
        (Piece.InPlace p.functions t.part b d
            (t.pieces (Execution.generatorOf p) u (ds ++ es) body) ↔
          (∀ f ∈ t.part.analysis.functions, f.name ∉ p.functions.headsIn .python x) ∧
          ∀ c ∈ t.part.analysis.bindings, c.line < b.line → c.name ≠ n →
            c.name ∈ p.settled s t ∨
              Names.Precedes (t.part.analysis.bindings.map (·.name)) c.name n) := by
  have h := compiled_of_compile hc
  obtain ⟨hp, ht⟩ := planned_of_mem hm
  obtain ⟨ds, es, body, hd, hsource⟩ := h.exists_pieces hp ht hs hu
  have hlang : u.language = .python := by
    rw [Task.language_of_unit ht hu, Task.speaks_of_isSplit hs, hl]
  rw [hlang] at hsource
  refine ⟨ds, es, body, hd, ?_, fun n x hn => ?_⟩
  · rw [Turn.pieces, hlang]
    exact hsource
  obtain ⟨-, -, b, hb, rfl⟩ := bound_of_redeclared ht hu hn
  obtain ⟨d, hlab, hx, hown⟩ := Task.exists_labelled hd hn
  obtain ⟨-, -, rfl⟩ := Analysis.lastBefore?_mem hb
  have hnames := Task.map_fst_labelled hd
  have hnodup : ((t.task.labelled (Execution.generatorOf p) t.part t.state.globals
      (ds ++ es)).map Prod.fst).Nodup := hnames ▸ Task.nodup_names ht
  -- Which declarations stand ahead depends on the order of the names alone.
  have horder : ∀ c ∈ t.part.analysis.bindings,
      (∃ d', [Piece.declaration c.name d', .declaration b.name d].Sublist
        (t.pieces (Execution.generatorOf p) u (ds ++ es) body)) ↔
      c.name ∈ p.settled s t ∨
        Names.Precedes (t.part.analysis.bindings.map (·.name)) c.name b.name := by
    intro c hc
    rw [← h.precedes_iff hm hl hs hn hc, ← hnames]
    exact Piece.sublist_declarations_iff hnodup hlab c.name
  refine ⟨b, d, hb, rfl, Piece.declaration_mem hlab, hx, hown, ?_, ?_⟩
  · rintro ⟨hdefs, hdecls⟩
    refine ⟨fun f hf hcall => ?_, fun c hc hline hne => (horder c hc).1 (hdecls c hc hline hne)⟩
    exact Piece.not_sublist_definition f b.name d (hdefs f hf (hl ▸ hcall))
  · rintro ⟨hcalls, hnamed⟩
    refine ⟨fun f hf hcall => absurd (hl ▸ hcall) (hcalls f hf), fun c hc hline hne => ?_⟩
    exact (horder c hc).2 (hnamed c hc hline hne)

/-- A call without a value, in an expression that calls a function of its own segment too. -/
def mixedSource : Text :=
  "[py]\ndef mk(k):\n    return k\ny = g(1) + mk(2)\nprint(3)\n[js]\nfunction g(a) \x7b\n\x7d"

theorem compile_mixedSource :
    ∃ p part rest f k, compile .standard mixedSource = .ok p ∧ p.parts = part :: rest ∧
      part.segment.language = .python ∧
      part.plan = .split [.call "y = g(1) + mk(2)" 4 [⟨"g", ["1"], 4, 8, 4⟩] ["y"],
        .code "print(3)" 5 []] ["mk"] ∧
      part.analysis.lastBefore? 5 "y" = some ⟨"y", "g(1) + mk(2)", 4⟩ ∧
      p.functions.find? "g" = some f ∧ k ∈ part.analysis.functions ∧ k.name = "mk" ∧
      k.name ∈ p.functions.headsIn .python "g(1) + mk(2)" := by
  have h : (compile .standard mixedSource).toOption.map (fun p => p.parts.head?.any fun part =>
      decide (part.segment.language = .python ∧
        part.plan = .split [.call "y = g(1) + mk(2)" 4 [⟨"g", ["1"], 4, 8, 4⟩] ["y"],
          .code "print(3)" 5 []] ["mk"] ∧
        part.analysis.lastBefore? 5 "y" = some ⟨"y", "g(1) + mk(2)", 4⟩ ∧
        part.analysis.functions.map (·.name) = ["mk".toList] ∧
        (p.functions.find? "g").isSome = true ∧
        p.functions.headsIn .python "g(1) + mk(2)" = ["g".toList, "mk".toList])) = some true := by
    decide +kernel
  obtain ⟨p, hc, h⟩ := exists_of_compile h
  obtain ⟨part, hhead, h⟩ := (Option.any_eq_true _ _).1 h
  obtain ⟨hl, hplan, hlast, hnames, hfound, hheads⟩ := of_decide_eq_true h
  obtain ⟨rest, hp⟩ := List.head?_eq_some_iff.1 hhead
  obtain ⟨k, ks, hfs, hk, -⟩ := List.map_eq_cons_iff.1 hnames
  obtain ⟨f, hf⟩ := Option.isSome_iff_exists.1 hfound
  refine ⟨p, part, rest, f, k, hc, hp, hl, hplan, hlast, hf, hfs ▸ List.mem_cons_self, hk, ?_⟩
  rw [hk, hheads]
  exact List.mem_cons_of_mem _ List.mem_cons_self

/-- The declaration made again stands ahead of the function that it calls. -/
theorem inPlace_iff_mixedSource :
    ∃ p s t u b d ds es body, compile .standard mixedSource = .ok p ∧ t ∈ p.turns s ∧
      t.unit? (Execution.generatorOf p) = .ok u ∧ t.part.segment.language = .python ∧
      t.task.isSplit = true ∧
      ("y".toList, "g(1) + mk(2)".toList) ∈ t.redeclared (Execution.generatorOf p) ∧
      t.part.analysis.lastBefore? u.firstLine "y" = some b ∧
      u.source = Draft.assemble
        ((t.pieces (Execution.generatorOf p) u (ds ++ es) body).map (Piece.text .python)) ∧
      .declaration "y" d ∈ t.pieces (Execution.generatorOf p) u (ds ++ es) body ∧
      ¬ Piece.InPlace p.functions t.part b d
        (t.pieces (Execution.generatorOf p) u (ds ++ es) body) := by
  obtain ⟨p, part, rest, f, k, hc, hp, hl, hplan, hlast, hf, hk, hkname, hcall⟩ :=
    compile_mixedSource
  have hq := (Execution.quiet_opening p (.start .standard .bare [])).trans
    (Execution.quiet_enterPart part _)
  have hfound : (Execution.generatorOf p).functions.find? "g" = some f := hf
  obtain ⟨hr, hg⟩ := runCall_bare part.segment.language (c := ⟨"g", ["1"], 4, 8, 4⟩) hfound hq
  obtain ⟨st, hturn, hst⟩ := exists_turn_after_call hp hplan hf hr
  have hvisible : Globals.visible (Execution.enterPart (Execution.opening p
      (.start .standard .bare [])) part).globals part.segment.language = [] := by
    rw [hq.globals]
    rfl
  rw [hvisible] at hturn
  generalize htpl : Template.ofCode (part.context (Execution.generatorOf p))
    (Names.extend [] ["y"]) "print(3)" 5 [] = tpl at hturn
  have hctx : (part.context (Execution.generatorOf p)).language = .python := hl
  have hnames : tpl.placeholders = ["y"] := by
    rw [← htpl, Template.ofCode, hctx]
    rfl
  have hfall : tpl.fallback? "y" = some "g(1) + mk(2)" := by
    rw [← htpl, Task.fallback?_ofCode, hlast]
    rfl
  have hsound : tpl.Sound := htpl ▸ ⟨rfl, rfl⟩
  have hnone : "y".toList ∉ Catalog.names st.globals := by
    rw [hst, hg]
    exact List.not_mem_nil
  obtain ⟨u, hu⟩ := exists_fill_of_fallback hsound hnames (by decide +kernel)
    (by decide +kernel) hnone hfall
  have hline : u.firstLine = 5 := (unit_of_fill hu).2.trans (htpl ▸ rfl)
  have hm : (⟨part, .code tpl, st⟩ : Turn) ∈ p.turns (.start .standard .bare []) :=
    List.mem_of_getElem? hturn
  have hredeclared : ("y".toList, "g(1) + mk(2)".toList) ∈
      (⟨part, .code tpl, st⟩ : Turn).redeclared (Execution.generatorOf p) :=
    Task.mem_redeclared_code.2 ⟨hnames ▸ List.mem_cons_self, hnone, hfall⟩
  obtain ⟨ds, es, body, -, hsource, hall⟩ := inPlace_iff hc _ hm hu hl rfl
  obtain ⟨b, d, hb, -, hpiece, -, -, hiff⟩ := hall _ _ hredeclared
  refine ⟨p, _, _, u, b, d, ds, es, body, hc, hm, hu, hl, rfl, hredeclared, hb, hsource, hpiece,
    fun hplace => ?_⟩
  exact (hiff.1 hplace).1 k hk hcall

end Program
end Polyglot
