import Polyglot.Proofs.Plan.Groups
import Polyglot.Proofs.Program.Compiled
import Polyglot.Proofs.Token.Span

/-!
# Splitting loses and repeats no code

Main statement: in a compiled program, the imports, the functions and the blocks of a
split segment share its live lines among them, each line going to one of them.
-/
namespace Polyglot

theorem countP_mem_of_nodup {α β : Type} [DecidableEq α] {gs : List (β × List α)}
    (h : (gs.flatMap Prod.snd).Nodup) (x : α) :
    gs.countP (fun g => decide (x ∈ g.2)) = if x ∈ gs.flatMap Prod.snd then 1 else 0 := by
  induction gs with
  | nil => rfl
  | cons g r ih =>
    rw [List.flatMap_cons, List.nodup_append] at h
    obtain ⟨-, hr, hd⟩ := h
    rw [List.flatMap_cons, List.countP_cons, ih hr]
    by_cases hg : x ∈ g.2
    · have hx : x ∉ r.flatMap Prod.snd := fun hx => hd x hg x hx rfl
      rw [if_neg hx, if_pos (decide_eq_true hg), if_pos (List.mem_append_left _ hg)]
    · have hm : x ∈ g.2 ++ r.flatMap Prod.snd ↔ x ∈ r.flatMap Prod.snd := by
        simp [hg]
      simp only [hg, hm, decide_false, Bool.false_eq_true, if_false, Nat.add_zero]

namespace Plan

/-- The blocks `gs`, each with its lines, divide up a segment together with its imports
and the functions `fs`. -/
structure Partition (s : Segment) (a : Analysis) (fs : List FunctionDef) (own : List Text)
    (gs : List (Block × List Line)) : Prop where
  lines : a.lines.map Prod.fst = s.lines
  holds : ∀ g ∈ gs, g.1.MadeOf a g.2
  once : ∀ p ∈ a.lines, Token.isDead p.1.tokens = false →
    a.imports.countP (·.line == p.1.number) + fs.countP (FunctionDef.covers p.1.number) +
      gs.countP (fun g => decide (p.1 ∈ g.2)) = 1
  own : ∀ f ∈ fs, f.name ∈ own
  sublist : (gs.flatMap fun g => Text.splitOn '\n' g.1.text).Sublist
    ((keptLines s.language a.lines).map (·.text))
  solid : (gs.flatMap fun g => Text.splitOn '\n' g.1.text).filter (!Text.allBlank ·) =
    ((keptLines s.language a.lines).map (·.text)).filter (!Text.allBlank ·)
  increasing : gs.Pairwise fun g g' => g.1.firstLine < g'.1.firstLine
  apart : (gs.map Prod.fst).IsChain fun b c => b.isCall = true ∨ c.isCall = true
  calls : ∀ g ∈ gs, g.1.isCall = true → g.1.calls ≠ []
  bound : ∀ n, n ∈ a.bound ↔ ∃ g ∈ gs, n ∈ g.1.bound

variable {s : Segment} {a : Analysis}

theorem not_isBlank_of_live {x : Line} (hx : x ∈ s.lines) (hl : Token.isDead x.tokens = false) :
    x.isBlank = false := by
  cases hb : x.isBlank with
  | false => rfl
  | true =>
    rw [Segment.tokens_of_mem hx, Token.tokenize,
      Token.scan_only_blanks (List.all_eq_true.1 hb)] at hl
    cases hl

theorem mem_keptLines (ha : Analysis.ofSegment s = .ok a) {p : Line × Role} (hp : p ∈ a.lines) :
    p.1 ∈ keptLines s.language a.lines ↔ keeps s.language p = true := by
  rw [keptLines, List.mem_map]
  constructor
  · rintro ⟨q, hq, he⟩
    obtain ⟨hq, hk⟩ := List.mem_filter.1 hq
    rw [← Analysis.eq_of_number ha hq hp (congrArg Line.number he)]
    exact hk
  · exact fun hk => ⟨p, List.mem_filter.2 ⟨hp, hk⟩, rfl⟩

theorem pairwise_keptLines (ha : Analysis.ofSegment s = .ok a) :
    (keptLines s.language a.lines).Pairwise fun x z => x.number < z.number := by
  rw [keptLines, List.pairwise_map]
  exact (Analysis.pairwise_lines ha).sublist List.filter_sublist

theorem flatMap_splitOn {gs : List (Block × List Line)} (hh : ∀ g ∈ gs, g.1.MadeOf a g.2)
    (hl : ∀ g ∈ gs, ∀ x ∈ g.2, '\n' ∉ x.text) :
    (gs.flatMap fun g => Text.splitOn '\n' g.1.text) =
      (gs.flatMap Prod.snd).map (·.text) := by
  rw [List.map_flatMap]
  exact List.flatMap_congr fun g hg => (hh g hg).splitOn_text (hl g hg)

theorem pairwise_firstLine {gs : List (Block × List Line)} (hh : ∀ g ∈ gs, g.1.MadeOf a g.2)
    (ho : (gs.flatMap Prod.snd).Pairwise fun x z => x.number < z.number) :
    gs.Pairwise fun g g' => g.1.firstLine < g'.1.firstLine := by
  refine (List.pairwise_flatMap.1 ho).2.imp_of_mem fun {g g'} hm hm' hlt => ?_
  obtain ⟨x, hx, hf⟩ := (hh g hm).exists_first
  obtain ⟨z, hz, hf'⟩ := (hh g' hm').exists_first
  rw [hf, hf']
  exact hlt x hx z hz

theorem pairwise_blocks {functions : FunctionTable} {plan : Plan}
    (ha : Analysis.ofSegment s = .ok a) (h : ofSegment functions s a = .ok plan) :
    plan.blocks.Pairwise fun b c => b.firstLine < c.firstLine := by
  obtain ⟨blocks, hf, rfl⟩ := exists_blocksFrom h
  obtain ⟨gs, rfl, hh, ht⟩ := (cut_of_blocksFrom hf).exists_groups
  have hp := pairwise_firstLine hh ((pairwise_keptLines ha).sublist ht.sublist)
  unfold ofBlocks
  split
  · exact List.pairwise_map.2 hp
  · exact List.Pairwise.nil

theorem exists_binding_before {functions : FunctionTable} {plan : Plan}
    (ha : Analysis.ofSegment s = .ok a) (h : ofSegment functions s a = .ok plan)
    {pre post : List Block} {b c : Block} (hs : plan.blocks = pre ++ c :: post) (hb : b ∈ pre)
    {n : Text} (hn : n ∈ b.bound) : ∃ e ∈ a.bindings, e.line < c.firstLine ∧ e.name = n := by
  obtain ⟨blocks, hf, rfl⟩ := exists_blocksFrom h
  obtain ⟨gs, rfl, hh, ht⟩ := (cut_of_blocksFrom hf).exists_groups
  have ho := (pairwise_keptLines ha).sublist ht.sublist
  rw [ofBlocks] at hs
  split at hs
  · obtain ⟨gpre, rest, rfl, rfl, hrest⟩ := List.map_eq_append_iff.1 hs
    obtain ⟨g, gpost, rfl, rfl, -⟩ := List.map_eq_cons_iff.1 hrest
    obtain ⟨k, hk, rfl⟩ := List.mem_map.1 hb
    obtain ⟨e, he, hen, x, hx, hle⟩ :=
      (hh k (List.mem_append_left _ hk)).exists_line_of_bound hn
    obtain ⟨z, hz, hfirst⟩ := (hh g (List.mem_append_right _ List.mem_cons_self)).exists_first
    rw [List.flatMap_append, List.pairwise_append] at ho
    have hlt := ho.2.2 x (List.mem_flatMap.2 ⟨k, hk, hx⟩) z
      (List.mem_flatMap.2 ⟨g, List.mem_cons_self, hz⟩)
    exact ⟨e, he, by rw [hfirst]; omega, hen⟩
  · exact absurd hs.symm (by simp [blocks])

theorem exists_grouped_line (ha : Analysis.ofSegment s = .ok a) {gs : List (Block × List Line)}
    (ht : Thinned (gs.flatMap Prod.snd) (keptLines s.language a.lines)) {b : Binding}
    (hb : b ∈ a.bindings) : ∃ g ∈ gs, ∃ x ∈ g.2, b.line = x.number := by
  obtain ⟨p, hm, hr, hi, hl, hplace⟩ := Analysis.exists_line_of_binding ha hb
  have hline := Analysis.mem_lines_of_mem ha hm
  have hlive : Token.isDead p.1.tokens = false := by
    rw [Segment.tokens_of_mem hline]
    exact Analysis.live_of_placed hplace
  have hk : keeps s.language p = true := by
    rw [keeps, hi, hr]
    rfl
  have hx := ht.mem ((mem_keptLines ha hm).2 hk) (not_isBlank_of_live hline hlive)
  obtain ⟨g, hgm, hx⟩ := List.mem_flatMap.1 hx
  exact ⟨g, hgm, p.1, hx, hl⟩

theorem exists_group_of_binding (ha : Analysis.ofSegment s = .ok a) {gs : List (Block × List Line)}
    (hh : ∀ g ∈ gs, g.1.MadeOf a g.2)
    (ht : Thinned (gs.flatMap Prod.snd) (keptLines s.language a.lines)) {b : Binding}
    (hb : b ∈ a.bindings) : ∃ g ∈ gs, b.name ∈ g.1.bound ∧ g.1.firstLine ≤ b.line := by
  obtain ⟨g, hg, x, hx, hl⟩ := exists_grouped_line ha ht hb
  have ho := (List.pairwise_flatMap.1 ((pairwise_keptLines ha).sublist ht.sublist)).1 g hg
  exact ⟨g, hg, (hh g hg).mem_bound ho hb hx hl, hl ▸ (hh g hg).firstLine_le ho hx⟩

theorem exists_block_of_binding {functions : FunctionTable} {plan : Plan}
    (ha : Analysis.ofSegment s = .ok a) (h : ofSegment functions s a = .ok plan) {c : Block}
    (hc : c ∈ plan.blocks) {b : Binding} (hb : b ∈ a.bindings) :
    ∃ k ∈ plan.blocks, b.name ∈ k.bound ∧ k.firstLine ≤ b.line := by
  obtain ⟨blocks, hf, rfl⟩ := exists_blocksFrom h
  obtain ⟨gs, rfl, hh, ht⟩ := (cut_of_blocksFrom hf).exists_groups
  obtain ⟨g, hg, hbound, hfirst⟩ := exists_group_of_binding ha hh ht hb
  refine ⟨g.1, ?_, hbound, hfirst⟩
  rw [ofBlocks] at hc ⊢
  split at hc
  · next hcall =>
    rw [if_pos hcall]
    exact List.mem_map_of_mem hg
  · cases hc

theorem firstLine_mem_range {functions : FunctionTable} {plan : Plan}
    (ha : Analysis.ofSegment s = .ok a) (h : ofSegment functions s a = .ok plan) {b : Block}
    (hb : b ∈ plan.blocks) : s.firstLine ≤ b.firstLine ∧ b.firstLine < s.stop := by
  obtain ⟨blocks, hf, rfl⟩ := exists_blocksFrom h
  obtain ⟨gs, rfl, hh, ht⟩ := (cut_of_blocksFrom hf).exists_groups
  obtain ⟨g, hg, rfl⟩ := List.mem_map.1 (blocks_ofBlocks hb)
  obtain ⟨x, hx, hfirst⟩ := (hh g hg).exists_first
  have hk := ht.sublist.subset (List.mem_flatMap.2 ⟨g, hg, hx⟩)
  obtain ⟨p, hp, rfl⟩ := List.mem_map.1 hk
  have hn := List.mem_map_of_mem (f := (·.1.number)) (List.mem_filter.1 hp).1
  have hl : a.lines.length = s.lines.length := by
    rw [← Analysis.map_fst_lines ha, List.length_map]
  rw [Analysis.numbers ha, List.mem_range'_1, hl] at hn
  rw [hfirst]
  exact hn

theorem countP_once (ha : Analysis.ofSegment s = .ok a) {gs : List (Block × List Line)}
    (ht : Thinned (gs.flatMap Prod.snd) (keptLines s.language a.lines)) {p : Line × Role}
    (hp : p ∈ a.lines) (hl : Token.isDead p.1.tokens = false) :
    a.imports.countP (·.line == p.1.number) +
      a.functions.countP (FunctionDef.covers p.1.number) +
      gs.countP (fun g => decide (p.1 ∈ g.2)) = 1 := by
  have hd : (gs.flatMap Prod.snd).Nodup := by
    refine ((pairwise_keptLines ha).sublist ht.sublist).imp fun h e => ?_
    rw [e] at h
    exact Nat.lt_irrefl _ h
  have hb := not_isBlank_of_live (Analysis.mem_lines_of_mem ha hp) hl
  have hm : p.1 ∈ gs.flatMap Prod.snd ↔ keeps s.language p = true := by
    rw [← mem_keptLines ha hp]
    exact ⟨fun h => ht.sublist.subset h, fun h => ht.mem h hb⟩
  rw [Analysis.countP_imports ha hp, Analysis.countP_functions ha hp hl,
    countP_mem_of_nodup hd]
  simp only [hm, keeps]
  cases hi : Analysis.isImport s.language p with
  | true =>
    have hr : p.2 = .topLevel := by
      simp only [Analysis.isImport, Bool.and_eq_true, beq_iff_eq] at hi
      exact hi.1
    simp [hr]
  | false => by_cases hr : p.2 = .inFunction <;> simp [hr]

/-- What the blocks of a segment are, given that the functions of the table for the
segment are those of its analysis. -/
theorem partition_of_blocksFrom (ha : Analysis.ofSegment s = .ok a) {functions : FunctionTable}
    {blocks : List Block}
    (h : blocksFrom s.language functions (a.functions.map (·.name)) a [] a.lines = .ok blocks) :
    ∃ gs, gs.map Prod.fst = blocks ∧
      Partition s a a.functions (a.functions.map (·.name)) gs := by
  obtain ⟨gs, hg, hh, ht⟩ := (cut_of_blocksFrom h).exists_groups
  rw [List.nil_append] at ht
  have hp := (pairwise_keptLines ha).sublist ht.sublist
  have hkept : ∀ x ∈ keptLines s.language a.lines, ∃ p ∈ a.lines, p.1 = x := by
    intro x hx
    obtain ⟨p, hm, he⟩ := List.mem_map.1 hx
    exact ⟨p, (List.mem_filter.1 hm).1, he⟩
  have hfeed : ∀ g ∈ gs, ∀ x ∈ g.2, '\n' ∉ x.text := by
    intro g hgm x hx
    obtain ⟨p, hm, rfl⟩ := hkept x (ht.sublist.subset (List.mem_flatMap.2 ⟨g, hgm, hx⟩))
    exact Segment.feed_not_mem (Analysis.mem_lines_of_mem ha hm)
  have htext := flatMap_splitOn hh hfeed
  refine ⟨gs, hg, Analysis.map_fst_lines ha, hh, fun p hm hl => countP_once ha ht hm hl,
    fun f hf => List.mem_map_of_mem hf, ?_, ?_, ?_, ?_, fun g hm hc => (hh g hm).calls_ne_nil hc,
    fun n => ⟨fun hn => ?_, ?_⟩⟩
  · rw [htext]
    exact ht.sublist.map _
  · rw [htext, List.filter_map, List.filter_map]
    exact congrArg (List.map (·.text)) ht.solid
  · exact pairwise_firstLine hh hp
  · rw [hg]
    exact (cut_of_blocksFrom h).isChain
  · obtain ⟨b, hb, rfl⟩ := List.mem_map.1 (Names.mem_distinct.1 hn)
    obtain ⟨g, hgm, hbound, -⟩ := exists_group_of_binding ha hh ht hb
    exact ⟨g, hgm, hbound⟩
  · rintro ⟨g, hgm, hn⟩
    obtain ⟨b, hb, -, rfl⟩ := (hh g hgm).exists_binding hn
    exact Names.mem_distinct.2 (List.mem_map_of_mem hb)

end Plan

namespace Program

theorem exists_partition {e : Engine} {source : Text} {p : Program}
    (hc : compile e source = .ok p) {part : Part} (hp : part ∈ p.parts) {blocks : List Block}
    {own : List Text} (hs : part.plan = .split blocks own) :
    ∃ gs, gs.map Prod.fst = blocks ∧
      Plan.Partition part.segment part.analysis
        (FunctionTable.inSegment p.functions part.segment.ordinal) own gs := by
  have hcp := compiled_of_compile hc
  obtain ⟨bs, hb, hplan⟩ := Plan.exists_blocksFrom (hcp.planned part hp)
  rw [Plan.ownNames, hcp.inSegment hp] at hb hplan
  rw [hs, Plan.ofBlocks] at hplan
  split at hplan
  · cases hplan
    rw [hcp.inSegment hp]
    exact Plan.partition_of_blocksFrom (hcp.analyzed part hp) hb
  · cases hplan

/-- A function, code before a call, the call, and code after it. -/
def callingSource : Text :=
  "[py]\ndef g(a):\n    return a\n[js]\nfunction h() \x7b\n  return 1\n\x7d\nlet y = 1\n\nlet z = g(y)\nh()"

theorem exists_partition_callingSource :
    ∃ p part blocks own, compile .standard callingSource = .ok p ∧ part ∈ p.parts ∧
      part.plan = .split blocks own ∧ blocks.map Block.firstLine = [8, 10, 11] ∧
      ∃ gs, gs.map Prod.fst = blocks ∧
        Plan.Partition part.segment part.analysis
          (FunctionTable.inSegment p.functions part.segment.ordinal) own gs := by
  have h : (compile .standard callingSource).toOption.map (fun p =>
      p.parts.map fun part => part.plan.blocks.map Block.firstLine) = some [[], [8, 10, 11]] := by
    decide +kernel
  cases hc : compile .standard callingSource with
  | error e => rw [hc] at h; cases h
  | ok p =>
    rw [hc] at h
    have h : (p.parts.map fun part => part.plan.blocks.map Block.firstLine) =
      [[], [8, 10, 11]] := Option.some.inj h
    have hm : [8, 10, 11] ∈ p.parts.map fun part => part.plan.blocks.map Block.firstLine :=
      h ▸ List.mem_cons_of_mem _ List.mem_cons_self
    obtain ⟨part, hp, hf⟩ := List.mem_map.1 hm
    cases hs : part.plan with
    | simple => rw [hs] at hf; cases hf
    | split blocks own =>
      rw [hs] at hf
      exact ⟨p, part, blocks, own, rfl, hp, hs, hf, exists_partition hc hp hs⟩

end Program
end Polyglot
