import Polyglot.Proofs.Program.Compiled
import Polyglot.Proofs.Unit.Tracking

/-!
# Filling late

A template is filled by scanning its text, and that comes to a declaration for each of
its placeholders, in order, each with its own value. The declared name is the
placeholder's own unless it reads as a placeholder itself: the scan then takes it for
one, and puts in its place the value that it seems to ask for.
-/
namespace Polyglot
open Placeholder (IsWord nameAt spelled fillPair declareLines)

namespace Template

/-- The name can be looked up: it has a value, or the segment bound it. -/
def Has (t : Template) (g : Globals) (n : Text) : Prop :=
  (∃ v, g.value? n = some v) ∨ ∃ x, t.fallback? n = some x

/-- The declaration `d`, a name with the text of its value, that filling makes of the
placeholder `n`. -/
def Declares (t : Template) (g : Globals) (n : Text) (d : Text × Text) : Prop :=
  t.valueOf g n = .ok d.2 ∧
    (nameAt n = [] ∧ d.1 = n ∨ nameAt n ≠ [] ∧ t.valueOf g (nameAt n) = .ok d.1)

variable {t : Template} {g : Globals}

theorem has_iff {n : Text} : t.Has g n ↔ ∃ x, t.valueOf g n = .ok x := by
  unfold Has valueOf
  cases hv : g.value? n with
  | some v => exact ⟨fun _ => ⟨_, rfl⟩, fun _ => .inl ⟨v, rfl⟩⟩
  | none =>
    cases hx : t.fallback? n with
    | some x => exact ⟨fun _ => ⟨x, rfl⟩, fun _ => .inr ⟨x, rfl⟩⟩
    | none =>
      constructor
      · rintro (⟨v, hv⟩ | ⟨x, hx⟩)
        · cases hv
        · cases hx
      · rintro ⟨x, hx⟩
        cases hx

theorem declares_iff {n : Text} {d : Text × Text} :
    t.Declares g n d ↔ fillPair (t.valueOf g) n = .ok d := by
  refine ⟨?_, Placeholder.exists_fillPair⟩
  rintro ⟨hv, ⟨hn, hd⟩ | ⟨hn, hd⟩⟩
  · rw [fillPair, Placeholder.spelled_plain _ hn, hv, ← hd]
    rfl
  · rw [fillPair, spelled, if_neg hn, hd, hv]
    rfl

theorem fill_iff (hs : t.Sound) (hw : ∀ n ∈ t.placeholders, IsWord n) (u : GuestUnit) :
    t.fill g = .ok u ↔ ∃ ds, List.Forall₂ (t.Declares g) t.placeholders ds ∧
      u = (t.draft (declareLines t.language ds)).unit t.language .segment t.tracked
        t.firstLine := by
  have hd : ∀ ds, List.Forall₂ (t.Declares g) t.placeholders ds ↔
      t.placeholders.mapM (fillPair (t.valueOf g)) = .ok ds := by
    intro ds
    have he : t.Declares g = fun n d => fillPair (t.valueOf g) n = .ok d := by
      funext n d
      exact propext declares_iff
    rw [mapM_ok_iff, he]
  simp only [hd]
  rw [fill, hs.preamble, Placeholder.fill_declareAll _ _ hw]
  cases t.placeholders.mapM (fillPair (t.valueOf g)) with
  | error e =>
    constructor
    · intro h
      cases h
    · rintro ⟨ds, hds, -⟩
      cases hds
  | ok ds =>
    constructor
    · intro h
      cases h
      exact ⟨ds, rfl, rfl⟩
    · rintro ⟨ds', hds, rfl⟩
      cases hds
      rfl

theorem exists_declares_iff {n : Text} (hv : t.Has g n) :
    (∃ d, t.Declares g n d) ↔ (nameAt n ≠ [] → t.Has g (nameAt n)) := by
  obtain ⟨x, hx⟩ := has_iff.1 hv
  constructor
  · rintro ⟨d, -, ⟨hn, -⟩ | ⟨-, hd⟩⟩ hne
    · exact absurd hn hne
    · exact has_iff.2 ⟨d.1, hd⟩
  · intro h
    by_cases hn : nameAt n = []
    · exact ⟨(n, x), hx, .inl ⟨hn, rfl⟩⟩
    · obtain ⟨y, hy⟩ := has_iff.1 (h hn)
      exact ⟨(y, x), hx, .inr ⟨hn, hy⟩⟩

theorem exists_forall₂_iff {ns : List Text} (hv : ∀ n ∈ ns, t.Has g n) :
    (∃ ds, List.Forall₂ (t.Declares g) ns ds) ↔
      ∀ n ∈ ns, nameAt n ≠ [] → t.Has g (nameAt n) := by
  induction ns with
  | nil => exact ⟨fun _ _ hn => (nomatch hn), fun _ => ⟨[], .nil⟩⟩
  | cons n r ih =>
    have hr := ih fun m hm => hv m (List.mem_cons_of_mem n hm)
    have hn := exists_declares_iff (hv n List.mem_cons_self)
    rw [List.forall_mem_cons, ← hr, ← hn]
    constructor
    · rintro ⟨ds, hds⟩
      obtain ⟨d, rest, hd, hrest, rfl⟩ := List.forall₂_cons_left_iff.1 hds
      exact ⟨⟨d, hd⟩, rest, hrest⟩
    · rintro ⟨⟨d, hd⟩, rest, hrest⟩
      exact ⟨d :: rest, .cons hd hrest⟩

theorem own_name_iff {n : Text} {d : Text × Text} (h : t.Declares g n d) :
    d.1 = n ↔ (nameAt n ≠ [] → t.valueOf g (nameAt n) = .ok n) := by
  obtain ⟨-, ⟨hn, hd⟩ | ⟨hn, hd⟩⟩ := h
  · exact ⟨fun _ hne => absurd hn hne, fun _ => hd⟩
  · constructor
    · exact fun he _ => he ▸ hd
    · exact fun hx => Except.ok.inj (hd.symm.trans (hx hn))

theorem own_names_iff {ns : List Text} {ds : List (Text × Text)}
    (h : List.Forall₂ (t.Declares g) ns ds) :
    ds.map Prod.fst = ns ↔ ∀ n ∈ ns, nameAt n ≠ [] → t.valueOf g (nameAt n) = .ok n := by
  induction h with
  | nil => exact ⟨fun _ _ hn => (nomatch hn), fun _ => rfl⟩
  | cons hd _ ih => rw [List.map_cons, List.cons.injEq, List.forall_mem_cons, ih, own_name_iff hd]

theorem declareLines_of_values {ns : List Text} {ds : List (Text × Text)}
    (h : List.Forall₂ (t.Declares g) ns ds) (hg : ∀ n ∈ ns, n ∈ g.names)
    (hn : ds.map Prod.fst = ns) :
    declareLines t.language ds = t.language.declareAll (g.rendered t.language) ns := by
  suffices hp : ds = ns.map fun n => (n, g.rendered t.language n) by
    rw [hp, declareLines, List.map_map]
    rfl
  induction h with
  | nil => rfl
  | @cons n d ns ds hd _ ih =>
    rw [List.map_cons, List.cons.injEq] at hn
    rw [List.forall_mem_cons] at hg
    obtain ⟨v, hv⟩ := Option.isSome_iff_exists.1 (Globals.value?_isSome.2 hg.1)
    have hx : d.2 = g.rendered t.language n := by
      have hok := hd.1
      rw [valueOf, hv] at hok
      rw [Globals.rendered, hv]
      exact (Except.ok.inj hok).symm
    rw [List.map_cons, ← ih hg.2 hn.2, ← hx, ← hn.1]

/-- What filling a planned template comes to, where each placeholder has a value or a
fallback: a declaration for each of them, with its own value, under its own name unless
that reads as a placeholder. It fails only for want of a name that such a name asks for. -/
theorem fill_iff_of_mem_plan {ctx : SegmentContext} {blocks : List Block} {g₀ : Globals}
    (hb : ∀ b ∈ blocks, ∀ n ∈ b.bound, IsWord n) {t : Template}
    (ht : some t ∈ plan ctx blocks g₀) {g : Globals} (hv : ∀ n ∈ t.placeholders, t.Has g n) :
    (∀ u, t.fill g = .ok u ↔ ∃ ds, List.Forall₂ (t.Declares g) t.placeholders ds ∧
      u = (t.draft (declareLines t.language ds)).unit t.language .segment t.tracked
        t.firstLine) ∧
    ((∃ u, t.fill g = .ok u) ↔
      ∀ n ∈ t.placeholders, nameAt n ≠ [] → t.Has g (nameAt n)) ∧
    ∀ ds, List.Forall₂ (t.Declares g) t.placeholders ds →
      (ds.map Prod.fst = t.placeholders ↔
        ∀ n ∈ t.placeholders, nameAt n ≠ [] → t.valueOf g (nameAt n) = .ok n) ∧
      ((∀ n ∈ t.placeholders, n ∈ g.names) → ds.map Prod.fst = t.placeholders →
        declareLines t.language ds =
          t.language.declareAll (g.rendered t.language) t.placeholders) := by
  obtain ⟨pre, text, line, bound, post, rfl, rfl⟩ := exists_block_of_mem ht
  have hw : ∀ n ∈ (ofCode ctx (knownAfter (g₀.visible ctx.language) pre) text line
      bound).placeholders, IsWord n :=
    isWord_of_placeholder fun b hm => hb b (List.mem_append_left _ hm)
  have hfill := fill_iff (g := g) ⟨rfl, rfl⟩ hw
  refine ⟨hfill, ?_, fun ds hds => ⟨own_names_iff hds, declareLines_of_values hds⟩⟩
  rw [← exists_forall₂_iff hv]
  simp only [hfill]
  exact ⟨fun ⟨u, ds, hds, _⟩ => ⟨ds, hds⟩, fun ⟨ds, hds⟩ => ⟨_, ds, hds, rfl⟩⟩

/-- A name that reads as the placeholder of another one. -/
def markedSource : Text :=
  "[py]\ndef g(n):\n    return n\n[js]\nlet a = 7\nlet PLACEHOLDER_a = 1\ng(1)\nconsole.log(2)"

theorem compile_markedSource :
    ∃ p part, Program.compile .standard markedSource = .ok p ∧ part ∈ p.parts ∧
      part.segment.language = .javascript ∧
      part.plan.blocks = [.code "let a = 7\nlet PLACEHOLDER_a = 1" 5 ["a", "PLACEHOLDER_a"],
        .call "g(1)" 7 [⟨"g", ["1"], 0, 4, 7⟩] [], .code "console.log(2)" 8 []] := by
  have h : (Program.compile .standard markedSource).toOption.map (fun p =>
      p.parts.any fun part => decide (part.segment.language = .javascript ∧
        part.plan.blocks = [.code "let a = 7\nlet PLACEHOLDER_a = 1" 5 ["a", "PLACEHOLDER_a"],
          .call "g(1)" 7 [⟨"g", ["1"], 0, 4, 7⟩] [], .code "console.log(2)" 8 []])) =
      some true := by
    decide +kernel
  obtain ⟨p, hc, h⟩ := Program.exists_of_compile h
  obtain ⟨part, hp, h⟩ := List.any_eq_true.1 h
  obtain ⟨hl, hb⟩ := of_decide_eq_true h
  exact ⟨p, part, hc, hp, hl, hb⟩

/-- The results of the program before its last block. -/
def markedGlobals : Globals :=
  (Catalog.empty.put ("a".toList, Value.number "7")).put ("PLACEHOLDER_a".toList, Value.number "1")

theorem fill_iff_of_mem_plan_markedSource :
    ∃ p part t u ds, Program.compile .standard markedSource = .ok p ∧ part ∈ p.parts ∧
      some t ∈ plan (part.context (Execution.generatorOf p)) part.plan.blocks Catalog.empty ∧
      (∀ n ∈ t.placeholders, t.Has markedGlobals n) ∧ t.fill markedGlobals = .ok u ∧
      u = (t.draft (declareLines t.language ds)).unit t.language .segment t.tracked
        t.firstLine ∧
      List.Forall₂ (t.Declares markedGlobals) t.placeholders ds ∧
      ds.map Prod.fst ≠ t.placeholders := by
  obtain ⟨p, part, hc, hp, hl, hblocks⟩ := compile_markedSource
  have hcp := Program.compiled_of_compile hc
  have hctx : (part.context (Execution.generatorOf p)).language = .javascript := hl
  have ht : some (ofCode (part.context (Execution.generatorOf p))
      (Names.extend (Names.extend [] ["a", "PLACEHOLDER_a"]) []) "console.log(2)" 8 []) ∈
      plan (part.context (Execution.generatorOf p)) part.plan.blocks Catalog.empty := by
    rw [hblocks]
    exact List.mem_cons_of_mem _ (List.mem_cons_of_mem _ List.mem_cons_self)
  generalize htpl : ofCode (part.context (Execution.generatorOf p))
    (Names.extend (Names.extend [] ["a", "PLACEHOLDER_a"]) []) "console.log(2)" 8 [] = t at ht
  have hnames : t.placeholders = ["a".toList, "PLACEHOLDER_a".toList] := by
    have hdec : Language.javascript.declarable []
        (Names.extend (Names.extend [] ["a", "PLACEHOLDER_a"]) []) =
        ["a".toList, "PLACEHOLDER_a".toList] := by
      decide +kernel
    rw [← htpl, ofCode, hctx]
    exact hdec
  have hlang : t.language = .javascript := by rw [← htpl]; exact hctx
  have ha : markedGlobals.value? "a" = some (.number "7") := rfl
  have hv : ∀ n ∈ t.placeholders, t.Has markedGlobals n := by
    rw [hnames]
    intro n hn
    rcases List.mem_cons.1 hn with rfl | hn
    · exact .inl ⟨_, ha⟩
    · rw [List.mem_singleton.1 hn]
      exact .inl ⟨.number "1", rfl⟩
  have hb : ∀ b ∈ part.plan.blocks, ∀ n ∈ b.bound, IsWord n := fun b hb n hn =>
    Plan.isWord_of_bound (hcp.analyzed part hp) (hcp.planned part hp) hb hn
  obtain ⟨hfill, hex, hds⟩ := fill_iff_of_mem_plan hb ht hv
  have hmark : nameAt "PLACEHOLDER_a" = "a".toList := by decide +kernel
  have hplain : nameAt "a" = [] := by decide +kernel
  obtain ⟨u, hu⟩ := hex.2 fun n hn _ => by
    rw [hnames] at hn
    rcases List.mem_cons.1 hn with rfl | hn
    · exact absurd hplain ‹_›
    · rw [List.mem_singleton.1 hn, hmark]
      exact .inl ⟨_, ha⟩
  obtain ⟨ds, hd, hdraft⟩ := (hfill u).1 hu
  refine ⟨p, part, t, u, ds, hc, hp, ht, hv, hu, hdraft, hd, fun he => ?_⟩
  have hown := ((hds ds hd).1.1 he) "PLACEHOLDER_a"
    (hnames ▸ List.mem_cons_of_mem _ List.mem_cons_self) (by rw [hmark]; exact nofun)
  rw [hmark, valueOf, ha, hlang] at hown
  have hne : (Value.number "7").render .javascript ≠ "PLACEHOLDER_a".toList := by decide +kernel
  exact hne (Except.ok.inj hown)

end Template
end Polyglot
