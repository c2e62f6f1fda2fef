import Polyglot.Proofs.Plan.Admitting
import Polyglot.Proofs.Program.Compiled
import Polyglot.Proofs.Unit.Invocation

/-!
# Calls that compile

A compound statement that is written on one line is, for the plan, a line like any
other. If it stands at the top level and leaves no block open, its calls are taken out of
it and made before it runs, whatever its condition. And the last stage counts the
arguments of the outermost calls, on every line that is not an import. What stands in the
arguments of another call is not looked at: a source whose outermost calls fit compiles,
whatever the calls inside them hold.
-/
namespace Polyglot.Plan
open Token CallSite

/-- The words with which a compound statement, or a further clause of one, begins. -/
def compoundWords : Language → List Text
  | .javascript =>
    ["if", "else", "for", "while", "do", "switch", "try", "catch", "finally", "with"]
  | .python => ["if", "elif", "else", "for", "while", "with", "try", "except", "finally"]

def IsCompound (l : Language) (x : Line) : Prop :=
  ∃ t, x.tokens.head? = some t ∧ t.isIdent = true ∧ t.text ∈ compoundWords l

variable {functions : FunctionTable} {s : Segment} {a : Analysis} {x : Line × Role}

theorem isImport_of_isCompound {l : Language} (h : IsCompound l x.1) :
    Analysis.isImport l x = false := by
  obtain ⟨t, ht, hi, hw⟩ := h
  obtain ⟨r, hr⟩ := List.head?_eq_some_iff.1 ht
  have hcomment : t.isComment = false := by
    have hk : t.kind = .ident := by simpa [isIdent] using hi
    simp [isComment, hk]
  have hhead : (code x.1.tokens).head? = some t := by
    rw [hr, code, List.filter_cons_of_pos (by rw [hcomment]; rfl)]
    rfl
  have hword : ∀ w : Text, w ∉ compoundWords l → Line.isWordAt (code x.1.tokens) w = false := by
    intro w hn
    have hne : t.text ≠ w := fun e => hn (e ▸ hw)
    simp [Line.isWordAt, hhead, isWord, hne]
  have hdeclares : ∀ w ∈ compoundWords l, w ∉ Binding.declarationWords := by
    cases l <;> decide
  have himports : x.1.imports l = false := by
    rw [Line.imports, Line.importsIn.eq_def]
    cases l with
    | javascript =>
      rw [hword "import" (by decide), hword "require" (by decide), hhead]
      simp [hdeclares _ hw]
    | python =>
      rw [hword "import" (by decide), hword "from" (by decide)]
      rfl
  rw [Analysis.isImport, himports, Bool.and_false]

/-- The segment has a plan in which the outermost calls of the line are a block of their
own, each made once and ahead of the line. -/
def Hoists (functions : FunctionTable) (s : Segment) (a : Analysis) (x : Line) : Prop :=
  ∃ plan calls bound, ofSegment functions s a = .ok plan ∧
    .call x.text x.number calls bound ∈ plan.blocks ∧ calls ≠ [] ∧
    Outermost s.language (knows functions (ownNames functions s)) x.text x.number calls

theorem hoists_of_ok {plan : Plan} (h : ofSegment functions s a = .ok plan) (hx : x ∈ a.lines)
    (hi : Analysis.isImport s.language x = false)
    (hh : ∃ i, HeadAt s.language (knows functions (ownNames functions s))
      (tokenize s.language x.1.text) i) : Hoists functions s a x.1 := by
  obtain ⟨blocks, hblocks, rfl⟩ := exists_blocksFrom h
  obtain ⟨calls, hcalls, hmem⟩ := (cut_of_blocksFrom hblocks).mem_of_callsOf hx hi
  have ho := onLine_eq_ok_iff.1 (onLine_of_callsOf hcalls)
  obtain ⟨i, hhead⟩ := hh
  obtain ⟨c, hc, -⟩ := ho.exists_call hhead
  have hne : calls ≠ [] := List.ne_nil_of_mem hc
  exact ⟨_, calls, _, h, call_mem_ofBlocks (hmem hne) rfl, hne, ho⟩

/-- Calls in a compound statement are hoisted exactly if its line stands at the top level
and opens no block, its calls are closed and their arguments fit, and the other lines of
the segment pass; and otherwise the segment has no plan. -/
theorem hoists_iff_compound (hx : x ∈ a.lines) (hw : IsCompound s.language x.1)
    (hh : ∃ i, HeadAt s.language (knows functions (ownNames functions s))
      (tokenize s.language x.1.text) i) :
    (Hoists functions s a x.1 ↔
      x.2 = .topLevel ∧ x.1.opensBlock s.language = false ∧
      (∀ i, HeadAt s.language (knows functions (ownNames functions s))
          (tokenize s.language x.1.text) i →
        ∃ j, matchingClose (tokenize s.language x.1.text) (i + 1) = some j) ∧
      (∀ i, HeadAt s.language (knows functions (ownNames functions s))
          (tokenize s.language x.1.text) i →
        Outer s.language (knows functions (ownNames functions s))
          (tokenize s.language x.1.text) i →
        Fits functions (tokenize s.language x.1.text) i) ∧
      ∀ y ∈ a.lines, y ≠ x → Passes s.language functions (ownNames functions s) y) ∧
    (¬ Hoists functions s a x.1 ↔ ∃ err, ofSegment functions s a = .error err) := by
  have hi := isImport_of_isCompound hw
  have hok := (outcome_ofSegment functions s a).1
  have hhoists : Hoists functions s a x.1 ↔ ∃ plan, ofSegment functions s a = .ok plan :=
    ⟨fun ⟨plan, _, _, h, _⟩ => ⟨plan, h⟩, fun ⟨_, h⟩ => hoists_of_ok h hx hi hh⟩
  rw [hhoists]
  refine ⟨hok.trans ⟨fun h => ?_, ?_⟩, ?_⟩
  · obtain ⟨i, hhead⟩ := hh
    have hpass := h x hx hi
    obtain ⟨hr, hb⟩ := hpass.placed i hhead
    exact ⟨hr, hb, hpass.closed, hpass.fits, fun y hy _ => h y hy⟩
  · rintro ⟨hr, hb, hclosed, hfits, hothers⟩ y hy
    by_cases hyx : y = x
    · rw [hyx]
      exact fun _ => ⟨hclosed, fun _ _ => ⟨hr, hb⟩, hfits⟩
    · exact hothers y hy hyx
  · cases ofSegment functions s a with
    | ok plan => exact ⟨fun h => absurd ⟨plan, rfl⟩ h, nofun⟩
    | error err => exact ⟨fun _ => ⟨err, rfl⟩, fun _ => nofun⟩

/-- A call behind a condition that never holds. -/
def guardedSource : Text := "[py]\ndef f(n):\n    return n\n[js]\nif (false) f(1)"

def guardedLine : Line := ⟨5, "if (false) f(1)", tokenize .javascript "if (false) f(1)"⟩

theorem hoists_iff_compound_guarded :
    ∃ p part, Program.compile .standard guardedSource = .ok p ∧ part ∈ p.parts ∧
      part.segment.language = .javascript ∧ (guardedLine, .topLevel) ∈ part.analysis.lines ∧
      IsCompound .javascript guardedLine ∧
      Hoists p.functions part.segment part.analysis guardedLine := by
  have h : (Program.compile .standard guardedSource).toOption.map (fun p =>
      (p.parts[1]?.map fun part => part.segment.language == .javascript &&
        (ownNames p.functions part.segment).isEmpty &&
        part.analysis.lines.contains (guardedLine, .topLevel),
        p.functions.contains "f")) = some (some true, true) := by
    decide +kernel
  obtain ⟨p, hc, h⟩ := Program.exists_of_compile h
  simp only [Prod.mk.injEq, Option.map_eq_some_iff, Bool.and_eq_true, beq_iff_eq,
    List.isEmpty_iff, List.contains_iff_mem] at h
  obtain ⟨⟨part, hpart, ⟨hl, hown⟩, hline⟩, hf⟩ := h
  have hmem : part ∈ p.parts := List.mem_of_getElem? hpart
  have hword : IsCompound .javascript guardedLine :=
    ⟨⟨.ident, "if", 0⟩, by decide +kernel, rfl, by decide⟩
  have htoken : (tokenize .javascript guardedLine.text)[4]? = some ⟨.ident, "f", 11⟩ := by
    decide +kernel
  have hknown : knows p.functions (ownNames p.functions part.segment) "f" = true := by
    rw [knows_iff, hown]
    exact ⟨hf, List.not_mem_nil⟩
  have hhead : HeadAt .javascript (knows p.functions (ownNames p.functions part.segment))
      (tokenize .javascript guardedLine.text) 4 :=
    ⟨_, htoken, isHead_iff.2 ⟨hknown, by decide +kernel⟩⟩
  have hplanned := (Program.compiled_of_compile hc).planned part hmem
  refine ⟨p, part, hc, hmem, hl, hline, hword, ?_⟩
  by_contra hn
  obtain ⟨err, he⟩ := (hoists_iff_compound hline (hl ▸ hword) ⟨4, hl ▸ hhead⟩).2.1 hn
  rw [hplanned] at he
  cases he

end Polyglot.Plan

namespace Polyglot.Program
open Token CallSite
open Plan (Fits Passes Fails ownNames argumentCount)

theorem outcome_planAll (functions : FunctionTable) (sas : List (Segment × Analysis)) :
    ((∃ parts, planAll functions sas = .ok parts) ↔
      ∀ sa ∈ sas, ∃ plan, Plan.ofSegment functions sa.1 sa.2 = .ok plan) ∧
    ∀ err, planAll functions sas = .error err ↔
      Blames (fun sa : Segment × Analysis => Plan.ofSegment functions sa.1 sa.2) sas err := by
  induction sas with
  | nil => exact ⟨⟨fun _ => nofun, fun _ => ⟨[], rfl⟩⟩, fun _ => ⟨nofun, (absurd · not_blames_nil)⟩⟩
  | cons sa r ih =>
    obtain ⟨hok, herr⟩ := ih
    simp only [List.forall_mem_cons, blames_cons, planAll, ← hok, ← herr]
    cases Plan.ofSegment functions sa.1 sa.2 with
    | error e => simp
    | ok plan => cases planAll functions r <;> simp [Except.map]

/-- A call that begins before the token is closed behind it. -/
def Inner (l : Language) (known : Text → Bool) (ts : List Token) (i : Nat) : Prop :=
  ∃ k j, k < i ∧ HeadAt l known ts k ∧ matchingClose ts (k + 1) = some j ∧ i < j

theorem outer_or_inner {l : Language} {known : Text → Bool} {ts : List Token} {i : Nat}
    (hi : HeadAt l known ts i) : Outer l known ts i ∨ Inner l known ts i := by
  by_cases h : Inner l known ts i
  · exact .inr h
  · refine .inl fun k j hk hhead hj => ?_
    have hne := hhead.ne_close hj hi
    by_contra hle
    exact h ⟨k, j, hk, hhead, hj, by omega⟩

variable {e : Engine} {source : Text} {g : Segmentation} {t : Symbols}

/-- In a compiled program the arguments of each call head fit, unless the call stands
inside another; a source whose symbols are known compiles exactly if all its lines pass,
for which only the outermost calls count; and otherwise its error is that of the first
line that does not pass. -/
theorem compiles_iff_outermost_fit (hg : Segmentation.ofSource e source = .ok g)
    (ha : analyzeAll Symbols.none g.segments = .ok t) :
    (∀ p, compile e source = .ok p → ∀ part ∈ p.parts, ∀ x ∈ part.analysis.lines,
      Analysis.isImport part.segment.language x = false →
      let l := part.segment.language
      let known := knows p.functions (ownNames p.functions part.segment)
      let ts := tokenize l x.1.text
      ∀ i, HeadAt l known ts i →
        (∃ j, matchingClose ts (i + 1) = some j) ∧ (Fits p.functions ts i ∨ Inner l known ts i)) ∧
    ((∃ p, compile e source = .ok p) ↔ ∀ sa ∈ t.analyzed, ∀ x ∈ sa.2.lines,
      Passes sa.1.language t.functions (ownNames t.functions sa.1) x) ∧
    ∀ err, compile e source = .error err ↔ ∃ pre sa post, t.analyzed = pre ++ sa :: post ∧
      (∀ b ∈ pre, ∀ x ∈ b.2.lines, Passes b.1.language t.functions (ownNames t.functions b.1) x) ∧
      Fails sa.1.language t.functions (ownNames t.functions sa.1) sa.2.lines err := by
  have hsegment := fun sa : Segment × Analysis => Plan.outcome_ofSegment t.functions sa.1 sa.2
  obtain ⟨hok, herr⟩ := outcome_planAll t.functions t.analyzed
  have hcompile : compile e source = ofSymbols g.warnings t := by
    simp only [compile, hg, ofSegmentation, ha]
  refine ⟨fun p hp part hpart x hx hi => ?_, ?_, fun err => ?_⟩
  · intro l known ts i hhead
    have hc := compiled_of_compile hp
    have hpass := (Plan.outcome_ofSegment p.functions part.segment part.analysis).1.1
      ⟨part.plan, hc.planned part hpart⟩ x hx hi
    exact ⟨hpass.closed i hhead, (outer_or_inner hhead).imp_left (hpass.fits i hhead)⟩
  · simp only [hcompile, ofSymbols, ← (hsegment _).1, ← hok]
    cases planAll t.functions t.analyzed <;> simp [Except.map]
  · have hblames : compile e source = .error err ↔ planAll t.functions t.analyzed = .error err := by
      rw [hcompile, ofSymbols]
      cases planAll t.functions t.analyzed <;> simp [Except.map]
    simp only [hblames, herr, Blames, (hsegment _).1, (hsegment _).2]

/-- The call in the arguments has two arguments of its own, and its function takes one. -/
def crowdedSource : Text :=
  "[py]\ndef double(n):\n    return n * 2\n[js]\nlet y = double(double(1, 2))"

def crowdedCall : Line :=
  ⟨5, "let y = double(double(1, 2))", tokenize .javascript "let y = double(double(1, 2))"⟩

theorem compiles_iff_outermost_fit_crowded :
    ∃ g t p part, Segmentation.ofSource .standard crowdedSource = .ok g ∧
      analyzeAll Symbols.none g.segments = .ok t ∧ compile .standard crowdedSource = .ok p ∧
      part ∈ p.parts ∧ part.segment.language = .javascript ∧
      (crowdedCall, .topLevel) ∈ part.analysis.lines ∧
      (∀ sa ∈ t.analyzed, ∀ y ∈ sa.2.lines,
        Passes sa.1.language t.functions (ownNames t.functions sa.1) y) ∧
      let known := knows p.functions (ownNames p.functions part.segment)
      let ts := tokenize .javascript crowdedCall.text
      HeadAt .javascript known ts 5 ∧ ¬ Fits p.functions ts 5 ∧ Inner .javascript known ts 5 := by
  have h : (compile .standard crowdedSource).toOption.map (fun p =>
      (p.parts[1]?.map fun part => part.segment.language == .javascript &&
        (ownNames p.functions part.segment).isEmpty &&
        part.analysis.lines.contains (crowdedCall, .topLevel),
        (p.functions.find? "double").map (·.arity))) =
      some (some true, some 1) := by
    decide +kernel
  obtain ⟨p, hc, h⟩ := exists_of_compile h
  simp only [Prod.mk.injEq, Option.map_eq_some_iff, Bool.and_eq_true, beq_iff_eq,
    List.isEmpty_iff, List.contains_iff_mem] at h
  obtain ⟨⟨part, hpart, ⟨hl, hown⟩, hline⟩, f, hf, harity⟩ := h
  obtain ⟨g, t, hg, ha, -, -⟩ := exists_stages hc
  obtain ⟨hfits, hpass, -⟩ := compiles_iff_outermost_fit hg ha
  have hmem : part ∈ p.parts := List.mem_of_getElem? hpart
  have hknown : knows p.functions (ownNames p.functions part.segment) "double" = true := by
    rw [knows_iff, hown, Catalog.contains, hf]
    exact ⟨rfl, List.not_mem_nil⟩
  have htoken : (tokenize .javascript crowdedCall.text)[5]? = some ⟨.ident, "double", 15⟩ := by
    decide +kernel
  have hhead : HeadAt .javascript (knows p.functions (ownNames p.functions part.segment))
      (tokenize .javascript crowdedCall.text) 5 :=
    ⟨_, htoken, isHead_iff.2 ⟨hknown, by decide +kernel⟩⟩
  have hmisfit : ¬ Fits p.functions (tokenize .javascript crowdedCall.text) 5 := by
    rintro ⟨u, j, f', hu, hj, hf', hn⟩
    obtain rfl := Option.some_inj.1 (htoken.symm.trans hu)
    obtain rfl := Option.some_inj.1 (hf.symm.trans hf')
    have hclose : matchingClose (tokenize .javascript crowdedCall.text) 6 = some 10 := by
      decide +kernel
    obtain rfl := Option.some_inj.1 (hclose.symm.trans hj)
    have hcount : argumentCount (tokenize .javascript crowdedCall.text) 5 10 = 2 := by
      decide +kernel
    rw [harity, hcount] at hn
    cases hn
  have himport : Analysis.isImport part.segment.language (crowdedCall, .topLevel) = false := by
    rw [hl]
    decide +kernel
  have hinner := (hfits p hc part hmem _ hline himport 5 (hl ▸ hhead)).2.resolve_left (hl ▸ hmisfit)
  exact ⟨g, t, p, part, hg, ha, hc, hmem, hl, hline, hpass.1 ⟨p, hc⟩, hhead, hmisfit, hl ▸ hinner⟩

end Polyglot.Program
