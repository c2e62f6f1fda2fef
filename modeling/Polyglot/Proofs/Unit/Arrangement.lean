import Mathlib.Data.List.Nodup
import Mathlib.Data.List.TakeWhile
import Polyglot.Proofs.Plan.Precedence
import Polyglot.Proofs.Unit.Containing
import Polyglot.Proofs.Unit.Tracking

/-!
# The arrangement of a unit

The text of a unit of a split segment is made of pieces: the imports, a declaration for
each known name, the definition of each function of the segment, the code and the closing
code. Wherever the declarations come from, all of them stand ahead of all definitions.
-/
namespace Polyglot

namespace Text

theorem unlines_cons {a : Text} {r : List Text} (h : r ≠ []) :
    unlines (a :: r) = a ++ ('\n' :: unlines r) := by
  obtain ⟨b, s, rfl⟩ := List.exists_cons_of_ne_nil h
  exact unlines_cons_cons a b s

theorem unlines_ne_nil {xs : List Text} (hn : xs ≠ []) (h : ∀ x ∈ xs, x ≠ []) :
    unlines xs ≠ [] := by
  obtain ⟨x, r, rfl⟩ := List.exists_cons_of_ne_nil hn
  have hx : x <:+: unlines (x :: r) := infix_unlines List.mem_cons_self
  intro he
  rw [he, List.infix_nil] at hx
  exact h x List.mem_cons_self hx

theorem unlines_append_unlines (as : List Text) {xs : List Text} (hn : xs ≠ [])
    (bs : List Text) : unlines (as ++ unlines xs :: bs) = unlines (as ++ (xs ++ bs)) := by
  induction as with
  | cons a r ih =>
    rw [List.cons_append, List.cons_append, unlines_cons (by simp), unlines_cons (by simp [hn]),
      ih]
  | nil =>
    rw [List.nil_append, List.nil_append]
    induction xs with
    | nil => exact absurd rfl hn
    | cons x r ih =>
      by_cases hr : r = []
      · rw [hr, unlines_singleton]
        rfl
      · have hcons : unlines (unlines (x :: r) :: bs) =
            x ++ ('\n' :: unlines (unlines r :: bs)) := by
          rw [unlines_cons hr]
          by_cases hb : bs = []
          · rw [hb, unlines_singleton, unlines_singleton]
          · rw [unlines_cons hb, unlines_cons hb, List.append_assoc]
            rfl
        rw [hcons, ih hr, List.cons_append, unlines_cons (by simp [hr])]

theorem exists_unlines_concat (xs : List Text) :
    ∃ pre, ∀ t, unlines (xs ++ [t]) = pre ++ t := by
  induction xs with
  | nil => exact ⟨[], fun t => unlines_singleton t⟩
  | cons x r ih =>
    obtain ⟨pre, hpre⟩ := ih
    refine ⟨x ++ ('\n' :: pre), fun t => ?_⟩
    rw [List.cons_append, unlines_cons (by simp), hpre, List.append_assoc]
    rfl

end Text

theorem Language.declare_ne_nil (l : Language) (n v : Text) : l.declare n v ≠ [] := by
  cases l with
  | javascript => exact List.cons_ne_nil _ _
  | python => simp [Placeholder.declare_python]

namespace Draft

theorem assemble_unlines (as xs : List Text) (h : ∀ x ∈ xs, x ≠ []) (bs : List Text) :
    assemble (as ++ Text.unlines xs :: bs) = assemble (as ++ (xs ++ bs)) := by
  have hxs : xs.filter (!·.isEmpty) = xs := List.filter_eq_self.2 fun x hx => by simp [h x hx]
  unfold assemble
  rw [List.filter_append, List.filter_append, List.filter_append, hxs]
  by_cases hn : xs = []
  · rw [hn]
    rfl
  · have hne := Text.unlines_ne_nil hn h
    rw [List.filter_cons_of_pos (by simp [hne]), Text.unlines_append_unlines _ hn]

theorem assemble_of_ne_nil {xs : List Text} (h : ∀ x ∈ xs, x ≠ []) :
    assemble xs = Text.unlines xs ++ ['\n'] := by
  rw [assemble, List.filter_eq_self.2 fun x hx => by simp [h x hx]]

end Draft

namespace Template

theorem trimNewlines_append {b : Text} {c : Char} (hm : c ∈ b) (hc : c ≠ '\n') (a : Text) :
    trimNewlines (a ++ b) = a ++ trimNewlines b := by
  have hne : b.reverse.dropWhile (· == '\n') ≠ [] := by
    intro he
    rw [List.dropWhile_eq_nil_iff] at he
    exact hc (by simpa using he c (List.mem_reverse.2 hm))
  rw [trimNewlines, trimNewlines, List.reverse_append, List.dropWhile_append]
  simp [hne]

theorem trimNewlines_concat (b : Text) : trimNewlines (b ++ ['\n']) = trimNewlines b := by
  simp [trimNewlines]

theorem trimNewlines_ne_nil {b : Text} {c : Char} (hm : c ∈ b) (hc : c ≠ '\n') :
    trimNewlines b ≠ [] := by
  intro he
  rw [trimNewlines, List.reverse_eq_nil_iff, List.dropWhile_eq_nil_iff] at he
  exact hc (by simpa using he c (List.mem_reverse.2 hm))

theorem trimNewlines_assemble {xs : List Text} (h : ∀ x ∈ xs, x ≠ []) {text : Text} {c : Char}
    (hm : c ∈ text) (hc : c ≠ '\n') :
    trimNewlines (Draft.assemble [Text.unlines xs, text]) =
      Text.unlines (xs ++ [trimNewlines text]) := by
  obtain ⟨pre, hpre⟩ := Text.exists_unlines_concat xs
  have hne : ∀ x ∈ xs ++ [text], x ≠ [] := by
    intro x hx
    rcases List.mem_append.1 hx with hx | hx
    · exact h x hx
    · rw [List.mem_singleton.1 hx]
      exact List.ne_nil_of_mem hm
  rw [show [Text.unlines xs, text] = [] ++ Text.unlines xs :: [text] from rfl,
    Draft.assemble_unlines [] xs h, List.nil_append, Draft.assemble_of_ne_nil hne,
    trimNewlines_concat, hpre, hpre, trimNewlines_append hm hc]

end Template

/-- A declaration knows the name that it is made for. Filling may spell it otherwise. -/
inductive Piece
  | imports (text : Text)
  | declaration (name : Text) (d : Text × Text)
  | definition (f : FunctionDef)
  | code (text : Text)
  | closing (text : Text)

namespace Piece

def text (l : Language) : Piece → Text
  | imports t => t
  | declaration _ d => l.declare d.1 d.2
  | definition f => f.source
  | code t => t
  | closing t => t

/-- The order of the pieces, the same in templates and continuations. -/
def arrange (importLines : Text) (ds : List (Text × Text × Text)) (fs : List FunctionDef)
    (body postamble : Text) : List Piece :=
  imports importLines :: (ds.map (fun d => declaration d.1 d.2) ++
    (fs.map definition ++ [code body, closing postamble]))

variable {importLines body postamble : Text} {ds : List (Text × Text × Text)}
  {fs : List FunctionDef}

theorem map_text_arrange (l : Language) :
    (arrange importLines ds fs body postamble).map (text l) = importLines ::
      (ds.map (fun d => l.declare d.2.1 d.2.2) ++ (fs.map (·.source) ++ [body, postamble])) := by
  simp only [arrange, List.map_cons, List.map_append, List.map_map, List.map_nil]
  rfl

theorem declaration_mem {n : Text} {d : Text × Text} (h : (n, d) ∈ ds) :
    declaration n d ∈ arrange importLines ds fs body postamble :=
  List.mem_cons_of_mem _ (List.mem_append_left _ (List.mem_map.2 ⟨(n, d), h, rfl⟩))

theorem not_sublist_definition (f : FunctionDef) (n : Text) (d : Text × Text) :
    ¬ [definition f, declaration n d].Sublist (arrange importLines ds fs body postamble) := by
  intro h
  rw [arrange, ← List.cons_append, List.sublist_append_iff] at h
  obtain ⟨xs, ys, he, hx, hy⟩ := h
  have hd : declaration n d ∉ ys := by
    intro hm
    have := hy.subset hm
    simp at this
  have hf : definition f ∉ xs := by
    intro hm
    have := hx.subset hm
    simp at this
  cases xs with
  | nil => exact hd (by rw [← List.nil_append ys, ← he]; simp)
  | cons x xs =>
    rw [List.cons_append, List.cons.injEq] at he
    exact hf (he.1 ▸ List.mem_cons_self)

def declares? : Piece → Option Text
  | declaration n _ => some n
  | _ => none

theorem filterMap_declares :
    (arrange importLines ds fs body postamble).filterMap declares? = ds.map Prod.fst := by
  have hds : (ds.map fun d => declaration d.1 d.2).filterMap declares? = ds.map Prod.fst := by
    rw [List.filterMap_map]
    exact congrFun (List.filterMap_eq_map (f := Prod.fst)) ds
  have hfs : (fs.map definition).filterMap declares? = [] := by
    rw [List.filterMap_map]
    exact List.filterMap_eq_nil_iff.2 fun _ _ => rfl
  rw [arrange, List.filterMap_cons_none rfl, List.filterMap_append, List.filterMap_append, hds, hfs]
  exact List.append_nil _

theorem sublist_declarations_iff (hd : (ds.map Prod.fst).Nodup) {n : Text} {d : Text × Text}
    (hn : (n, d) ∈ ds) (m : Text) :
    (∃ d', [declaration m d', declaration n d].Sublist
        (arrange importLines ds fs body postamble)) ↔
      Names.Precedes (ds.map Prod.fst) m n := by
  rw [← Names.sublist_pair_iff hd (List.mem_map_of_mem (f := Prod.fst) hn)]
  constructor
  · rintro ⟨d', h⟩
    have hs := h.filterMap declares?
    rw [filterMap_declares] at hs
    exact hs
  · intro h
    obtain ⟨ps, hs, hp⟩ := List.sublist_map_iff.1 h
    obtain ⟨⟨k, d'⟩, qs, rfl, hk, hq⟩ := List.map_eq_cons_iff.1 hp.symm
    obtain ⟨⟨j, d''⟩, rs, rfl, hj, hr⟩ := List.map_eq_cons_iff.1 hq
    obtain rfl : k = m := hk
    obtain rfl : j = n := hj
    rw [List.map_eq_nil_iff.1 hr] at hs
    have hmem := hs.subset (List.mem_cons_of_mem _ List.mem_cons_self)
    have he : (j, d'') = (j, d) := List.inj_on_of_nodup_map hd hmem hn rfl
    cases he
    refine ⟨d', List.Sublist.cons _ ?_⟩
    exact (hs.map fun d => declaration d.1 d.2).trans (List.sublist_append_left _ _)

end Piece

namespace Task
open Placeholder (declareLines)

theorem eq_of_draft {gen : Generator} {p : Part} {g : Globals} {t : Template} {d : Draft}
    (h : (code t).draft? gen p g = .ok d) : ∃ preamble, d = t.draft preamble := by
  rw [draft?] at h
  cases hf : Placeholder.fill (t.valueOf g) t.preamble with
  | error e => rw [hf] at h; cases h
  | ok preamble => rw [hf] at h; cases h; exact ⟨preamble, rfl⟩

def names (gen : Generator) (p : Part) (g : Globals) : Task → List Text
  | segment => p.segment.language.declarable p.analysis.bound (g.visible p.segment.language)
  | code t => t.placeholders
  | call _ f => f.language.declarable [] (g.visible f.language)
  | continuation _ line _ _ bound =>
    p.segment.language.declarable bound (g.visible p.segment.language) ++
      (Generator.carriedBindings (p.context gen) line bound g).map Prod.fst

/-- The unit is one of those that a split segment is run with. -/
def isSplit (task : Task) : Bool := task.isCode || task.isContinuation

variable {gen : Generator} {p : Part} {g : Globals}

theorem length_names {task : Task} {ds es : List (Text × Text)}
    (hd : task.declared? gen p g = .ok (ds, es)) :
    (task.names gen p g).length = (ds ++ es).length := by
  cases task with
  | segment =>
    cases hd
    simp [names, Globals.declared]
  | call c f =>
    cases hd
    simp [names, Globals.declared]
  | continuation text line calls returns bound =>
    cases hd
    simp [names, Globals.declared]
  | code t =>
    obtain ⟨hm, rfl⟩ := pairs_of_declared hd
    rw [List.append_nil]
    exact (mapM_ok_iff.1 hm).length_eq

/-- The declarations, each with the name that it is made for. -/
def labelled (gen : Generator) (p : Part) (g : Globals) (task : Task)
    (ds : List (Text × Text)) : List (Text × Text × Text) := (task.names gen p g).zip ds

theorem map_fst_labelled {task : Task} {ds es : List (Text × Text)}
    (hd : task.declared? gen p g = .ok (ds, es)) :
    (task.labelled gen p g (ds ++ es)).map Prod.fst = task.names gen p g :=
  List.map_fst_zip (Nat.le_of_eq (length_names hd))

theorem map_declare_labelled {task : Task} {ds es : List (Text × Text)} (l : Language)
    (hd : task.declared? gen p g = .ok (ds, es)) :
    ((task.labelled gen p g (ds ++ es)).map fun d => l.declare d.2.1 d.2.2) =
      (ds ++ es).map fun d => l.declare d.1 d.2 := by
  have hs : (task.labelled gen p g (ds ++ es)).map Prod.snd = ds ++ es :=
    List.map_snd_zip (Nat.le_of_eq (length_names hd).symm)
  have hm : (fun d : Text × Text × Text => l.declare d.2.1 d.2.2) =
      (fun d : Text × Text => l.declare d.1 d.2) ∘ Prod.snd := rfl
  rw [hm, ← List.map_map, hs]

end Task

namespace Program
variable {p : Program} {part : Part}

theorem Compiled.definitions_ne_nil (h : p.Compiled) (hp : part ∈ p.parts) :
    ∀ x ∈ part.analysis.functions.map (·.source), x ≠ [] := by
  intro x hx
  obtain ⟨f, hf, rfl⟩ := List.mem_map.1 hx
  exact Analysis.source_ne_nil (h.analyzed part hp) hf

theorem Compiled.exists_body (h : p.Compiled) (hp : part ∈ p.parts) {task : Task}
    (ht : task.Planned (Execution.generatorOf p) part) (hs : task.isSplit = true) {g : Globals}
    {d : Draft} (hd : task.draft? (Execution.generatorOf p) part g = .ok d) :
    d.imports = part.analysis.importSource ∧ ∃ body, ∀ as post,
      Draft.assemble (as ++ [d.definitions, d.body, post]) =
        Draft.assemble (as ++ (part.analysis.functions.map (·.source) ++ [body, post])) := by
  have hne := h.definitions_ne_nil hp
  cases task with
  | segment => cases hs
  | call c f => cases hs
  | continuation text line calls returns bound =>
    cases hd
    refine ⟨rfl, Generator.spliceReturns part.segment.language text calls returns,
      fun as post => ?_⟩
    have hdefs : (Generator.continuationDraft (part.context (Execution.generatorOf p)) text line
        calls returns bound g).definitions = _ := h.definitions_context hp ht.1
    rw [hdefs, Draft.assemble_unlines as _ hne]
    rfl
  | code t =>
    obtain ⟨g', pre, text, line, bound, post, hb, rfl⟩ := ht
    obtain ⟨preamble, rfl⟩ := Task.eq_of_draft hd
    have hcode : .code text line bound ∈ part.plan.blocks :=
      hb ▸ List.mem_append_right _ List.mem_cons_self
    obtain ⟨c, hm, hc⟩ := Plan.exists_solid_of_code (h.planned part hp) hcode
    refine ⟨rfl, Template.trimNewlines text, fun as post => ?_⟩
    have hbody : (Template.ofCode (part.context (Execution.generatorOf p))
        (Template.knownAfter (g'.visible part.segment.language) pre) text line bound).body =
          Text.unlines (part.analysis.functions.map (·.source) ++
            [Template.trimNewlines text]) := by
      rw [← Template.trimNewlines_assemble hne hm hc, ← h.definitions_context hp hcode]
      rfl
    have hnone := Draft.assemble_unlines as [] (fun x hx => nomatch hx)
      [Text.unlines (part.analysis.functions.map (·.source) ++ [Template.trimNewlines text]), post]
    have hsome := Draft.assemble_unlines as (part.analysis.functions.map (·.source) ++
      [Template.trimNewlines text]) (fun x hx => by
        rcases List.mem_append.1 hx with hx | hx
        · exact hne x hx
        · exact List.mem_singleton.1 hx ▸ Template.trimNewlines_ne_nil hm hc) [post]
    rw [List.append_assoc] at hsome
    rw [Template.draft, hbody]
    exact hnone.trans hsome

theorem Compiled.exists_pieces (h : p.Compiled) (hp : part ∈ p.parts) {task : Task}
    (ht : task.Planned (Execution.generatorOf p) part) (hs : task.isSplit = true) {g : Globals}
    {u : GuestUnit} (hu : task.unit? (Execution.generatorOf p) part g = .ok u) :
    ∃ ds es body, task.declared? (Execution.generatorOf p) part g = .ok (ds, es) ∧
      u.source = Draft.assemble ((Piece.arrange part.analysis.importSource
        (task.labelled (Execution.generatorOf p) part g (ds ++ es)) part.analysis.functions body
        (u.language.postamble u.tracked)).map (Piece.text u.language)) := by
  obtain ⟨d, ds, es, hd, hsource, hds, hpre, hcar, hpost⟩ :=
    Task.exists_draft_of_planned (h.analyzed _ hp) (h.planned _ hp) (fun _ _ => ht) hu
  obtain ⟨himports, body, hbody⟩ := h.exists_body hp ht hs hd
  have hdecl : ∀ xs : List (Text × Text), ∀ x ∈ xs.map fun d => u.language.declare d.1 d.2,
      x ≠ [] := by
    intro xs x hx
    obtain ⟨y, -, rfl⟩ := List.mem_map.1 hx
    exact u.language.declare_ne_nil _ _
  refine ⟨ds, es, body, hds, ?_⟩
  rw [hsource, Piece.map_text_arrange, Task.map_declare_labelled u.language hds, List.map_append,
    List.append_assoc, ← himports, ← hpost]
  calc Draft.assemble [d.imports, d.preamble, d.carried, d.definitions, d.body, d.postamble]
    _ = Draft.assemble ([d.imports] ++ (ds.map (fun d => u.language.declare d.1 d.2) ++
          [d.carried, d.definitions, d.body, d.postamble])) := by
        rw [hpre]
        exact Draft.assemble_unlines [d.imports] _ (hdecl ds) _
    _ = Draft.assemble (([d.imports] ++ ds.map fun d => u.language.declare d.1 d.2) ++
          (es.map (fun d => u.language.declare d.1 d.2) ++
            [d.definitions, d.body, d.postamble])) := by
        rw [← List.append_assoc, hcar]
        exact Draft.assemble_unlines _ _ (hdecl es) _
    _ = _ := by
        rw [← List.append_assoc, hbody]
        simp only [List.append_assoc, List.cons_append, List.nil_append]

end Program
end Polyglot
