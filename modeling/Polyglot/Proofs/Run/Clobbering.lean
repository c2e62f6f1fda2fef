import Polyglot.Proofs.Run.Provenance
import Polyglot.Proofs.Run.Resolving
import Polyglot.Proofs.Unit.Containing
import Polyglot.Proofs.Unit.LateFilling

/-!
# Variables over functions

In JavaScript a variable that a unit declares before its code takes the place of a function
of the same name, which was there from the start. The compilation holds bindings against
bindings and functions against functions, so a global can meet a function of its name.
Main statement: the exact condition under which it does, in a unit of any kind.
-/
namespace Polyglot

/-- The segment itself binds the name at the top level of a line before the given one. -/
def Part.BoundBefore (p : Part) (line : Nat) (n : Text) : Prop :=
  ∃ b ∈ p.analysis.bindings, b.line < line ∧ b.name = n

namespace Task

/-- The unit has to have a variable of the name before its code: the globals that can be
named, and in a split segment what the segment has bound. A template declares such a name
as its placeholders are filled. -/
def Injects (p : Part) (g : Globals) (x : Text) : Task → Prop
  | segment => x ∈ g.visible p.segment.language
  | code t => ∃ n v, (n ∈ g.visible p.segment.language ∨ p.BoundBefore t.firstLine n) ∧
      t.Declares g n (x, v)
  | call _ f => x ∈ g.visible f.language
  | continuation _ line _ _ _ =>
      x ∈ g.visible p.segment.language ∨ (p.BoundBefore line x ∧ x ∉ g.names)

variable {p : Part} {g : Globals}

theorem exists_of_injects {task : Task} {x : Text} (h : task.Injects p g x) :
    ∃ n, (n ∈ g.names ∨ p.BoundBefore (task.slot p).line n) ∧
      (Placeholder.nameAt n = [] → n = x) := by
  cases task with
  | segment => exact ⟨x, .inl (mem_names_of_visible h), fun _ => rfl⟩
  | call c f => exact ⟨x, .inl (mem_names_of_visible h), fun _ => rfl⟩
  | continuation text line calls returns bound =>
    rcases h with h | ⟨h, -⟩
    · exact ⟨x, .inl (mem_names_of_visible h), fun _ => rfl⟩
    · exact ⟨x, .inr h, fun _ => rfl⟩
  | code t =>
    obtain ⟨n, v, hn, -, ⟨-, hx⟩ | ⟨hne, -⟩⟩ := h
    · exact ⟨n, hn.imp_left mem_names_of_visible, fun _ => hx.symm⟩
    · exact ⟨n, hn.imp_left mem_names_of_visible, fun he => absurd he hne⟩

theorem mem_names_carriedBindings {gen : Generator} {line : Nat} {bound : List Text}
    (hall : ∀ b ∈ (p.context gen).fallbacks line, b.1 ∉ bound) {x : Text} :
    x ∈ (Generator.carriedBindings (p.context gen) line bound g).map Prod.fst ↔
      p.BoundBefore line x ∧ x ∉ g.names := by
  rw [Part.BoundBefore, ← Analysis.lastBefore?_isSome]
  constructor
  · intro hx
    obtain ⟨⟨n, y⟩, hm, rfl⟩ := List.mem_map.1 hx
    obtain ⟨⟨b, hb, -⟩, hg, -⟩ := mem_carriedBindings.1 hm
    exact ⟨⟨b, hb⟩, hg⟩
  · rintro ⟨⟨b, hb⟩, hg⟩
    have hfallback : (x, b.expression) ∈ (p.context gen).fallbacks line := by
      refine List.mem_map.2 ⟨b, Analysis.mem_bindingsBefore.2 ?_, ?_⟩
      · rw [(Analysis.lastBefore?_mem hb).2.2]
        exact hb
      · rw [(Analysis.lastBefore?_mem hb).2.2]
    have hm : (x, b.expression) ∈ Generator.carriedBindings (p.context gen) line bound g :=
      mem_carriedBindings.2 ⟨⟨b, hb, rfl⟩, hg, fun hd => hall _ hfallback hd.2⟩
    exact List.mem_map_of_mem hm

end Task

namespace Program
variable {p : Program}

theorem Compiled.mem_placeholders_iff (h : p.Compiled) {s : Scheduler} {t : Turn}
    (ht : t ∈ p.turns s) {tpl : Template} (htask : t.task = .code tpl)
    (hall : t.task.DeclaresAll (Execution.generatorOf p) t.part t.state.globals) {n : Text} :
    n ∈ tpl.placeholders ↔ n ∈ t.state.globals.visible t.part.segment.language ∨
      t.part.BoundBefore tpl.firstLine n := by
  obtain ⟨g, hg, pre, text, line, bound, post, hb, htpl⟩ :=
    Execution.planned_from_partsTurns ht htask
  have hp := (planned_of_mem ht).1
  have ha := h.analyzed _ hp
  have hplan := h.planned _ hp
  have hline : tpl.firstLine = line := by rw [htpl]; rfl
  rw [htask] at hall
  constructor
  · intro hn
    rw [htpl] at hn
    rcases Template.mem_knownAfter.1 (List.mem_filter.1 hn).1 with hn | ⟨b, hm, hn⟩
    · obtain ⟨hn, hv⟩ := List.mem_filter.1 hn
      exact .inl (List.mem_filter.2 ⟨hg n hn, hv⟩)
    · rw [hline]
      exact .inr (Plan.exists_binding_before ha hplan hb hm hn)
  · rintro (hn | ⟨b, hm, hl, rfl⟩)
    · exact hall.1 n hn
    · have hcode : .code text line bound ∈ t.part.plan.blocks :=
        hb ▸ List.mem_append_right _ List.mem_cons_self
      obtain ⟨k, hk, hbound, hfirst⟩ := Plan.exists_block_of_binding ha hplan hcode hm
      exact hall.2 k hk (Nat.lt_of_le_of_lt hfirst hl) b.name hbound

theorem Compiled.declares_iff (h : p.Compiled) {s : Scheduler} {t : Turn} (ht : t ∈ p.turns s)
    (hall : t.task.DeclaresAll (Execution.generatorOf p) t.part t.state.globals)
    {ds es : List (Text × Text)}
    (hd : t.task.declared? (Execution.generatorOf p) t.part t.state.globals = .ok (ds, es))
    (x : Text) :
    x ∈ (ds ++ es).map Prod.fst ↔ t.task.Injects t.part t.state.globals x := by
  have hholes := fun tpl (htask : t.task = .code tpl) n =>
    h.mem_placeholders_iff ht htask hall (n := n)
  obtain ⟨part, task, state⟩ := t
  cases task with
  | segment =>
    cases hd
    rw [List.append_nil, Globals.map_fst_declared, hall, Task.Injects]
  | call c f =>
    cases hd
    rw [List.append_nil, Globals.map_fst_declared, hall, Task.Injects]
  | continuation text line calls returns bound =>
    cases hd
    rw [List.map_append, List.mem_append, Globals.map_fst_declared, hall.1,
      Task.mem_names_carriedBindings hall.2, Task.Injects]
  | code tpl =>
    obtain ⟨hm, rfl⟩ := Task.pairs_of_declared hd
    rw [List.append_nil, Task.Injects]
    constructor
    · intro hx
      obtain ⟨⟨y, v⟩, hy, rfl⟩ := List.mem_map.1 hx
      obtain ⟨n, hn, hf⟩ := (mem_of_mapM hm).1 hy
      exact ⟨n, v, (hholes tpl rfl n).1 hn, Template.declares_iff.2 hf⟩
    · rintro ⟨n, v, hn, hdecl⟩
      have hmem := (mem_of_mapM hm).2
        ⟨n, (hholes tpl rfl n).2 hn, Template.declares_iff.1 hdecl⟩
      exact List.mem_map_of_mem (f := Prod.fst) hmem

end Program

/-- The unit declares a variable of the name before its code, and the definition of a
function of the name is in the unit too. -/
def Turn.Clobbers (gen : Generator) (t : Turn) (x : Text) : Prop :=
  (∃ ds es, t.task.declared? gen t.part t.state.globals = .ok (ds, es) ∧
    x ∈ (ds ++ es).map Prod.fst) ∧
  ∃ f ∈ t.task.defines gen t.part, f.name = x

namespace Program

/-- In a run whose results hold what their units track: the text of a JavaScript unit has
its declarations ahead of its code and contains the functions that it defines, and one of
its variables stands over a function exactly if the function's name is one that the unit
has to inject. Such a name is bound on a line before the unit, by either language; nothing
in the compilation keeps it from being a function's name as well. -/
theorem clobbers_iff {e : Engine} {source : Text} {p : Program}
    (hc : compile e source = .ok p) (s : Scheduler)
    (htracks : ∀ t ∈ p.turns s, t.Tracks (Execution.generatorOf p)) {t : Turn}
    (ht : t ∈ p.turns s) {u : GuestUnit} (hu : t.unit? (Execution.generatorOf p) = .ok u)
    (hjs : u.language = .javascript) :
    (∃ d ds es, t.draft? (Execution.generatorOf p) = .ok d ∧ u.source = d.text ∧
      t.task.declared? (Execution.generatorOf p) t.part t.state.globals = .ok (ds, es) ∧
      d.preamble = Placeholder.declareLines .javascript ds ∧
      d.carried = Placeholder.declareLines .javascript es) ∧
    (∀ f ∈ t.task.defines (Execution.generatorOf p) t.part,
      f ∈ p.functions.items ∧ f.language = .javascript ∧ f.source <:+: u.source) ∧
    ∀ x, (t.Clobbers (Execution.generatorOf p) x ↔ t.task.Injects t.part t.state.globals x ∧
        ∃ f ∈ t.task.defines (Execution.generatorOf p) t.part, f.name = x) ∧
      (t.task.Injects t.part t.state.globals x →
        ∃ n, p.BoundBefore u.firstLine n ∧ (Placeholder.nameAt n = [] → n = x)) := by
  have h := compiled_of_compile hc
  obtain ⟨hp, hplanned⟩ := planned_of_mem ht
  have hsourced := h.sourced s htracks t ht
  have hslot : u.slot = t.slot := Task.slot_of_unit hu
  have hline : u.firstLine = t.slot.line := congrArg Slot.line hslot
  have hlang : t.slot.language = .javascript := (congrArg Slot.language hslot).symm.trans hjs
  have hall := (declaresAll_of_sourced hc hp hplanned hsourced (returnKey_not_mem ht) hlang).2
  obtain ⟨d, ds, es, hd, hs, hds, hpre, hcar, -⟩ :=
    Task.exists_draft_of_planned (h.analyzed _ hp) (h.planned _ hp) (fun _ _ => hplanned) hu
  rw [hjs] at hpre hcar
  refine ⟨⟨d, ds, es, hd, hs, hds, hpre, hcar⟩, fun f hf => ?_, fun x => ⟨⟨?_, ?_⟩, fun hx => ?_⟩⟩
  · rw [← hjs]
    exact h.contains_of_defines hp hplanned hu hf
  · rintro ⟨⟨ds', es', hds', hx⟩, hf⟩
    exact ⟨(h.declares_iff ht hall hds' x).1 hx, hf⟩
  · rintro ⟨hx, hf⟩
    exact ⟨⟨ds, es, hds, (h.declares_iff ht hall hds x).2 hx⟩, hf⟩
  · obtain ⟨n, hn, hname⟩ := Task.exists_of_injects hx
    refine ⟨n, ?_, hname⟩
    rw [hline]
    rcases hn with hn | ⟨b, hb, hbl, rfl⟩
    · exact hsourced.globals n hn
    · exact ⟨t.part, hp, b, hb, hbl, rfl⟩

end Program

/-- A global of one language, and a function of its name in the other. -/
def eclipsingSource : Text := "[py]\nf = 1\n[js]\nfunction f() \x7b\n  return 1\n\x7d"

def eclipsingReply : Reply := { result := some (Text.Utf8.encode "\x7b\"f\":1\x7d") }

def eclipsingStart : Scheduler := startWith eclipsingReply

namespace Program

theorem clobbers_iff_eclipsing : ∃ p t u, compile .standard eclipsingSource = .ok p ∧
    (∀ t ∈ p.turns eclipsingStart, t.Tracks (Execution.generatorOf p)) ∧
    t ∈ p.turns eclipsingStart ∧ t.unit? (Execution.generatorOf p) = .ok u ∧
    u.language = .javascript ∧ t.Clobbers (Execution.generatorOf p) "f" ∧
    ∃ f ∈ p.functions.items, f.name = "f" ∧ f.source <:+: u.source := by
  have h : (compile .standard eclipsingSource).toOption.map (fun p => p.parts.map fun part =>
      (part.plan, part.analysis.bound, part.segment.language)) =
        some [(Plan.simple, ["f".toList], Language.python),
          (Plan.simple, [], Language.javascript)] := by
    decide +kernel
  have hfunctions : (compile .standard eclipsingSource).toOption.map (fun p =>
      p.parts.map fun part => part.analysis.functions.map (·.name)) =
        some [[], ["f".toList]] := by
    decide +kernel
  have hnamed : namesOf eclipsingReply = some ["f".toList] := by decide +kernel
  obtain ⟨p, a, b, hc, hp, ha, hb⟩ := exists_two_parts h
  simp only [Prod.mk.injEq] at ha hb
  obtain ⟨hap, hab, -⟩ := ha
  obtain ⟨hbp, -, hbl⟩ := hb
  rw [hc] at hfunctions
  have hparts : p.parts.map (fun part => part.analysis.functions.map (·.name)) =
      [[], ["f".toList]] := Option.some.inj hfunctions
  rw [hp] at hparts
  have hbf : b.analysis.functions.map (·.name) = ["f".toList] :=
    (List.cons.inj (List.cons.inj hparts).2).1
  obtain ⟨s, hm, hnames, htracks⟩ := exists_second_turn hp hap hbp hnamed
    (by rw [hab]; exact fun n hn => hn) (by rw [hbl]; decide)
  obtain ⟨-, hdefines, hclobbers⟩ := clobbers_iff hc eclipsingStart htracks hm rfl hbl
  obtain ⟨f, hf, hname⟩ := List.mem_map.1 (hbf ▸ List.mem_cons_self : "f".toList ∈ _)
  obtain ⟨hfunction, -, hsource⟩ := hdefines f hf
  have hinjects : "f".toList ∈
      (Execution.simpleTurn s b).state.globals.visible b.segment.language := by
    rw [hbl]
    refine List.mem_filter.2 ⟨?_, by decide⟩
    rw [hnames]
    exact List.mem_cons_self
  exact ⟨p, _, _, hc, htracks, hm, rfl, hbl, (hclobbers _).1.2 ⟨hinjects, f, hf, hname⟩, f,
    hfunction, hname, hsource⟩

end Program
end Polyglot
