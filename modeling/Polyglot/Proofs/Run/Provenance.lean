import Polyglot.Proofs.Program.Compiled
import Polyglot.Proofs.Run.Answers
import Polyglot.Proofs.Run.Course
import Polyglot.Proofs.Unit.Tracking

/-!
# Where globals come from

A unit tracks the names that it can see and those that its own code binds. So if no
result holds more than its unit tracks, the globals of every moment are bound on lines
behind it. The blocks of a split segment carry this from one to the next: what a block
leaves, it found or bound. Main statement: every global is bound before the unit that
meets it, and a unit in a language that declares once binds none of them anew.
-/
namespace Polyglot

def RunState.Within (s : RunState) (Q : Text → Prop) : Prop := ∀ n ∈ s.globals.names, Q n

section
variable {gen : Generator} {s s' : RunState} {Q R : Text → Prop}

theorem RunState.Within.imp (h : s.Within Q) (hq : ∀ n, Q n → R n) : s.Within R :=
  fun n hn => hq n (h n hn)

theorem Quiet.within (h : Quiet s s') (hs : s.Within Q) : s'.Within Q := by
  intro n hn
  rw [h.globals] at hn
  exact hs n hn

namespace Turn

/-- The result of the turn has no key but what its unit tracks, and the return value. -/
def Tracks (gen : Generator) (t : Turn) : Prop :=
  ∀ u r, t.unit? gen = .ok u → t.values? gen = some r →
    ∀ n ∈ Catalog.names r, n ∈ u.tracked ∨ n = Globals.returnKey

def Keeps (gen : Generator) (Q : Text → Prop) (t : Turn) : Prop :=
  t.state.Within Q → ∀ u, t.unit? gen = .ok u → ∀ n ∈ u.tracked, n ≠ Globals.returnKey → Q n

theorem within_after {t : Turn} (ht : t.Tracks gen) (hk : t.Keeps gen Q)
    (hs : t.state.Within Q) : (t.after gen).Within Q := by
  intro n hn
  rw [t.globals_after gen] at hn
  cases hv : t.values? gen with
  | none => rw [hv] at hn; exact hs n hn
  | some r =>
    rw [hv, Option.elim_some, Globals.names_merge, Names.mem_extend, List.mem_filter] at hn
    rcases hn with hn | ⟨hn, hne⟩
    · exact hs n hn
    · cases hu : t.unit? gen with
      | error e => rw [values?, hu] at hv; cases hv
      | ok u =>
        have hne : n ≠ Globals.returnKey := by simpa using hne
        exact hk hs u hu n ((ht u r hu hv n hn).resolve_right hne) hne

end Turn

theorem Journey.within {ts : List Turn} (j : Journey gen s ts s') (ht : ∀ t ∈ ts, t.Tracks gen)
    (hk : ∀ t ∈ ts, t.Keeps gen Q) (hs : s.Within Q) :
    (∀ t ∈ ts, t.state.Within Q) ∧ s'.Within Q := by
  induction j with
  | rest h => exact ⟨fun _ hm => (nomatch hm), h.within hs⟩
  | @turn s s' t ts h _ ih =>
    have hstate := h.within hs
    have hafter := Turn.within_after (ht t List.mem_cons_self) (hk t List.mem_cons_self) hstate
    obtain ⟨hrest, hend⟩ := ih (fun x hx => ht x (List.mem_cons_of_mem t hx))
      (fun x hx => hk x (List.mem_cons_of_mem t hx)) hafter
    exact ⟨List.forall_mem_cons.2 ⟨hstate, hrest⟩, hend⟩

end

/-- The task is one of those that a block is run for. -/
inductive Task.Serves (ctx : SegmentContext) (known : List Text) : Block → Task → Prop
  | code {text : Text} {line : Nat} {bound : List Text} :
      Serves ctx known (.code text line bound) (.code (.ofCode ctx known text line bound))
  | call {text : Text} {line : Nat} {calls : List CallSite} {bound : List Text} {c : CallSite}
      {f : FunctionDef} (hc : c ∈ calls) :
      Serves ctx known (.call text line calls bound) (.call c f)
  | continuation {text : Text} {line : Nat} {calls : List CallSite} {bound : List Text}
      {returns : List Value} :
      Serves ctx known (.call text line calls bound)
        (.continuation text line calls returns bound)

namespace Task
variable {gen : Generator} {p : Part} {g : Globals}

theorem mem_names_of_visible {l : Language} {n : Text} (h : n ∈ g.visible l) : n ∈ g.names :=
  (List.mem_filter.1 h).1

theorem Serves.tracked {ctx : SegmentContext} {known : List Text} {b : Block} {task : Task}
    (h : task.Serves ctx known b) {u : GuestUnit} (hu : task.unit? gen p g = .ok u) {n : Text}
    (hn : n ∈ u.tracked) (hne : n ≠ Globals.returnKey) :
    n ∈ g.names ∨ n ∈ known ∨ n ∈ b.bound := by
  cases h with
  | code =>
    obtain ⟨preamble, rfl⟩ := Template.eq_of_fill hu
    exact .inr (Names.mem_extend.1 hn)
  | call hc =>
    cases hu
    rcases List.mem_append.1 hn with hn | hn
    · exact .inl (mem_names_of_visible hn)
    · exact absurd (List.mem_singleton.1 hn) hne
  | continuation =>
    cases hu
    rcases Names.mem_extend.1 hn with hn | hn
    · exact .inl (mem_names_of_visible hn)
    · exact .inr (.inr hn)

theorem Serves.line {ctx : SegmentContext} {known : List Text} {b : Block} {task : Task}
    (h : task.Serves ctx known b) (hc : ∀ c ∈ b.calls, c.line = b.firstLine) :
    (task.slot p).line = b.firstLine := by
  cases h with
  | code => rfl
  | call hm => exact hc _ hm
  | continuation => rfl

theorem Serves.exists_of_code {ctx : SegmentContext} {known : List Text} {b : Block}
    {tpl : Template} (h : (Task.code tpl).Serves ctx known b) :
    ∃ text line bound, b = .code text line bound ∧ tpl = .ofCode ctx known text line bound := by
  cases h
  exact ⟨_, _, _, rfl, rfl⟩

end Task

namespace Execution
variable {gen : Generator} {p : Part}

theorem exists_call_of_mem {cs : List CallSite} {s : RunState} {t : Turn}
    (h : t ∈ callTurns gen p s cs) : t.part = p ∧ ∃ c f, c ∈ cs ∧ t.task = .call c f := by
  induction cs generalizing s with
  | nil => cases h
  | cons c r ih =>
    rw [callTurns, List.mem_append] at h
    rcases h with h | h
    · unfold callTurn at h
      cases hf : gen.functions.find? c.callee with
      | none => rw [hf] at h; cases h
      | some f =>
        rw [hf, List.mem_singleton] at h
        rw [h]
        exact ⟨rfl, c, f, List.mem_cons_self, rfl⟩
    · obtain ⟨-, -, h⟩ := mem_follow h
      obtain ⟨hp, d, f, hd, ht⟩ := ih h
      exact ⟨hp, d, f, List.mem_cons_of_mem c hd, ht⟩

theorem keeps_of_call {t : Turn} {c : CallSite} {f : FunctionDef} (h : t.task = .call c f)
    (Q : Text → Prop) : t.Keeps gen Q := by
  intro hs u hu n hn hne
  rw [Turn.unit?, h] at hu
  cases hu
  rcases List.mem_append.1 hn with hn | hn
  · exact hs n (Task.mem_names_of_visible hn)
  · exact absurd (List.mem_singleton.1 hn) hne

theorem within_blockTurns {Q : Text → Prop} {s : RunState} (hs : s.Within Q)
    {b : Block × Option Template} (ht : ∀ t ∈ blockTurns gen p s b, t.Tracks gen) :
    ∀ t ∈ blockTurns gen p s b, t.state.Within Q := by
  obtain ⟨b, o⟩ := b
  intro t hm
  cases b with
  | code text line bound =>
    cases o with
    | none => cases hm
    | some tpl =>
      rw [blockTurns, List.mem_singleton] at hm
      rw [hm]
      exact (s.quiet_noteHidden _ _).within hs
  | call text line calls bound =>
    rw [blockTurns] at hm ht
    have hcalls := (journey_calls gen p s calls).within
      (fun t hm => ht t (List.mem_append_left _ hm)) (fun t hm => by
        obtain ⟨-, c, f, -, hc⟩ := exists_call_of_mem hm
        exact keeps_of_call hc Q) hs
    rcases List.mem_append.1 hm with hm | hm
    · exact hcalls.1 t hm
    · obtain ⟨vs, -, hm⟩ := mem_follow hm
      unfold continuationTurn at hm
      split at hm
      · cases hm
      · rw [List.mem_singleton] at hm
        rw [hm]
        exact ((RunState.quiet_noteHidden _ _ _).trans (RunState.quiet_say _ _)).within hcalls.2

theorem exists_zip_ofBlocks (gen : Generator) (p : Part) (known : List Text) (b : Block)
    (r : List Block) :
    ∃ o, (b :: r).zip (Template.ofBlocks (p.context gen) known (b :: r)) =
        (b, o) :: r.zip (Template.ofBlocks (p.context gen) (Names.extend known b.bound) r) ∧
      ∀ s, ∀ t ∈ blockTurns gen p s (b, o),
        t.part = p ∧ t.task.Serves (p.context gen) known b := by
  cases b with
  | code text line bound =>
    refine ⟨_, rfl, fun s t hm => ?_⟩
    rw [blockTurns, List.mem_singleton] at hm
    rw [hm]
    exact ⟨rfl, .code⟩
  | call text line calls bound =>
    refine ⟨_, rfl, fun s t hm => ?_⟩
    rw [blockTurns] at hm
    rcases List.mem_append.1 hm with hm | hm
    · obtain ⟨hp, c, f, hc, ht⟩ := exists_call_of_mem hm
      exact ⟨hp, ht ▸ .call hc⟩
    · obtain ⟨vs, -, hm⟩ := mem_follow hm
      unfold continuationTurn at hm
      split at hm
      · cases hm
      · rw [List.mem_singleton] at hm
        rw [hm]
        exact ⟨rfl, .continuation⟩

theorem knownAfter_concat (known : List Text) (pre : List Block) (b : Block) :
    Template.knownAfter known (pre ++ [b]) =
      Names.extend (Template.knownAfter known pre) b.bound :=
  List.foldl_concat ..

theorem mem_knownAfter_visible {g : Globals} {l : Language} {pre : List Block} {n : Text}
    (h : n ∈ Template.knownAfter (g.visible l) pre) : n ∈ Template.knownAfter g.names pre := by
  rw [Template.mem_knownAfter] at h ⊢
  exact h.imp_left Task.mem_names_of_visible

structure IsTurnOf (gen : Generator) (p : Part) (g : Globals) (pre : List Block) (b : Block)
    (t : Turn) : Prop where
  part : t.part = p
  serves : t.task.Serves (p.context gen)
    (Template.knownAfter (g.visible p.segment.language) pre) b
  within : t.state.Within (· ∈ Template.knownAfter g.names pre)

theorem isTurnOf_of_mem {g : Globals} (pre : List Block) {rest : List Block} {s : RunState}
    (hs : s.Within (· ∈ Template.knownAfter g.names pre))
    (ht : ∀ t ∈ blocksTurns gen p s (rest.zip (Template.ofBlocks (p.context gen)
      (Template.knownAfter (g.visible p.segment.language) pre) rest)), t.Tracks gen) {t : Turn}
    (hm : t ∈ blocksTurns gen p s (rest.zip (Template.ofBlocks (p.context gen)
      (Template.knownAfter (g.visible p.segment.language) pre) rest))) :
    ∃ before b after, pre ++ rest = before ++ b :: after ∧ IsTurnOf gen p g before b t := by
  induction rest generalizing pre s with
  | nil => cases hm
  | cons b r ih =>
    obtain ⟨o, hz, hserves⟩ := exists_zip_ofBlocks gen p
      (Template.knownAfter (g.visible p.segment.language) pre) b r
    rw [hz, ← knownAfter_concat] at ht hm
    rw [blocksTurns] at ht hm
    have htb : ∀ t ∈ blockTurns gen p s (b, o), t.Tracks gen :=
      fun t hm => ht t (List.mem_append_left _ hm)
    rcases List.mem_append.1 hm with hm | hm
    · obtain ⟨hp, hv⟩ := hserves s t hm
      exact ⟨pre, b, r, rfl, hp, hv, within_blockTurns hs htb t hm⟩
    · obtain ⟨a, ha, hm⟩ := mem_follow hm
      -- The block adds no name to the globals but those that it binds.
      have hnext : (runBlock gen (p.context gen) s (b, o)).state.Within
          (· ∈ Template.knownAfter g.names (pre ++ [b])) := by
        have hgrow : ∀ n, n ∈ Template.knownAfter g.names (pre ++ [b]) ↔
            n ∈ Template.knownAfter g.names pre ∨ n ∈ b.bound := by
          intro n
          rw [knownAfter_concat]
          exact Names.mem_extend
        refine ((journey_block gen p s (b, o)).within htb (fun t hm => ?_)
          (hs.imp fun n hn => (hgrow n).2 (.inl hn))).2
        intro hst u hu n hn hne
        rcases (hserves s t hm).2.tracked hu hn hne with hn | hn | hn
        · exact hst n hn
        · exact (hgrow n).2 (.inl (mem_knownAfter_visible hn))
        · exact (hgrow n).2 (.inr hn)
      have hfollow : ∀ t ∈ blocksTurns gen p (runBlock gen (p.context gen) s (b, o)).state
          (r.zip (Template.ofBlocks (p.context gen)
            (Template.knownAfter (g.visible p.segment.language) (pre ++ [b])) r)),
          t.Tracks gen := by
        intro t hm
        refine ht t (List.mem_append_right _ ?_)
        rw [follow, ha]
        exact hm
      rw [List.append_cons]
      exact ih (pre ++ [b]) hnext hfollow hm

end Execution

structure Template.Covers (p : Program) (gen : Generator) (part : Part) (g : Globals)
    (tpl : Template) (known : List Text) (text : Text) (line : Nat) (bound : List Text) :
    Prop where
  block : .code text line bound ∈ part.plan.blocks
  planned : tpl = .ofCode (part.context gen) known text line bound
  before : ∀ n ∈ known, p.BoundBefore line n
  visible : ∀ n ∈ g.visible part.segment.language, n ∈ known
  earlier : ∀ b ∈ part.plan.blocks, b.firstLine < line → ∀ n ∈ b.bound, n ∈ known

/-- The turn finds names from lines behind it, and so does the template that it fills. -/
structure Turn.Sourced (p : Program) (gen : Generator) (t : Turn) : Prop where
  globals : t.state.Within (p.BoundBefore t.slot.line)
  covers : ∀ tpl, t.task = .code tpl →
    ∃ known text line bound, tpl.Covers p gen t.part t.state.globals known text line bound

namespace Program
variable {p : Program} {part : Part}

theorem Compiled.boundBefore_of_known (h : p.Compiled) (hp : part ∈ p.parts)
    {pre post : List Block} {b : Block} (hb : part.plan.blocks = pre ++ b :: post)
    {names : List Text} (hn : ∀ n ∈ names, p.BoundBefore part.segment.firstLine n) :
    ∀ n ∈ Template.knownAfter names pre, p.BoundBefore b.firstLine n := by
  have hm : b ∈ part.plan.blocks := hb ▸ List.mem_append_right _ List.mem_cons_self
  have hfirst := Plan.firstLine_mem_range (h.analyzed part hp) (h.planned part hp) hm
  intro n hm
  rcases Template.mem_knownAfter.1 hm with hm | ⟨c, hc, hm⟩
  · exact (hn n hm).mono hfirst.1
  · obtain ⟨e, he, hl, hen⟩ :=
      Plan.exists_binding_before (h.analyzed part hp) (h.planned part hp) hb hc hm
    exact ⟨part, hp, e, he, hl, hen⟩

theorem Compiled.covers (h : p.Compiled) (hp : part ∈ p.parts) {gen : Generator}
    {pre post : List Block} {text : Text} {line : Nat} {bound : List Text} {g : Globals}
    (hb : part.plan.blocks = pre ++ .code text line bound :: post)
    (hk : ∀ n ∈ Template.knownAfter (g.visible part.segment.language) pre, p.BoundBefore line n)
    {s : RunState} (hs : s.Within (· ∈ Template.knownAfter g.names pre)) :
    (Template.ofCode (part.context gen)
        (Template.knownAfter (g.visible part.segment.language) pre) text line bound).Covers
      p gen part s.globals (Template.knownAfter (g.visible part.segment.language) pre)
      text line bound where
  block := hb ▸ List.mem_append_right _ List.mem_cons_self
  planned := rfl
  before := hk
  visible := by
    intro n hn
    obtain ⟨hn, hv⟩ := List.mem_filter.1 hn
    exact Template.mem_knownAfter.2
      ((Template.mem_knownAfter.1 (hs n hn)).imp_left fun hg => List.mem_filter.2 ⟨hg, hv⟩)
  earlier := by
    intro b hm hl n hn
    have ho := Plan.pairwise_blocks (h.analyzed part hp) (h.planned part hp)
    rw [hb, List.pairwise_append, List.pairwise_cons] at ho
    rw [hb, List.mem_append, List.mem_cons] at hm
    rcases hm with hm | rfl | hm
    · exact Template.mem_knownAfter.2 (.inr ⟨b, hm, hn⟩)
    · exact absurd hl (Nat.lt_irrefl _)
    · exact absurd (ho.2.1.1 b hm) (Nat.lt_asymm hl)

theorem Compiled.sourced_part (h : p.Compiled) (hp : part ∈ p.parts) {s : RunState}
    (hs : s.Within (p.BoundBefore part.segment.firstLine))
    (ht : ∀ t ∈ Execution.partTurns (Execution.generatorOf p) s part,
      t.Tracks (Execution.generatorOf p)) :
    ∀ t ∈ Execution.partTurns (Execution.generatorOf p) s part,
      t.Sourced p (Execution.generatorOf p) := by
  have hs := (Execution.quiet_enterPart part s).within hs
  intro t hm
  unfold Execution.partTurns at hm ht
  cases hplan : part.plan with
  | simple =>
    rw [hplan] at hm
    rw [List.mem_singleton.1 hm]
    exact ⟨(RunState.quiet_say _ _).within hs, fun _ hc => (nomatch hc)⟩
  | split blocks own =>
    rw [hplan] at hm ht
    have hblocks : part.plan.blocks = blocks := by rw [hplan]; rfl
    have hnil : (Execution.enterPart s part).Within
        (· ∈ Template.knownAfter (Execution.enterPart s part).globals.names []) :=
      fun n hn => hn
    obtain ⟨pre, b, post, hb, hpart, hserves, hwithin⟩ :=
      Execution.isTurnOf_of_mem [] hnil ht hm
    rw [List.nil_append, ← hblocks] at hb
    have hnames := h.boundBefore_of_known hp hb hs
    have hknown := h.boundBefore_of_known hp hb fun n hn =>
      hs n (Task.mem_names_of_visible (l := part.segment.language) hn)
    have hbm : b ∈ part.plan.blocks := hb ▸ List.mem_append_right _ List.mem_cons_self
    refine ⟨?_, fun tpl htpl => ?_⟩
    · rw [Turn.slot, hserves.line fun c hc =>
        (Plan.known_of_call (h.planned part hp) hbm hc).2]
      exact hwithin.imp hnames
    · rw [htpl] at hserves
      obtain ⟨text, line, bound, rfl, rfl⟩ := hserves.exists_of_code
      rw [hpart]
      exact ⟨_, text, line, bound, h.covers hp hb hknown hwithin⟩

theorem Compiled.keeps_of_sourced (h : p.Compiled) {t : Turn} (hp : t.part ∈ p.parts)
    (ht : t.Planned (Execution.generatorOf p)) (hs : t.Sourced p (Execution.generatorOf p)) :
    t.Keeps (Execution.generatorOf p) (p.BoundBefore t.part.segment.stop) := by
  obtain ⟨part, task, state⟩ := t
  intro hw u hu n hn hne
  have hbound : ∀ b ∈ part.plan.blocks, n ∈ b.bound → p.BoundBefore part.segment.stop n := by
    intro b hb hn
    obtain ⟨ls, hl⟩ := Plan.madeOf_of_mem (h.planned part hp) hb
    obtain ⟨e, he, -, rfl⟩ := hl.exists_binding hn
    exact h.boundBefore_stop hp he
  have hline : ∀ b ∈ part.plan.blocks, b.firstLine ≤ part.segment.stop := fun b hb =>
    Nat.le_of_lt (Plan.firstLine_mem_range (h.analyzed part hp) (h.planned part hp) hb).2
  cases task with
  | segment =>
    cases hu
    rcases Names.mem_extend.1 hn with hn | hn
    · exact hw n (Task.mem_names_of_visible hn)
    · obtain ⟨b, hb, rfl⟩ := List.mem_map.1 (Names.mem_distinct.1 hn)
      exact h.boundBefore_stop hp hb
  | code tpl =>
    obtain ⟨known, text, line, bound, hcovers⟩ := hs.covers tpl rfl
    obtain ⟨preamble, rfl⟩ := Template.eq_of_fill hu
    rw [hcovers.planned] at hn
    rcases Names.mem_extend.1 hn with hn | hn
    · exact (hcovers.before n hn).mono (hline _ hcovers.block)
    · exact hbound _ hcovers.block hn
  | call c f => exact Execution.keeps_of_call rfl _ hw u hu n hn hne
  | continuation text line calls returns bound =>
    cases hu
    rcases Names.mem_extend.1 hn with hn | hn
    · exact hw n (Task.mem_names_of_visible hn)
    · exact hbound _ ht.1 hn

theorem Compiled.sourced_parts (h : p.Compiled) {ps : List Part} (hp : ∀ part ∈ ps, part ∈ p.parts)
    (ho : ps.Pairwise fun a b => a.segment.stop ≤ b.segment.firstLine) {s : RunState}
    (hs : ∀ part ∈ ps, s.Within (p.BoundBefore part.segment.firstLine))
    (ht : ∀ t ∈ Execution.partsTurns (Execution.generatorOf p) s ps,
      t.Tracks (Execution.generatorOf p)) :
    ∀ t ∈ Execution.partsTurns (Execution.generatorOf p) s ps,
      t.Sourced p (Execution.generatorOf p) := by
  induction ps generalizing s with
  | nil => exact fun _ hm => nomatch hm
  | cons part r ih =>
    rw [List.pairwise_cons] at ho
    have hpart := hp part List.mem_cons_self
    have hfirst := hs part List.mem_cons_self
    rw [Execution.partsTurns] at ht ⊢
    have htp := fun t hm => ht t (List.mem_append_left _ hm)
    have hsourced := h.sourced_part hpart hfirst htp
    intro t hm
    rcases List.mem_append.1 hm with hm | hm
    · exact hsourced t hm
    · obtain ⟨a, ha, hm⟩ := Execution.mem_follow hm
      have hstop := ((Execution.journey_part (Execution.generatorOf p) part s).within htp
        (fun t hm => by
          obtain ⟨he, hplanned⟩ := Execution.planned_partTurns hm
          rw [← he]
          exact h.keeps_of_sourced (he ▸ hpart) hplanned (hsourced t hm))
        (hfirst.imp fun n hn => hn.mono (Nat.le_of_lt part.segment.firstLine_lt_stop))).2
      refine ih (fun q hq => hp q (List.mem_cons_of_mem part hq)) ho.2
        (fun q hq => hstop.imp fun n hn => hn.mono (ho.1 q hq)) (fun t hm => ?_) t hm
      refine ht t (List.mem_append_right _ ?_)
      rw [Execution.follow, ha]
      exact hm

theorem Compiled.sourced (h : p.Compiled) (s : Scheduler)
    (ht : ∀ t ∈ p.turns s, t.Tracks (Execution.generatorOf p)) :
    ∀ t ∈ p.turns s, t.Sourced p (Execution.generatorOf p) := by
  refine h.sourced_parts (fun _ hp => hp) h.ordered (fun part hp => ?_) ht
  exact (Execution.quiet_opening p s).within fun n hn => nomatch hn

end Program

/-- A bare machine, with a first process that leaves the reply. -/
def startWith (r : Reply) : Scheduler := .replying [r]

def namesOf (r : Reply) : Option (List Text) := r.values?.map Catalog.names

namespace Program
variable {p : Program} {a b : Part} {r : Reply} {ns : List Text}

theorem mem_of_values_startWith (hnamed : namesOf r = some ns) {t : Turn}
    (ht : t ∈ p.turns (startWith r)) {g : Globals}
    (hg : t.values? (Execution.generatorOf p) = some g) : ∀ n ∈ g.names, n ∈ ns := by
  obtain ⟨reply, hm | rfl, hv⟩ := exists_of_values ht hg
  · rw [List.mem_singleton.1 hm] at hv
    rw [namesOf, hv] at hnamed
    cases hnamed
    exact fun n hn => hn
  · rw [Reply.values?_default] at hv
    cases hv
    exact fun n hn => nomatch hn

theorem exists_turns_startWith (hp : p.parts = [a, b]) (ha : a.plan = .simple)
    (hb : b.plan = .simple) (hnamed : namesOf r = some ns) :
    ∃ s, p.turns (startWith r) = [Execution.simpleTurn (Execution.opening p (startWith r)) a,
        Execution.simpleTurn s b] ∧
      s.globals.names = Names.extend [] (ns.filter (· != Globals.returnKey)) := by
  obtain ⟨g, hg, hn⟩ := Option.map_eq_some_iff.1 hnamed
  have hq := (Execution.quiet_opening p (startWith r)).trans (Execution.quiet_simpleTurn _ a)
  obtain ⟨hturns, hrun⟩ := Execution.partTurns_simple (Execution.generatorOf p) ha
    (Execution.opening p (startWith r))
  obtain ⟨hresult, hglobals⟩ := RunState.execute_unhindered
    ((Scheduler.unhindered_replying [r] _).congr hq.engine hq.scratch hq.machine)
    (by rw [hq.machine]; exact hg)
    (u := Generator.simpleUnit a.segment a.analysis.bound
      (Execution.enterPart (Execution.opening p (startWith r)) a).globals)
  refine ⟨(Execution.runPart (Execution.generatorOf p) (Execution.opening p (startWith r)) a).state,
    ?_, ?_⟩
  · rw [turns, hp, Execution.partsTurns, hturns, Execution.follow, hrun, Outcome.map, hresult]
    dsimp only
    rw [Execution.partsTurns, (Execution.partTurns_simple _ hb _).1]
    have hlast : ∀ o : Running Unit, Execution.follow o (fun s _ =>
        Execution.partsTurns (Execution.generatorOf p) s []) = [] := by
      rintro ⟨s, r⟩
      cases r <;> rfl
    rw [hlast]
    rfl
  · rw [hrun, Outcome.map]
    dsimp only
    rw [hglobals, hq.globals, Globals.names_merge, hn]
    rfl

theorem exists_second_turn (hp : p.parts = [a, b]) (ha : a.plan = .simple)
    (hb : b.plan = .simple) (hnamed : namesOf r = some ns)
    (hbound : ∀ n ∈ ns, n ∈ a.analysis.bound)
    (hvalid : ∀ n ∈ ns, b.segment.language.validName n = true) :
    ∃ s, Execution.simpleTurn s b ∈ p.turns (startWith r) ∧
      (Execution.simpleTurn s b).state.globals.names =
        Names.extend [] (ns.filter (· != Globals.returnKey)) ∧
      ∀ t ∈ p.turns (startWith r), t.Tracks (Execution.generatorOf p) := by
  obtain ⟨s, hturns, hs⟩ := exists_turns_startWith hp ha hb hnamed
  have hq := Execution.quiet_simpleTurn s b
  refine ⟨s, hturns ▸ List.mem_cons_of_mem _ List.mem_cons_self, by rw [hq.globals, hs], ?_⟩
  intro t ht u g hu hg n hn
  have hmem := mem_of_values_startWith hnamed ht hg n hn
  by_cases hret : n = Globals.returnKey
  · exact .inr hret
  left
  rw [hturns] at ht
  simp only [List.mem_cons, List.not_mem_nil, or_false] at ht
  rcases ht with rfl | rfl
  · cases hu
    exact Names.mem_extend.2 (.inr (hbound n hmem))
  · cases hu
    refine Names.mem_extend.2 (.inl (List.mem_filter.2 ⟨?_, hvalid n hmem⟩))
    rw [hq.globals, hs]
    exact Names.mem_extend.2 (.inr (List.mem_filter.2 ⟨hmem, by simpa using hret⟩))

theorem exists_two_parts {α : Type} {e : Engine} {source : Text} {f : Part → α} {x y : α}
    (h : (compile e source).toOption.map (fun p => p.parts.map f) = some [x, y]) :
    ∃ p a b, compile e source = .ok p ∧ p.parts = [a, b] ∧ f a = x ∧ f b = y := by
  obtain ⟨p, hc, hparts⟩ := exists_of_compile h
  obtain ⟨a, rest, hp, ha, hrest⟩ := List.map_eq_cons_iff.1 hparts
  obtain ⟨b, last, rfl, hb, hlast⟩ := List.map_eq_cons_iff.1 hrest
  rw [List.map_eq_nil_iff.1 hlast] at hp
  exact ⟨p, a, b, hc, hp, ha, hb⟩

end Program

namespace Task

def binds (p : Part) : Task → List Text
  | segment => p.analysis.bound
  | code t => (p.plan.blocks.filter (·.firstLine == t.firstLine)).flatMap Block.bound
  | call _ _ => [Globals.returnKey]
  | continuation _ _ _ _ bound => bound

/-- Of the names that the unit could declare before its code, it leaves out none. -/
def DeclaresAll (gen : Generator) (p : Part) (g : Globals) : Task → Prop
  | segment =>
    p.segment.language.declarable p.analysis.bound (g.visible p.segment.language) =
      g.visible p.segment.language
  | code t => (∀ n ∈ g.visible p.segment.language, n ∈ t.placeholders) ∧
    ∀ b ∈ p.plan.blocks, b.firstLine < t.firstLine → ∀ n ∈ b.bound, n ∈ t.placeholders
  | call _ f => f.language.declarable [] (g.visible f.language) = g.visible f.language
  | continuation _ line _ _ bound =>
    p.segment.language.declarable bound (g.visible p.segment.language) =
        g.visible p.segment.language ∧
      ∀ b ∈ (p.context gen).fallbacks line, b.1 ∉ bound

end Task

theorem Language.declarable_eq_self {l : Language} {skip names : List Text}
    (h : ∀ n ∈ names, n ∉ skip) : l.declarable skip names = names := by
  refine List.filter_eq_self.2 fun n hn => ?_
  have hc : skip.contains n = false := by simpa using h n hn
  rw [hc, Bool.and_false]
  rfl

namespace Program
variable {p : Program}

theorem returnKey_not_mem {s : Scheduler} {t : Turn} (h : t ∈ p.turns s) :
    Globals.returnKey ∉ t.state.globals.names := by
  obtain ⟨i, rfl⟩ := List.get_of_mem h
  rw [globals_turn p s i]
  exact History.returnKey_not_mem_table _

theorem Compiled.exists_of_bound (h : p.Compiled) {part : Part} (hp : part ∈ p.parts) {b : Block}
    (hb : b ∈ part.plan.blocks) {n : Text} (hn : n ∈ b.bound) :
    ∃ e ∈ part.analysis.bindings, b.firstLine ≤ e.line ∧ e.name = n := by
  obtain ⟨ls, hl⟩ := Plan.madeOf_of_mem (h.planned part hp) hb
  exact hl.exists_binding hn

theorem Compiled.exists_of_binds (h : p.Compiled) (gen : Generator) {t : Turn}
    (hp : t.part ∈ p.parts) (ht : t.Planned gen) {n : Text} (hn : n ∈ t.task.binds t.part) :
    n = Globals.returnKey ∨
      ∃ e ∈ t.part.analysis.bindings, t.slot.line ≤ e.line ∧ e.name = n := by
  obtain ⟨part, task, state⟩ := t
  cases task with
  | segment =>
    obtain ⟨e, he, hen⟩ := List.mem_map.1 (Names.mem_distinct.1 hn)
    exact .inr ⟨e, he, (h.line_of_binding hp he).1, hen⟩
  | code tpl =>
    obtain ⟨b, hb, hn⟩ := List.mem_flatMap.1 hn
    obtain ⟨hb, hf⟩ := List.mem_filter.1 hb
    obtain ⟨e, he, hl, hen⟩ := h.exists_of_bound hp hb hn
    have hf : b.firstLine = tpl.firstLine := by simpa using hf
    have hline : tpl.firstLine ≤ e.line := hf ▸ hl
    exact .inr ⟨e, he, hline, hen⟩
  | call c f => exact .inl (List.mem_singleton.1 hn)
  | continuation text line calls returns bound => exact .inr (h.exists_of_bound hp ht.1 hn)

theorem declaresAll_of_sourced {e : Engine} {source : Text} (hc : compile e source = .ok p)
    {t : Turn} (hp : t.part ∈ p.parts) (hplanned : t.Planned (Execution.generatorOf p))
    (hsourced : t.Sourced p (Execution.generatorOf p))
    (hret : Globals.returnKey ∉ t.state.globals.names) (hlang : t.slot.language = .javascript) :
    (∀ n ∈ t.task.binds t.part, n ∉ t.state.globals.names) ∧
      t.task.DeclaresAll (Execution.generatorOf p) t.part t.state.globals := by
  have h := compiled_of_compile hc
  obtain ⟨part, task, state⟩ := t
  -- A name that the part binds from the line on is not bound before it.
  have hfresh : part.segment.language = .javascript → ∀ n k, p.BoundBefore k n →
      ¬ ∃ e ∈ part.analysis.bindings, k ≤ e.line ∧ e.name = n := by
    rintro hl n k hn ⟨e, he, hk, rfl⟩
    exact not_boundBefore hc hp (by rw [hl]; rfl) he hk hn
  have hbinds : part.segment.language = .javascript →
      ∀ n ∈ task.binds part, n ∉ state.globals.names := by
    intro hl n hn hg
    rcases h.exists_of_binds (Execution.generatorOf p) hp hplanned hn with rfl | hx
    · exact hret hg
    · exact hfresh hl n _ (hsourced.globals n hg) hx
  have hvisible : ∀ l : Language, (∀ n ∈ task.binds part, n ∉ state.globals.names) →
      ∀ n ∈ state.globals.visible l, n ∉ task.binds part :=
    fun l hb n hn hs => hb n hs (Task.mem_names_of_visible hn)
  cases task with
  | segment =>
    have hb := hbinds hlang
    exact ⟨hb, Language.declarable_eq_self (hvisible _ hb)⟩
  | call c f =>
    refine ⟨fun n hn => ?_, Language.declarable_eq_self fun _ _ => List.not_mem_nil⟩
    rw [List.mem_singleton.1 hn]
    exact hret
  | continuation text line calls returns bound =>
    have hb := hbinds hlang
    refine ⟨hb, Language.declarable_eq_self (hvisible _ hb), fun b hm hn => ?_⟩
    obtain ⟨d, hd, rfl⟩ := List.mem_map.1 hm
    obtain ⟨hd, hl, -⟩ := Analysis.lastBefore?_mem (Analysis.mem_bindingsBefore.1 hd)
    exact hfresh hlang d.name line ⟨part, hp, d, hd, hl, rfl⟩
      (h.exists_of_bound hp hplanned.1 hn)
  | code tpl =>
    obtain ⟨known, text, line, bound, hcovers⟩ := hsourced.covers tpl rfl
    have hl : part.segment.language = .javascript := by
      rw [hcovers.planned] at hlang
      exact hlang
    have hall : tpl.placeholders = known := by
      rw [hcovers.planned]
      refine Language.declarable_eq_self fun n hn hm => ?_
      exact hfresh hl n line (hcovers.before n hn) (h.exists_of_bound hp hcovers.block hm)
    have hfirst : tpl.firstLine = line := by rw [hcovers.planned]; rfl
    refine ⟨hbinds hl, ?_, ?_⟩
    · rw [hall]
      exact hcovers.visible
    · rw [hall, hfirst]
      exact hcovers.earlier

/-- In a run whose results hold what their units track, each unit finds globals from lines
before it. Code in a language that declares once has no name of these to bind, and so
its unit leaves out no declaration. -/
theorem globals_bound_before {e : Engine} {source : Text} (hc : compile e source = .ok p)
    (s : Scheduler) (ht : ∀ t ∈ p.turns s, t.Tracks (Execution.generatorOf p)) {t : Turn}
    (hm : t ∈ p.turns s) {u : GuestUnit} (hu : t.unit? (Execution.generatorOf p) = .ok u) :
    (∀ n ∈ t.state.globals.names, p.BoundBefore u.firstLine n) ∧
      (u.language = .javascript →
        (∀ n ∈ t.task.binds t.part, n ∉ t.state.globals.names) ∧
          t.task.DeclaresAll (Execution.generatorOf p) t.part t.state.globals) := by
  obtain ⟨hp, hplanned⟩ := planned_of_mem hm
  have hsourced := (compiled_of_compile hc).sourced s ht t hm
  have hslot : u.slot = t.slot := Task.slot_of_unit hu
  have hline : u.firstLine = t.slot.line := congrArg Slot.line hslot
  refine ⟨hline ▸ hsourced.globals, fun hjs => ?_⟩
  have hlang : t.slot.language = .javascript := (congrArg Slot.language hslot).symm.trans hjs
  exact declaresAll_of_sourced hc hp hplanned hsourced (returnKey_not_mem hm) hlang

/-- A global of one language that the code of the other runs beside. -/
def besideSource : Text := "[py]\nx = 1\n[js]\nlet y = 2"

def besideReply : Reply := { result := some (Text.Utf8.encode "\x7b\"x\":1\x7d") }

def besideStart : Scheduler := startWith besideReply

theorem globals_bound_before_beside :
    ∃ p t u, compile .standard besideSource = .ok p ∧ t ∈ p.turns besideStart ∧
      t.unit? (Execution.generatorOf p) = .ok u ∧ u.language = .javascript ∧
      t.state.globals.names = ["x".toList] ∧ t.task.binds t.part = ["y".toList] ∧
      p.BoundBefore u.firstLine "x" ∧
      t.task.DeclaresAll (Execution.generatorOf p) t.part t.state.globals := by
  have h : (compile .standard besideSource).toOption.map (fun p => p.parts.map fun part =>
      (part.plan, part.analysis.bound, part.segment.language)) =
        some [(Plan.simple, ["x".toList], Language.python),
          (Plan.simple, ["y".toList], Language.javascript)] := by
    decide +kernel
  have hnamed : namesOf besideReply = some ["x".toList] := by decide +kernel
  obtain ⟨p, a, b, hc, hp, ha, hb⟩ := exists_two_parts h
  simp only [Prod.mk.injEq] at ha hb
  obtain ⟨hap, hab, -⟩ := ha
  obtain ⟨hbp, hbb, hbl⟩ := hb
  obtain ⟨s, hm, hnames, htracks⟩ := exists_second_turn hp hap hbp hnamed
    (by rw [hab]; exact fun n hn => hn) (by rw [hbl]; decide)
  obtain ⟨hbefore, hjs⟩ := globals_bound_before hc besideStart htracks hm rfl
  exact ⟨p, _, _, hc, hm, rfl, hbl, hnames, hbb, hbefore _ (hnames ▸ List.mem_cons_self),
    (hjs hbl).2⟩

end Program
end Polyglot
