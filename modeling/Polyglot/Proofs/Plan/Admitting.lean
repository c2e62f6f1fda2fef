import Polyglot.Proofs.Call.Outermost
import Polyglot.Proofs.Plan.Groups

/-!
# Lines that a plan admits

A line of a segment passes if all its calls are closed, if it may hold calls where it
stands, and if its outermost calls have the arguments that their functions take. A
segment has a plan exactly if all its lines but the imports pass, and otherwise the
first that does not says why.
-/
namespace Polyglot

def Blames {α β ε : Type} (f : α → Except ε β) (xs : List α) (err : ε) : Prop :=
  ∃ pre x post, xs = pre ++ x :: post ∧ (∀ y ∈ pre, ∃ b, f y = .ok b) ∧ f x = .error err

theorem not_blames_nil {α β ε : Type} {f : α → Except ε β} {err : ε} : ¬ Blames f [] err := by
  rintro ⟨pre, x, post, h, -⟩
  exact absurd h.symm (by simp)

theorem blames_cons {α β ε : Type} {f : α → Except ε β} {x : α} {r : List α} {err : ε} :
    Blames f (x :: r) err ↔ f x = .error err ∨ (∃ b, f x = .ok b) ∧ Blames f r err := by
  constructor
  · rintro ⟨pre, y, post, h, hpre, hy⟩
    cases pre with
    | nil =>
      obtain ⟨rfl, -⟩ := List.cons.inj h
      exact .inl hy
    | cons z pre =>
      obtain ⟨rfl, rfl⟩ := List.cons.inj h
      obtain ⟨hz, hpre⟩ := List.forall_mem_cons.1 hpre
      exact .inr ⟨hz, pre, y, post, rfl, hpre, hy⟩
  · rintro (hx | ⟨hx, pre, y, post, rfl, hpre, hy⟩)
    · exact ⟨[], x, r, rfl, nofun, hx⟩
    · exact ⟨x :: pre, y, post, rfl, List.forall_mem_cons.2 ⟨hx, hpre⟩, hy⟩

namespace CallSite
open Token

variable {l : Language} {known : Text → Bool} {line : Text} {number : Nat} {cs : List CallSite}

theorem Outermost.pairwise_index (h : Outermost l known line number cs) :
    cs.Pairwise fun c d => ∀ i j i' j', CallAt l known line number (tokenize l line) i j c →
      CallAt l known line number (tokenize l line) i' j' d → i < i' := by
  refine h.ordered.imp ?_
  intro c d hle i j i' j' hc hd
  have hlt := hc.start_lt rfl
  obtain ⟨t, ht, hs⟩ := Option.map_eq_some_iff.1 hc.start
  obtain ⟨u, hu, he⟩ := Option.map_eq_some_iff.1 hd.start
  rcases Nat.lt_trichotomy i i' with hi | rfl | hi
  · exact hi
  · rw [ht, Option.some_inj] at hu
    rw [hu] at hs
    omega
  · have := places_of_lt rfl hu ht hi
    omega

theorem Outermost.first_le {c : CallSite} {i j k : Nat}
    (h : Outermost l known line number (c :: cs))
    (hc : CallAt l known line number (tokenize l line) i j c)
    (hk : HeadAt l known (tokenize l line) k) : i ≤ k := by
  obtain ⟨d, hd, a, b, hdcall, hak, -⟩ := h.exists_call hk
  rcases List.mem_cons.1 hd with rfl | hd
  · exact Nat.le_trans (Nat.le_of_eq (hc.index_eq rfl hdcall)) hak
  · have := List.rel_of_pairwise_cons h.pairwise_index hd i j a b hc hdcall
    omega

end CallSite

namespace Plan
open Token CallSite

variable {l : Language} {functions : FunctionTable} {own : List Text} {ts : List Token}
  {x : Line × Role} {i j : Nat} {c : CallSite} {cs : List CallSite} {err : EngineError}

/-- The parts between commas that the call has in its brackets, without the empty ones. -/
def argumentCount (ts : List Token) (i j : Nat) : Nat :=
  (splitTopLevel ',' ((ts.take j).drop (i + 2))).countP (!·.isEmpty)

/-- The call from the head at `i` has the arguments that its function takes. -/
def Fits (functions : FunctionTable) (ts : List Token) (i : Nat) : Prop :=
  ∃ t j f, ts[i]? = some t ∧ matchingClose ts (i + 1) = some j ∧
    functions.find? t.text = some f ∧ f.arity = argumentCount ts i j

theorem isSome_extent (line : Text) (part : List Token) :
    (extent line part).isSome = !part.isEmpty := by
  cases part with
  | nil => rfl
  | cons a r =>
    rw [extent, List.getLast?_eq_some_getLast (List.cons_ne_nil a r)]
    rfl

theorem checkArity_eq {line : Text} {number : Nat}
    (h : CallAt l (knows functions own) line number ts i j c) :
    ∃ t f, ts[i]? = some t ∧ functions.find? t.text = some f ∧
      checkArity functions c = if f.arity = argumentCount ts i j then .ok ()
        else .error (.arity ⟨t.text, f.arity, argumentCount ts i j, number⟩) := by
  obtain ⟨t, ht, hh⟩ := h.head
  have hc := h.callee
  rw [ht, Option.map_some, Option.some_inj] at hc
  have hk := (knows_iff.1 (isHead_iff.1 hh).1).1
  rw [Catalog.contains, Option.isSome_iff_exists] at hk
  obtain ⟨f, hf⟩ := hk
  have hlen : c.args.length = argumentCount ts i j := by
    rw [h.args, List.length_filterMap_eq_countP, argumentCount]
    simp only [isSome_extent]
  exact ⟨t, f, ht, hf, by rw [checkArity, ← hc, hf, hlen, h.number]⟩

theorem checkArity_ok_iff {line : Text} {number : Nat}
    (h : CallAt l (knows functions own) line number ts i j c) :
    (∃ u, checkArity functions c = .ok u) ↔ Fits functions ts i := by
  obtain ⟨t, f, ht, hf, he⟩ := checkArity_eq h
  rw [he]
  constructor
  · rintro ⟨u, hu⟩
    by_cases hn : f.arity = argumentCount ts i j
    · exact ⟨t, j, f, ht, h.close, hf, hn⟩
    · rw [if_neg hn] at hu
      cases hu
  · rintro ⟨t', j', f', ht', hj', hf', hn⟩
    obtain rfl := Option.some_inj.1 (ht.symm.trans ht')
    obtain rfl := Option.some_inj.1 (h.close.symm.trans hj')
    obtain rfl := Option.some_inj.1 (hf.symm.trans hf')
    exact ⟨(), if_pos hn⟩

theorem checkArities_ok_iff : checkArities functions cs = .ok () ↔
    ∀ c ∈ cs, ∃ u, checkArity functions c = .ok u := by
  induction cs with
  | nil => exact ⟨fun _ => nofun, fun _ => rfl⟩
  | cons c r ih =>
    rw [checkArities, List.forall_mem_cons]
    cases checkArity functions c with
    | ok u => exact ih.trans ⟨fun h => ⟨⟨u, rfl⟩, h⟩, And.right⟩
    | error e => exact ⟨nofun, fun h => nomatch h.1⟩

theorem checkArities_error_iff :
    checkArities functions cs = .error err ↔ Blames (checkArity functions) cs err := by
  induction cs with
  | nil => exact ⟨nofun, fun h => absurd h not_blames_nil⟩
  | cons c r ih =>
    rw [checkArities, blames_cons]
    cases checkArity functions c with
    | ok u => exact ih.trans ⟨fun h => .inr ⟨⟨u, rfl⟩, h⟩, fun h => h.elim nofun And.right⟩
    | error e =>
      refine ⟨fun h => .inl (congrArg Except.error (Except.error.inj h)), ?_⟩
      rintro (h | ⟨⟨u, hu⟩, -⟩)
      · exact congrArg Except.error (Except.error.inj h)
      · cases hu

def MayCall (l : Language) (x : Line × Role) : Prop :=
  x.2 = .topLevel ∧ x.1.opensBlock l = false

/-- All calls of the line are closed, those that it has may be there, and the outermost
have the arguments that their functions take. -/
structure Admits (l : Language) (functions : FunctionTable) (own : List Text)
    (x : Line × Role) : Prop where
  closed : ∀ i, HeadAt l (knows functions own) (tokenize l x.1.text) i →
    ∃ j, matchingClose (tokenize l x.1.text) (i + 1) = some j
  placed : ∀ i, HeadAt l (knows functions own) (tokenize l x.1.text) i → MayCall l x
  fits : ∀ i, HeadAt l (knows functions own) (tokenize l x.1.text) i →
    Outer l (knows functions own) (tokenize l x.1.text) i →
    Fits functions (tokenize l x.1.text) i

/-- Why a line does not pass: its first call that is left open; else its first call, if
it may not hold calls; else its first outermost call with other arguments than its
function takes. -/
inductive Refuses (l : Language) (functions : FunctionTable) (own : List Text)
    (x : Line × Role) : EngineError → Prop
  | unclosed {i : Nat} {t : Token} (ht : (tokenize l x.1.text)[i]? = some t)
    (h : LeftOpen l (knows functions own) (tokenize l x.1.text) i)
    (hfirst : ∀ k < i, ¬ LeftOpen l (knows functions own) (tokenize l x.1.text) k) :
    Refuses l functions own x (.layout ⟨.unclosedCall t.text, x.1.number⟩)
  | inBlock {i : Nat} {t : Token} (ht : (tokenize l x.1.text)[i]? = some t)
    (hclosed : ∀ k, ¬ LeftOpen l (knows functions own) (tokenize l x.1.text) k)
    (h : HeadAt l (knows functions own) (tokenize l x.1.text) i)
    (hfirst : ∀ k < i, ¬ HeadAt l (knows functions own) (tokenize l x.1.text) k)
    (hplace : ¬ MayCall l x) :
    Refuses l functions own x (.layout ⟨.callInBlock t.text, x.1.number⟩)
  | arity {i j : Nat} {t : Token} {f : FunctionDef} (ht : (tokenize l x.1.text)[i]? = some t)
    (hclosed : ∀ k, ¬ LeftOpen l (knows functions own) (tokenize l x.1.text) k)
    (hplace : MayCall l x)
    (h : HeadAt l (knows functions own) (tokenize l x.1.text) i)
    (hout : Outer l (knows functions own) (tokenize l x.1.text) i)
    (hfirst : ∀ k < i, HeadAt l (knows functions own) (tokenize l x.1.text) k →
      Outer l (knows functions own) (tokenize l x.1.text) k →
      Fits functions (tokenize l x.1.text) k)
    (hj : matchingClose (tokenize l x.1.text) (i + 1) = some j)
    (hf : functions.find? t.text = some f)
    (hn : f.arity ≠ argumentCount (tokenize l x.1.text) i j) :
    Refuses l functions own x
      (.arity ⟨t.text, f.arity, argumentCount (tokenize l x.1.text) i j, x.1.number⟩)

theorem mayCall_iff : MayCall l x ↔ (x.2 != .topLevel || x.1.opensBlock l) = false := by
  rw [MayCall, Bool.or_eq_false_iff, bne_eq_false_iff_eq]

theorem callsOf_of_error {e : LayoutError}
    (h : CallSite.onLine l functions own x.1.number x.1.text = .error e) :
    callsOf l functions own x = .error (.layout e) := by
  rw [callsOf, h]

theorem callsOf_of_nil (h : CallSite.onLine l functions own x.1.number x.1.text = .ok []) :
    callsOf l functions own x = .ok [] := by
  rw [callsOf, h]

theorem callsOf_of_not_mayCall
    (h : CallSite.onLine l functions own x.1.number x.1.text = .ok (c :: cs))
    (hp : ¬ MayCall l x) :
    callsOf l functions own x = .error (.layout ⟨.callInBlock c.callee, x.1.number⟩) := by
  rw [mayCall_iff, Bool.not_eq_false] at hp
  rw [callsOf, h]
  simp only [hp, if_true]

theorem callsOf_of_mayCall
    (h : CallSite.onLine l functions own x.1.number x.1.text = .ok (c :: cs))
    (hp : MayCall l x) :
    callsOf l functions own x = (checkArities functions (c :: cs)).map fun _ => c :: cs := by
  rw [mayCall_iff] at hp
  rw [callsOf, h]
  simp only [hp, Bool.false_eq_true, if_false]
  cases checkArities functions (c :: cs) <;> rfl

section
variable (ho : Outermost l (knows functions own) x.1.text x.1.number cs)
include ho

theorem fits_iff : (∀ c ∈ cs, ∃ u, checkArity functions c = .ok u) ↔
    ∀ i, HeadAt l (knows functions own) (tokenize l x.1.text) i →
      Outer l (knows functions own) (tokenize l x.1.text) i →
      Fits functions (tokenize l x.1.text) i := by
  constructor
  · intro h i hi hout
    obtain ⟨c, hc, j, hcall⟩ := ho.exists_of_outer hi hout
    exact (checkArity_ok_iff hcall).1 (h c hc)
  · intro h c hc
    obtain ⟨-, i, j, hcall⟩ := ho.call c hc
    exact (checkArity_ok_iff hcall).2 (h i hcall.head (ho.outer hc hcall))

theorem refuses_arity_iff (hp : MayCall l x) :
    Refuses l functions own x err ↔ Blames (checkArity functions) cs err := by
  have hclosed : ∀ k, ¬ LeftOpen l (knows functions own) (tokenize l x.1.text) k :=
    fun _ hk => hk.not_covered ho
  constructor
  · rintro (⟨-, h, -⟩ | ⟨-, -, -, -, hn⟩ | @⟨i, j, t, f, ht, -, -, h, hout, hfirst, hj, hf, hn⟩)
    · exact absurd h (hclosed _)
    · exact absurd hp hn
    · obtain ⟨c, hc, j', hcall⟩ := ho.exists_of_outer h hout
      obtain rfl := Option.some_inj.1 (hj.symm.trans hcall.close)
      obtain ⟨pre, post, rfl⟩ := List.append_of_mem hc
      refine ⟨pre, c, post, rfl, fun d hd => ?_, ?_⟩
      · obtain ⟨-, k, m, hd'⟩ := ho.call d (List.mem_append_left _ hd)
        have hlt := (List.pairwise_append.1 ho.pairwise_index).2.2 d hd c List.mem_cons_self
          k m i j hd' hcall
        exact (checkArity_ok_iff hd').2
          (hfirst k hlt hd'.head (ho.outer (List.mem_append_left _ hd) hd'))
      · obtain ⟨t', f', ht', hf', he⟩ := checkArity_eq hcall
        obtain rfl := Option.some_inj.1 (ht.symm.trans ht')
        obtain rfl := Option.some_inj.1 (hf.symm.trans hf')
        rw [he, if_neg hn]
  · rintro ⟨pre, c, post, rfl, hpre, he⟩
    have hc : c ∈ pre ++ c :: post := List.mem_append_right pre List.mem_cons_self
    obtain ⟨-, i, j, hcall⟩ := ho.call c hc
    obtain ⟨t, f, ht, hf, hx⟩ := checkArity_eq hcall
    rw [hx] at he
    by_cases hn : f.arity = argumentCount (tokenize l x.1.text) i j
    · rw [if_pos hn] at he
      cases he
    · rw [if_neg hn] at he
      cases he
      refine .arity ht hclosed hp hcall.head (ho.outer hc hcall) (fun k hk hhead hout => ?_)
        hcall.close hf hn
      obtain ⟨d, hd, m, hd'⟩ := ho.exists_of_outer hhead hout
      rcases List.mem_append.1 hd with hd | hd
      · exact (checkArity_ok_iff hd').1 (hpre d hd)
      · rcases List.mem_cons.1 hd with rfl | hd
        · have := hcall.index_eq rfl hd'
          omega
        · have := List.rel_of_pairwise_cons (List.pairwise_append.1 ho.pairwise_index).2.1 hd
            i j k m hcall hd'
          omega

theorem outcome_checkArities (hp : MayCall l x) :
    ((∃ calls, ((checkArities functions cs).map fun _ => cs) = .ok calls) ↔
      Admits l functions own x) ∧
    ∀ err, ((checkArities functions cs).map fun _ => cs) = .error err ↔
      Refuses l functions own x err := by
  have hfits := checkArities_ok_iff.trans (fits_iff ho)
  have hblames : ∀ err, checkArities functions cs = .error err ↔
      Refuses l functions own x err := fun err =>
    checkArities_error_iff.trans (refuses_arity_iff ho hp).symm
  generalize checkArities functions cs = o at hfits hblames ⊢
  cases o with
  | ok u =>
    have hadmits : Admits l functions own x :=
      ⟨fun i hi => ho.exists_close hi, fun _ _ => hp, hfits.1 rfl⟩
    exact ⟨⟨fun _ => hadmits, fun _ => ⟨cs, rfl⟩⟩,
      fun err => ⟨nofun, fun h => nomatch (hblames err).2 h⟩⟩
  | error e =>
    refine ⟨⟨nofun, fun h => nomatch hfits.2 h.fits⟩, fun err => ?_⟩
    rw [← hblames]
    simp [Except.map]

end

theorem refuses_inBlock_iff (ho : Outermost l (knows functions own) x.1.text x.1.number (c :: cs))
    (hp : ¬ MayCall l x) :
    Refuses l functions own x err ↔ err = .layout ⟨.callInBlock c.callee, x.1.number⟩ := by
  obtain ⟨-, a, b, hcall⟩ := ho.call c List.mem_cons_self
  obtain ⟨t, ht, hc⟩ := Option.map_eq_some_iff.1 hcall.callee
  constructor
  · rintro (⟨-, h, -⟩ | @⟨i, u, hu, -, h, hfirst, -⟩ | ⟨-, -, hplace⟩)
    · exact absurd ho h.not_covered
    · have hai := ho.first_le hcall h
      have hia : i = a := Nat.le_antisymm (Nat.le_of_not_lt fun hlt => hfirst a hlt hcall.head) hai
      subst hia
      obtain rfl := Option.some_inj.1 (ht.symm.trans hu)
      rw [hc]
    · exact absurd hplace hp
  · rintro rfl
    rw [← hc]
    exact .inBlock ht (fun k hk => hk.not_covered ho) hcall.head
      (fun k hk hhead => absurd (ho.first_le hcall hhead) (Nat.not_le.2 hk)) hp

theorem refuses_unclosed_iff {t : Token} (ht : (tokenize l x.1.text)[i]? = some t)
    (hi : LeftOpen l (knows functions own) (tokenize l x.1.text) i)
    (hfirst : ∀ k < i, ¬ LeftOpen l (knows functions own) (tokenize l x.1.text) k) :
    Refuses l functions own x err ↔ err = .layout ⟨.unclosedCall t.text, x.1.number⟩ := by
  constructor
  · rintro (@⟨k, u, hu, h, hfk⟩ | ⟨-, hclosed, -⟩ | ⟨-, hclosed, -⟩)
    · obtain rfl := hi.unique hfirst h hfk
      obtain rfl := Option.some_inj.1 (ht.symm.trans hu)
      rfl
    · exact absurd hi (hclosed i)
    · exact absurd hi (hclosed i)
  · rintro rfl
    exact .unclosed ht hi hfirst

theorem not_refuses_of_not_head
    (h : ∀ i, ¬ HeadAt l (knows functions own) (tokenize l x.1.text) i) :
    ¬ Refuses l functions own x err := by
  rintro (⟨-, hi, -⟩ | ⟨-, -, hi, -⟩ | ⟨-, -, -, hi⟩)
  · exact h _ hi.head
  · exact h _ hi
  · exact h _ hi

theorem outcome_callsOf (l : Language) (functions : FunctionTable) (own : List Text)
    (x : Line × Role) :
    ((∃ calls, callsOf l functions own x = .ok calls) ↔ Admits l functions own x) ∧
      ∀ err, callsOf l functions own x = .error err ↔ Refuses l functions own x err := by
  obtain ⟨cs, hcs, ho⟩ | ⟨i, t, ht, hi, hfi, he⟩ :=
    outcome_onLine l functions own x.1.number x.1.text
  · cases cs with
    | nil =>
      have hnone : ∀ i, ¬ HeadAt l (knows functions own) (tokenize l x.1.text) i := by
        intro i hi
        obtain ⟨c, hc, -⟩ := ho.exists_call hi
        cases hc
      rw [callsOf_of_nil hcs]
      refine ⟨⟨fun _ => ?_, fun _ => ⟨[], rfl⟩⟩, fun err => ⟨nofun, fun h => ?_⟩⟩
      · exact ⟨fun i hi => absurd hi (hnone i), fun i hi => absurd hi (hnone i),
          fun i hi => absurd hi (hnone i)⟩
      · exact absurd h (not_refuses_of_not_head hnone)
    | cons c r =>
      obtain ⟨-, a, b, hcall⟩ := ho.call c List.mem_cons_self
      by_cases hp : MayCall l x
      · rw [callsOf_of_mayCall hcs hp]
        exact outcome_checkArities ho hp
      · rw [callsOf_of_not_mayCall hcs hp]
        refine ⟨⟨fun ⟨_, h⟩ => (nomatch h), fun h => absurd (h.placed a hcall.head) hp⟩,
          fun err => ?_⟩
        rw [refuses_inBlock_iff ho hp, Except.error.injEq, eq_comm]
  · rw [callsOf_of_error he]
    refine ⟨⟨fun ⟨_, h⟩ => (nomatch h), fun h => ?_⟩, fun err => ?_⟩
    · obtain ⟨j, hj⟩ := h.closed i hi.head
      exact nomatch hi.unclosed.symm.trans hj
    · rw [refuses_unclosed_iff ht hi hfi, Except.error.injEq, eq_comm]

theorem admits_iff : Admits l functions own x ↔ ∃ calls, callsOf l functions own x = .ok calls :=
  (outcome_callsOf l functions own x).1.symm

theorem refuses_iff : Refuses l functions own x err ↔ callsOf l functions own x = .error err :=
  ((outcome_callsOf l functions own x).2 err).symm

/-- Imports pass without a look at their calls. -/
def Passes (l : Language) (functions : FunctionTable) (own : List Text) (x : Line × Role) : Prop :=
  Analysis.isImport l x = false → Admits l functions own x

/-- The first line that does not pass, and why. -/
def Fails (l : Language) (functions : FunctionTable) (own : List Text) (xs : List (Line × Role))
    (err : EngineError) : Prop :=
  ∃ pre x post, xs = pre ++ x :: post ∧ (∀ y ∈ pre, Passes l functions own y) ∧
    Analysis.isImport l x = false ∧ Refuses l functions own x err

def lineCalls (l : Language) (functions : FunctionTable) (own : List Text) (x : Line × Role) :
    Except EngineError (List CallSite) :=
  if Analysis.isImport l x then .ok [] else callsOf l functions own x

theorem passes_iff :
    Passes l functions own x ↔ ∃ calls, lineCalls l functions own x = .ok calls := by
  rw [Passes, lineCalls]
  cases Analysis.isImport l x with
  | true => exact ⟨fun _ => ⟨[], rfl⟩, fun _ => nofun⟩
  | false =>
    rw [admits_iff, if_neg Bool.false_ne_true]
    exact ⟨fun h => h rfl, fun h _ => h⟩

theorem fails_iff {xs : List (Line × Role)} :
    Fails l functions own xs err ↔ Blames (lineCalls l functions own) xs err := by
  have hx : ∀ x, (Analysis.isImport l x = false ∧ Refuses l functions own x err) ↔
      lineCalls l functions own x = .error err := by
    intro x
    rw [lineCalls]
    cases Analysis.isImport l x with
    | true => exact ⟨nofun, nofun⟩
    | false =>
      rw [refuses_iff, if_neg Bool.false_ne_true]
      exact ⟨And.right, fun h => ⟨rfl, h⟩⟩
  simp only [Fails, Blames, passes_iff, hx]

theorem blocksFrom_of_ok {calls : List CallSite}
    (h : lineCalls l functions own x = .ok calls) (a : Analysis) (pending : List Line)
    (r : List (Line × Role)) :
    ∃ pending' g, blocksFrom l functions own a pending (x :: r) =
      (blocksFrom l functions own a pending' r).map g := by
  have hid : ∀ o : Except EngineError (List Block), o = o.map id := fun o => by cases o <;> rfl
  rw [blocksFrom]
  rw [lineCalls] at h
  cases hi : Analysis.isImport l x with
  | true => exact ⟨pending, id, hid _⟩
  | false =>
    rw [hi, if_neg Bool.false_ne_true] at h
    rw [if_neg Bool.false_ne_true, h]
    cases calls with
    | nil =>
      dsimp only
      split
      · exact ⟨pending, id, hid _⟩
      · exact ⟨pending ++ [x.1], id, hid _⟩
    | cons c cs => exact ⟨[], _, rfl⟩

theorem blocksFrom_of_error {a : Analysis} (h : lineCalls l functions own x = .error err)
    (pending : List Line) (r : List (Line × Role)) :
    blocksFrom l functions own a pending (x :: r) = .error err := by
  rw [lineCalls] at h
  cases hi : Analysis.isImport l x with
  | true => rw [hi] at h; cases h
  | false =>
    rw [hi, if_neg Bool.false_ne_true] at h
    rw [blocksFrom, hi, if_neg Bool.false_ne_true, h]

theorem outcome_blocksFrom (l : Language) (functions : FunctionTable) (own : List Text)
    (a : Analysis) (pending : List Line) (xs : List (Line × Role)) :
    ((∃ blocks, blocksFrom l functions own a pending xs = .ok blocks) ↔
      ∀ x ∈ xs, ∃ calls, lineCalls l functions own x = .ok calls) ∧
    ∀ err, blocksFrom l functions own a pending xs = .error err ↔
      Blames (lineCalls l functions own) xs err := by
  induction xs generalizing pending with
  | nil => exact ⟨⟨fun _ => nofun, fun _ => ⟨_, rfl⟩⟩, fun _ => ⟨nofun, (absurd · not_blames_nil)⟩⟩
  | cons x r ih =>
    simp only [List.forall_mem_cons, blames_cons]
    cases hx : lineCalls l functions own x with
    | error e =>
      rw [blocksFrom_of_error hx]
      simp
    | ok calls =>
      obtain ⟨pending', g, hb⟩ := blocksFrom_of_ok hx a pending r
      obtain ⟨hok, herr⟩ := ih pending'
      rw [hb, ← hok]
      simp only [← herr]
      cases blocksFrom l functions own a pending' r <;> simp [Except.map]

theorem outcome_ofSegment (functions : FunctionTable) (s : Segment) (a : Analysis) :
    ((∃ plan, ofSegment functions s a = .ok plan) ↔
      ∀ x ∈ a.lines, Passes s.language functions (ownNames functions s) x) ∧
    ∀ err, ofSegment functions s a = .error err ↔
      Fails s.language functions (ownNames functions s) a.lines err := by
  obtain ⟨hok, herr⟩ := outcome_blocksFrom s.language functions (ownNames functions s) a [] a.lines
  simp only [passes_iff, fails_iff, ← hok, ← herr, ofSegment]
  cases blocksFrom s.language functions (ownNames functions s) a [] a.lines <;>
    simp [Except.map]

end Plan
end Polyglot
