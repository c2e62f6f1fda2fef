import Polyglot.Function

/-!
# Roles and extents

Both trackers make the same moves, seen from outside: a function is open or it is not,
and an open one is known to reach up to some line. From the moves alone it follows
that the extents cover the live lines of functions, each of them once, and no other
live line.
-/
namespace Polyglot

abbrev View := Option (Header × Nat)

/-- What one line does to the view, with its role and the extent that it completes. -/
inductive Move (x : Line) : View → View → Role → Option Extent → Prop
  | passing {r : Role} (hr : r ≠ .inFunction) : Move x none none r none
  | opening {h : Header} (hh : h.line = x.number) :
      Move x none (some (h, x.number)) .inFunction none
  | single {h : Header} (hh : h.line = x.number) :
      Move x none none .inFunction (some ⟨h, x.number⟩)
  | within {h : Header} {last last' : Nat}
      (hl : last' = x.number ∨ last' = last ∧ Token.isDead x.tokens = true) :
      Move x (some (h, last)) (some (h, last')) .inFunction none
  | closing {h : Header} {last : Nat} :
      Move x (some (h, last)) none .inFunction (some ⟨h, x.number⟩)
  | leaving {h : Header} {last : Nat} {v : View} {r : Role} (m : Move x none v r none) :
      Move x (some (h, last)) v r (some ⟨h, last⟩)

/-- The moves of a whole segment. A function that is open at the end is completed there. -/
inductive Tracked : View → List (Line × Role) → List Extent → Prop
  | rest : Tracked none [] []
  | ending {h : Header} {last : Nat} : Tracked (some (h, last)) [] [⟨h, last⟩]
  | move {v v' : View} {x : Line} {r : Role} {d : Option Extent} {rs : List (Line × Role)}
      {es : List Extent} (m : Move x v v' r d) (t : Tracked v' rs es) :
      Tracked v ((x, r) :: rs) (d.toList ++ es)

theorem Header.line_of_ofLine {l : Language} {x : Line} {h : Header}
    (hh : ofLine? l x = some h) : h.line = x.number := by
  obtain ⟨p, -, rfl⟩ := Option.map_eq_some_iff.1 hh
  rfl

namespace Layout

theorem map_fst_roles {σ : Type} (step : σ → Line → Step σ) (s : σ) (ls : List Line) :
    (roles step s ls).map Prod.fst = ls := by
  induction ls generalizing s with
  | nil => rfl
  | cons x r ih => rw [roles, List.map_cons, ih]

theorem tracked_of_track {σ : Type} {step : σ → Line → Step σ}
    {finish : σ → Except LayoutError (Option Extent)} (Shows : σ → View → Prop)
    (hm : ∀ s v x, Shows s v →
      ∃ v', Move x v v' (step s x).role (step s x).done ∧ Shows (step s x).next v')
    (hf : ∀ s v e, Shows s v → finish s = .ok e → Tracked v [] e.toList)
    {s : σ} {v : View} {ls : List Line} {y : Layout} (hs : Shows s v)
    (h : track step finish s ls = .ok y) :
    Tracked v y.lines y.extents ∧ y.lines.map Prod.fst = ls := by
  unfold track at h
  cases he : finish (final step s ls) with
  | error err => rw [he] at h; cases h
  | ok e =>
    rw [he] at h
    cases h
    refine ⟨?_, map_fst_roles step s ls⟩
    dsimp only
    induction ls generalizing s v with
    | nil => exact hf s v e hs he
    | cons x r ih =>
      obtain ⟨v', m, hs'⟩ := hm s v x hs
      rw [roles, completed, List.append_assoc]
      exact .move m (ih hs' he)

end Layout

namespace Braces

inductive Shows : State → View → Prop
  | outside {depth : Nat} : Shows (.outside depth) none
  | awaiting {h : Header} {last : Nat} : Shows (.awaiting h) (some (h, last))
  | inside {h : Header} {depth last : Nat} : Shows (.inside h depth) (some (h, last))

theorem role_pass (depth : Nat) (x : Line) : (pass depth x).role ≠ .inFunction := by
  unfold pass
  split <;> simp

theorem move_header {h : Header} (x : Line) (hh : h.line = x.number) :
    ∃ v', Move x none v' (enter h x).role (enter h x).done ∧ Shows (enter h x).next v' := by
  unfold enter
  dsimp only
  split
  · exact ⟨_, .opening hh, .awaiting⟩
  · split
    · exact ⟨_, .single hh, .outside⟩
    · exact ⟨_, .opening hh, .inside⟩

theorem move_enter (h : Header) (last : Nat) (x : Line) :
    ∃ v', Move x (some (h, last)) v' (enter h x).role (enter h x).done ∧
      Shows (enter h x).next v' := by
  unfold enter
  dsimp only
  split
  · exact ⟨_, .within (.inl rfl), .awaiting⟩
  · split
    · exact ⟨_, .closing, .outside⟩
    · exact ⟨_, .within (.inl rfl), .inside⟩

theorem move_step (s : State) (v : View) (x : Line) (hs : Shows s v) :
    ∃ v', Move x v v' (step s x).role (step s x).done ∧ Shows (step s x).next v' := by
  cases hs with
  | @outside depth =>
    cases depth with
    | succ depth => exact ⟨none, .passing (role_pass _ x), .outside⟩
    | zero =>
      simp only [step]
      cases hh : Header.ofLine? .javascript x with
      | some h => exact move_header x (Header.line_of_ofLine hh)
      | none => exact ⟨none, .passing (role_pass _ x), .outside⟩
  | @awaiting h last => exact move_enter h last x
  | @inside h depth last =>
    simp only [step]
    split
    · exact ⟨_, .closing, .outside⟩
    · exact ⟨_, .within (.inl rfl), .inside⟩

theorem tracked_finish (s : State) (v : View) (e : Option Extent) (hs : Shows s v)
    (he : finish s = .ok e) : Tracked v [] e.toList := by
  cases hs with
  | outside => cases he; exact .rest
  | awaiting => cases he
  | inside => cases he

end Braces

namespace Indents

def view : State → View
  | .outside => none
  | .awaiting h => some (h, h.line)
  | .inside h _ last => some (h, last)

theorem move_pass (x : Line) :
    Move x none (view (pass x none).next) (pass x none).role none := by
  unfold pass
  split
  · cases hh : Header.ofLine? .python x with
    | some h =>
      have hl := Header.line_of_ofLine hh
      simp only [view, hl]
      exact .opening hl
    | none => exact .passing (by simp)
  · exact .passing (by simp)

theorem pass_done (x : Line) (d : Option Extent) :
    (pass x d).next = (pass x none).next ∧ (pass x d).role = (pass x none).role ∧
      (pass x d).done = d := by
  unfold pass
  split
  · cases Header.ofLine? .python x <;> exact ⟨rfl, rfl, rfl⟩
  · exact ⟨rfl, rfl, rfl⟩

theorem move_leave (h : Header) (last : Nat) (x : Line) :
    Move x (some (h, last)) (view (pass x (some ⟨h, last⟩)).next) (pass x (some ⟨h, last⟩)).role
      (pass x (some ⟨h, last⟩)).done := by
  obtain ⟨hn, hr, hd⟩ := pass_done x (some ⟨h, last⟩)
  rw [hn, hr, hd]
  exact .leaving (move_pass x)

theorem move_step (s : State) (x : Line) :
    Move x (view s) (view (step s x).next) (step s x).role (step s x).done := by
  unfold step
  split
  · next hd =>
    cases s with
    | outside => exact .passing (by simp)
    | awaiting h => exact .within (.inr ⟨rfl, hd⟩)
    | inside h indent last => exact .within (.inr ⟨rfl, hd⟩)
  · cases s with
    | outside =>
      obtain ⟨-, -, hd⟩ := pass_done x none
      simp only [hd]
      exact move_pass x
    | awaiting h =>
      dsimp only
      split
      · exact move_leave h h.line x
      · exact .within (.inl rfl)
    | inside h indent last =>
      dsimp only
      split
      · exact .within (.inl rfl)
      · exact move_leave h last x

theorem tracked_finish (s : State) (e : Option Extent) (he : finish s = .ok e) :
    Tracked (view s) [] e.toList := by
  cases s <;> cases he
  · exact .rest
  · exact .ending
  · exact .ending

end Indents

theorem Layout.tracked_of_ofLines {l : Language} {ls : List Line} {y : Layout}
    (h : ofLines l ls = .ok y) : Tracked none y.lines y.extents ∧ y.lines.map Prod.fst = ls := by
  cases l with
  | javascript =>
    exact tracked_of_track Braces.Shows Braces.move_step Braces.tracked_finish .outside h
  | python =>
    refine tracked_of_track (fun s v => Indents.view s = v) ?_ ?_ rfl h
    · rintro s v x rfl
      exact ⟨_, Indents.move_step s x, rfl⟩
    · rintro s v e rfl he
      exact Indents.tracked_finish s e he

namespace Extent

def covers (n : Nat) (e : Extent) : Bool := e.header.line ≤ n && n ≤ e.last

structure Within (first stop : Nat) (e : Extent) : Prop where
  starts : first ≤ e.header.line
  ordered : e.header.line ≤ e.last
  ends : e.last < stop

theorem Within.weaken {first first' stop : Nat} {e : Extent} (h : e.Within first stop)
    (hf : first' ≤ first) : e.Within first' stop :=
  ⟨Nat.le_trans hf h.starts, h.ordered, h.ends⟩

theorem countP_eq_zero {es : List Extent} {n stop : Nat}
    (h : ∀ e ∈ es, e.Within (n + 1) stop) : es.countP (covers n) = 0 := by
  rw [List.countP_eq_zero]
  intro e he hc
  have hs := (h e he).starts
  simp only [covers, Bool.and_eq_true, decide_eq_true_eq] at hc
  omega

end Extent

def View.Before (n : Nat) (v : View) : Prop :=
  ∀ h last, v = some (h, last) → h.line ≤ last ∧ last < n

theorem View.before_none (n : Nat) : View.Before n none := fun _ _ h => nomatch h

def View.Opens (n stop : Nat) : View → List Extent → Prop
  | none, es => ∀ e ∈ es, e.Within n stop
  | some (h, last), es => ∃ e r, es = e :: r ∧ e.header = h ∧ h.line ≤ last ∧ last < n ∧
      last ≤ e.last ∧ e.last < stop ∧ ∀ e ∈ r, e.Within n stop

theorem Move.opens {x : Line} {v v' : View} {r : Role} {d : Option Extent} {es : List Extent}
    {stop : Nat} (m : Move x v v' r d) (hs : x.number < stop)
    (hv : v.Before x.number)
    (ho : v'.Opens (x.number + 1) stop es) : v.Opens x.number stop (d.toList ++ es) := by
  have hw : ∀ es : List Extent, (∀ e ∈ es, e.Within (x.number + 1) stop) →
      ∀ e ∈ es, e.Within x.number stop := fun es h e he => (h e he).weaken (Nat.le_succ _)
  induction m with
  | passing hr => exact hw es ho
  | opening hh =>
    obtain ⟨e, r, rfl, rfl, -, -, hl, he, hr⟩ := ho
    intro a ha
    rcases List.mem_cons.1 ha with rfl | ha
    · exact ⟨Nat.le_of_eq hh.symm, by omega, he⟩
    · exact hw r hr a ha
  | single hh =>
    intro a ha
    rcases List.mem_cons.1 ha with rfl | ha
    · exact ⟨Nat.le_of_eq hh.symm, Nat.le_of_eq hh, hs⟩
    · exact hw es ho a ha
  | @within h last last' hl =>
    obtain ⟨h₁, h₂⟩ := hv h last rfl
    obtain ⟨e, r, rfl, he, -, -, hl', hs', hr⟩ := ho
    exact ⟨e, r, rfl, he, h₁, h₂, by omega, hs', hw r hr⟩
  | @closing h last =>
    obtain ⟨h₁, h₂⟩ := hv h last rfl
    exact ⟨_, es, rfl, rfl, h₁, h₂, Nat.le_of_lt h₂, hs, hw es ho⟩
  | @leaving h last v r m ih =>
    obtain ⟨h₁, h₂⟩ := hv h last rfl
    exact ⟨_, es, rfl, rfl, h₁, h₂, Nat.le_refl _, by simp only; omega,
      ih (View.before_none _) ho⟩

theorem Move.countP_covers {x : Line} {v v' : View} {r : Role} {d : Option Extent}
    {es : List Extent} {stop : Nat} (m : Move x v v' r d)
    (hv : v.Before x.number)
    (ho : v'.Opens (x.number + 1) stop es) (hl : Token.isDead x.tokens = false) :
    (d.toList ++ es).countP (Extent.covers x.number) = if r = .inFunction then 1 else 0 := by
  induction m with
  | passing hr => rw [if_neg hr]; exact Extent.countP_eq_zero ho
  | opening hh =>
    obtain ⟨e, r, rfl, rfl, -, -, hle, he, hr⟩ := ho
    have hc : Extent.covers x.number e = true := by simp [Extent.covers, hh, hle]
    rw [Option.toList_none, List.nil_append, List.countP_cons_of_pos hc,
      Extent.countP_eq_zero hr, if_pos rfl]
  | @single h hh =>
    have hc : Extent.covers x.number ⟨h, x.number⟩ = true := by simp [Extent.covers, hh]
    rw [Option.toList_some, List.singleton_append, List.countP_cons_of_pos hc,
      Extent.countP_eq_zero ho, if_pos rfl]
  | @within h last last' hl' =>
    obtain ⟨h₁, h₂⟩ := hv h last rfl
    obtain ⟨e, r, rfl, rfl, -, -, hle, -, hr⟩ := ho
    -- The open function reaches up to this line, unless the line is dead.
    rcases hl' with rfl | ⟨-, hd⟩
    · have hc : Extent.covers x.number e = true := by
        simp only [Extent.covers, Bool.and_eq_true, decide_eq_true_eq]
        omega
      rw [Option.toList_none, List.nil_append, List.countP_cons_of_pos hc,
        Extent.countP_eq_zero hr, if_pos rfl]
    · rw [hl] at hd
      cases hd
  | @closing h last =>
    obtain ⟨h₁, h₂⟩ := hv h last rfl
    have hc : Extent.covers x.number ⟨h, x.number⟩ = true := by
      simp only [Extent.covers, Bool.and_eq_true, decide_eq_true_eq]
      omega
    rw [Option.toList_some, List.singleton_append, List.countP_cons_of_pos hc,
      Extent.countP_eq_zero ho, if_pos rfl]
  | @leaving h last v r m ih =>
    obtain ⟨h₁, h₂⟩ := hv h last rfl
    have hc : ¬ Extent.covers x.number ⟨h, last⟩ = true := by
      simp only [Extent.covers, Bool.and_eq_true, decide_eq_true_eq]
      omega
    rw [Option.toList_some, List.singleton_append, List.countP_cons_of_neg hc]
    exact ih (View.before_none _) ho

theorem Move.before {x : Line} {v v' : View} {r : Role} {d : Option Extent}
    (m : Move x v v' r d) (hv : v.Before x.number) :
    v'.Before (x.number + 1) ∧ ∀ e ∈ d, e.last ≤ x.number := by
  induction m with
  | passing hr => exact ⟨View.before_none _, fun _ he => nomatch he⟩
  | opening hh =>
    refine ⟨fun h last e => ?_, fun _ he => nomatch he⟩
    cases e
    omega
  | single hh =>
    refine ⟨View.before_none _, fun e he => ?_⟩
    cases he
    exact Nat.le_refl _
  | @within h last last' hl =>
    obtain ⟨h₁, h₂⟩ := hv h last rfl
    refine ⟨fun h last e => ?_, fun _ he => nomatch he⟩
    cases e
    omega
  | closing =>
    refine ⟨View.before_none _, fun e he => ?_⟩
    cases he
    exact Nat.le_refl _
  | @leaving h last v r m ih =>
    obtain ⟨h₁, h₂⟩ := hv h last rfl
    refine ⟨(ih (View.before_none _)).1, fun e he => ?_⟩
    cases he
    exact Nat.le_of_lt h₂

theorem Tracked.covers {v : View} {rs : List (Line × Role)} {es : List Extent}
    (t : Tracked v rs es) {n : Nat}
    (hn : rs.map (·.1.number) = List.range' n rs.length)
    (hv : v.Before n) :
    v.Opens n (n + rs.length) es ∧ ∀ p ∈ rs, Token.isDead p.1.tokens = false →
      es.countP (Extent.covers p.1.number) = if p.2 = .inFunction then 1 else 0 := by
  induction t generalizing n with
  | rest => exact ⟨fun _ he => (nomatch he), fun _ hp => (nomatch hp)⟩
  | @ending h last =>
    obtain ⟨h₁, h₂⟩ := hv h last rfl
    exact ⟨⟨_, [], rfl, rfl, h₁, h₂, Nat.le_refl _, h₂, fun _ he => (nomatch he)⟩,
      fun _ hp => (nomatch hp)⟩
  | @move v v' x r d rs es m t ih =>
    rw [List.length_cons, List.range'_succ, List.map_cons, List.cons.injEq] at hn
    obtain ⟨hx, hn⟩ := hn
    subst hx
    obtain ⟨hv', hd⟩ := m.before hv
    obtain ⟨ho, hc⟩ := ih hn hv'
    dsimp only at *
    have hstop : x.number + 1 + rs.length = x.number + (rs.length + 1) := by omega
    rw [hstop] at ho
    rw [List.length_cons]
    refine ⟨m.opens (by omega) hv ho, fun p hp hl => ?_⟩
    rcases List.mem_cons.1 hp with rfl | hp
    · exact m.countP_covers hv ho hl
    · -- What this line completes ends before the later line.
      have hlater : x.number < p.1.number := by
        have hmem := List.mem_map_of_mem (f := fun q : Line × Role => q.1.number) hp
        rw [hn, List.mem_range'_1] at hmem
        omega
      have hz : d.toList.countP (Extent.covers p.1.number) = 0 := by
        rw [List.countP_eq_zero]
        intro e he hcov
        have he := hd e (Option.mem_toList.1 he)
        simp only [Extent.covers, Bool.and_eq_true, decide_eq_true_eq] at hcov
        omega
      rw [List.countP_append, hz, Nat.zero_add]
      exact hc p hp hl

end Polyglot
