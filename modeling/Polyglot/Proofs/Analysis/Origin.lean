import Polyglot.Analysis
import Polyglot.Proofs.Segment.Lossless

/-!
# The origin of symbols

Every function of an analysis has the header of a line of the segment, and every binding
is one that its line has. Both are listed in the order of their lines. An analysis fails
only in the language of braces, and then names the header of a line whose function is
never closed. Before a line, each name that the segment has bound by then stands once,
with the last of its bindings.
-/
namespace Polyglot

theorem Header.ofLine?_eq_some {l : Language} {x : Line} {h : Header} :
    ofLine? l x = some h ↔
      introducer l x.tokens = some (h.name, h.params) ∧ h.line = x.number := by
  rw [ofLine?, Option.map_eq_some_iff]
  constructor
  · rintro ⟨p, hp, rfl⟩
    exact ⟨hp, rfl⟩
  · rintro ⟨hi, hl⟩
    exact ⟨_, hi, by rw [← hl]⟩

namespace Layout

structure Heeds {σ : Type} (l : Language) (step : σ → Line → Step σ)
    (finish : σ → Except LayoutError (Option Extent)) (header? : σ → Option Header) : Prop where
  next : ∀ s x h, header? (step s x).next = some h →
    header? s = some h ∨ Header.ofLine? l x = some h
  done : ∀ s x e, (step s x).done = some e →
    header? s = some e.header ∨ Header.ofLine? l x = some e.header
  ended : ∀ s e, finish s = .ok (some e) → header? s = some e.header

variable {σ : Type} {l : Language} {step : σ → Line → Step σ}
  {finish : σ → Except LayoutError (Option Extent)} {header? : σ → Option Header}

theorem Heeds.final (hh : Heeds l step finish header?) {s : σ} {ls : List Line} {h : Header}
    (hf : header? (final step s ls) = some h) :
    header? s = some h ∨ ∃ x ∈ ls, Header.ofLine? l x = some h := by
  induction ls generalizing s with
  | nil => exact .inl hf
  | cons x r ih =>
    rcases ih hf with hs | ⟨y, hy, hl⟩
    · exact (hh.next s x h hs).imp_right fun hl => ⟨x, List.mem_cons_self, hl⟩
    · exact .inr ⟨y, List.mem_cons_of_mem x hy, hl⟩

theorem Heeds.completed (hh : Heeds l step finish header?) {s : σ} {ls : List Line} {e : Extent}
    (he : e ∈ completed step s ls) :
    header? s = some e.header ∨ ∃ x ∈ ls, Header.ofLine? l x = some e.header := by
  induction ls generalizing s with
  | nil => cases he
  | cons x r ih =>
    have hhere : ∀ {P : Prop}, P ∨ Header.ofLine? l x = some e.header →
        P ∨ ∃ y ∈ x :: r, Header.ofLine? l y = some e.header :=
      fun h => h.imp_right fun hl => ⟨x, List.mem_cons_self, hl⟩
    rcases List.mem_append.1 he with he | he
    · exact hhere (hh.done s x e (Option.mem_toList.1 he))
    · rcases ih he with hs | ⟨y, hy, hl⟩
      · exact hhere (hh.next s x e.header hs)
      · exact .inr ⟨y, List.mem_cons_of_mem x hy, hl⟩

theorem Heeds.extents (hh : Heeds l step finish header?) {s : σ} (hs : header? s = none)
    {ls : List Line} {y : Layout} (h : track step finish s ls = .ok y) {e : Extent}
    (he : e ∈ y.extents) : ∃ x ∈ ls, Header.ofLine? l x = some e.header := by
  unfold track at h
  cases hf : finish (Layout.final step s ls) with
  | error err => rw [hf] at h; cases h
  | ok last =>
    rw [hf] at h
    cases h
    have hopen : header? s = some e.header ∨ ∃ x ∈ ls, Header.ofLine? l x = some e.header := by
      rcases List.mem_append.1 he with he | he
      · exact hh.completed he
      · rw [Option.mem_toList.1 he] at hf
        exact hh.final (hh.ended _ e hf)
    exact hopen.resolve_left fun hx => nomatch hs.symm.trans hx

end Layout

namespace Braces

def header? : State → Option Header
  | .outside _ => none
  | .awaiting h => some h
  | .inside h _ => some h

theorem enter_cases (h : Header) (x : Line) :
    (enter h x).done = some ⟨h, x.number⟩ ∧ header? (enter h x).next = none ∨
      (enter h x).done = none ∧ header? (enter h x).next = some h := by
  unfold enter
  dsimp only
  split
  · exact .inr ⟨rfl, rfl⟩
  · split
    · exact .inl ⟨rfl, rfl⟩
    · exact .inr ⟨rfl, rfl⟩

theorem step_open {s : State} {h : Header} (hs : header? s = some h) (x : Line) :
    (step s x).done = some ⟨h, x.number⟩ ∧ header? (step s x).next = none ∨
      (step s x).done = none ∧ header? (step s x).next = some h := by
  cases s with
  | outside => cases hs
  | awaiting k =>
    cases hs
    exact enter_cases h x
  | inside k d =>
    cases hs
    unfold step
    dsimp only
    split
    · exact .inl ⟨rfl, rfl⟩
    · exact .inr ⟨rfl, rfl⟩

theorem step_outside {s : State} (hs : header? s = none) (x : Line) :
    (step s x).done = none ∧ header? (step s x).next = none ∨
      ∃ h, Header.ofLine? .javascript x = some h ∧ step s x = step (.awaiting h) x := by
  cases s with
  | awaiting => cases hs
  | inside => cases hs
  | outside d =>
    cases d with
    | succ d => exact .inl ⟨rfl, rfl⟩
    | zero =>
      unfold step
      cases Header.ofLine? .javascript x with
      | none => exact .inl ⟨rfl, rfl⟩
      | some h => exact .inr ⟨h, rfl, rfl⟩

theorem next_open {s : State} {h k : Header} {x : Line} (hs : header? s = some h)
    (hk : header? (step s x).next = some k) : h = k := by
  rcases step_open hs x with ⟨-, hnext⟩ | ⟨-, hnext⟩
  · rw [hnext] at hk
    cases hk
  · exact Option.some.inj (hnext.symm.trans hk)

theorem done_open {s : State} {h : Header} {x : Line} {e : Extent} (hs : header? s = some h)
    (he : (step s x).done = some e) : e = ⟨h, x.number⟩ := by
  rcases step_open hs x with ⟨hdone, -⟩ | ⟨hdone, -⟩
  · exact Option.some.inj (he.symm.trans hdone)
  · rw [hdone] at he
    cases he

theorem done_cases {s : State} {x : Line} {e : Extent} (he : (step s x).done = some e) :
    (header? s = some e.header ∨ Header.ofLine? .javascript x = some e.header) ∧
      e.last = x.number := by
  cases hs : header? s with
  | some k =>
    obtain rfl := done_open hs he
    exact ⟨.inl rfl, rfl⟩
  | none =>
    rcases step_outside hs x with ⟨hdone, -⟩ | ⟨k, hk, hstep⟩
    · rw [hdone] at he
      cases he
    · obtain rfl := done_open (s := .awaiting k) rfl (hstep ▸ he)
      exact ⟨.inr hk, rfl⟩

theorem heeds : Layout.Heeds .javascript step finish header? where
  next s x h hh := by
    cases hs : header? s with
    | some k => exact .inl (congrArg some (next_open hs hh))
    | none =>
      rcases step_outside hs x with ⟨-, hnext⟩ | ⟨k, hk, hstep⟩
      · rw [hnext] at hh
        cases hh
      · obtain rfl := next_open (s := .awaiting k) rfl (hstep ▸ hh)
        exact .inr hk
  done s x e he := (done_cases he).1
  ended s e he := by cases s <;> cases he

end Braces

namespace Indents

def header? : State → Option Header
  | .outside => none
  | .awaiting h => some h
  | .inside h _ _ => some h

theorem header_pass {x : Line} {d : Option Extent} {h : Header}
    (hh : header? (pass x d).next = some h) : Header.ofLine? .python x = some h := by
  unfold pass at hh
  split at hh
  · cases hl : Header.ofLine? .python x with
    | none => rw [hl] at hh; cases hh
    | some k => rw [hl] at hh; exact hh
  · cases hh

theorem heeds : Layout.Heeds .python step finish header? where
  next s x h hh := by
    unfold step at hh
    split at hh
    · cases s with
      | outside => cases hh
      | awaiting k => exact .inl hh
      | inside k indent last => exact .inl hh
    · cases s with
      | outside => exact .inr (header_pass hh)
      | awaiting k =>
        dsimp only at hh
        split at hh
        · exact .inr (header_pass hh)
        · exact .inl hh
      | inside k indent last =>
        dsimp only at hh
        split at hh
        · exact .inl hh
        · exact .inr (header_pass hh)
  done s x e he := by
    unfold step at he
    split at he
    · cases s <;> cases he
    · cases s with
      | outside => rw [(pass_done x none).2.2] at he; cases he
      | awaiting k =>
        dsimp only at he
        split at he
        · rw [(pass_done x (some ⟨k, k.line⟩)).2.2] at he
          cases he
          exact .inl rfl
        · cases he
      | inside k indent last =>
        dsimp only at he
        split at he
        · cases he
        · rw [(pass_done x (some ⟨k, last⟩)).2.2] at he
          cases he
          exact .inl rfl
  ended s e he := by cases s <;> cases he <;> rfl

end Indents

namespace Layout

theorem exists_line_of_extent {l : Language} {ls : List Line} {y : Layout}
    (h : ofLines l ls = .ok y) {e : Extent} (he : e ∈ y.extents) :
    ∃ x ∈ ls, Header.ofLine? l x = some e.header := by
  cases l with
  | javascript => exact Braces.heeds.extents rfl h he
  | python => exact Indents.heeds.extents rfl h he

theorem exists_line_of_error {l : Language} {ls : List Line} {err : LayoutError}
    (h : ofLines l ls = .error err) : ∃ x ∈ ls, ∃ k, Header.ofLine? l x = some k ∧
      err = ⟨.unclosedFunction k.name, k.line⟩ ∧ l = .javascript := by
  cases l with
  | python =>
    simp only [ofLines, track] at h
    cases hf : final Indents.step .outside ls <;> rw [hf] at h <;> cases h
  | javascript =>
    simp only [ofLines, track] at h
    have hx : ∀ k, Braces.header? (final Braces.step (.outside 0) ls) = some k →
        ∃ x ∈ ls, Header.ofLine? .javascript x = some k :=
      fun k hk => (Braces.heeds.final hk).resolve_left nofun
    generalize final Braces.step (.outside 0) ls = s at h hx
    cases s with
    | outside depth => cases h
    | awaiting k =>
      cases h
      obtain ⟨x, hm, hl⟩ := hx k rfl
      exact ⟨x, hm, k, hl, rfl, rfl⟩
    | inside k depth =>
      cases h
      obtain ⟨x, hm, hl⟩ := hx k rfl
      exact ⟨x, hm, k, hl, rfl, rfl⟩

end Layout

theorem Move.ends_before {x : Line} {v v' : View} {r : Role} {d : Option Extent}
    {es : List Extent} {stop : Nat} (m : Move x v v' r d) (hs : x.number < stop)
    (hv : v.Before x.number) (ho : v'.Opens (x.number + 1) stop es) :
    ∀ a ∈ d, ∀ b ∈ es, a.last < b.header.line := by
  cases m with
  | passing hr => exact fun _ ha => nomatch ha
  | opening hh => exact fun _ ha => nomatch ha
  | within hl => exact fun _ ha => nomatch ha
  | single hh =>
    rintro a ⟨⟩ b hb
    exact (ho b hb).starts
  | closing =>
    rintro a ⟨⟩ b hb
    exact (ho b hb).starts
  | @leaving h last _ _ m =>
    rintro a ⟨⟩ b hb
    have hb : b.Within x.number stop := m.opens hs (View.before_none _) ho b hb
    exact Nat.lt_of_lt_of_le (hv h last rfl).2 hb.starts

theorem Tracked.pairwise {v : View} {rs : List (Line × Role)} {es : List Extent}
    (t : Tracked v rs es) {n : Nat} (hn : rs.map (·.1.number) = List.range' n rs.length)
    (hv : v.Before n) : es.Pairwise fun a b => a.last < b.header.line := by
  induction t generalizing n with
  | rest => exact List.Pairwise.nil
  | ending => exact List.pairwise_singleton _ _
  | @move v v' x r d rs es m t ih =>
    rw [List.length_cons, List.range'_succ, List.map_cons, List.cons.injEq] at hn
    obtain ⟨hx, hn⟩ := hn
    subst hx
    have hv' := (m.before hv).1
    have ho := (t.covers hn hv').1
    dsimp only at *
    refine List.pairwise_append.2 ⟨?_, ih hn hv', fun a ha b hb => ?_⟩
    · cases d with
      | none => exact List.Pairwise.nil
      | some e => exact List.pairwise_singleton _ _
    · exact m.ends_before (by omega) hv ho a (Option.mem_toList.1 ha) b hb

theorem Segment.number_mem {s : Segment} {x : Line} (h : x ∈ s.lines) :
    s.firstLine ≤ x.number ∧ x.number < s.stop := by
  rw [stop, ← List.mem_range'_1, ← s.numbers_lines]
  exact List.mem_map_of_mem h

namespace Analysis
variable {s : Segment} {a : Analysis}

theorem exists_header_of_function (h : ofSegment s = .ok a) {f : FunctionDef}
    (hf : f ∈ a.functions) :
    ∃ x ∈ s.lines, Header.ofLine? s.language x = some ⟨f.name, f.params, f.line⟩ := by
  obtain ⟨y, hy, rfl⟩ := exists_layout h
  obtain ⟨e, he, rfl⟩ := List.mem_map.1 hf
  exact Layout.exists_line_of_extent hy he

theorem source_ne_nil (h : ofSegment s = .ok a) {f : FunctionDef} (hf : f ∈ a.functions) :
    f.source ≠ [] := by
  have hlines := map_fst_lines h
  have hn := numbers h
  obtain ⟨y, hy, rfl⟩ := exists_layout h
  obtain ⟨e, he, rfl⟩ := List.mem_map.1 hf
  obtain ⟨x, hx, hh⟩ := Layout.exists_line_of_extent hy he
  obtain ⟨hintro, hline⟩ := Header.ofLine?_eq_some.1 hh
  obtain ⟨p, hp, rfl⟩ := List.mem_map.1 (hlines ▸ hx)
  have hw : ∀ e ∈ y.extents, e.Within s.firstLine (s.firstLine + y.lines.length) :=
    ((Layout.tracked_of_ofLines hy).1.covers hn (View.before_none _)).1
  have hin : p ∈ y.lines.filter fun q => e.header.line ≤ q.1.number && q.1.number ≤ e.last := by
    refine List.mem_filter.2 ⟨hp, ?_⟩
    simpa [← hline] using (hw e he).ordered
  have htext : p.1.text <:+: sourceBetween y.lines e.header.line e.last :=
    Text.infix_unlines (List.mem_map_of_mem (f := (·.1.text)) hin)
  intro hs
  have hs : sourceBetween y.lines e.header.line e.last = [] := hs
  rw [hs, List.infix_nil] at htext
  rw [Segment.tokens_of_mem hx, htext] at hintro
  cases hintro

theorem line_of_function (h : ofSegment s = .ok a) {f : FunctionDef} (hf : f ∈ a.functions) :
    s.firstLine ≤ f.line ∧ f.line < s.stop := by
  obtain ⟨x, hx, hh⟩ := exists_header_of_function h hf
  have hn : f.line = x.number := (Header.ofLine?_eq_some.1 hh).2
  rw [hn]
  exact s.number_mem hx

theorem apart_functions (h : ofSegment s = .ok a) :
    a.functions.Pairwise fun f g => f.last < g.line := by
  have hn := numbers h
  obtain ⟨y, hy, rfl, hlast⟩ := exists_extents h
  have hpairwise := (Layout.tracked_of_ofLines hy).1.pairwise hn (View.before_none _)
  refine List.pairwise_map.2 (hpairwise.imp_of_mem fun he _ hlt => ?_)
  rw [(hlast _ he).2]
  exact hlt

theorem pairwise_functions (h : ofSegment s = .ok a) :
    a.functions.Pairwise fun f g => f.line < g.line :=
  (apart_functions h).imp_of_mem fun hf _ hlt => Nat.lt_of_le_of_lt (line_le_last h hf) hlt

theorem exists_line_of_error {err : LayoutError} (h : ofSegment s = .error err) :
    ∃ x ∈ s.lines, ∃ k, Header.ofLine? .javascript x = some k ∧
      err = ⟨.unclosedFunction k.name, k.line⟩ ∧ s.language = .javascript := by
  unfold ofSegment at h
  cases hy : Layout.ofLines s.language s.lines with
  | ok y => rw [hy] at h; cases h
  | error e =>
    rw [hy] at h
    cases h
    obtain ⟨x, hx, k, hk, he, hl⟩ := Layout.exists_line_of_error hy
    exact ⟨x, hx, k, hl ▸ hk, he, hl⟩

theorem exists_tokens_of_binding (h : ofSegment s = .ok a) {b : Binding} (hb : b ∈ a.bindings) :
    ∃ x ∈ s.lines, b ∈ Binding.ofTokens s.language x.text x.number x.tokens := by
  have hl := map_fst_lines h
  obtain ⟨y, -, rfl⟩ := exists_layout h
  obtain ⟨p, hp, hb⟩ := List.mem_flatMap.1 hb
  refine ⟨p.1, hl ▸ List.mem_map_of_mem hp, ?_⟩
  unfold bindingsOf at hb
  split at hb
  · exact hb
  · cases hb

theorem validName_of_binding (h : ofSegment s = .ok a) (hl : s.language = .python) {b : Binding}
    (hb : b ∈ a.bindings) : Language.python.validName b.name = true := by
  obtain ⟨x, hx, hb⟩ := exists_tokens_of_binding h hb
  obtain ⟨part, hp, hb'⟩ := List.mem_flatMap.1 hb
  rw [hl] at hb'
  have hr := Binding.not_reserved_of_assignment hb'
  obtain ⟨t, ht, hi, hn⟩ := (Binding.placed_of_mem hb).2.name
  rw [Segment.tokens_of_mem hx, hl] at ht
  obtain ⟨c, r, htext, hs, hall⟩ := Token.exists_of_isIdent (List.mem_filter.1 ht).1 hi
  rw [hn, htext] at hr ⊢
  rw [Language.validName, hs, hall, hr]
  rfl

theorem line_of_binding (h : ofSegment s = .ok a) {b : Binding} (hb : b ∈ a.bindings) :
    s.firstLine ≤ b.line ∧ b.line < s.stop := by
  obtain ⟨x, hx, hb⟩ := exists_tokens_of_binding h hb
  rw [(Binding.placed_of_mem hb).1]
  exact s.number_mem hx

theorem pairwise_bindings (h : ofSegment s = .ok a) :
    a.bindings.Pairwise fun b c => b.line ≤ c.line := by
  have hd := pairwise_lines h
  obtain ⟨y, -, rfl⟩ := exists_layout h
  have hline : ∀ p, ∀ b ∈ bindingsOf s.language p, b.line = p.1.number := by
    intro p b hb
    unfold bindingsOf at hb
    split at hb
    · exact (Binding.placed_of_mem hb).1
    · cases hb
  refine List.pairwise_flatMap.2 ⟨fun p _ => ?_, hd.imp fun hpq b hb c hc => ?_⟩
  · refine List.pairwise_of_forall_mem_list ?_
    exact fun b hb c hc => Nat.le_of_eq ((hline p b hb).trans (hline p c hc).symm)
  · rw [hline _ b hb, hline _ c hc]
    exact Nat.le_of_lt hpq

end Analysis
end Polyglot

namespace Polyglot.Analysis

/-- The last binding of the name before the line. -/
def lastBefore? (a : Analysis) (line : Nat) (n : Text) : Option Binding :=
  (a.bindings.filter fun b => b.line < line && b.name == n).getLast?

theorem find?_foldl_putIn (n : Text) (bs out : List Binding) :
    (bs.foldl (fun out b => Catalog.putIn Binding.name b out) out).find? (·.name == n) =
      ((bs.filter (·.name == n)).getLast?).or (out.find? (·.name == n)) := by
  induction bs generalizing out with
  | nil => rfl
  | cons b r ih =>
    rw [List.foldl_cons, ih, Catalog.find?_putIn, List.filter_cons]
    by_cases h : b.name = n
    · rw [if_pos h, if_pos (beq_iff_eq.2 h), List.getLast?_cons]
      cases (r.filter (·.name == n)).getLast? <;> rfl
    · rw [if_neg h, if_neg (by simpa using h)]

theorem nodup_latest (bs : List Binding) : ((latest bs).map Binding.name).Nodup := by
  suffices h : ∀ out : List Binding, (out.map Binding.name).Nodup →
      ((bs.foldl (fun out b => Catalog.putIn Binding.name b out) out).map Binding.name).Nodup from
    h [] List.nodup_nil
  induction bs with
  | nil => exact fun out h => h
  | cons b r ih => exact fun out h => ih _ (Catalog.nodup_putIn h b)

theorem find?_bindingsBefore (a : Analysis) (line : Nat) (n : Text) :
    (a.bindingsBefore line).find? (·.name == n) = a.lastBefore? line n := by
  rw [bindingsBefore, latest, find?_foldl_putIn, List.find?_nil, Option.or_none,
    List.filter_filter, lastBefore?]
  simp only [Bool.and_comm]

theorem mem_bindingsBefore {a : Analysis} {line : Nat} {b : Binding} :
    b ∈ a.bindingsBefore line ↔ a.lastBefore? line b.name = some b := by
  rw [← find?_bindingsBefore]
  exact ⟨fun hb => Catalog.find?_of_mem (nodup_latest _) hb, List.mem_of_find?_eq_some⟩

theorem lastBefore?_mem {a : Analysis} {line : Nat} {n : Text} {b : Binding}
    (h : a.lastBefore? line n = some b) : b ∈ a.bindings ∧ b.line < line ∧ b.name = n := by
  have hm := List.mem_of_getLast? h
  simpa [and_assoc] using hm

theorem lastBefore?_isSome {a : Analysis} {line : Nat} {n : Text} :
    (∃ b, a.lastBefore? line n = some b) ↔ ∃ b ∈ a.bindings, b.line < line ∧ b.name = n := by
  constructor
  · rintro ⟨b, h⟩
    exact ⟨b, lastBefore?_mem h⟩
  · rintro ⟨b, hb, hl, hn⟩
    have hm : b ∈ a.bindings.filter fun b => b.line < line && b.name == n :=
      List.mem_filter.2 ⟨hb, by simp [hl, hn]⟩
    exact ⟨_, List.getLast?_eq_some_getLast (List.ne_nil_of_mem hm)⟩

end Polyglot.Analysis
