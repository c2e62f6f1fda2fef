import Mathlib.Data.List.SplitBy
import Polyglot.Proofs.Unit.Filling

/-!
# Filling run by run

A text cut into its longest runs of word characters and of other characters is filled by
a lookup for each run that begins with the mark and goes on behind it. The lookups are made
from left to right up to the first that fails, and what they give is put in as it is.
-/
namespace Polyglot.Placeholder

def alike (a b : Char) : Bool := isWordChar a == isWordChar b

/-- The text cut wherever a word begins or ends. -/
def runs (t : Text) : List Text := t.splitBy alike

def asks (run : Text) : Bool := mark.isPrefixOf run && decide (mark.length < run.length)

def nameOf (run : Text) : Text := run.drop mark.length

def namesIn (rs : List Text) : List Text := (rs.filter asks).map nameOf

/-- The names that the text asks for, from left to right. -/
def asked (t : Text) : List Text := namesIn (runs t)

def answered {m : Type → Type} [Monad m] (lookup : Text → m Text) (run : Text) : m Text :=
  if asks run then lookup (nameOf run) else pure run

/-- The runs of a text: words and gaps in turn, that make up the text. -/
structure Cuts (t : Text) (rs : List Text) : Prop where
  whole : rs.flatten = t
  kinds : ∀ r ∈ rs, IsWord r ∨ IsGap r
  turns : rs.IsChain fun a b => IsWord a ↔ IsGap b

theorem not_isGap_of_isWord {w : Text} (h : IsWord w) : ¬ IsGap w := by
  intro hg
  obtain ⟨c, r, rfl⟩ := List.exists_cons_of_ne_nil h.1
  have hc := h.2 c List.mem_cons_self
  rw [hg.2 c List.mem_cons_self] at hc
  cases hc

theorem isWord_iff {r : Text} (h : IsWord r ∨ IsGap r) {c : Char} (hc : c ∈ r) :
    (IsWord r ↔ isWordChar c = true) ∧ (IsGap r ↔ isWordChar c = false) := by
  rcases h with h | h
  · have hno : ¬ IsGap r := not_isGap_of_isWord h
    simp [h, hno, h.2 c hc]
  · have hno : ¬ IsWord r := fun hw => not_isGap_of_isWord hw h
    simp [h, hno, h.2 c hc]

theorem isWord_or_isGap_iff {r : Text} :
    IsWord r ∨ IsGap r ↔ r ≠ [] ∧ r.IsChain fun a b => alike a b := by
  induction r with
  | nil => simp [IsWord, IsGap]
  | cons c r ih =>
    cases r with
    | nil => cases hc : isWordChar c <;> simp [IsWord, IsGap, hc]
    | cons d r =>
      rw [List.isChain_cons_cons]
      cases hc : isWordChar c <;> cases hd : isWordChar d <;>
        simp_all [IsWord, IsGap, alike]

theorem cuts_iff {t : Text} {rs : List Text} : Cuts t rs ↔ runs t = rs := by
  have hkinds : (∀ r ∈ rs, IsWord r ∨ IsGap r) ↔
      [] ∉ rs ∧ ∀ r ∈ rs, r.IsChain fun a b => alike a b := by
    simp only [isWord_or_isGap_iff]
    exact ⟨fun h => ⟨fun hn => (h [] hn).1 rfl, fun r hr => (h r hr).2⟩,
      fun h r hr => ⟨fun hn => h.1 (hn ▸ hr), h.2 r hr⟩⟩
  have hturns : (∀ r ∈ rs, IsWord r ∨ IsGap r) → ∀ a ∈ rs, ∀ b ∈ rs, ((IsWord a ↔ IsGap b) ↔
      ∃ ha hb, alike (a.getLast ha) (b.head hb) = false) := by
    intro hk a ha b hb
    have hane := (isWord_or_isGap_iff.1 (hk a ha)).1
    have hbne := (isWord_or_isGap_iff.1 (hk b hb)).1
    rw [(isWord_iff (hk a ha) (List.getLast_mem hane)).1,
      (isWord_iff (hk b hb) (List.head_mem hbne)).2]
    simp only [alike, beq_eq_false_iff_ne, hane, hbne, ne_eq, not_false_eq_true, exists_true_left]
    cases isWordChar (a.getLast hane) <;> cases isWordChar (b.head hbne) <;> simp
  rw [runs, List.splitBy_eq_iff]
  constructor
  · rintro ⟨rfl, hk, ht⟩
    obtain ⟨hn, hc⟩ := hkinds.1 hk
    exact ⟨rfl, hn, hc, ht.imp_of_mem_imp fun a b ha hb => (hturns hk a ha b hb).1⟩
  · rintro ⟨rfl, hn, hc, ht⟩
    have hk := hkinds.2 ⟨hn, hc⟩
    exact ⟨rfl, hk, ht.imp_of_mem_imp fun a b ha hb => (hturns hk a ha b hb).2⟩

theorem asks_gap {u : Text} (h : IsGap u) : asks u = false := by
  have hm : mark.isPrefixOf u = false := by
    rw [← Bool.not_eq_true, List.isPrefixOf_iff_prefix]
    intro hp
    obtain ⟨c, r, hc⟩ := List.exists_cons_of_ne_nil isWord_mark.1
    have hmem : c ∈ mark := hc ▸ List.mem_cons_self
    have hword := isWord_mark.2 c hmem
    rw [h.2 c (hp.subset hmem)] at hword
    cases hword
  rw [asks, hm, Bool.false_and]

section
variable {m : Type → Type} [Monad m] (lookup : Text → m Text)

theorem spelled_word {w : Text} (h : IsWord w) : spelled lookup w = answered lookup w := by
  have hn := nameAt_word [] h.2 rfl
  rw [List.append_nil] at hn
  rw [spelled, hn, answered, asks, nameOf]
  cases hm : mark.isPrefixOf w with
  | false => simp
  | true =>
    rcases Nat.lt_or_ge mark.length w.length with hl | hl
    · have hne : w.drop mark.length ≠ [] := by simp [hl]
      simp [hne, hl]
    · have he : w.drop mark.length = [] := List.drop_eq_nil_of_le hl
      simp [he, Nat.not_lt.2 hl]

variable [LawfulMonad m]

theorem fillFrom_runs {rs : List Text} (hk : ∀ r ∈ rs, IsWord r ∨ IsGap r)
    (ht : rs.IsChain fun a b => IsWord a ↔ IsGap b) (previous : Option Char)
    (hp : ∀ r ∈ rs.head?, IsWord r → previous.any isWordChar = false) :
    fillFrom lookup 0 previous rs.flatten = List.flatten <$> rs.mapM (answered lookup) := by
  induction rs generalizing previous with
  | nil => simp [fillFrom]
  | cons r rs ih =>
    obtain ⟨hr, hk⟩ := List.forall_mem_cons.1 hk
    rw [List.isChain_cons] at ht
    obtain ⟨hnext, ht⟩ := ht
    rw [List.flatten_cons, List.mapM_cons]
    rcases hr with hr | hr
    · -- No word stands behind a word, so the next run is looked at afresh.
      have hend : EndsWord rs.flatten := by
        cases rs with
        | nil => rfl
        | cons g rs => exact ((hnext g rfl).1 hr).endsWord rs.flatten
      have hrest := ih hk ht r.getLast? fun g hg hw =>
        absurd ((hnext g hg).1 hr) (not_isGap_of_isWord hw)
      rw [fillFrom_word lookup hr hend (hp r rfl hr), spelled_word lookup hr, hrest]
      simp
    · have hrest := ih hk ht r.getLast? fun _ _ _ => hr.last
      rw [fillFrom_gap lookup hr, hrest, answered, asks_gap hr]
      simp

theorem fill_eq_runs (t : Text) :
    fill lookup t = List.flatten <$> (runs t).mapM (answered lookup) := by
  have hc : Cuts t (runs t) := cuts_iff.2 rfl
  have hf := fillFrom_runs lookup hc.kinds hc.turns none fun _ _ _ => rfl
  rwa [hc.whole] at hf

end

section
variable {ε : Type} (lookup : Text → Except ε Text)

/-- The lookup, which also writes down what it is asked for. -/
def noting (n : Text) : ExceptT ε (StateM (List Text)) Text := do
  modify (· ++ [n])
  lookup n

theorem namesIn_cons (r : Text) (rs : List Text) :
    namesIn (r :: rs) = if asks r then nameOf r :: namesIn rs else namesIn rs := by
  unfold namesIn
  split
  · next h => rw [List.filter_cons_of_pos h, List.map_cons]
  · next h => rw [List.filter_cons_of_neg h]

def noted (rs : List Text) (log : List Text) : Except ε (List Text) × List Text :=
  ((rs.mapM (answered (noting lookup))).run.run log)

variable {lookup} {r : Text} {rs : List Text} {log : List Text}

theorem noted_cons (r : Text) (rs log : List Text) :
    noted lookup (r :: rs) log =
      if asks r then
        match lookup (nameOf r) with
        | .ok v => ((noted lookup rs (log ++ [nameOf r])).1.map (v :: ·),
            (noted lookup rs (log ++ [nameOf r])).2)
        | .error e => (.error e, log ++ [nameOf r])
      else ((noted lookup rs log).1.map (r :: ·), (noted lookup rs log).2) := by
  have hrest : ∀ (v : Text) (names : List Text),
      (do let vs ← rs.mapM (answered (noting lookup))
          pure (v :: vs) : ExceptT ε (StateM (List Text)) (List Text)).run.run names =
        ((noted lookup rs names).1.map (v :: ·), (noted lookup rs names).2) := by
    intro v names
    rw [bind_pure_comp]
    simp only [noted, ExceptT.run_map, StateT.run_map]
    rfl
  rw [noted, List.mapM_cons, answered]
  split
  · cases hv : lookup (nameOf r) with
    | error e =>
      rw [noting, hv]
      rfl
    | ok v =>
      rw [noting, hv]
      exact hrest v _
  · exact hrest r log

/-- The first name whose lookup fails, and the names before it. -/
structure Fails (lookup : Text → Except ε Text) (names before : List Text) (n : Text) (e : ε) :
    Prop where
  place : before ++ [n] <+: names
  found : ∀ k ∈ before, ∃ v, lookup k = .ok v
  fails : lookup n = .error e

variable (lookup) in
theorem noted_cases (rs log : List Text) :
    (∃ vs, rs.mapM (answered lookup) = .ok vs ∧
      noted lookup rs log = (.ok vs, log ++ namesIn rs)) ∨
    ∃ before n e, Fails lookup (namesIn rs) before n e ∧ rs.mapM (answered lookup) = .error e ∧
      noted lookup rs log = (.error e, log ++ (before ++ [n])) := by
  induction rs generalizing log with
  | nil =>
    exact .inl ⟨[], rfl, by rw [namesIn, List.filter_nil, List.map_nil, List.append_nil]; rfl⟩
  | cons r rs ih =>
    rw [noted_cons, namesIn_cons, List.mapM_cons, answered]
    cases hr : asks r with
    | false =>
      rcases ih log with ⟨vs, hm, hn⟩ | ⟨before, n, e, hf, hm, hn⟩
      · exact .inl ⟨r :: vs, by rw [hm]; rfl, by rw [hn]; rfl⟩
      · exact .inr ⟨before, n, e, hf, by rw [hm]; rfl, by rw [hn]; rfl⟩
    | true =>
      cases hv : lookup (nameOf r) with
      | error e => exact .inr ⟨[], nameOf r, e, ⟨⟨namesIn rs, rfl⟩, nofun, hv⟩, rfl, rfl⟩
      | ok v =>
        rcases ih (log ++ [nameOf r]) with ⟨vs, hm, hn⟩ | ⟨before, n, e, hf, hm, hn⟩
        · exact .inl ⟨v :: vs, by rw [hm]; rfl, by rw [hn]; simp [Except.map]⟩
        · refine .inr ⟨nameOf r :: before, n, e, ⟨?_, ?_, hf.fails⟩, by rw [hm]; rfl,
            by rw [hn]; simp [Except.map]⟩
          · exact (List.prefix_cons_inj _).2 hf.place
          · exact List.forall_mem_cons.2 ⟨⟨v, hv⟩, hf.found⟩

end

/-- Filling is what a reader does who cuts the text into its runs and, from left to right,
looks up the name of each run that asks for one and copies the others: each name is asked for
once, the first lookup that fails ends it, and nothing that was put in is looked at again. -/
theorem fill_by_runs (t : Text) :
    (∀ rs, Cuts t rs ↔ runs t = rs) ∧
      (∀ (m : Type → Type) [Monad m] [LawfulMonad m] (lookup : Text → m Text),
        fill lookup t = List.flatten <$> (runs t).mapM (answered lookup)) ∧
      ∀ (ε : Type) (lookup : Text → Except ε Text),
        ∃ log, (fill (noting lookup) t).run.run [] = (fill lookup t, log) ∧
          ((∃ text, fill lookup t = .ok text) ∧ log = asked t ∨
            ∃ before n e, Fails lookup (asked t) before n e ∧ fill lookup t = .error e ∧
              log = before ++ [n]) := by
  refine ⟨fun _ => cuts_iff, fun m _ _ lookup => fill_eq_runs lookup t, fun ε lookup => ?_⟩
  have hlog : (fill (noting lookup) t).run.run [] =
      ((noted lookup (runs t) []).1.map List.flatten, (noted lookup (runs t) []).2) := by
    rw [fill_eq_runs, noted, ExceptT.run_map, StateT.run_map]
    rfl
  rw [hlog, fill_eq_runs lookup t]
  rcases noted_cases lookup (runs t) [] with ⟨vs, hm, hn⟩ | ⟨before, n, e, hf, hm, hn⟩
  · exact ⟨asked t, by rw [hm, hn]; rfl, .inl ⟨⟨vs.flatten, by rw [hm]; rfl⟩, rfl⟩⟩
  · exact ⟨before ++ [n], by rw [hm, hn]; rfl, .inr ⟨before, n, e, hf, by rw [hm]; rfl, rfl⟩⟩

/-- A mark inside a word, one without a name, one that is a name, and a value that looks like
a placeholder. -/
def markedText : Text :=
  "a PLACEHOLDER_é+bPLACEHOLDER_c (PLACEHOLDER_) PLACEHOLDER_PLACEHOLDER_x"

def markedLookup (n : Text) : Except Text Text := if n = "é" then .ok "PLACEHOLDER_a" else .ok n

theorem fill_by_runs_marked : asked markedText = ["é", "PLACEHOLDER_x"] ∧
    fill markedLookup markedText =
      .ok "a PLACEHOLDER_a+bPLACEHOLDER_c (PLACEHOLDER_) PLACEHOLDER_x" := by
  refine ⟨by decide +kernel, ?_⟩
  rw [(fill_by_runs markedText).2.1 (Except Text) markedLookup]
  decide +kernel

end Polyglot.Placeholder
