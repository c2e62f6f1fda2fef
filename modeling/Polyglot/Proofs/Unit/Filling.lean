import Polyglot.Proofs.Text.Pieces
import Polyglot.Unit.Basic
import Polyglot.Unit.Generator

/-!
# Filling declarations

A text is a sequence of runs of word characters and of gaps between them, and filling
works run by run. From this comes what filling makes of a preamble of placeholders:
each line keeps its shape, its placeholder gives way to the value, and so does a name
that itself reads as a placeholder.
-/
namespace Polyglot.Placeholder

def IsWord (w : Text) : Prop := w ≠ [] ∧ ∀ c ∈ w, isWordChar c = true

def IsGap (u : Text) : Prop := u ≠ [] ∧ ∀ c ∈ u, isWordChar c = false

instance (w : Text) : Decidable (IsWord w) :=
  @instDecidableAnd _ _ inferInstance (List.decidableBAll _ w)

instance (u : Text) : Decidable (IsGap u) :=
  @instDecidableAnd _ _ inferInstance (List.decidableBAll _ u)

theorem isWord_mark : IsWord mark := by decide +kernel

theorem isWord_ofName {n : Text} (h : IsWord n) : IsWord (ofName n) :=
  ⟨fun e => isWord_mark.1 (List.append_eq_nil_iff.1 e).1,
    fun c hc => (List.mem_append.1 hc).elim (isWord_mark.2 c) (h.2 c)⟩

def EndsWord (rest : Text) : Prop := rest.head?.any isWordChar = false

theorem IsGap.endsWord {u : Text} (h : IsGap u) (rest : Text) : EndsWord (u ++ rest) := by
  obtain ⟨c, r, rfl⟩ := List.exists_cons_of_ne_nil h.1
  exact h.2 c List.mem_cons_self

theorem IsGap.last {u : Text} (h : IsGap u) : u.getLast?.any isWordChar = false := by
  rw [List.getLast?_eq_some_getLast h.1]
  exact h.2 _ (List.getLast_mem h.1)

theorem takeWhile_word {w rest : Text} (hw : ∀ c ∈ w, isWordChar c = true) (hr : EndsWord rest) :
    (w ++ rest).takeWhile isWordChar = w := by
  rw [List.takeWhile_append_of_pos hw]
  cases rest with
  | nil => simp
  | cons c r =>
    have hc : isWordChar c = false := by simpa [EndsWord] using hr
    simp [hc]

theorem isPrefixOf_mark_append (w : Text) {rest : Text} (hr : EndsWord rest) :
    mark.isPrefixOf (w ++ rest) = mark.isPrefixOf w := by
  refine Text.isPrefixOf_append w fun c hc hm => ?_
  have hw := isWord_mark.2 c hm
  rw [EndsWord, Option.mem_def.1 hc] at hr
  simp only [Option.any_some, hw] at hr
  cases hr

theorem nameAt_word {w : Text} (rest : Text) (hw : ∀ c ∈ w, isWordChar c = true)
    (hr : EndsWord rest) :
    nameAt (w ++ rest) = if mark.isPrefixOf w then w.drop mark.length else [] := by
  unfold nameAt
  rw [isPrefixOf_mark_append w hr]
  by_cases hm : mark.isPrefixOf w = true
  · obtain ⟨z, rfl⟩ := List.isPrefixOf_iff_prefix.1 hm
    have hz : ∀ c ∈ z, isWordChar c = true := fun c hc => hw c (List.mem_append_right _ hc)
    rw [if_pos hm, if_pos hm, List.append_assoc, List.drop_left, List.drop_left,
      takeWhile_word hz hr]
  · rw [if_neg hm, if_neg hm]

theorem nameAt_ofName {n : Text} (h : IsWord n) : nameAt (ofName n) = n := by
  have hn := nameAt_word [] (isWord_ofName h).2 rfl
  have hm : mark.isPrefixOf (ofName n) = true :=
    List.isPrefixOf_iff_prefix.2 (List.prefix_append mark n)
  rw [List.append_nil, if_pos hm, ofName, List.drop_left] at hn
  exact hn

theorem nameAt_gap {c : Char} {r : Text} (h : isWordChar c = false) : nameAt (c :: r) = [] := by
  unfold nameAt
  split
  · next hm =>
    obtain ⟨z, hz⟩ := List.isPrefixOf_iff_prefix.1 hm
    obtain ⟨d, ds, hd⟩ := List.exists_cons_of_ne_nil isWord_mark.1
    rw [hd, List.cons_append, List.cons.injEq] at hz
    have hw : isWordChar d = true := isWord_mark.2 d (hd ▸ List.mem_cons_self)
    rw [hz.1, h] at hw
    cases hw
  · rfl

section
variable {m : Type → Type} [Monad m] (lookup : Text → m Text)

def spelled (w : Text) : m Text :=
  if nameAt w = [] then pure w else lookup (nameAt w)

theorem spelled_plain {w : Text} (h : nameAt w = []) : spelled lookup w = pure w := by
  rw [spelled, if_pos h]

theorem spelled_ofName {n : Text} (h : IsWord n) : spelled lookup (ofName n) = lookup n := by
  rw [spelled, nameAt_ofName h, if_neg h.1]

theorem fillFrom_skip (u rest : Text) (previous : Option Char) :
    fillFrom lookup u.length previous (u ++ rest) =
      fillFrom lookup 0 (u.getLast?.or previous) rest := by
  induction u generalizing previous with
  | nil => rfl
  | cons c r ih =>
    rw [List.length_cons, List.cons_append, fillFrom, ih]
    cases r <;> simp [List.getLast?_cons]

variable [LawfulMonad m]

theorem fillFrom_copy (c : Char) (r : Text) {previous : Option Char}
    (h : nameAt (c :: r) = [] ∨ previous.any isWordChar = true) :
    fillFrom lookup 0 previous (c :: r) = (c :: ·) <$> fillFrom lookup 0 (some c) r := by
  have hc : ((nameAt (c :: r)).isEmpty || previous.any isWordChar) = true := by
    rcases h with h | h <;> simp [h]
  rw [fillFrom]
  simp only [hc, if_true, bind_pure_comp]

theorem fillFrom_tail {w : Text} (hw : ∀ c ∈ w, isWordChar c = true) (rest : Text)
    {previous : Option Char} (hp : previous.any isWordChar = true) :
    fillFrom lookup 0 previous (w ++ rest) =
      (w ++ ·) <$> fillFrom lookup 0 (w.getLast?.or previous) rest := by
  induction w generalizing previous with
  | nil => simp
  | cons c r ih =>
    have hc : (some c).any isWordChar = true := hw c List.mem_cons_self
    rw [List.cons_append, fillFrom_copy lookup c _ (.inr hp),
      ih (fun d hd => hw d (List.mem_cons_of_mem _ hd)) hc, ← comp_map]
    cases r <;> simp [Function.comp_def, List.getLast?_cons]

theorem fillFrom_gap {u : Text} (hu : IsGap u) (rest : Text) (previous : Option Char) :
    fillFrom lookup 0 previous (u ++ rest) =
      (u ++ ·) <$> fillFrom lookup 0 u.getLast? rest := by
  obtain ⟨hne, hall⟩ := hu
  induction u generalizing previous with
  | nil => exact absurd rfl hne
  | cons c r ih =>
    rw [List.cons_append, fillFrom_copy lookup c _ (.inl (nameAt_gap (hall c List.mem_cons_self)))]
    cases r with
    | nil => rfl
    | cons d r =>
      rw [ih _ (List.cons_ne_nil d r) fun e he => hall e (List.mem_cons_of_mem _ he), ← comp_map]
      rfl

theorem fillFrom_word {w rest : Text} (hw : IsWord w) (hr : EndsWord rest)
    {previous : Option Char} (hp : previous.any isWordChar = false) :
    fillFrom lookup 0 previous (w ++ rest) = (do
      let x ← spelled lookup w
      let y ← fillFrom lookup 0 w.getLast? rest
      pure (x ++ y)) := by
  have hn := nameAt_word rest hw.2 hr
  have hn' := nameAt_word [] hw.2 rfl
  rw [List.append_nil] at hn'
  obtain ⟨c, r, rfl⟩ := List.exists_cons_of_ne_nil hw.1
  by_cases he : nameAt (c :: r) = []
  · have hc : (some c).any isWordChar = true := hw.2 c List.mem_cons_self
    have ht : nameAt (c :: (r ++ rest)) = [] := by rw [← List.cons_append, hn, ← hn', he]
    rw [List.cons_append, fillFrom_copy lookup c _ (.inl ht), spelled_plain lookup he,
      fillFrom_tail lookup (fun d hd => hw.2 d (List.mem_cons_of_mem _ hd)) rest hc, ← comp_map,
      pure_bind, bind_pure_comp]
    cases r <;> simp [Function.comp_def, List.getLast?_cons]
  · have hm : mark.isPrefixOf (c :: r) = true := by
      cases hm : mark.isPrefixOf (c :: r) with
      | true => rfl
      | false =>
        rw [hm] at hn'
        exact absurd hn' he
    have hx : nameAt (c :: (r ++ rest)) = nameAt (c :: r) := by rw [← List.cons_append, hn, hn']
    have hl : mark.length + (nameAt (c :: r)).length - 1 = r.length := by
      obtain ⟨z, hz⟩ := List.isPrefixOf_iff_prefix.1 hm
      rw [if_pos hm, ← hz, List.drop_left] at hn'
      have hlen := congrArg List.length hz
      simp only [List.length_append, List.length_cons] at hlen
      rw [← hz, hn']
      omega
    have hq : ((nameAt (c :: r)).isEmpty || previous.any isWordChar) = false := by
      simp [he, hp]
    rw [List.cons_append, fillFrom, hx]
    simp only [hq, hl, fillFrom_skip, spelled, if_neg he]
    cases r <;> simp [List.getLast?_cons]

end

theorem exists_of_fillFrom {ε : Type} {lookup : Text → Except ε Text} {skip : Nat}
    {previous : Option Char} {t : Text} {e : ε}
    (h : fillFrom lookup skip previous t = .error e) : ∃ n, lookup n = .error e := by
  induction t generalizing skip previous with
  | nil =>
    rw [fillFrom] at h
    cases h
  | cons c r ih =>
    cases skip with
    | succ skip => exact ih h
    | zero =>
      rw [fillFrom] at h
      split at h
      · cases hr : fillFrom lookup 0 (some c) r with
        | ok rest => rw [hr] at h; cases h
        | error e' => rw [hr] at h; cases h; exact ih hr
      · cases hv : lookup (nameAt (c :: r)) with
        | error e' => rw [hv] at h; cases h; exact ⟨_, hv⟩
        | ok v =>
          rw [hv] at h
          cases hr : fillFrom lookup (mark.length + (nameAt (c :: r)).length - 1) (some c) r with
          | ok rest => simp only [hr] at h; cases h
          | error e' => simp only [hr] at h; cases h; exact ih hr

section
variable {m : Type → Type} [Monad m] (lookup : Text → m Text) [LawfulMonad m]

def EndsLine (rest : Text) : Prop := rest.head?.all (· == '\n') = true

theorem isGap_feed : IsGap ['\n'] := by decide +kernel

theorem EndsLine.cases {rest : Text} (h : EndsLine rest) :
    rest = [] ∨ ∃ r, rest = ['\n'] ++ r := by
  cases rest with
  | nil => exact .inl rfl
  | cons c r =>
    have hc : c = '\n' := by simpa [EndsLine] using h
    exact .inr ⟨r, by rw [hc]; rfl⟩

theorem EndsLine.endsWord {rest : Text} (h : EndsLine rest) : EndsWord rest := by
  rcases h.cases with rfl | ⟨r, rfl⟩
  · rfl
  · exact isGap_feed.endsWord r

theorem fillFrom_endsLine {rest : Text} (h : EndsLine rest) (previous : Option Char) :
    fillFrom lookup 0 previous rest = fillFrom lookup 0 none rest := by
  rcases h.cases with rfl | ⟨r, rfl⟩
  · rfl
  · rw [fillFrom_gap lookup isGap_feed, fillFrom_gap lookup isGap_feed]

theorem fillFrom_assignment {n rest : Text} (hn : IsWord n) (hr : EndsWord rest)
    {previous : Option Char} (hp : previous.any isWordChar = false) :
    fillFrom lookup 0 previous (n ++ (" = ".toList ++ (ofName n ++ rest))) = (do
      let x ← spelled lookup n
      let v ← lookup n
      let y ← fillFrom lookup 0 (ofName n).getLast? rest
      pure (x ++ (" = ".toList ++ (v ++ y)))) := by
  have hg : IsGap " = ".toList := by decide +kernel
  rw [fillFrom_word lookup hn (hg.endsWord _) hp, fillFrom_gap lookup hg,
    fillFrom_word lookup (isWord_ofName hn) hr hg.last, spelled_ofName lookup hn]
  simp

theorem declare_javascript (n v : Text) :
    Language.javascript.declare n v = "var ".toList ++ n ++ " = ".toList ++ v ++ ";".toList := rfl

theorem declare_python (n v : Text) : Language.python.declare n v = n ++ " = ".toList ++ v := rfl

theorem fillFrom_declare (l : Language) (rest : Text) {n : Text} (hn : IsWord n)
    (hr : EndsLine rest)
    {previous : Option Char} (hp : previous.any isWordChar = false) :
    fillFrom lookup 0 previous (l.declare n (ofName n) ++ rest) = (do
      let x ← spelled lookup n
      let v ← lookup n
      let y ← fillFrom lookup 0 none rest
      pure (l.declare x v ++ y)) := by
  cases l with
  | javascript =>
    have hv : IsWord "var".toList := by decide +kernel
    have hm : nameAt "var".toList = [] := by decide +kernel
    have hb : IsGap " ".toList := by decide +kernel
    have hs : IsGap ";".toList := by decide +kernel
    have ht : Language.javascript.declare n (ofName n) ++ rest =
        "var".toList ++ (" ".toList ++
          (n ++ (" = ".toList ++ (ofName n ++ (";".toList ++ rest))))) := by
      simp [declare_javascript]
    rw [ht, fillFrom_word lookup hv (hb.endsWord _) hp, spelled_plain lookup hm,
      fillFrom_gap lookup hb, fillFrom_assignment lookup hn (hs.endsWord rest) hb.last,
      fillFrom_gap lookup hs, fillFrom_endsLine lookup hr]
    simp [declare_javascript]
  | python =>
    have ht : Language.python.declare n (ofName n) ++ rest =
        n ++ (" = ".toList ++ (ofName n ++ rest)) := by
      simp [declare_python]
    rw [ht, fillFrom_assignment lookup hn hr.endsWord hp, fillFrom_endsLine lookup hr]
    simp [declare_python]

def fillPair (n : Text) : m (Text × Text) := do
  let x ← spelled lookup n
  let v ← lookup n
  pure (x, v)

def declareLines (l : Language) (ds : List (Text × Text)) : Text :=
  Text.unlines (ds.map fun d => l.declare d.1 d.2)

theorem fill_declareAll (l : Language) {names : List Text} (h : ∀ n ∈ names, IsWord n) :
    fill lookup (l.declareAll ofName names) =
      declareLines l <$> names.mapM (fillPair lookup) := by
  suffices hf : ∀ previous : Option Char, previous.any isWordChar = false →
      fillFrom lookup 0 previous (l.declareAll ofName names) =
        declareLines l <$> names.mapM (fillPair lookup) from
    hf none rfl
  induction names with
  | nil =>
    intro previous _
    rw [List.mapM_nil, map_pure]
    rfl
  | cons n r ih =>
    intro previous hp
    have hn := h n List.mem_cons_self
    have ih := ih fun m hm => h m (List.mem_cons_of_mem _ hm)
    cases r with
    | nil =>
      have hd := fillFrom_declare lookup l [] hn rfl hp
      simp only [List.append_nil] at hd
      simp [Language.declareAll, Text.unlines, Text.joinWith, hd, fillFrom, fillPair, declareLines]
    | cons k r =>
      have hl : l.declareAll ofName (n :: k :: r) =
          l.declare n (ofName n) ++ (['\n'] ++ l.declareAll ofName (k :: r)) :=
        Text.unlines_cons_cons _ _ _
      have hf : EndsLine (['\n'] ++ l.declareAll ofName (k :: r)) := rfl
      rw [hl, fillFrom_declare lookup l _ hn hf hp, fillFrom_gap lookup isGap_feed,
        ih _ isGap_feed.last]
      simp [fillPair, declareLines, Text.unlines_cons_cons]

end
end Polyglot.Placeholder
