import Polyglot.Plan
import Polyglot.Proofs.Token.Span

/-!
# Call heads in a line and in its parts

A head is told from its neighbours alone, so a part of a line has its heads wherever
it stands, and the expression of a binding has, scanned by itself, the heads it has
in its line. A line without call sites has no head, and every call site is that of a
known function on the line that was scanned.
-/
namespace Polyglot.CallSite
open Token

variable {l : Language} {known : Text → Bool}

theorem heads_map {f : Token → Token} (hk : ∀ t, (f t).kind = t.kind)
    (ht : ∀ t : Token, t.isIdent = true → (f t).text = t.text)
    (ha : ∀ t p : Token, t.isIdent = true → ((f p).start == (f t).stop) = (p.start == t.stop))
    (previous : Option Token) (ts : List Token) :
    heads l known (previous.map f) (ts.map f) = heads l known previous ts := by
  -- Nothing that decides on a head sees more of a token than `f` keeps.
  have hp : ∀ (mark : Char) (t : Token), (f t).isPunct mark = t.isPunct mark := by
    intro mark t
    simp only [isPunct, hk]
  have hi : ∀ t : Token, (f t).isIdent = t.isIdent := by
    intro t
    simp only [isIdent, hk]
  have hw : ∀ (word : Text) (t : Token), (f t).isWord word = t.isWord word := by
    intro word t
    cases h : t.isIdent with
    | true => simp only [isWord, hi, ht t h]
    | false => simp only [isWord, hi, h, Bool.false_and]
  have hf : ∀ previous : Option Token, follows l (previous.map f) = follows l previous := by
    intro previous
    cases previous with
    | none => rfl
    | some p => simp only [Option.map_some, follows, hp, hw]
  have hh : ∀ (previous : Option Token) (t : Token) (r : List Token),
      isHead l known (previous.map f) (f t) (r.map f) = isHead l known previous t r := by
    intro previous t r
    cases h : t.isIdent with
    | false => simp only [isHead, hi, h, Bool.false_and]
    | true =>
      have hb : isBracketOf (f t) (r.map f) = isBracketOf t r := by
        cases r with
        | nil => rfl
        | cons p r =>
          simp only [isBracketOf, List.map_cons, List.head?_cons, Option.any_some, hp, ha t p h]
      simp only [isHead, hi, hb, ht t h, hf]
  induction ts generalizing previous with
  | nil => rfl
  | cons t r ih =>
    simp only [List.map_cons, heads, hh]
    have hr := ih (some t)
    rw [Option.map_some] at hr
    rw [hr]
    by_cases h : isHead l known previous t r = true
    · have hti : t.isIdent = true := by
        simp only [isHead, Bool.and_eq_true] at h
        exact h.1.1.1
      rw [if_pos h, if_pos h, ht t hti]
    · rw [if_neg h, if_neg h]

theorem heads_moved (d : Nat) (ts : List Token) :
    heads l known none (ts.map (moved d)) = heads l known none ts := by
  refine heads_map (f := moved d) (fun _ => rfl) (fun _ _ => rfl) (fun t p _ => ?_) none ts
  have hs : (moved d t).stop = t.stop + d := Nat.add_right_comm _ _ _
  rw [hs, Bool.eq_iff_iff, beq_iff_eq, beq_iff_eq]
  exact Nat.add_right_cancel_iff

theorem heads_muted (ts : List Token) :
    heads l known none (ts.map muted) = heads l known none ts := by
  have hi : ∀ t : Token, t.isIdent = true → muted t = t := by
    intro t h
    have hk : t.kind = .ident := by simpa [isIdent] using h
    rw [muted, if_neg (by simp [hk])]
  have hs : ∀ t : Token, (muted t).start = t.start := by
    intro t
    unfold muted
    split <;> rfl
  refine heads_map (fun t => ?_) (fun t h => by rw [hi t h]) (fun t p h => ?_) none ts
  · unfold muted
    split <;> rfl
  · rw [hi t h, hs]

theorem heads_spanText {line : Text} {pre ts post : List Token}
    (h : tokenize l line = pre ++ (ts ++ post)) (hn : ts ≠ []) :
    heads l known none (tokenize l (spanText line ts)) = heads l known none ts := by
  obtain ⟨d, hd⟩ := scan_spanText h hn
  rw [← heads_moved d, ← heads_muted, hd, heads_muted]

theorem mem_heads_append {previous : Option Token} {ts : List Token} (post : List Token)
    {n : Text} (h : n ∈ heads l known previous ts) : n ∈ heads l known previous (ts ++ post) := by
  induction ts generalizing previous with
  | nil => cases h
  | cons t r ih =>
    have hb : isHead l known previous t r = true →
        isHead l known previous t (r ++ post) = true := by
      cases r with
      | nil =>
        intro hh
        simp [isHead, isBracketOf] at hh
      | cons p r => exact id
    rw [List.cons_append]
    rw [heads] at h ⊢
    by_cases hh : isHead l known previous t r = true
    · rw [if_pos hh] at h
      rw [if_pos (hb hh)]
      rcases List.mem_cons.1 h with rfl | h
      · exact List.mem_cons_self
      · exact List.mem_cons_of_mem _ (ih h)
    · rw [if_neg hh] at h
      split
      · exact List.mem_cons_of_mem _ (ih h)
      · exact ih h

theorem mem_heads_of_append {previous : Option Token} (pre ts : List Token) {n : Text}
    (h : n ∈ heads l known (pre.getLast?.or previous) ts) :
    n ∈ heads l known previous (pre ++ ts) := by
  induction pre generalizing previous with
  | nil => exact h
  | cons t r ih =>
    have hr : n ∈ heads l known (some t) (r ++ ts) := by
      refine ih ?_
      cases r with
      | nil => exact h
      | cons p r => simpa [List.getLast?_cons] using h
    rw [List.cons_append, heads]
    split
    · exact List.mem_cons_of_mem _ hr
    · exact hr

theorem heads_some {p : Token} (h : follows l (some p) = true) (ts : List Token) :
    heads l known (some p) ts = heads l known none ts := by
  cases ts with
  | nil => rfl
  | cons t r =>
    have hn : follows l none = true := rfl
    simp only [heads, isHead, h, hn]

theorem mem_heads_of_part (pre post : List Token) {ts : List Token} {eq : Token}
    (he : eq.isPunct '=' = true) {n : Text} (h : n ∈ heads l known none ts) :
    n ∈ heads l known none ((pre ++ [eq]) ++ (ts ++ post)) := by
  refine mem_heads_of_append (pre ++ [eq]) (ts ++ post) ?_
  rw [List.getLast?_append, List.getLast?_singleton, Option.some_or, Option.some_or]
  have hk : eq.kind = .punct '=' := by simpa [isPunct] using he
  have hf : follows l (some eq) = true := by simp [follows, isPunct, isWord, isIdent, hk]
  rw [heads_some hf]
  exact mem_heads_append post h

theorem ne_nil_of_heads {line : Text} {number : Nat} {previous : Option Token}
    {ts : List Token} {cs : List CallSite}
    (h : scan l known line number 0 previous ts = .ok cs) (hh : heads l known previous ts ≠ []) :
    cs ≠ [] := by
  induction ts generalizing previous with
  | nil => exact absurd rfl hh
  | cons t r ih =>
    rw [scan] at h
    rw [heads] at hh
    by_cases hd : isHead l known previous t r = true
    · rw [if_pos hd] at h
      cases hc : closeFrom 0 r with
      | none => rw [hc] at h; cases h
      | some i =>
        simp only [hc] at h
        cases hs : scan l known line number (i + 1) (some t) r with
        | error e => rw [hs] at h; cases h
        | ok rest =>
          rw [hs] at h
          cases h
          exact List.cons_ne_nil _ _
    · rw [if_neg hd] at h hh
      exact ih h hh

theorem isHead_iff {previous : Option Token} {t : Token} {r : List Token} :
    isHead l known previous t r = true ↔
      known t.text = true ∧ isHead l (fun _ => true) previous t r = true := by
  simp only [isHead, Bool.and_eq_true, Bool.and_true]
  exact ⟨fun ⟨⟨hi, hk⟩, hf⟩ => ⟨hk, hi, hf⟩, fun ⟨hk, hi, hf⟩ => ⟨⟨hi, hk⟩, hf⟩⟩

theorem mem_heads_iff {previous : Option Token} {ts : List Token} {n : Text} :
    n ∈ heads l known previous ts ↔
      known n = true ∧ n ∈ heads l (fun _ => true) previous ts := by
  induction ts generalizing previous with
  | nil => simp [heads]
  | cons t r ih =>
    by_cases ha : isHead l (fun _ => true) previous t r = true
    · by_cases hk : known t.text = true
      · rw [heads, heads, if_pos (isHead_iff.2 ⟨hk, ha⟩), if_pos ha, List.mem_cons, List.mem_cons,
          ih]
        constructor
        · rintro (rfl | h)
          · exact ⟨hk, .inl rfl⟩
          · exact ⟨h.1, .inr h.2⟩
        · rintro ⟨hn, rfl | h⟩
          · exact .inl rfl
          · exact .inr ⟨hn, h⟩
      · rw [heads, heads, if_neg fun h => hk (isHead_iff.1 h).1, if_pos ha, List.mem_cons, ih]
        constructor
        · exact fun h => ⟨h.1, .inr h.2⟩
        · rintro ⟨hn, rfl | h⟩
          · exact absurd hn hk
          · exact ⟨hn, h⟩
    · rw [heads, heads, if_neg fun h => ha (isHead_iff.1 h).2, if_neg ha, ih]

theorem knows_iff {functions : FunctionTable} {own : List Text} {n : Text} :
    knows functions own n = true ↔ functions.contains n = true ∧ n ∉ own := by
  simp [knows]

theorem heads_of_isDead {previous : Option Token} {ts : List Token} (h : isDead ts = true) :
    heads l known previous ts = [] := by
  induction ts generalizing previous with
  | nil => rfl
  | cons t r ih =>
    rw [isDead, List.all_cons, Bool.and_eq_true] at h
    have hk : t.kind = .comment := by simpa [isComment] using h.1
    have hi : t.isIdent = false := by simp [isIdent, hk]
    rw [heads, if_neg (by simp [isHead, hi]), ih h.2]

def HeadIn (l : Language) (known : Text → Bool) (previous : Option Token) (ts : List Token)
    (t : Token) (r : List Token) : Prop :=
  ∃ pre, ts = pre ++ t :: r ∧ isHead l known (pre.getLast?.or previous) t r = true

theorem HeadIn.cons {x t : Token} {previous : Option Token} {ts r : List Token}
    (h : HeadIn l known (some x) ts t r) : HeadIn l known previous (x :: ts) t r := by
  obtain ⟨pre, rfl, hh⟩ := h
  refine ⟨x :: pre, rfl, ?_⟩
  cases pre with
  | nil => exact hh
  | cons p r => simpa [List.getLast?_cons] using hh

def Scanned (l : Language) (known : Text → Bool) (line : Text) (number : Nat)
    (previous : Option Token) (ts : List Token) : Except LayoutError (List CallSite) → Prop
  | .ok cs => ∀ c ∈ cs, ∃ t r i, HeadIn l known previous ts t r ∧ closeFrom 0 r = some i ∧
      c = ofHead line number t r i
  | .error e => ∃ t r, HeadIn l known previous ts t r ∧ closeFrom 0 r = none ∧
      e = ⟨.unclosedCall t.text, number⟩

theorem Scanned.cons {line : Text} {number : Nat} {x : Token} {previous : Option Token}
    {ts : List Token} {o : Except LayoutError (List CallSite)}
    (h : Scanned l known line number (some x) ts o) :
    Scanned l known line number previous (x :: ts) o := by
  cases o with
  | ok cs =>
    intro c hc
    obtain ⟨t, r, i, hh, hi, he⟩ := h c hc
    exact ⟨t, r, i, hh.cons, hi, he⟩
  | error e =>
    obtain ⟨t, r, hh, hi, he⟩ := h
    exact ⟨t, r, hh.cons, hi, he⟩

theorem scanned_scan (line : Text) (number skip : Nat) (previous : Option Token)
    (ts : List Token) :
    Scanned l known line number previous ts (scan l known line number skip previous ts) := by
  induction ts generalizing skip previous with
  | nil =>
    rw [scan]
    exact fun _ hc => nomatch hc
  | cons t r ih =>
    cases skip with
    | succ skip => exact (ih skip (some t)).cons
    | zero =>
      rw [scan]
      by_cases hd : isHead l known previous t r = true
      · have hhead : HeadIn l known previous (t :: r) t r := ⟨[], rfl, hd⟩
        rw [if_pos hd]
        cases hi : closeFrom 0 r with
        | none => exact ⟨t, r, hhead, hi, rfl⟩
        | some i =>
          have hrest : Scanned l known line number previous (t :: r) _ := (ih (i + 1) (some t)).cons
          dsimp only
          generalize scan l known line number (i + 1) (some t) r = o at hrest ⊢
          cases o with
          | error e => exact hrest
          | ok rest => exact List.forall_mem_cons.2 ⟨⟨t, r, i, hhead, hi, rfl⟩, hrest⟩
      · rw [if_neg hd]
        exact (ih 0 (some t)).cons

theorem scanned_onLine (functions : FunctionTable) (own : List Text) (number : Nat)
    (line : Text) : Scanned l (knows functions own) line number none (tokenize l line)
      (onLine l functions own number line) :=
  scanned_scan line number 0 none (tokenize l line)

theorem known_of_mem_onLine {functions : FunctionTable} {own : List Text} {line : Text}
    {number : Nat} {cs : List CallSite} (h : onLine l functions own number line = .ok cs)
    {c : CallSite} (hc : c ∈ cs) : knows functions own c.callee = true ∧ c.line = number := by
  have hs := scanned_onLine (l := l) functions own number line
  rw [h] at hs
  obtain ⟨t, r, i, ⟨pre, -, hh⟩, -, rfl⟩ := hs c hc
  exact ⟨(isHead_iff.1 hh).1, rfl⟩

end Polyglot.CallSite
