import Polyglot.Proofs.Token.Order

/-!
# Tokens as tiles

The tokens of a line lie side by side on it with nothing but blanks around them, and the piece
of the line from the start of one token to the end of another has, scanned by itself, exactly
the tokens between the two. Arguments and other expressions are cut out of their lines in that
way.
-/
namespace Polyglot.Token
open Text (size)

variable {l : Language} {line : Text}

/-- The tokens are pieces of the line that do not overlap, one behind the other, and all that is
not blank is in one of them. A comment has no token behind it. -/
structure Tiles (line : Text) (ts : List Token) : Prop where
  piece : ∀ t ∈ ts, t.text ≠ [] ∧ ∃ u v, line = u ++ (t.text ++ v) ∧ size u = t.start
  order : ts.Pairwise fun t u => t.stop ≤ u.start
  blank : ∀ u c v, line = u ++ c :: v →
    (∀ t ∈ ts, size u < t.start ∨ t.stop ≤ size u) → Text.isBlank c = true
  comment : ∀ pre t post, ts = pre ++ t :: post → t.isComment = true → post = []
  few : ts.length ≤ line.length

theorem exists_piece {t : Token} (h : t ∈ tokenize l line) :
    ∃ u v, line = u ++ (t.text ++ v) ∧ size u = t.start := by
  obtain ⟨pre, post, hts⟩ := List.append_of_mem h
  have hparts : tokenize l line = pre ++ ([t] ++ post) := hts
  obtain ⟨u, w, z, pos, rfl, rfl, hs, hw, hstart, hstop⟩ :=
    exists_span hparts (List.cons_ne_nil t [])
  rw [List.head?_cons, Option.map_some, Option.some_inj] at hstart
  rw [List.getLast?_singleton, Option.map_some, Option.some_inj] at hstop
  have hmem : t ∈ scan l 0 (size u) w := hs ▸ List.mem_cons_self
  obtain ⟨x, hx⟩ := suffix_of_stop hmem hstop
  -- The token reaches over all of `w`, so nothing of `w` is left before it.
  have hsize := congrArg size hx
  rw [Text.size_append] at hsize
  have hempty : x = [] := Text.eq_nil_of_size (by rw [stop] at hstop; omega)
  rw [hempty, List.nil_append] at hx
  exact ⟨u, z, by rw [hx], hstart.symm⟩

theorem length_le_of_size {u v w z : Text} (h : u ++ v = w ++ z) (hs : size u ≤ size w) :
    u.length ≤ w.length := by
  refine Nat.le_of_not_lt fun hlt => ?_
  obtain ⟨x, rfl⟩ := List.prefix_of_prefix_length_le ⟨z, h.symm⟩ (List.prefix_append u v)
    (Nat.le_of_lt hlt)
  rw [Text.size_append] at hs
  have hx : x = [] := Text.eq_nil_of_size (by omega)
  rw [hx, List.append_nil] at hlt
  exact Nat.lt_irrefl _ hlt

theorem isBlank_of_uncovered {k pos : Nat} {u v : Text} {c : Char} (hk : k ≤ u.length)
    (h : ∀ t ∈ scan l k pos (u ++ c :: v), pos + size u < t.start ∨ t.stop ≤ pos + size u) :
    Text.isBlank c = true := by
  induction u generalizing k pos with
  | nil =>
    obtain rfl := Nat.le_zero.1 hk
    cases hb : Text.isBlank c with
    | true => rfl
    | false =>
      rw [List.nil_append, scan_cons v pos hb] at h
      have hc := c.utf8Size_pos
      have hfirst := h _ List.mem_cons_self
      simp only [stop, size] at hfirst
      omega
  | cons d u ih =>
    rw [List.cons_append] at h
    rw [size, ← Nat.add_assoc] at h
    cases k with
    | succ k => exact ih (Nat.le_of_succ_le_succ hk) h
    | zero =>
      cases hb : Text.isBlank d with
      | true => exact ih (Nat.zero_le _) (scan_blank _ pos hb ▸ h)
      | false =>
        rw [scan_cons _ pos hb] at h
        obtain ⟨hfirst, hrest⟩ := List.forall_mem_cons.1 h
        have hle : ((u ++ c :: v).take (lexeme l d (u ++ c :: v)).2).length ≤ u.length := by
          refine length_le_of_size (List.take_append_drop _ (u ++ c :: v)) ?_
          simp only [stop, size] at hfirst
          omega
        rw [List.length_take, Nat.min_eq_left (lexeme_le l d _)] at hle
        exact ih hle hrest

theorem last_of_comment {k pos : Nat} {pre post : List Token} {t : Token}
    (h : scan l k pos line = pre ++ t :: post) (hc : t.isComment = true) : post = [] := by
  induction line generalizing k pos pre with
  | nil => simp [scan] at h
  | cons c r ih =>
    cases k with
    | succ k => exact ih (k := k) h
    | zero =>
      cases hb : Text.isBlank c with
      | true => exact ih (scan_blank r pos hb ▸ h)
      | false =>
        rw [scan_cons r pos hb] at h
        cases pre with
        | cons x pre => exact ih (List.cons.inj h).2
        | nil =>
          obtain ⟨rfl, hr⟩ := List.cons.inj h
          rw [length_comment (beq_iff_eq.1 hc), scan_all (Nat.le_refl _)] at hr
          exact hr.symm

theorem length_scan_le (k pos : Nat) (line : Text) : (scan l k pos line).length ≤ line.length := by
  induction line generalizing k pos with
  | nil => rw [scan]; exact Nat.le_refl 0
  | cons c r ih =>
    cases k with
    | succ k => exact Nat.le_succ_of_le (ih k _)
    | zero =>
      cases hb : Text.isBlank c with
      | true => rw [scan_blank r pos hb]; exact Nat.le_succ_of_le (ih 0 _)
      | false => rw [scan_cons r pos hb]; exact Nat.succ_le_succ (ih _ _)

theorem tiles_tokenize (l : Language) (line : Text) : Tiles line (tokenize l line) where
  piece _ h := ⟨text_ne_nil h, exists_piece h⟩
  order := pairwise_scan l 0 0 line
  blank u c v hline h := by
    subst hline
    rw [tokenize, ← Nat.zero_add (size u)] at h
    exact isBlank_of_uncovered (Nat.zero_le _) h
  comment _ _ _ h := last_of_comment h
  few := length_scan_le 0 0 line

theorem tokenize_slice {pre ts post : List Token} {a b : Token}
    (h : tokenize l line = pre ++ (ts ++ post)) (ha : ts.head? = some a)
    (hb : ts.getLast? = some b) :
    (tokenize l (Text.slice line a.start b.stop)).map (moved a.start) = ts := by
  have hn : ts ≠ [] := by
    rintro rfl
    cases ha
  obtain ⟨u, w, z, pos, rfl, rfl, hs, -, hstart, hstop⟩ := exists_span h hn
  rw [ha, Option.map_some, Option.some_inj] at hstart
  rw [hb, Option.map_some, Option.some_inj] at hstop
  rw [hstart, hstop, Text.slice_append, tokenize, ← scan_moved, Nat.zero_add, hs]

/-- The tokens of a line tile it, and cut out with all that stands between them they stay what
they are. Arguments and other expressions are cut out that way, unless blanks at the end of
the line belong to a string that is still open there or to a comment. -/
theorem tiles_and_cuts (l : Language) (line : Text) :
    Tiles line (tokenize l line) ∧
      ∀ (i j : Nat) (a b : Token), i ≤ j → (tokenize l line)[i]? = some a →
        (tokenize l line)[j]? = some b →
        (tokenize l (Text.slice line a.start b.stop)).map (moved a.start) =
            ((tokenize l line).take (j + 1)).drop i ∧
          ((j + 1 < (tokenize l line).length ∨ ∀ d ∈ b.text.getLast?, Text.isBlank d = false) →
            spanText line (((tokenize l line).take (j + 1)).drop i) =
              Text.slice line a.start b.stop) := by
  refine ⟨tiles_tokenize l line, fun i j a b hij ha hb => ?_⟩
  generalize hts : tokenize l line = ts at ha hb
  have hj := (List.getElem?_eq_some_iff.1 hb).1
  have hparts : ts = ts.take i ++ ((ts.take (j + 1)).drop i ++ ts.drop (j + 1)) := by
    have hi : ts.take i = (ts.take (j + 1)).take i := by
      rw [List.take_take, Nat.min_eq_left (by omega)]
    rw [← List.append_assoc, hi, List.take_append_drop, List.take_append_drop]
  have hfirst : ((ts.take (j + 1)).drop i).head? = some a := by
    rw [List.head?_drop, List.getElem?_take_of_lt (by omega), ha]
  have hlast : ((ts.take (j + 1)).drop i).getLast? = some b := by
    rw [List.getLast?_drop, List.length_take, Nat.min_eq_left (by omega), if_neg (by omega),
      List.getLast?_take, if_neg (Nat.succ_ne_zero j), Nat.add_sub_cancel, hb]
    rfl
  refine ⟨tokenize_slice (hts.trans hparts) hfirst hlast, fun hend => ?_⟩
  rcases hend with hmore | hblank
  · refine spanText_eq_slice (hts.trans hparts) (fun hnil => ?_) hfirst hlast
    have hlen := congrArg List.length hnil
    rw [List.length_drop, List.length_nil] at hlen
    omega
  · exact spanText_of_last (hts.trans hparts) hfirst hlast hblank

/-- A marked string with a wide character and the number behind it, cut out of a call. -/
theorem tiles_and_cuts_arguments :
    (tokenize .python "say(rb'é', 2)  # f(")[2]? = some ⟨.str, "rb'é'", 4⟩ ∧
      (tokenize .python "say(rb'é', 2)  # f(")[4]? = some ⟨.number, "2", 12⟩ ∧
      Text.slice "say(rb'é', 2)  # f(" 4 13 = "rb'é', 2" ∧
      (tokenize .python "rb'é', 2").map (moved 4) =
        [⟨.str, "rb'é'", 4⟩, ⟨.punct ',', ",", 10⟩, ⟨.number, "2", 12⟩] ∧
      spanText "say(rb'é', 2)  # f("
        [⟨.str, "rb'é'", 4⟩, ⟨.punct ',', ",", 10⟩, ⟨.number, "2", 12⟩] = "rb'é', 2" := by
  have ha : (tokenize .python "say(rb'é', 2)  # f(")[2]? = some ⟨.str, "rb'é'", 4⟩ := by
    decide +kernel
  have hb : (tokenize .python "say(rb'é', 2)  # f(")[4]? = some ⟨.number, "2", 12⟩ := by
    decide +kernel
  have hmore : 4 + 1 < (tokenize .python "say(rb'é', 2)  # f(").length := by decide +kernel
  have hslice : Text.slice "say(rb'é', 2)  # f(" 4 13 = "rb'é', 2" := by decide +kernel
  have hparts : ((tokenize .python "say(rb'é', 2)  # f(").take (4 + 1)).drop 2 =
      [⟨.str, "rb'é'", 4⟩, ⟨.punct ',', ",", 10⟩, ⟨.number, "2", 12⟩] := by decide +kernel
  obtain ⟨htokens, hspan⟩ := (tiles_and_cuts .python "say(rb'é', 2)  # f(").2 2 4 _ _
    (by decide) ha hb
  have hstop : stop ⟨.number, "2", 12⟩ = 13 := by decide +kernel
  rw [hparts, hstop, hslice] at htokens hspan
  exact ⟨ha, hb, hslice, htokens, hspan (.inl hmore)⟩

end Polyglot.Token
