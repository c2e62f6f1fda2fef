import Polyglot.Proofs.Call.Outermost
import Polyglot.Proofs.Value.Ending
import Polyglot.Unit.Generator

/-!
# Spliced values

A calling line is continued with the printed values in place of its calls. The values are
put in as text, so the tokens of the new line are those of the old one, with the tokens of
a value for those of each call, only if no value runs into what stands beside it.
-/
namespace Polyglot.Generator
open Token (scan tokenize shape shapes Fused Kind continuesNumber)
open Text (size)

variable {l : Language} {line : Text}

/-- What stands right behind the value once all values are in place. -/
def following (l : Language) (line : Text) (c : CallSite) (next : Option (CallSite × Value)) :
    Option Char :=
  match next with
  | some q =>
    if q.1.start = c.stop then (q.2.render l).head? else (Text.dropBytes c.stop line).head?
  | none => (Text.dropBytes c.stop line).head?

/-- The value runs into the text beside its call: a number that ends where the call begins
goes on in the value, or the last token of the value goes on in what stands behind it. -/
def Fuses (l : Language) (line : Text) (p : CallSite × Value)
    (next : Option (CallSite × Value)) : Prop :=
  ((∃ t ∈ tokenize l line, t.kind = .number ∧ t.stop = p.1.start) ∧
    ∃ d, (p.2.render l).head? = some d ∧ continuesNumber d = true) ∨
  ∃ d, following l line p.1 next = some d ∧ p.2.goesOn l d = true

/-- What becomes of a token of the line: the first one of a call makes place for the tokens
of its value, the others of the call go, and all other tokens stay. -/
def replaced (l : Language) (ps : List (CallSite × Value)) (t : Token) : List (Kind × Text) :=
  match ps.find? fun p => p.1.start ≤ t.start && t.start < p.1.stop with
  | some p => if p.1.start = t.start then shapes l (p.2.render l) else []
  | none => [shape t]

section
variable {c : CallSite} {v : Value} {ps : List (CallSite × Value)} {t : Token}

theorem replaced_of_lt (h : ∀ p ∈ ps, t.start < p.1.start) : replaced l ps t = [shape t] := by
  have hfind : ps.find? (fun p => p.1.start ≤ t.start && t.start < p.1.stop) = none := by
    rw [List.find?_eq_none]
    intro p hp
    have hlt := h p hp
    rw [decide_eq_false (Nat.not_le.2 hlt), Bool.false_and]
    exact Bool.false_ne_true
  rw [replaced, hfind]

theorem replaced_first (hs : c.start = t.start) (he : c.start < c.stop) :
    replaced l ((c, v) :: ps) t = shapes l (v.render l) := by
  rw [replaced, List.find?_cons_of_pos (by simp [← hs, he])]
  exact if_pos hs

theorem replaced_inside (hs : c.start < t.start) (he : t.start < c.stop) :
    replaced l ((c, v) :: ps) t = [] := by
  rw [replaced, List.find?_cons_of_pos (by simp [Nat.le_of_lt hs, he])]
  exact if_neg (Nat.ne_of_lt hs)

theorem replaced_behind (h : c.stop ≤ t.start) :
    replaced l ((c, v) :: ps) t = replaced l ps t := by
  rw [replaced, List.find?_cons_of_neg (by simp [Nat.not_lt.2 h]), replaced]

end

structure Piece (l : Language) (line : Text) (pos : Nat) (c : CallSite) (g x r : Text) :
    Prop where
  start : c.start = pos + size g
  stop : c.stop = c.start + size x
  tokens : scan l 0 pos (g ++ (x ++ r)) =
    scan l 0 pos g ++ (scan l 0 c.start x ++ scan l 0 c.stop r)
  name : ∃ d s, x = d :: s ∧ l.startsName d = true
  behind : Text.dropBytes c.stop line = r
  number : (∃ t ∈ tokenize l line, t.kind = .number ∧ t.stop = c.start) ↔
    ∃ t ∈ scan l 0 pos g, t.kind = .number ∧ t.stop = c.start

/-- The text from the byte `pos` on, and what it is with the values in place. -/
inductive Woven (l : Language) (line : Text) :
    Nat → Text → List (CallSite × Value) → Text → Prop
  | rest (pos : Nat) (text : Text) : Woven l line pos text [] text
  | call {pos : Nat} {c : CallSite} {v : Value} {g x r w : Text} {ps : List (CallSite × Value)}
    (h : Piece l line pos c g x r) (next : Woven l line c.stop r ps w) :
    Woven l line pos (g ++ (x ++ r)) ((c, v) :: ps) (g ++ (v.render l ++ w))

section
variable {pos : Nat} {text w : Text} {ps : List (CallSite × Value)}

theorem Woven.le_start (h : Woven l line pos text ps w) : ∀ p ∈ ps, pos ≤ p.1.start := by
  induction h with
  | rest => exact nofun
  | call h _ ih =>
    have hstart := h.start
    have hstop := h.stop
    refine List.forall_mem_cons.2 ⟨hstart ▸ Nat.le_add_right _ _, fun p hp => ?_⟩
    have hle := ih p hp
    omega

/-- The calls are replaced from the last to the first, each where it was found. -/
theorem Woven.foldr_splice (h : Woven l line pos text ps w) (pre : Text) (hp : size pre = pos) :
    ps.foldr (fun p body => Text.splice body p.1.start p.1.stop (p.2.render l)) (pre ++ text) =
      pre ++ w := by
  induction h generalizing pre with
  | rest => rfl
  | @call pos c v g x r w ps h _ ih =>
    have hstart : size (pre ++ g) = c.start := by rw [Text.size_append, hp, h.start]
    have hstop : size (pre ++ g ++ x) = c.stop := by rw [Text.size_append, hstart, h.stop]
    have hbody := ih _ hstop
    rw [← List.append_assoc, ← List.append_assoc, List.foldr_cons, hbody, Text.splice, ← hstop,
      Text.dropBytes_size, ← hstart, List.append_assoc (pre ++ g) x w, Text.takeBytes_size]
    simp only [List.append_assoc]

end

theorem Piece.start_lt {pos : Nat} {c : CallSite} {g x r : Text} (h : Piece l line pos c g x r) :
    c.start < c.stop := by
  obtain ⟨d, s, rfl, -⟩ := h.name
  have hpos := d.utf8Size_pos
  rw [h.stop, size]
  omega

section
variable {known : Text → Bool} {number n i j m : Nat} {ts : List Token} {c : CallSite}
  {cs : List CallSite}

theorem startsName_of_scan {pos : Nat} {text : Text} {t : Token} {us : List Token}
    (h : scan l 0 pos text = t :: us) (hs : t.start = pos) (hi : t.isIdent = true) :
    ∃ d s, text = d :: s ∧ l.startsName d = true := by
  cases text with
  | nil => cases h
  | cons d s =>
    cases hb : Text.isBlank d with
    | true =>
      rw [Token.scan_blank s pos hb] at h
      have hle := Token.start_of_mem_scan (h ▸ List.mem_cons_self : t ∈ scan l 0 _ s)
      have hpos := d.utf8Size_pos
      omega
    | false =>
      rw [Token.scan_cons s pos hb] at h
      obtain ⟨rfl, -⟩ := List.cons.inj h
      exact ⟨d, s, rfl, (Token.lexeme_ident (beq_iff_eq.1 hi)).1⟩

structure Reached (l : Language) (line : Text) (ts : List Token) (n : Nat) (pre text : Text) :
    Prop where
  whole : line = pre ++ text
  tokens : scan l 0 (size pre) text = ts.drop n
  number : ∀ t ∈ ts.take n, t.kind = .number → t.stop < size pre

theorem Reached.exists_piece (hts : tokenize l line = ts) {pre text : Text}
    (hat : Reached l line ts n pre text) (h : CallSite.CallAt l known line number ts i j c)
    (hn : n ≤ i) :
    ∃ g x r, text = g ++ (x ++ r) ∧ Piece l line (size pre) c g x r ∧
      c.stop = size (pre ++ (g ++ x)) ∧ scan l 0 c.stop r = ts.drop (j + 1) := by
  obtain ⟨t, ht, hstart⟩ := Option.map_eq_some_iff.1 h.start
  obtain ⟨u, hu, hstop⟩ := Option.map_eq_some_iff.1 h.stop
  have hij := (h.head.lt_close h.close).1
  have hident : t.isIdent = true := by
    obtain ⟨⟨t', ht', hi⟩, -⟩ := h.head.bracket
    rw [ht, Option.some_inj] at ht'
    exact ht' ▸ hi
  have hi : (ts.drop n)[i - n]? = some t := by
    rw [List.getElem?_drop, Nat.add_sub_cancel' hn, ht]
  have hj : (ts.drop n)[j - n]? = some u := by
    rw [List.getElem?_drop, Nat.add_sub_cancel' (by omega), hu]
  have hdrop : (ts.drop n).drop (j - n + 1) = ts.drop (j + 1) := by
    rw [List.drop_drop]
    congr 1
    omega
  obtain ⟨g, x, r, us, rfl, hgap, hown, hscan, hx, hr⟩ :=
    Token.scan_around hat.tokens hi hj (by omega)
  rw [hstart] at hgap hown hscan hx
  rw [hstop] at hown hscan hr
  have hsize : c.stop = size (pre ++ (g ++ x)) := by
    rw [hown, hgap, Text.size_append, Text.size_append, Nat.add_assoc]
  have hbehind : line = pre ++ (g ++ x) ++ r := by
    rw [hat.whole]
    simp only [List.append_assoc]
  refine ⟨g, x, r, rfl, {
    start := hgap
    stop := hown
    tokens := hscan
    name := startsName_of_scan hx hstart hident
    behind := by rw [hsize, hbehind, Text.dropBytes_size]
    number := ?_ }, hsize, hr.trans hdrop⟩
  have hall : tokenize l line =
      ts.take n ++ (scan l 0 (size pre) g ++ (scan l 0 c.start x ++ scan l 0 c.stop r)) := by
    rw [hts, ← hscan, hat.tokens, List.take_append_drop]
  rw [hall]
  simp only [List.mem_append]
  constructor
  -- A number that ends where the call begins is in the gap: all others end or begin elsewhere.
  · rintro ⟨t', hm | hm | hm | hm, hk, he⟩
    · have hlt := hat.number t' hm hk
      omega
    · exact ⟨t', hm, hk, he⟩
    · have hle := Token.start_of_mem_scan hm
      have hlt := Token.start_lt_stop hm
      simp only [List.take_zero, size] at hle
      omega
    · have hle := Token.start_of_mem_scan hm
      have hlt := Token.start_lt_stop hm
      simp only [List.take_zero, size] at hle
      omega
  · rintro ⟨t', hm, hk, he⟩
    exact ⟨t', .inr (.inl hm), hk, he⟩

theorem number_before_stop (hts : tokenize l line = ts)
    (h : CallSite.CallAt l known line number ts i j c) :
    ∀ t ∈ ts.take (j + 1), t.kind = .number → t.stop < c.stop := by
  obtain ⟨u, hu, hstop⟩ := Option.map_eq_some_iff.1 h.stop
  intro t hm hkind
  obtain ⟨k, hk, hget⟩ := List.mem_take_iff_getElem.1 hm
  rw [Nat.lt_min] at hk
  have ht : ts[k]? = some t := by rw [List.getElem?_eq_getElem hk.2, hget]
  rcases Nat.eq_or_lt_of_le (Nat.le_of_lt_succ hk.1) with rfl | hlt
  · obtain ⟨-, v, hv, hcloses⟩ := h.head.lt_close h.close
    obtain rfl := Option.some_inj.1 (ht.symm.trans hv)
    simp [Token.closes, Token.isPunct, hkind] at hcloses
  · have hplaces := CallSite.places_of_lt hts ht hu hlt
    omega

theorem Reached.exists_woven (hts : tokenize l line = ts) {pre text : Text}
    (hat : Reached l line ts n pre text) (h : CallSite.Leaps l known line number ts n cs m)
    (vs : List Value) : ∃ w, Woven l line (size pre) text (cs.zip vs) w := by
  induction h generalizing pre text vs with
  | pass => exact ⟨text, .rest _ text⟩
  | @call n i j m c cs hn _ hc _ ih =>
    cases vs with
    | nil => exact ⟨text, .rest _ text⟩
    | cons v vs =>
      obtain ⟨g, x, r, rfl, hpiece, hsize, hr⟩ := hat.exists_piece hts hc hn
      have hnext : Reached l line ts (j + 1) (pre ++ (g ++ x)) r := {
        whole := by
          rw [hat.whole]
          simp only [List.append_assoc]
        tokens := hsize ▸ hr
        number := hsize ▸ number_before_stop hts hc }
      obtain ⟨w, hw⟩ := ih hnext vs
      rw [← hsize] at hw
      exact ⟨_, .call hpiece hw⟩

theorem exists_woven_onLine {functions : FunctionTable} {own : List Text}
    (h : CallSite.onLine l functions own number line = .ok cs) (vs : List Value) :
    ∃ w, Woven l line 0 line (cs.zip vs) w := by
  obtain ⟨ds, m, hleaps, hends⟩ :=
    CallSite.exists_leaps (CallSite.knows functions own) number (rfl : tokenize l line = _) 0
  rw [List.take_zero, List.getLast?_nil, List.drop_zero, ← CallSite.onLine, h] at hends
  cases hends with
  | done =>
    have hat : Reached l line (tokenize l line) 0 [] line :=
      ⟨rfl, rfl, fun _ hm => absurd hm List.not_mem_nil⟩
    exact hat.exists_woven rfl hleaps vs

end

section
variable {pos : Nat} {c : CallSite} {v : Value} {g x r w : Text} {ps : List (CallSite × Value)}

theorem flatMap_replaced {ts : List Token} (h : ∀ t ∈ ts, replaced l ps t = [shape t]) :
    ts.flatMap (replaced l ps) = ts.map shape := by
  rw [List.flatMap_congr h]
  exact List.flatMap_pure_eq_map shape ts

theorem Piece.flatMap_replaced (h : Piece l line pos c g x r)
    (hps : ∀ p ∈ ps, c.stop ≤ p.1.start) :
    (scan l 0 pos (g ++ (x ++ r))).flatMap (replaced l ((c, v) :: ps)) =
      shapes l g ++ (shapes l (v.render l) ++ (scan l 0 c.stop r).flatMap (replaced l ps)) := by
  have hlt := h.start_lt
  have hgap : (scan l 0 pos g).flatMap (replaced l ((c, v) :: ps)) = shapes l g := by
    rw [Generator.flatMap_replaced fun t ht => ?_, Token.map_shape_scan]
    · rfl
    · have hbefore := Token.start_lt_stop ht
      have hend := Token.stop_le_of_mem_scan ht
      have hstart := h.start
      have hlt' : t.start < c.start := by omega
      exact replaced_of_lt (List.forall_mem_cons.2 ⟨hlt', fun p hp =>
        Nat.lt_trans hlt' (Nat.lt_of_lt_of_le hlt (hps p hp))⟩)
  have hown : (scan l 0 c.start x).flatMap (replaced l ((c, v) :: ps)) = shapes l (v.render l) := by
    obtain ⟨d, s, rfl, hd⟩ := h.name
    have hpair := Token.pairwise_scan l 0 c.start (d :: s)
    have hmem : ∀ t ∈ scan l 0 c.start (d :: s), t.start < t.stop ∧ t.stop ≤ c.stop :=
      fun t ht => ⟨Token.start_lt_stop ht, h.stop ▸ Token.stop_le_of_mem_scan ht⟩
    rw [Token.scan_cons s c.start (Token.beginsWord_of_startsName hd).blank] at hpair hmem ⊢
    rw [List.pairwise_cons] at hpair
    obtain ⟨hfirst, hmem⟩ := List.forall_mem_cons.1 hmem
    rw [List.flatMap_cons, replaced_first rfl hlt, List.flatMap_eq_nil_iff.2 fun t ht => ?_,
      List.append_nil]
    have hbehind := hpair.1 t ht
    have hplace := hmem t ht
    have hstart := hfirst.1
    exact replaced_inside (Nat.lt_of_lt_of_le hstart hbehind) (by omega)
  have hrest : (scan l 0 c.stop r).flatMap (replaced l ((c, v) :: ps)) =
      (scan l 0 c.stop r).flatMap (replaced l ps) :=
    List.flatMap_congr fun t ht => replaced_behind (Token.start_of_mem_scan ht)
  rw [h.tokens, List.flatMap_append, List.flatMap_append, hgap, hown, hrest]

theorem Piece.not_fused (h : Piece l line pos c g x r) : ¬ Fused l g (x ++ r) := by
  have hshapes : shapes l (g ++ (x ++ r)) =
      shapes l g ++ (scan l 0 c.start x ++ scan l 0 c.stop r).map shape := by
    rw [shapes, tokenize, ← Token.map_shape_scan 0 pos, h.tokens, List.map_append,
      Token.map_shape_scan 0 pos g]
    rfl
  exact (Token.shapes_append_iff.1 hshapes).1

theorem Piece.fused_gap_iff (h : Piece l line pos c g x r) (hv : v.Proper) :
    Fused l g (v.render l ++ w) ↔
      (∃ t ∈ tokenize l line, t.kind = .number ∧ t.stop = c.start) ∧
        ∃ d, (v.render l).head? = some d ∧ continuesNumber d = true := by
  obtain ⟨d, s, hx, hd⟩ := h.name
  obtain ⟨e, u, hrender, he⟩ := Value.head_render l hv
  have hno := h.not_fused
  rw [hx, List.cons_append] at hno
  rw [h.number, hrender, List.cons_append, Token.fused_cons_iff pos hd hno he, ← h.start]
  simp

theorem Woven.following_eq (h : Woven l line c.stop r ps w)
    (hbehind : Text.dropBytes c.stop line = r) (hps : ∀ p ∈ ps, p.2.Proper) :
    w.head? = following l line c ps[0]? := by
  cases h with
  | rest => rw [List.getElem?_nil, following, hbehind]
  | @call _ c' v' g x r w ps h _ =>
    obtain ⟨d, s, hrender, -⟩ := Value.head_render l (hps _ List.mem_cons_self)
    have hstart := h.start
    rw [List.getElem?_cons_zero, following, hbehind]
    cases g with
    | nil =>
      have hat : c'.start = c.stop := hstart
      rw [if_pos hat, List.nil_append, hrender]
      rfl
    | cons e g =>
      have hpos := e.utf8Size_pos
      have hne : c'.start ≠ c.stop := by
        rw [hstart, size]
        omega
      rw [if_neg hne]
      rfl

theorem Woven.shapes_iff {text : Text} (h : Woven l line pos text ps w)
    (hps : ∀ p ∈ ps, p.2.Proper) :
    shapes l w = (scan l 0 pos text).flatMap (replaced l ps) ↔
      ∀ i p, ps[i]? = some p → ¬ Fuses l line p ps[i + 1]? := by
  induction h with
  | rest pos text =>
    rw [Generator.flatMap_replaced fun _ _ => rfl, Token.map_shape_scan]
    exact ⟨fun _ i p hp => (nomatch hp), fun _ => rfl⟩
  | @call pos c v g x r w ps h next ih =>
    obtain ⟨hv, hps⟩ := List.forall_mem_cons.1 hps
    -- A seam on either side of the value, then those of the rest of the line.
    rw [h.flatMap_replaced next.le_start, Token.shapes_append_iff, Token.shapes_append_iff, ih hps,
      h.fused_gap_iff hv, Value.fused_render hv, next.following_eq h.behind hps]
    constructor
    · rintro ⟨hleft, hright, hrest⟩ i p hp
      cases i with
      | zero =>
        cases hp
        exact fun hf => hf.elim hleft hright
      | succ i => exact hrest i p hp
    · intro hall
      have hfirst := hall 0 (c, v) rfl
      exact ⟨fun hf => hfirst (.inl hf), fun hf => hfirst (.inr hf),
        fun i p hp => hall (i + 1) p hp⟩

end

/-- The continued line has the tokens of the calling line, with those of each value for those
of its call, exactly if no value runs into the text beside its call. -/
theorem spliced_tokens_iff (ctx : SegmentContext) {text : Text} {functions : FunctionTable}
    {own : List Text} {number : Nat} {calls : List CallSite} {returns : List Value}
    (hcalls : CallSite.onLine ctx.language functions own number text = .ok calls)
    (hreturns : ∀ v ∈ returns, v.Proper) (line : Nat) (bound : List Text) (g : Globals) :
    shapes ctx.language (continuationDraft ctx text line calls returns bound g).body =
        (tokenize ctx.language text).flatMap (replaced ctx.language (calls.zip returns)) ↔
      ∀ i p, (calls.zip returns)[i]? = some p →
        ¬ Fuses ctx.language text p (calls.zip returns)[i + 1]? := by
  obtain ⟨w, hw⟩ := exists_woven_onLine hcalls returns
  have hbody : (continuationDraft ctx text line calls returns bound g).body = w :=
    hw.foldr_splice [] rfl
  rw [hbody]
  exact hw.shapes_iff fun p hp => hreturns _ (List.of_mem_zip hp).2

/-- A value with a member right behind its call. -/
def fluentLine : Text := "let s = g(1).toFixed(2)"

def fluentTable : FunctionTable :=
  Catalog.empty.put ⟨"g", .python, ["n"], "def g(n):\n    return n", 0, 2⟩

def fluentCall : CallSite := ⟨"g", ["1"], 8, 12, 4⟩

def fluentContext : SegmentContext := ⟨.javascript, [], [], ⟨[], [], [], []⟩⟩

theorem spliced_tokens_iff_fluent :
    let draft := continuationDraft fluentContext fluentLine 4 [fluentCall] [.number "5"] ["s"]
      .empty
    CallSite.onLine .javascript fluentTable [] 4 fluentLine = .ok [fluentCall] ∧
      draft.body = "let s = 5.toFixed(2)" ∧
      shapes .javascript draft.body ≠ (tokenize .javascript fluentLine).flatMap
        (replaced .javascript [(fluentCall, .number "5")]) := by
  have hcalls : CallSite.onLine .javascript fluentTable [] 4 fluentLine = .ok [fluentCall] := by
    decide +kernel
  have hproper : ∀ v ∈ [Value.number "5"], v.Proper :=
    List.forall_mem_singleton.2 ⟨"5", [], by decide +kernel⟩
  have hfuses : Fuses .javascript fluentLine (fluentCall, .number "5") none :=
    .inr ⟨'.', by decide +kernel, by decide +kernel⟩
  have hiff := spliced_tokens_iff fluentContext hcalls hproper 4 ["s"] .empty
  exact ⟨hcalls, by decide +kernel, fun he => hiff.1 he 0 _ rfl hfuses⟩

end Polyglot.Generator
