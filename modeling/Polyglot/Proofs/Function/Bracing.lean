import Mathlib.Data.List.Infix
import Polyglot.Proofs.Analysis.Origin
import Polyglot.Proofs.Token.Seam

/-!
# Functions by their braces

Where blocks are told by braces, a function should end with the first block behind its
parameters. The tracker counts braces line by line, so what it takes for the end depends on
the braces that share a line with those of the block: the ones between the parentheses, and
the ones behind the block.
-/
namespace Polyglot

namespace Token

/-- Every brace that closes has one before it that opens, and none is left open. -/
structure BracesNest (ts : List Token) : Prop where
  opened : ∀ us, us <+: ts → closeBraces us ≤ openBraces us
  closed : openBraces ts = closeBraces ts

instance (ts : List Token) : Decidable (BracesNest ts) :=
  decidable_of_iff
    ((∀ us ∈ ts.inits, closeBraces us ≤ openBraces us) ∧ openBraces ts = closeBraces ts)
    ⟨fun h => ⟨fun us hu => h.1 us ((List.mem_inits us ts).2 hu), h.2⟩,
      fun h => ⟨fun us hu => h.opened us ((List.mem_inits us ts).1 hu), h.closed⟩⟩

structure StaysOpen (depth : Nat) (ts : List Token) : Prop where
  above : ∀ us, us <+: ts → closeBraces us < depth + openBraces us
  level : depth + openBraces ts = closeBraces ts + 1

section
variable {t : Token} {ts us : List Token} {depth : Nat}

theorem openBraces_append (ts us : List Token) :
    openBraces (ts ++ us) = openBraces ts + openBraces us := List.countP_append

theorem closeBraces_append (ts us : List Token) :
    closeBraces (ts ++ us) = closeBraces ts + closeBraces us := List.countP_append

theorem braces_cons_open (h : t.isPunct '{' = true) (ts : List Token) :
    openBraces (t :: ts) = openBraces ts + 1 ∧ closeBraces (t :: ts) = closeBraces ts := by
  have hne : ¬ t.isPunct '}' = true := by
    rw [isPunct, beq_iff_eq] at h
    simp [isPunct, h]
  exact ⟨List.countP_cons_of_pos h, List.countP_cons_of_neg hne⟩

theorem braces_cons_close (h : t.isPunct '}' = true) (ts : List Token) :
    openBraces (t :: ts) = openBraces ts ∧ closeBraces (t :: ts) = closeBraces ts + 1 := by
  have hne : ¬ t.isPunct '{' = true := by
    rw [isPunct, beq_iff_eq] at h
    simp [isPunct, h]
  exact ⟨List.countP_cons_of_neg hne, List.countP_cons_of_pos h⟩

def Plain (t : Token) : Prop := t.isPunct '{' = false ∧ t.isPunct '}' = false

instance (t : Token) : Decidable t.Plain := inferInstanceAs (Decidable (_ ∧ _))

theorem braces_of_plain (h : ∀ t ∈ ts, t.Plain) : openBraces ts = 0 ∧ closeBraces ts = 0 := by
  constructor <;> refine List.countP_eq_zero.2 fun t ht => ?_
  · rw [(h t ht).1]
    exact Bool.false_ne_true
  · rw [(h t ht).2]
    exact Bool.false_ne_true

theorem plain_of_isIdent (h : t.isIdent = true) : t.Plain := by
  rw [isIdent, beq_iff_eq] at h
  simp [Plain, isPunct, h]

theorem plain_of_isPunct {mark : Char} (h : t.isPunct mark = true) (ho : mark ≠ '{')
    (hc : mark ≠ '}') : t.Plain := by
  rw [isPunct, beq_iff_eq] at h
  simp [Plain, isPunct, h, ho, hc]

theorem text_of_isPunct {l : Language} {line : Text} {mark : Char} (ht : t ∈ tokenize l line)
    (h : t.isPunct mark = true) : t.text = [mark] := by
  obtain ⟨c, r, hkind, htext⟩ := mem_scan ht
  rw [isPunct, beq_iff_eq, hkind] at h
  have hl := lexed l c r
  generalize lexeme l c r = x at hl h htext
  cases hl with
  | punct =>
    cases h
    exact htext
  | _ => cases h

theorem plain_of_text {l : Language} {line : Text} (ht : t ∈ tokenize l line)
    (h : t.text.length ≠ 1) : t.Plain := by
  constructor <;> refine Bool.eq_false_iff.2 fun hp => h ?_
  · rw [text_of_isPunct ht hp]
    rfl
  · rw [text_of_isPunct ht hp]
    rfl

theorem BracesNest.staysOpen (h : BracesNest ts) : StaysOpen 1 ts where
  above us hu := by
    have := h.opened us hu
    omega
  level := by rw [h.closed, Nat.add_comm]

theorem StaysOpen.of_append (h : StaysOpen depth (ts ++ us)) :
    closeBraces ts < depth + openBraces ts ∧
      StaysOpen (depth + openBraces ts - closeBraces ts) us := by
  have hts := h.above ts (List.prefix_append ts us)
  refine ⟨hts, fun vs hv => ?_, ?_⟩
  · have hvs := h.above (ts ++ vs) ((List.prefix_append_right_inj ts).2 hv)
    rw [openBraces_append, closeBraces_append] at hvs
    omega
  · have hlevel := h.level
    rw [openBraces_append, closeBraces_append] at hlevel
    omega

end

end Token

namespace Line

/-- The tokens of the line, each with the number of the line. -/
def placed (x : Line) : List (Nat × Token) := x.tokens.map (x.number, ·)

theorem map_snd_placed (x : Line) : x.placed.map Prod.snd = x.tokens := by
  rw [placed, List.map_map]
  exact List.map_id _

theorem fst_of_mem_placed {x : Line} {p : Nat × Token} (h : p ∈ x.placed) : p.1 = x.number := by
  obtain ⟨t, -, rfl⟩ := List.mem_map.1 h
  rfl

theorem exists_of_mem_placed {ls : List Line} {p : Nat × Token} (h : p ∈ ls.flatMap placed) :
    ∃ x ∈ ls, p.1 = x.number := by
  obtain ⟨x, hx, hp⟩ := List.mem_flatMap.1 h
  exact ⟨x, hx, fst_of_mem_placed hp⟩

end Line

namespace Braces
open Token (openBraces closeBraces BracesNest StaysOpen)

section
variable {s : State} {h k : Header} {x : Line} {ls r : List Line} {e : Extent}

theorem completed_of_done (hd : (step s x).done = none) :
    Layout.completed step s (x :: r) = Layout.completed step (step s x).next r := by
  rw [Layout.completed, hd]
  rfl

def BeginsIn (ls : List Line) (e : Extent) : Prop :=
  ∃ before x after, ls = before ++ x :: after ∧
    Header.ofLine? .javascript x = some e.header ∧
    (Layout.completed step (.awaiting e.header) (x :: after)).head? = some e

theorem BeginsIn.cons (h : BeginsIn r e) (x : Line) : BeginsIn (x :: r) e := by
  obtain ⟨before, y, after, rfl, hy⟩ := h
  exact ⟨x :: before, y, after, rfl, hy⟩

theorem open_or_begins (he : e ∈ Layout.completed step s ls) :
    header? s = some e.header ∧ (Layout.completed step s ls).head? = some e ∨ BeginsIn ls e := by
  induction ls generalizing s with
  | nil => cases he
  | cons x r ih =>
    -- From a state without an open function, and from one with it, by the induction.
    have hrest : ∀ t : State, header? t = none → e ∈ Layout.completed step t r →
        BeginsIn (x :: r) e := by
      intro t ht hm
      rcases ih hm with ⟨hh, -⟩ | hb
      · rw [ht] at hh
        cases hh
      · exact hb.cons x
    have hopen : ∀ (t : State) (k : Header), header? t = some k →
        e ∈ Layout.completed step t (x :: r) →
        k = e.header ∧ (Layout.completed step t (x :: r)).head? = some e ∨
          BeginsIn (x :: r) e := by
      intro t k hk hm
      rcases step_open hk x with ⟨hdone, hnext⟩ | ⟨hdone, hnext⟩
      · rw [Layout.completed, hdone] at hm ⊢
        rcases List.mem_cons.1 hm with rfl | hm
        · exact .inl ⟨rfl, rfl⟩
        · exact .inr (hrest _ hnext hm)
      · rw [completed_of_done hdone] at hm ⊢
        rcases ih hm with ⟨hh, hfirst⟩ | hb
        · rw [hnext, Option.some_inj] at hh
          exact .inl ⟨hh, hfirst⟩
        · exact .inr (hb.cons x)
    cases hs : header? s with
    | some k =>
      rcases hopen s k hs he with ⟨rfl, hfirst⟩ | hb
      · exact .inl ⟨rfl, hfirst⟩
      · exact .inr hb
    | none =>
      right
      rcases step_outside hs x with ⟨hdone, hnext⟩ | ⟨k, hk, hstep⟩
      · rw [completed_of_done hdone] at he
        exact hrest _ hnext he
      · have hm : e ∈ Layout.completed step (.awaiting k) (x :: r) := by
          rw [Layout.completed, hstep] at he
          exact he
        rcases hopen (.awaiting k) k rfl hm with ⟨rfl, hfirst⟩ | hb
        · exact ⟨[], x, r, rfl, hk, hfirst⟩
        · exact hb

theorem exists_last_of_completed (he : e ∈ Layout.completed step s ls) :
    ∃ y ∈ ls, e.last = y.number := by
  induction ls generalizing s with
  | nil => cases he
  | cons x r ih =>
    rcases List.mem_append.1 he with hd | hm
    · exact ⟨x, List.mem_cons_self, (done_cases (Option.mem_toList.1 hd)).2⟩
    · obtain ⟨y, hy, hl⟩ := ih hm
      exact ⟨y, List.mem_cons_of_mem x hy, hl⟩

end

def onLine (n : Nat) (ps : List (Nat × Token)) : List Token :=
  (ps.filter (·.1 == n)).map Prod.snd

theorem append_eq_append_cons {α : Type} {ws xs ys zs : List α} {z : α}
    (h : ws ++ xs = ys ++ z :: zs) :
    (∃ as, ys = ws ++ as ∧ xs = as ++ z :: zs) ∨ ∃ bs, ws = ys ++ z :: bs ∧ zs = bs ++ xs := by
  rcases List.append_eq_append_iff.1 h with ⟨as, hy, hx⟩ | ⟨bs, hw, hz⟩
  · exact .inl ⟨as, hy, hx⟩
  · cases bs with
    | nil => exact .inl ⟨[], by simpa using hw.symm, hz.symm⟩
    | cons b bs =>
      obtain ⟨rfl, hzs⟩ := List.cons.inj hz
      exact .inr ⟨bs, hw, hzs⟩

section
variable {h : Header} {x : Line} {r ls : List Line} {m n d : Nat} {o c : Token}
  {front inner behind us vs : List (Nat × Token)} {e : Extent}

theorem placed_split (hx : x.placed = us ++ (n, o) :: vs) :
    n = x.number ∧ x.tokens = us.map Prod.snd ++ o :: vs.map Prod.snd ∧
      ∀ p ∈ vs, p.1 = x.number := by
  have hall : ∀ p ∈ us ++ (n, o) :: vs, p.1 = x.number :=
    fun p hp => Line.fst_of_mem_placed (hx ▸ hp)
  refine ⟨hall (n, o) (by simp), ?_, fun p hp => hall p (by simp [hp])⟩
  rw [← x.map_snd_placed, hx, List.map_append, List.map_cons]

theorem onLine_append (hvs : ∀ p ∈ vs, p.1 = x.number) (hr : ∀ y ∈ r, x.number < y.number) :
    onLine x.number (vs ++ r.flatMap Line.placed) = vs.map Prod.snd := by
  have hown : vs.filter (·.1 == x.number) = vs :=
    List.filter_eq_self.2 fun p hp => beq_iff_eq.2 (hvs p hp)
  have hlater : (r.flatMap Line.placed).filter (·.1 == x.number) = [] := by
    refine List.filter_eq_nil_iff.2 fun p hp hn => ?_
    obtain ⟨y, hy, hpy⟩ := Line.exists_of_mem_placed hp
    have := hr y hy
    rw [beq_iff_eq.1 hn] at hpy
    omega
  rw [onLine, List.filter_append, hown, hlater, List.append_nil]

def EndsBy (m : Nat) (ts : List Token) (last : Nat) : Prop :=
  if openBraces ts ≤ closeBraces ts then last = m else m < last

theorem step_inside_done (hb : d + openBraces x.tokens ≤ closeBraces x.tokens) :
    step (.inside h d) x = ⟨.outside 0, .inFunction, some ⟨h, x.number⟩⟩ := if_pos hb

theorem step_inside_open (hb : ¬ d + openBraces x.tokens ≤ closeBraces x.tokens) :
    step (.inside h d) x =
      ⟨.inside h (d + openBraces x.tokens - closeBraces x.tokens), .inFunction, none⟩ := if_neg hb

theorem inside_ends (hn : ls.Pairwise fun y z => y.number < z.number)
    (hi : StaysOpen d (inner.map Prod.snd)) (hc : c.isPunct '}' = true)
    (hls : ls.flatMap Line.placed = inner ++ (m, c) :: behind)
    (he : (Layout.completed step (.inside h d) ls).head? = some e) :
    EndsBy m (onLine m behind) e.last := by
  induction ls generalizing d inner with
  | nil => cases he
  | cons x r ih =>
    rw [List.flatMap_cons] at hls
    rw [List.pairwise_cons] at hn
    rcases append_eq_append_cons hls with ⟨as, rfl, hr⟩ | ⟨bs, hx, rfl⟩
    · -- The block goes on behind the line.
      rw [List.map_append, x.map_snd_placed] at hi
      obtain ⟨hlt, hi⟩ := hi.of_append
      rw [Layout.completed, step_inside_open (Nat.not_le_of_lt hlt)] at he
      exact ih hn.2 hi hr he
    · obtain ⟨rfl, htokens, hbs⟩ := placed_split hx
      rw [onLine_append hbs hn.1]
      have hlevel := hi.level
      obtain ⟨ho', hc'⟩ := Token.braces_cons_close hc (bs.map Prod.snd)
      have hopen : openBraces x.tokens =
          openBraces (inner.map Prod.snd) + openBraces (bs.map Prod.snd) := by
        rw [htokens, Token.openBraces_append, ho']
      have hclose : closeBraces x.tokens =
          closeBraces (inner.map Prod.snd) + (closeBraces (bs.map Prod.snd) + 1) := by
        rw [htokens, Token.closeBraces_append, hc']
      rw [EndsBy]
      split
      · next hb =>
        rw [Layout.completed, step_inside_done (by omega)] at he
        cases he
        rfl
      · next hb =>
        rw [Layout.completed, step_inside_open (by omega)] at he
        obtain ⟨y, hy, hl⟩ := exists_last_of_completed (List.mem_of_head? he)
        rw [hl]
        exact hn.1 y hy

theorem enter_eq {us vs : List Token} (hx : x.tokens = us ++ o :: vs)
    (hu : openBraces us = closeBraces us) (ho : o.isPunct '{' = true) :
    enter h x = step (.inside h 1) { x with tokens := vs } := by
  obtain ⟨ho', hc'⟩ := Token.braces_cons_open ho vs
  have hopen : openBraces x.tokens = openBraces us + (openBraces vs + 1) := by
    rw [hx, Token.openBraces_append, ho']
  have hclose : closeBraces x.tokens = openBraces us + closeBraces vs := by
    rw [hx, Token.closeBraces_append, hc', hu]
  have hne : openBraces x.tokens ≠ 0 := by omega
  simp only [enter, step]
  rw [if_neg hne, hopen, hclose]
  by_cases hb : 1 + openBraces vs ≤ closeBraces vs
  · rw [if_pos hb, if_pos (by omega)]
  · rw [if_neg hb, if_neg (by omega)]
    congr 2
    omega

theorem opening_ends (hn : (x :: r).Pairwise fun y z => y.number < z.number)
    {ts : List Token} (hx : x.tokens = ts ++ o :: vs.map Prod.snd)
    (hts : openBraces ts = closeBraces ts) (ho : o.isPunct '{' = true)
    (hvs : ∀ p ∈ vs, p.1 = x.number) (hi : BracesNest (inner.map Prod.snd))
    (hc : c.isPunct '}' = true)
    (hls : vs ++ r.flatMap Line.placed = inner ++ (m, c) :: behind)
    (he : (Layout.completed step (.awaiting h) (x :: r)).head? = some e) :
    EndsBy m (onLine m behind) e.last := by
  have hplaced : Line.placed { x with tokens := vs.map Prod.snd } = vs := by
    rw [Line.placed, List.map_map]
    refine (List.map_congr_left fun p hp => ?_).trans (List.map_id vs)
    exact Prod.ext (hvs p hp).symm rfl
  have hnumbers : ({ x with tokens := vs.map Prod.snd } :: r).Pairwise
      fun y z => y.number < z.number := List.pairwise_cons.2 (List.pairwise_cons.1 hn)
  have hblock : ({ x with tokens := vs.map Prod.snd } :: r).flatMap Line.placed =
      inner ++ (m, c) :: behind := by
    rw [List.flatMap_cons, hplaced]
    exact hls
  rw [Layout.completed, step, enter_eq hx hts ho] at he
  exact inside_ends hnumbers hi.staysOpen hc hblock he

theorem step_awaiting_plain (hx : openBraces x.tokens = 0) :
    step (.awaiting h) x = ⟨.awaiting h, .inFunction, none⟩ := if_pos hx

theorem awaiting_ends (hn : ls.Pairwise fun y z => y.number < z.number)
    (hf : ∀ p ∈ front, p.2.Plain) (ho : o.isPunct '{' = true)
    (hi : BracesNest (inner.map Prod.snd)) (hc : c.isPunct '}' = true)
    (hls : ls.flatMap Line.placed = front ++ (n, o) :: (inner ++ (m, c) :: behind))
    (he : (Layout.completed step (.awaiting h) ls).head? = some e) :
    EndsBy m (onLine m behind) e.last := by
  induction ls generalizing front with
  | nil => cases he
  | cons x r ih =>
    rw [List.flatMap_cons] at hls
    rcases append_eq_append_cons hls with ⟨as, rfl, hr⟩ | ⟨bs, hx, hbs⟩
    · have hplain : ∀ t ∈ x.tokens, t.Plain :=
        x.map_snd_placed ▸ List.forall_mem_map.2 fun p hp => hf p (List.mem_append_left as hp)
      rw [Layout.completed, step_awaiting_plain (Token.braces_of_plain hplain).1] at he
      exact ih hn.of_cons (fun p hp => hf p (List.mem_append_right _ hp)) hr he
    · obtain ⟨-, htokens, hvs⟩ := placed_split hx
      obtain ⟨hopen, hclose⟩ := Token.braces_of_plain (List.forall_mem_map.2 hf)
      exact opening_ends hn htokens (hopen.trans hclose.symm) ho hvs hi hc hbs.symm he

end

/-- A function as it stands on its first line and the lines behind: the parameters between
the parentheses of its header, and the first block behind them. Braces nest in both. -/
structure Block (x : Line) (after : List Line) where
  params : List Token
  paren : Token
  rest : List Token
  front : List (Nat × Token)
  opening : Nat × Token
  inner : List (Nat × Token)
  closing : Nat × Token
  behind : List (Nat × Token)
  header : (Header.skipAsync x.tokens).drop 3 = params ++ paren :: rest
  isMatch : Token.closeFrom 1 (params ++ paren :: rest) = some params.length
  isParen : paren.isPunct ')' = true
  lines : rest.map (x.number, ·) ++ after.flatMap Line.placed =
    front ++ opening :: (inner ++ closing :: behind)
  isFirst : ∀ p ∈ front, p.2.Plain
  opens : opening.2.isPunct '{' = true
  closes : closing.2.isPunct '}' = true
  nestedParams : BracesNest params
  nestedInner : BracesNest (inner.map Prod.snd)

namespace Block
variable {x : Line} {after : List Line}

/-- There are braces among the parameters, and the block begins on a later line. -/
def CutShort (b : Block x after) : Prop :=
  openBraces b.params ≠ 0 ∧ b.opening.1 ≠ x.number

/-- On the line of the block's last brace, more braces open behind it than close. -/
def RunsOn (b : Block x after) : Prop :=
  closeBraces (onLine b.closing.1 b.behind) < openBraces (onLine b.closing.1 b.behind)

instance (b : Block x after) : Decidable b.CutShort := inferInstanceAs (Decidable (_ ∧ _))

instance (b : Block x after) : Decidable b.RunsOn := inferInstanceAs (Decidable (_ < _))

end Block

theorem exists_words {l : Language} {x : Line} {h : Header} {line : Text}
    (hx : Header.ofLine? l x = some h) (ht : x.tokens = Token.tokenize l line) :
    ∃ ws, x.tokens = ws ++ (Header.skipAsync x.tokens).drop 3 ∧ ∀ t ∈ ws, t.Plain := by
  obtain ⟨p, hp, -⟩ := Option.map_eq_some_iff.1 hx
  have hasync : ∃ as, x.tokens = as ++ Header.skipAsync x.tokens ∧ ∀ t ∈ as, t.Plain := by
    cases hts : x.tokens with
    | nil => exact ⟨[], rfl, nofun⟩
    | cons t r =>
      rw [Header.skipAsync]
      split
      · next hw =>
        refine ⟨[t], rfl, fun u hu => ?_⟩
        rw [List.mem_singleton.1 hu]
        refine Token.plain_of_text (ht ▸ hts ▸ List.mem_cons_self) ?_
        rw [beq_iff_eq.1 hw]
        decide
      · exact ⟨[], rfl, nofun⟩
  obtain ⟨as, has, hplain⟩ := hasync
  unfold Header.introducer at hp
  split at hp
  · next word name paren rest hskip =>
    split at hp
    · next hc =>
      simp only [Bool.and_eq_true, Token.isWord] at hc
      refine ⟨as ++ [word, name, paren], ?_, ?_⟩
      · conv => lhs; rw [has]
        rw [hskip]
        simp
      · refine List.forall_mem_append.2 ⟨hplain, ?_⟩
        simp only [List.forall_mem_cons]
        exact ⟨Token.plain_of_isIdent hc.1.1.1, Token.plain_of_isIdent hc.1.2,
          Token.plain_of_isPunct hc.2 (by decide) (by decide), nofun⟩
    · cases hp
  · cases hp

section
variable {s : Segment} {a : Analysis} {f : FunctionDef} {before after : List Line} {x : Line}
  {h : Header} {e : Extent} {line : Text}

theorem Block.exists_head (b : Block x after) (hx : Header.ofLine? .javascript x = some h)
    (ht : x.tokens = Token.tokenize .javascript line) :
    ∃ ts, x.tokens = ts ++ b.rest ∧ openBraces ts = openBraces b.params ∧
      closeBraces ts = openBraces b.params := by
  obtain ⟨ws, htokens, hws⟩ := exists_words hx ht
  obtain ⟨hwo, hwc⟩ := Token.braces_of_plain hws
  have hparen : ∀ t ∈ [b.paren], t.Plain := by
    intro t ht
    rw [List.mem_singleton.1 ht]
    exact Token.plain_of_isPunct b.isParen (by decide) (by decide)
  obtain ⟨hpo, hpc⟩ := Token.braces_of_plain hparen
  refine ⟨ws ++ (b.params ++ [b.paren]), ?_, ?_, ?_⟩
  · conv => lhs; rw [htokens, b.header]
    simp
  · rw [Token.openBraces_append, Token.openBraces_append, hwo, hpo, Nat.zero_add, Nat.add_zero]
  · rw [Token.closeBraces_append, Token.closeBraces_append, hwc, hpc, Nat.zero_add, Nat.add_zero,
      b.nestedParams.closed]

theorem Block.map_snd_rest (b : Block x after) :
    (b.rest.map (x.number, ·)).map Prod.snd = b.rest := by
  rw [List.map_map]
  exact List.map_id _

theorem Block.ends_below (b : Block x after) {ts : List Token} {as : List (Nat × Token)}
    (htokens : x.tokens = ts ++ b.rest) (hopen : openBraces ts = openBraces b.params)
    (hclose : closeBraces ts = openBraces b.params)
    (hfront : b.front = b.rest.map (x.number, ·) ++ as)
    (hlater : after.flatMap Line.placed = as ++ b.opening :: (b.inner ++ b.closing :: b.behind))
    (hn : (x :: after).Pairwise fun y z => y.number < z.number)
    (he : (Layout.completed step (.awaiting h) (x :: after)).head? = some e) :
    b.CutShort ∧ e.last = x.number ∧ x.number < b.closing.1 ∨
      ¬ b.CutShort ∧ EndsBy b.closing.1 (onLine b.closing.1 b.behind) e.last := by
  have hbelow : ∀ p ∈ after.flatMap Line.placed, x.number < p.1 := by
    intro p hp
    obtain ⟨y, hy, hpy⟩ := Line.exists_of_mem_placed hp
    exact hpy ▸ (List.pairwise_cons.1 hn).1 y hy
  have hopening := hbelow b.opening (by simp [hlater])
  have hclosing := hbelow b.closing (by simp [hlater])
  have hplain : ∀ t ∈ b.rest, t.Plain := b.map_snd_rest ▸ List.forall_mem_map.2 fun p hp =>
    b.isFirst p (hfront ▸ List.mem_append_left as hp)
  obtain ⟨hro, hrc⟩ := Token.braces_of_plain hplain
  have hxo : openBraces x.tokens = openBraces b.params := by
    rw [htokens, Token.openBraces_append, hopen, hro, Nat.add_zero]
  have hxc : closeBraces x.tokens = openBraces b.params := by
    rw [htokens, Token.closeBraces_append, hclose, hrc, Nat.add_zero]
  by_cases hz : openBraces b.params = 0
  · rw [Layout.completed, step_awaiting_plain (hxo.trans hz)] at he
    exact .inr ⟨fun hcut => hcut.1 hz, awaiting_ends hn.of_cons
      (fun p hp => b.isFirst p (hfront ▸ List.mem_append_right _ hp)) b.opens b.nestedInner
      b.closes hlater he⟩
  · have hstep : step (.awaiting h) x = ⟨.outside 0, .inFunction, some ⟨h, x.number⟩⟩ := by
      simp only [step, enter]
      rw [if_neg (hxo ▸ hz), if_pos (by rw [hxo, hxc])]
    rw [Layout.completed, hstep] at he
    cases he
    exact .inl ⟨⟨hz, Nat.ne_of_gt hopening⟩, rfl, hclosing⟩

theorem Block.ends_beside (b : Block x after) {ts : List Token} {bs : List (Nat × Token)}
    (htokens : x.tokens = ts ++ b.rest) (hopen : openBraces ts = openBraces b.params)
    (hclose : closeBraces ts = openBraces b.params)
    (hhere : b.rest.map (x.number, ·) = b.front ++ b.opening :: bs)
    (hlater : b.inner ++ b.closing :: b.behind = bs ++ after.flatMap Line.placed)
    (hn : (x :: after).Pairwise fun y z => y.number < z.number)
    (he : (Layout.completed step (.awaiting h) (x :: after)).head? = some e) :
    ¬ b.CutShort ∧ EndsBy b.closing.1 (onLine b.closing.1 b.behind) e.last := by
  have hall : ∀ p ∈ b.front ++ b.opening :: bs, p.1 = x.number := by
    rw [← hhere]
    exact List.forall_mem_map.2 fun _ _ => rfl
  have hopening := hall b.opening (by simp)
  obtain ⟨hfo, hfc⟩ := Token.braces_of_plain (List.forall_mem_map.2 b.isFirst)
  have hcut : x.tokens = (ts ++ b.front.map Prod.snd) ++ b.opening.2 :: bs.map Prod.snd := by
    rw [htokens, ← b.map_snd_rest, hhere, List.map_append, List.map_cons, List.append_assoc]
  have hbalanced : openBraces (ts ++ b.front.map Prod.snd) =
      closeBraces (ts ++ b.front.map Prod.snd) := by
    rw [Token.openBraces_append, Token.closeBraces_append, hopen, hclose, hfo, hfc]
  exact ⟨fun hcut => hcut.2 hopening, opening_ends hn hcut hbalanced b.opens
    (fun p hp => hall p (by simp [hp])) b.nestedInner b.closes hlater.symm he⟩

theorem Block.ends (b : Block x after) (hx : Header.ofLine? .javascript x = some h)
    (ht : x.tokens = Token.tokenize .javascript line)
    (hn : (x :: after).Pairwise fun y z => y.number < z.number)
    (he : (Layout.completed step (.awaiting h) (x :: after)).head? = some e) :
    b.CutShort ∧ e.last = x.number ∧ x.number < b.closing.1 ∨
      ¬ b.CutShort ∧ EndsBy b.closing.1 (onLine b.closing.1 b.behind) e.last := by
  obtain ⟨ts, htokens, hopen, hclose⟩ := b.exists_head hx ht
  rcases append_eq_append_cons b.lines with ⟨as, hfront, hlater⟩ | ⟨bs, hhere, hlater⟩
  · exact b.ends_below htokens hopen hclose hfront hlater hn he
  · exact .inr (b.ends_beside htokens hopen hclose hhere hlater hn he)

theorem split_unique {before' after' ls : List Line} {x' : Line}
    (hn : ls.Pairwise fun y z => y.number < z.number) (hls : ls = before ++ x :: after)
    (hls' : ls = before' ++ x' :: after') (hx : x.number = x'.number) :
    x = x' ∧ after = after' := by
  have hlt : ∀ {us vs : List Line} {y z : Line}, ls = us ++ y :: vs → z ∈ vs →
      y.number < z.number := by
    rintro us vs y z rfl hz
    exact (List.pairwise_cons.1 (List.pairwise_append.1 hn).2.1).1 z hz
  rcases append_eq_append_cons (hls.symm.trans hls') with ⟨as, -, has⟩ | ⟨bs, -, hbs⟩
  · cases as with
    | nil => exact List.cons.inj has
    | cons y as =>
      obtain ⟨-, rfl⟩ := List.cons.inj has
      exact absurd (hlt hls (by simp)) (Nat.not_lt_of_le (Nat.le_of_eq hx.symm))
  · exact absurd (hlt hls' (hbs ▸ by simp)) (Nat.not_lt_of_le (Nat.le_of_eq hx))

theorem extents_of_layout {ls : List Line} {y : Layout}
    (hy : Layout.ofLines .javascript ls = .ok y) :
    y.extents = Layout.completed step (.outside 0) ls := by
  rw [Layout.ofLines, Layout.track] at hy
  cases hfinal : Layout.final step (.outside 0) ls with
  | outside d =>
    rw [hfinal] at hy
    cases hy
    exact List.append_nil _
  | awaiting k => rw [hfinal] at hy; cases hy
  | inside k d => rw [hfinal] at hy; cases hy

/-- A function ends on the line of the brace that closes the first block behind its
parameters, unless its header is taken for all of it or the line leaves more braces open. -/
theorem whole_iff (hs : s.language = .javascript) (ha : Analysis.ofSegment s = .ok a)
    (hf : f ∈ a.functions) (hls : s.lines = before ++ x :: after) (hx : x.number = f.line)
    (b : Block x after) :
    (f.last = b.closing.1 ↔ ¬ b.CutShort ∧ ¬ b.RunsOn) ∧
      (b.CutShort → f.last = f.line ∧ f.line < b.closing.1) ∧
      (¬ b.CutShort → b.RunsOn → b.closing.1 < f.last) := by
  have hn : s.lines.Pairwise fun y z => y.number < z.number := pairwise_of_numbers s.numbers_lines
  obtain ⟨y, hy, rfl, hlast⟩ := Analysis.exists_extents ha
  obtain ⟨e, he, rfl⟩ := List.mem_map.1 hf
  obtain ⟨-, hend⟩ := hlast e he
  rw [hs] at hy
  rw [extents_of_layout hy] at he
  rcases open_or_begins he with ⟨hh, -⟩ | ⟨before', x', after', hls', hx', hfirst⟩
  · cases hh
  have hnumber : x.number = x'.number := hx.trans (Header.line_of_ofLine hx')
  obtain ⟨rfl, rfl⟩ := split_unique hn hls hls' hnumber
  have htokens : x.tokens = Token.tokenize .javascript x.text :=
    hs ▸ Segment.tokens_of_mem (hls ▸ by simp)
  have hafter : (x :: after).Pairwise fun y z => y.number < z.number :=
    (List.pairwise_append.1 (hls ▸ hn)).2.1
  rw [hend, ← hx]
  rcases b.ends hx' htokens hafter hfirst with ⟨hcut, hat, hbelow⟩ | ⟨hcut, hat⟩
  · rw [hat]
    exact ⟨⟨fun h => absurd h (Nat.ne_of_lt hbelow), fun h => absurd hcut h.1⟩,
      fun _ => ⟨rfl, hbelow⟩, fun h => absurd hcut h⟩
  · rw [EndsBy] at hat
    by_cases hruns : b.RunsOn
    · rw [if_neg (Nat.not_le_of_lt hruns)] at hat
      exact ⟨⟨fun h => absurd h (Nat.ne_of_gt hat), fun h => absurd hruns h.2⟩,
        fun h => absurd h hcut, fun _ _ => hat⟩
    · rw [if_pos (Nat.le_of_not_lt hruns)] at hat
      exact ⟨⟨fun _ => ⟨hcut, hruns⟩, fun _ => hat⟩, fun h => absurd h hcut,
        fun _ h => absurd h hruns⟩

/-- Two functions with braces among their parameters. The block of the first begins on the
next line, that of the second behind the parameters. -/
def destructuredSegment : Segment where
  language := .javascript
  tag := "js"
  source := "function f(\x7ba\x7d)\n\x7b\n  return a\n\x7d\nfunction g(\x7bb\x7d) \x7b return b \x7d"
  ordinal := 0
  firstLine := 2

def destructuredLine (i : Nat) : Line := destructuredSegment.lines.getD i ⟨0, [], []⟩

def lowerBlock : Block (destructuredLine 0) (destructuredSegment.lines.drop 1) where
  params := [⟨.punct '{', "\x7b", 11⟩, ⟨.ident, "a", 12⟩, ⟨.punct '}', "\x7d", 13⟩]
  paren := ⟨.punct ')', ")", 14⟩
  rest := []
  front := []
  opening := (3, ⟨.punct '{', "\x7b", 0⟩)
  inner := [(4, ⟨.ident, "return", 2⟩), (4, ⟨.ident, "a", 9⟩)]
  closing := (5, ⟨.punct '}', "\x7d", 0⟩)
  behind := (destructuredLine 4).placed
  header := by decide +kernel
  isMatch := by decide +kernel
  isParen := by decide +kernel
  lines := by decide +kernel
  isFirst := nofun
  opens := by decide +kernel
  closes := by decide +kernel
  nestedParams := by decide +kernel
  nestedInner := by decide +kernel

def besideBlock : Block (destructuredLine 4) [] where
  params := [⟨.punct '{', "\x7b", 11⟩, ⟨.ident, "b", 12⟩, ⟨.punct '}', "\x7d", 13⟩]
  paren := ⟨.punct ')', ")", 14⟩
  rest := [⟨.punct '{', "\x7b", 16⟩, ⟨.ident, "return", 18⟩, ⟨.ident, "b", 25⟩,
    ⟨.punct '}', "\x7d", 27⟩]
  front := []
  opening := (6, ⟨.punct '{', "\x7b", 16⟩)
  inner := [(6, ⟨.ident, "return", 18⟩), (6, ⟨.ident, "b", 25⟩)]
  closing := (6, ⟨.punct '}', "\x7d", 27⟩)
  behind := []
  header := by decide +kernel
  isMatch := by decide +kernel
  isParen := by decide +kernel
  lines := by decide +kernel
  isFirst := nofun
  opens := by decide +kernel
  closes := by decide +kernel
  nestedParams := by decide +kernel
  nestedInner := by decide +kernel

/-- The first function ends with its header, the second with its block. -/
theorem whole_iff_destructured :
    ∃ a f g, Analysis.ofSegment destructuredSegment = .ok a ∧ a.functions = [f, g] ∧
      (f.line, f.last, lowerBlock.closing.1) = (2, 2, 5) ∧
      (g.line, g.last, besideBlock.closing.1) = (6, 6, 6) := by
  have hv : (Analysis.ofSegment destructuredSegment).toOption.map
      (fun a => a.functions.map (·.line)) = some [2, 6] := by decide +kernel
  cases ha : Analysis.ofSegment destructuredSegment with
  | error e => rw [ha] at hv; cases hv
  | ok a =>
    rw [ha] at hv
    have hlines : a.functions.map (·.line) = [2, 6] := Option.some.inj hv
    obtain ⟨f, g, hfunctions⟩ := List.length_eq_two.1
      ((List.length_map _).symm.trans (congrArg List.length hlines))
    rw [hfunctions] at hlines
    obtain ⟨hf, hg⟩ : f.line = 2 ∧ g.line = 6 := by simpa using hlines
    have hlower : destructuredSegment.lines =
        [] ++ destructuredLine 0 :: destructuredSegment.lines.drop 1 := by decide +kernel
    have hbeside : destructuredSegment.lines =
        destructuredSegment.lines.take 4 ++ [destructuredLine 4] := by decide +kernel
    refine ⟨a, f, g, rfl, hfunctions, ?_, ?_⟩
    · have hline : (destructuredLine 0).number = f.line := hf ▸ rfl
      obtain ⟨-, hcut, -⟩ := whole_iff rfl ha (by simp [hfunctions]) hlower hline lowerBlock
      rw [(hcut (by decide +kernel)).1, hf]
      rfl
    · have hline : (destructuredLine 4).number = g.line := hg ▸ rfl
      obtain ⟨hwhole, -⟩ := whole_iff rfl ha (by simp [hfunctions]) hbeside hline besideBlock
      rw [hwhole.2 (by decide +kernel), hg]
      rfl

end

end Braces
end Polyglot
