import Mathlib.Data.List.Basic
import Mathlib.Data.List.Nodup
import Mathlib.Data.List.Pairwise
import Polyglot.Proofs.Call.Heads
import Polyglot.Proofs.Token.Nested
import Polyglot.Proofs.Token.Order
import Polyglot.Proofs.Token.Place

/-!
# Outermost calls

The search for calls leaps: from the next head to the bracket that closes its call, and
on from behind it. What it leaps over are the heads inside that call, and since brackets
nest, these are closed there too. So the calls that are found are the outermost ones,
and the search fails at the first head that stays open and that no call before it holds.
-/
namespace Polyglot.CallSite
open Token

variable {l : Language} {known : Text → Bool} {line : Text} {number : Nat} {ts : List Token}
  {i j k m n : Nat} {c d : CallSite} {cs ds : List CallSite}

/-- A call begins with the token at the index, told from the tokens beside it. -/
def HeadAt (l : Language) (known : Text → Bool) (ts : List Token) (i : Nat) : Prop :=
  ∃ t, ts[i]? = some t ∧ isHead l known (ts.take i).getLast? t (ts.drop (i + 1)) = true

theorem HeadAt.bracket (h : HeadAt l known ts i) :
    (∃ t, ts[i]? = some t ∧ t.isIdent = true) ∧ ∃ p, ts[i + 1]? = some p ∧ p.opens = true := by
  obtain ⟨t, ht, hh⟩ := h
  simp only [isHead, isBracketOf, Bool.and_eq_true, List.head?_drop, Option.any_eq_true_iff_get]
    at hh
  obtain ⟨⟨⟨hi, hb, hp, -⟩, -⟩, -⟩ := hh
  exact ⟨⟨t, ht, hi⟩, _, (Option.some_get hb).symm, by rw [opens, hp, Bool.true_or, Bool.true_or]⟩

theorem HeadAt.lt_close (h : HeadAt l known ts i) (hj : matchingClose ts (i + 1) = some j) :
    i + 1 < j ∧ ∃ u, ts[j]? = some u ∧ u.closes = true := by
  obtain ⟨-, p, hp, ho⟩ := h.bracket
  exact closes_of_matchingClose hp ho hj

theorem HeadAt.exists_close (h : HeadAt l known ts i) (hj : matchingClose ts (i + 1) = some j)
    (hk : HeadAt l known ts k) (hik : i < k) (hkj : k < j) :
    ∃ m < j, matchingClose ts (k + 1) = some m := by
  obtain ⟨-, p, hp, ho⟩ := h.bracket
  obtain ⟨-, q, hq, hqo⟩ := hk.bracket
  exact exists_matchingClose hp ho hj (by omega) hkj hq hqo

theorem HeadAt.close_le (h : HeadAt l known ts i) (hj : matchingClose ts (i + 1) = some j)
    (hk : HeadAt l known ts k) (hm : matchingClose ts (k + 1) = some m) (hik : i ≤ k)
    (hkj : k < j) : m ≤ j := by
  rcases Nat.eq_or_lt_of_le hik with rfl | hik
  · exact Nat.le_of_eq (Option.some_inj.1 (hm.symm.trans hj))
  · obtain ⟨m', hm', he⟩ := h.exists_close hj hk hik hkj
    rw [Option.some_inj.1 (hm.symm.trans he)]
    exact Nat.le_of_lt hm'

theorem HeadAt.ne_close (h : HeadAt l known ts i) (hj : matchingClose ts (i + 1) = some j)
    (hk : HeadAt l known ts k) : k ≠ j := by
  rintro rfl
  obtain ⟨-, u, hu, hc⟩ := h.lt_close hj
  obtain ⟨⟨t, ht, hi⟩, -⟩ := hk.bracket
  rw [hu, Option.some_inj] at ht
  rw [← ht, isIdent_of_closes hc] at hi
  cases hi

def extent (line : Text) (part : List Token) : Option Text :=
  match part.head?, part.getLast? with
  | some a, some b => some (Text.slice line a.start b.stop)
  | _, _ => none

/-- The call from the head at `i` to the bracket at `j` that closes it. Its arguments are
the texts between the commas, where there are any. -/
structure CallAt (l : Language) (known : Text → Bool) (line : Text) (number : Nat)
    (ts : List Token) (i j : Nat) (c : CallSite) : Prop where
  head : HeadAt l known ts i
  close : matchingClose ts (i + 1) = some j
  callee : ts[i]?.map Token.text = some c.callee
  start : ts[i]?.map Token.start = some c.start
  stop : ts[j]?.map Token.stop = some c.stop
  args : c.args = (splitTopLevel ',' ((ts.take j).drop (i + 2))).filterMap (extent line)
  number : c.line = number

theorem argument_eq_extent {part post : List Token} (h : part ++ post <:+ tokenize l line)
    (hp : post ≠ []) : argument line part = extent line part := by
  obtain ⟨pre, h⟩ := h
  cases part with
  | nil => rfl
  | cons a r =>
    have hb := List.getLast?_eq_some_getLast (List.cons_ne_nil a r)
    rw [argument, extent, hb, spanText_eq_slice h.symm hp rfl hb]
    rfl

theorem callAt_ofHead {t : Token} (number : Nat) (hts : tokenize l line = ts) (ht : ts[i]? = some t)
    (hh : isHead l known (ts.take i).getLast? t (ts.drop (i + 1)) = true)
    (hj : closeFrom 0 (ts.drop (i + 1)) = some n) :
    CallAt l known line number ts i (i + 1 + n) (ofHead line number t (ts.drop (i + 1)) n) := by
  have hhead : HeadAt l known ts i := ⟨t, ht, hh⟩
  have hclose : matchingClose ts (i + 1) = some (i + 1 + n) := by
    rw [matchingClose, hj, Option.map_some, Nat.add_comm]
  obtain ⟨hlt, u, hu, hc⟩ := hhead.lt_close hclose
  refine ⟨hhead, hclose, by rw [ht]; rfl, by rw [ht]; rfl, ?_, ?_, rfl⟩
  · rw [ofHead, List.getElem?_drop, hu]
    rfl
  · have hinner : ((ts.drop (i + 1)).take n).drop 1 = (ts.take (i + 1 + n)).drop (i + 2) := by
      rw [List.take_drop, List.drop_drop]
    rw [ofHead, arguments, hinner]
    refine List.filterMap_congr fun part hpart => ?_
    -- Behind each part stands at least the closing bracket.
    obtain ⟨a, b, hab⟩ := part_of_mem_splitTopLevel hpart
    have hsuffix : part ++ (b ++ ts.drop (i + 1 + n)) <:+ ts := by
      refine ⟨(ts.take (i + 1 + n)).take (i + 2) ++ a, ?_⟩
      have hwhole : (ts.take (i + 1 + n)).take (i + 2) ++ (a ++ part ++ b)
          ++ ts.drop (i + 1 + n) = ts := by
        rw [hab, List.take_append_drop, List.take_append_drop]
      simpa only [List.append_assoc] using hwhole
    subst hts
    refine argument_eq_extent hsuffix fun hn => ?_
    have hlen := congrArg List.length (List.append_eq_nil_iff.1 hn).2
    obtain ⟨hlt', -⟩ := List.getElem?_eq_some_iff.1 hu
    rw [List.length_drop, List.length_nil] at hlen
    omega

/-- From the token at `n` on, the search finds the calls and comes to the token at `m`. -/
inductive Leaps (l : Language) (known : Text → Bool) (line : Text) (number : Nat)
    (ts : List Token) : Nat → List CallSite → Nat → Prop
  | pass {n m : Nat} (hn : n ≤ m) (hf : ∀ k, n ≤ k → k < m → ¬ HeadAt l known ts k) :
    Leaps l known line number ts n [] m
  | call {n i j m : Nat} {c : CallSite} {cs : List CallSite} (hn : n ≤ i)
    (hf : ∀ k, n ≤ k → k < i → ¬ HeadAt l known ts k) (hc : CallAt l known line number ts i j c)
    (rest : Leaps l known line number ts (j + 1) cs m) :
    Leaps l known line number ts n (c :: cs) m

/-- What comes of the search when it has found the calls and come to the token at `m`. -/
inductive Ends (l : Language) (known : Text → Bool) (number : Nat) (ts : List Token) (m : Nat)
    (cs : List CallSite) : Except LayoutError (List CallSite) → Prop
  | done (h : ∀ k, m ≤ k → ¬ HeadAt l known ts k) : Ends l known number ts m cs (.ok cs)
  | failed {t : Token} (ht : ts[m]? = some t) (hh : HeadAt l known ts m)
    (hc : matchingClose ts (m + 1) = none) :
    Ends l known number ts m cs (.error ⟨.unclosedCall t.text, number⟩)

theorem Ends.call {o : Except LayoutError (List CallSite)} (h : Ends l known number ts m cs o)
    (c : CallSite) : Ends l known number ts m (c :: cs) (o.map (c :: ·)) := by
  cases h with
  | done h => exact .done h
  | failed ht hh hc => exact .failed ht hh hc

namespace Leaps

theorem le (h : Leaps l known line number ts n cs m) : n ≤ m := by
  induction h with
  | pass hn => exact hn
  | call hn _ hc _ ih =>
    have := (hc.head.lt_close hc.close).1
    omega

theorem of_succ (h : Leaps l known line number ts (n + 1) cs m) (hn : ¬ HeadAt l known ts n) :
    Leaps l known line number ts n cs m := by
  have hlater : ∀ {i}, (∀ k, n + 1 ≤ k → k < i → ¬ HeadAt l known ts k) →
      ∀ k, n ≤ k → k < i → ¬ HeadAt l known ts k := by
    intro i hf k hk hi
    rcases Nat.eq_or_lt_of_le hk with rfl | hk
    · exact hn
    · exact hf k hk hi
  cases h with
  | pass hm hf => exact .pass (Nat.le_of_succ_le hm) (hlater hf)
  | call hi hf hc rest => exact .call (Nat.le_of_succ_le hi) (hlater hf) hc rest

theorem covers (h : Leaps l known line number ts n cs m) (hk : HeadAt l known ts k)
    (hn : n ≤ k) (hm : k < m) :
    ∃ c ∈ cs, ∃ i j, CallAt l known line number ts i j c ∧ i ≤ k ∧ k < j ∧ j < m := by
  induction h with
  | pass _ hf => exact absurd hk (hf k hn hm)
  | @call n i j m c cs _ hf hc rest ih =>
    by_cases hik : i ≤ k
    · by_cases hkj : k < j
      · exact ⟨c, List.mem_cons_self, i, j, hc, hik, hkj, rest.le⟩
      · have hne := hc.head.ne_close hc.close hk
        obtain ⟨d, hd, hcov⟩ := ih (by omega) hm
        exact ⟨d, List.mem_cons_of_mem c hd, hcov⟩
    · exact absurd hk (hf k hn (by omega))

theorem call_of_mem (h : Leaps l known line number ts n cs m) (hc : c ∈ cs) :
    ∃ i j, n ≤ i ∧ CallAt l known line number ts i j c := by
  induction h with
  | pass => cases hc
  | call hn _ hd _ ih =>
    have hlt := (hd.head.lt_close hd.close).1
    rcases List.mem_cons.1 hc with rfl | hc
    · exact ⟨_, _, hn, hd⟩
    · obtain ⟨i, j, hi, hcall⟩ := ih hc
      exact ⟨i, j, by omega, hcall⟩

theorem pairwise (h : Leaps l known line number ts n cs m) :
    cs.Pairwise fun c d => ∃ i j i' j', CallAt l known line number ts i j c ∧
      CallAt l known line number ts i' j' d ∧ j < i' := by
  induction h with
  | pass => exact .nil
  | call _ _ hc rest ih =>
    refine List.pairwise_cons.2 ⟨fun d hd => ?_, ih⟩
    obtain ⟨i', j', hlt, hd⟩ := rest.call_of_mem hd
    exact ⟨_, _, i', j', hc, hd, hlt⟩

end Leaps

theorem scan_drop (skip : Nat) (previous : Option Token) (ts : List Token) :
    scan l known line number skip previous ts =
      scan l known line number 0 ((ts.take skip).getLast?.or previous) (ts.drop skip) := by
  induction ts generalizing skip previous with
  | nil => simp [scan]
  | cons t r ih =>
    cases skip with
    | zero => rfl
    | succ skip =>
      rw [scan, ih, List.take_succ_cons, List.drop_succ_cons, List.getLast?_cons]
      cases (r.take skip).getLast? <;> rfl

theorem exists_leaps (known : Text → Bool) (number : Nat) (hts : tokenize l line = ts) (n : Nat) :
    ∃ cs m, Leaps l known line number ts n cs m ∧
      Ends l known number ts m cs
        (scan l known line number 0 (ts.take n).getLast? (ts.drop n)) := by
  -- The search goes on behind the token, or behind the call that begins with it.
  by_cases hn : n < ts.length
  · have ht : ts[n]? = some ts[n] := List.getElem?_eq_getElem hn
    have hlast : (ts.take (n + 1)).getLast? = some ts[n] := by
      rw [List.take_succ_eq_append_getElem hn, List.getLast?_concat]
    rw [List.drop_eq_getElem_cons hn, scan]
    by_cases hh : isHead l known (ts.take n).getLast? ts[n] (ts.drop (n + 1)) = true
    · rw [if_pos hh]
      cases hj : closeFrom 0 (ts.drop (n + 1)) with
      | none =>
        have hc : matchingClose ts (n + 1) = none := by rw [matchingClose, hj]; rfl
        exact ⟨[], n, .pass (Nat.le_refl n) (by omega), .failed ht ⟨_, ht, hh⟩ hc⟩
      | some a =>
        have hc := callAt_ofHead number hts ht hh hj
        obtain ⟨cs, m, hleaps, hends⟩ := exists_leaps known number hts (n + 1 + a + 1)
        refine ⟨_ :: cs, m, .call (Nat.le_refl n) (by omega) hc hleaps, ?_⟩
        have hprev : (ts.take (n + 1 + a + 1)).getLast? =
            ((ts.drop (n + 1)).take (a + 1)).getLast?.or (some ts[n]) := by
          rw [Nat.add_assoc (n + 1), List.take_add, List.getLast?_append, hlast]
        have hdrop : ts.drop (n + 1 + a + 1) = (ts.drop (n + 1)).drop (a + 1) := by
          rw [List.drop_drop, Nat.add_assoc (n + 1)]
        rw [hprev, hdrop, ← scan_drop] at hends
        exact hends.call _
    · rw [if_neg hh]
      have hnot : ¬ HeadAt l known ts n := by
        rintro ⟨t, ht', hh'⟩
        rw [ht, Option.some_inj] at ht'
        exact hh (ht' ▸ hh')
      obtain ⟨cs, m, hleaps, hends⟩ := exists_leaps known number hts (n + 1)
      rw [hlast] at hends
      exact ⟨cs, m, hleaps.of_succ hnot, hends⟩
  · refine ⟨[], n, .pass (Nat.le_refl n) (by omega), ?_⟩
    rw [List.drop_eq_nil_of_le (by omega), scan]
    refine .done fun k hk => ?_
    rintro ⟨t, ht, -⟩
    have := (List.getElem?_eq_some_iff.1 ht).1
    omega
  termination_by ts.length - n

/-- The call begins with the token, or the token lies inside it. -/
def Encloses (c : CallSite) (t : Token) : Prop :=
  c.start = t.start ∨ c.start < t.start ∧ t.stop < c.stop

section
variable (hts : tokenize l line = ts)
include hts

theorem places_of_lt {t u : Token} (ht : ts[i]? = some t) (hu : ts[j]? = some u) (h : i < j) :
    t.start < t.stop ∧ t.stop ≤ u.start ∧ u.start < u.stop := by
  subst hts
  exact ⟨start_lt_stop (List.mem_of_getElem? ht), Token.stop_le_start ht hu h,
    start_lt_stop (List.mem_of_getElem? hu)⟩

theorem CallAt.encloses_iff {t : Token} (h : CallAt l known line number ts i j c)
    (ht : ts[k]? = some t) : Encloses c t ↔ i ≤ k ∧ k < j := by
  obtain ⟨u, hu, hs⟩ := Option.map_eq_some_iff.1 h.start
  obtain ⟨v, hv, he⟩ := Option.map_eq_some_iff.1 h.stop
  have hlt := (h.head.lt_close h.close).1
  rw [Encloses, ← hs, ← he]
  rcases Nat.lt_trichotomy i k with hik | rfl | hik
  · have hut := places_of_lt hts hu ht hik
    rcases Nat.lt_trichotomy k j with hkj | rfl | hkj
    · have htv := places_of_lt hts ht hv hkj
      omega
    · rw [hv, Option.some_inj] at ht
      rw [ht]
      omega
    · have htv := places_of_lt hts hv ht hkj
      omega
  · rw [hu, Option.some_inj] at ht
    rw [ht]
    omega
  · have hut := places_of_lt hts ht hu hik
    omega

theorem CallAt.index_eq {i' j' : Nat} (h : CallAt l known line number ts i j c)
    (h' : CallAt l known line number ts i' j' c) : i = i' := by
  obtain ⟨u, hu, hs⟩ := Option.map_eq_some_iff.1 h.start
  obtain ⟨v, hv, he⟩ := Option.map_eq_some_iff.1 h'.start
  have hle := ((h.encloses_iff hts hv).1 (.inl he.symm)).1
  have hge := ((h'.encloses_iff hts hu).1 (.inl hs.symm)).1
  omega

theorem CallAt.start_lt (h : CallAt l known line number ts i j c) : c.start < c.stop := by
  obtain ⟨u, hu, hs⟩ := Option.map_eq_some_iff.1 h.start
  obtain ⟨v, hv, he⟩ := Option.map_eq_some_iff.1 h.stop
  have hlt := (h.head.lt_close h.close).1
  have huv := places_of_lt hts hu hv (by omega)
  omega

end

theorem CallAt.eq {j' : Nat} (hc : CallAt l known line number ts i j c)
    (hd : CallAt l known line number ts i j' d) : j = j' ∧ c = d := by
  have hj := Option.some_inj.1 (hc.close.symm.trans hd.close)
  subst hj
  refine ⟨rfl, ?_⟩
  have h₁ := Option.some_inj.1 (hc.callee.symm.trans hd.callee)
  have h₂ := hc.args.trans hd.args.symm
  have h₃ := Option.some_inj.1 (hc.start.symm.trans hd.start)
  have h₄ := Option.some_inj.1 (hc.stop.symm.trans hd.stop)
  have h₅ := hc.number.trans hd.number.symm
  cases c
  cases d
  simp only at h₁ h₂ h₃ h₄ h₅
  rw [h₁, h₂, h₃, h₄, h₅]

/-- The calls stand in order and apart, each from a head to its closing bracket, and
every head of the line is in exactly one of them. -/
structure Outermost (l : Language) (known : Text → Bool) (line : Text) (number : Nat)
    (cs : List CallSite) : Prop where
  ordered : cs.Pairwise fun c d => c.stop ≤ d.start
  call : ∀ c ∈ cs, c.start < c.stop ∧ ∃ i j, CallAt l known line number (tokenize l line) i j c
  covered : ∀ i t, HeadAt l known (tokenize l line) i → (tokenize l line)[i]? = some t →
    ∃! c, c ∈ cs ∧ Encloses c t

/-- Every closed call that begins before the token ends before it. -/
def Outer (l : Language) (known : Text → Bool) (ts : List Token) (i : Nat) : Prop :=
  ∀ k j, k < i → HeadAt l known ts k → matchingClose ts (k + 1) = some j → j < i

/-- No bracket closes the call of the head, and no closed call holds it. -/
structure LeftOpen (l : Language) (known : Text → Bool) (ts : List Token) (i : Nat) : Prop where
  head : HeadAt l known ts i
  outer : Outer l known ts i
  unclosed : matchingClose ts (i + 1) = none

def Apart (ts : List Token) (c d : CallSite) : Prop := ∀ t ∈ ts, ¬ (Encloses c t ∧ Encloses d t)

instance (ts : List Token) : Std.Symm (Apart ts) := ⟨fun _ _ h t ht hb => h t ht hb.symm⟩

theorem Leaps.apart (h : Leaps l known line number (tokenize l line) n cs m) :
    cs.Pairwise (Apart (tokenize l line)) := by
  refine h.pairwise.imp ?_
  rintro c d ⟨i, j, i', j', hc, hd, hlt⟩ t ht ⟨hct, hdt⟩
  obtain ⟨k, hk⟩ := List.mem_iff_getElem?.1 ht
  have hkj := ((hc.encloses_iff rfl hk).1 hct).2
  have hik := ((hd.encloses_iff rfl hk).1 hdt).1
  omega

theorem Leaps.outermost (h : Leaps l known line number (tokenize l line) 0 cs m)
    (hm : ∀ k, m ≤ k → ¬ HeadAt l known (tokenize l line) k) :
    Outermost l known line number cs := by
  have hordered : cs.Pairwise fun c d => c.stop ≤ d.start := by
    refine h.pairwise.imp ?_
    rintro c d ⟨i, j, i', j', hc, hd, hlt⟩
    obtain ⟨u, hu, hs⟩ := Option.map_eq_some_iff.1 hc.stop
    obtain ⟨v, hv, he⟩ := Option.map_eq_some_iff.1 hd.start
    rw [← hs, ← he]
    exact Token.stop_le_start hu hv hlt
  refine ⟨hordered, fun c hc => ?_, fun k t hk ht => ?_⟩
  · obtain ⟨i, j, -, hcall⟩ := h.call_of_mem hc
    exact ⟨hcall.start_lt rfl, i, j, hcall⟩
  · have hlt : k < m := Nat.lt_of_not_le fun hle => hm k hle hk
    obtain ⟨c, hc, i, j, hcall, hik, hkj, -⟩ := h.covers hk (Nat.zero_le k) hlt
    have hencloses := (hcall.encloses_iff rfl ht).2 ⟨hik, hkj⟩
    refine ⟨c, ⟨hc, hencloses⟩, ?_⟩
    rintro d ⟨hd, hdt⟩
    by_contra hne
    exact h.apart.forall hc hd (Ne.symm hne) t (List.mem_of_getElem? ht) ⟨hencloses, hdt⟩

theorem LeftOpen.not_covered (h : LeftOpen l known (tokenize l line) i) :
    ¬ Outermost l known line number cs := by
  intro ho
  obtain ⟨⟨t, ht, -⟩, -⟩ := h.head.bracket
  obtain ⟨c, ⟨hc, hct⟩, -⟩ := ho.covered i t h.head ht
  obtain ⟨-, a, b, hcall⟩ := ho.call c hc
  obtain ⟨hai, hib⟩ := (hcall.encloses_iff rfl ht).1 hct
  rcases Nat.eq_or_lt_of_le hai with rfl | hai
  · exact nomatch h.unclosed.symm.trans hcall.close
  · have := h.outer a b hai hcall.head hcall.close
    omega

theorem Leaps.leftOpen (h : Leaps l known line number ts 0 cs m) (hm : HeadAt l known ts m)
    (hc : matchingClose ts (m + 1) = none) :
    LeftOpen l known ts m ∧ ∀ k < m, ¬ LeftOpen l known ts k := by
  refine ⟨⟨hm, fun k j hk hhead hj => ?_, hc⟩, fun k hk ho => ?_⟩
  · obtain ⟨c, -, a, b, hcall, hak, hkb, hbm⟩ := h.covers hhead (Nat.zero_le k) hk
    exact Nat.lt_of_le_of_lt (hcall.head.close_le hcall.close hhead hj hak hkb) hbm
  · obtain ⟨c, -, a, b, hcall, hak, hkb, -⟩ := h.covers ho.head (Nat.zero_le k) hk
    rcases Nat.eq_or_lt_of_le hak with rfl | hak
    · exact nomatch ho.unclosed.symm.trans hcall.close
    · have := ho.outer a b hak hcall.head hcall.close
      omega

theorem Outermost.subset (hc : Outermost l known line number cs)
    (hd : Outermost l known line number ds) : cs ⊆ ds := by
  intro c hmem
  obtain ⟨-, i, j, hcall⟩ := hc.call c hmem
  obtain ⟨⟨t, ht, -⟩, -⟩ := hcall.head.bracket
  have hij := (hcall.head.lt_close hcall.close).1
  have hct := (hcall.encloses_iff rfl ht).2 ⟨Nat.le_refl i, by omega⟩
  obtain ⟨d, ⟨hdm, hdt⟩, -⟩ := hd.covered i t hcall.head ht
  obtain ⟨-, a, b, hdcall⟩ := hd.call d hdm
  obtain ⟨hai, hib⟩ := (hdcall.encloses_iff rfl ht).1 hdt
  obtain ⟨⟨u, hu, -⟩, -⟩ := hdcall.head.bracket
  obtain ⟨e, ⟨hem, heu⟩, -⟩ := hc.covered a u hdcall.head hu
  obtain ⟨-, p, q, hecall⟩ := hc.call e hem
  obtain ⟨hpa, haq⟩ := (hecall.encloses_iff rfl hu).1 heu
  have hbq := hecall.head.close_le hecall.close hdcall.head hdcall.close hpa haq
  -- The call around the head in `cs` is `c` itself, so nothing is left for `d` to add.
  have hec : e = c := (hc.covered i t hcall.head ht).unique
    ⟨hem, (hecall.encloses_iff rfl ht).2 ⟨by omega, by omega⟩⟩ ⟨hmem, hct⟩
  subst hec
  have hip := hcall.index_eq rfl hecall
  have hia : i = a := by omega
  subst hia
  exact (hcall.eq hdcall).2 ▸ hdm

theorem Outermost.eq (hc : Outermost l known line number cs)
    (hd : Outermost l known line number ds) : cs = ds := by
  have hlt : ∀ {cs}, Outermost l known line number cs →
      cs.Pairwise fun c d => c.start < d.start := by
    intro cs h
    refine h.ordered.imp_of_mem fun hc _ hle => ?_
    exact Nat.lt_of_lt_of_le (h.call _ hc).1 hle
  have hirrefl : Std.Irrefl fun c d : CallSite => c.start < d.start := ⟨fun _ => Nat.lt_irrefl _⟩
  have hperm : cs.Perm ds := (List.perm_ext_iff_of_nodup (hlt hc).nodup (hlt hd).nodup).2
    fun c => ⟨fun h => hc.subset hd h, fun h => hd.subset hc h⟩
  exact hperm.eq_of_pairwise (fun _ _ _ _ h h' => absurd h (Nat.lt_asymm h')) (hlt hc) (hlt hd)

/-- The search comes to the outermost calls, or to the first head that is left open. -/
theorem outcome_onLine (l : Language) (functions : FunctionTable) (own : List Text)
    (number : Nat) (line : Text) :
    (∃ cs, onLine l functions own number line = .ok cs ∧
      Outermost l (knows functions own) line number cs) ∨
    ∃ i t, (tokenize l line)[i]? = some t ∧
      LeftOpen l (knows functions own) (tokenize l line) i ∧
      (∀ k < i, ¬ LeftOpen l (knows functions own) (tokenize l line) k) ∧
      onLine l functions own number line = .error ⟨.unclosedCall t.text, number⟩ := by
  obtain ⟨cs, m, hleaps, hends⟩ :=
    exists_leaps (knows functions own) number (rfl : tokenize l line = _) 0
  rw [List.take_zero, List.getLast?_nil, List.drop_zero] at hends
  rw [onLine]
  generalize scan l (knows functions own) line number 0 none (tokenize l line) = o at hends ⊢
  cases hends with
  | done hm => exact .inl ⟨cs, rfl, hleaps.outermost hm⟩
  | @failed t ht hm hc =>
    obtain ⟨hopen, hfirst⟩ := hleaps.leftOpen hm hc
    exact .inr ⟨m, t, ht, hopen, hfirst, rfl⟩

theorem LeftOpen.unique (hi : LeftOpen l known ts i) (hfi : ∀ k < i, ¬ LeftOpen l known ts k)
    (hj : LeftOpen l known ts j) (hfj : ∀ k < j, ¬ LeftOpen l known ts k) : i = j := by
  rcases Nat.lt_trichotomy i j with h | h | h
  · exact absurd hi (hfj i h)
  · exact h
  · exact absurd hj (hfi j h)

variable {functions : FunctionTable} {own : List Text}

theorem onLine_eq_ok_iff : onLine l functions own number line = .ok cs ↔
    Outermost l (knows functions own) line number cs := by
  obtain ⟨ds, hds, ho⟩ | ⟨i, t, -, hi, -, he⟩ := outcome_onLine l functions own number line
  · rw [hds, Except.ok.injEq]
    exact ⟨fun h => h ▸ ho, ho.eq⟩
  · rw [he]
    exact ⟨nofun, fun h => absurd h hi.not_covered⟩

theorem onLine_eq_error_iff {e : LayoutError} : onLine l functions own number line = .error e ↔
    ∃ i t, (tokenize l line)[i]? = some t ∧
      LeftOpen l (knows functions own) (tokenize l line) i ∧
      (∀ k < i, ¬ LeftOpen l (knows functions own) (tokenize l line) k) ∧
      e = ⟨.unclosedCall t.text, number⟩ := by
  obtain ⟨cs, hcs, ho⟩ | ⟨i, t, ht, hi, hfi, he⟩ := outcome_onLine l functions own number line
  · rw [hcs]
    refine ⟨nofun, ?_⟩
    rintro ⟨i, t, -, hi, -⟩
    exact absurd ho hi.not_covered
  · rw [he, Except.error.injEq]
    refine ⟨fun h => ⟨i, t, ht, hi, hfi, h.symm⟩, ?_⟩
    rintro ⟨j, u, hu, hj, hfj, rfl⟩
    obtain rfl := hi.unique hfi hj hfj
    rw [ht, Option.some_inj] at hu
    rw [hu]

/-- The search gives the outermost calls of the line and nothing else, and it fails at
the first head that is left open and that no closed call holds. -/
theorem outermost_onLine (l : Language) (functions : FunctionTable) (own : List Text)
    (number : Nat) (line : Text) :
    (∀ cs, onLine l functions own number line = .ok cs ↔
      Outermost l (knows functions own) line number cs) ∧
    ∀ e, onLine l functions own number line = .error e ↔
      ∃ i t, (tokenize l line)[i]? = some t ∧
        LeftOpen l (knows functions own) (tokenize l line) i ∧
        (∀ k < i, ¬ LeftOpen l (knows functions own) (tokenize l line) k) ∧
        e = ⟨.unclosedCall t.text, number⟩ :=
  ⟨fun _ => onLine_eq_ok_iff, fun _ => onLine_eq_error_iff⟩

section
variable (ho : Outermost l known line number cs)
include ho

theorem Outermost.exists_call (hi : HeadAt l known (tokenize l line) i) :
    ∃ c ∈ cs, ∃ a b, CallAt l known line number (tokenize l line) a b c ∧ a ≤ i ∧ i < b := by
  obtain ⟨⟨t, ht, -⟩, -⟩ := hi.bracket
  obtain ⟨c, ⟨hc, hct⟩, -⟩ := ho.covered i t hi ht
  obtain ⟨-, a, b, hcall⟩ := ho.call c hc
  exact ⟨c, hc, a, b, hcall, (hcall.encloses_iff rfl ht).1 hct⟩

theorem Outermost.exists_close (hi : HeadAt l known (tokenize l line) i) :
    ∃ j, matchingClose (tokenize l line) (i + 1) = some j := by
  obtain ⟨c, -, a, b, hcall, hai, hib⟩ := ho.exists_call hi
  rcases Nat.eq_or_lt_of_le hai with rfl | hai
  · exact ⟨b, hcall.close⟩
  · obtain ⟨j, -, hj⟩ := hcall.head.exists_close hcall.close hi hai hib
    exact ⟨j, hj⟩

theorem Outermost.exists_of_outer (hi : HeadAt l known (tokenize l line) i)
    (hout : Outer l known (tokenize l line) i) :
    ∃ c ∈ cs, ∃ j, CallAt l known line number (tokenize l line) i j c := by
  obtain ⟨c, hc, a, b, hcall, hai, hib⟩ := ho.exists_call hi
  rcases Nat.eq_or_lt_of_le hai with rfl | hai
  · exact ⟨c, hc, b, hcall⟩
  · have := hout a b hai hcall.head hcall.close
    omega

theorem Outermost.outer (hc : c ∈ cs)
    (hcall : CallAt l known line number (tokenize l line) i j c) :
    Outer l known (tokenize l line) i := by
  intro k m hki hk hm
  obtain ⟨d, hd, a, b, hdcall, hak, hkb⟩ := ho.exists_call hk
  have hmb := hdcall.head.close_le hdcall.close hk hm hak hkb
  have hne := hk.ne_close hm hcall.head
  by_contra hle
  -- Otherwise the head is in the call that holds the earlier one, and in its own.
  obtain ⟨⟨t, ht, -⟩, -⟩ := hcall.head.bracket
  have hij := (hcall.head.lt_close hcall.close).1
  have hdc : d = c := (ho.covered i t hcall.head ht).unique
    ⟨hd, (hdcall.encloses_iff rfl ht).2 ⟨by omega, by omega⟩⟩
    ⟨hc, (hcall.encloses_iff rfl ht).2 ⟨by omega, by omega⟩⟩
  have hia := hcall.index_eq rfl (hdc ▸ hdcall)
  omega

end

end Polyglot.CallSite
