import Polyglot.Proofs.Text.Forms

/-!
# Decoding bytes

What lossy decoding gives, told by the forms of the characters: a character where the form of
one stands, and U+FFFD once for each longest beginning of a form that is not carried through, or
for a byte that begins none. Main statement: `lossy` gives the one text of which that holds. As no
form reaches across a byte below 0x80, bytes may be cut behind such a byte and decoded apart.
-/
namespace Polyglot.Text.Utf8

/-- The bytes `p` in front of `r` spoil a character: no character stands there, and `p` is as
much as could begin one, or a single byte that begins none. -/
structure Spoiled (p r : Bytes) : Prop where
  nonempty : p ≠ []
  unfinished : ∀ c : Char, ¬ String.utf8EncodeChar c <+: p ++ r
  begins : p.length = 1 ∨ Begins p
  longest : ∀ q, q <+: p ++ r → Begins q → q.length ≤ p.length

/-- Decoding with losses: a character where its form stands, and one U+FFFD for all the bytes of
a character that is spoiled. -/
inductive Decoded : Bytes → Text → Prop
  | nil : Decoded [] []
  | char (c : Char) {r : Bytes} {t : Text} (h : Decoded r t) :
    Decoded (String.utf8EncodeChar c ++ r) (c :: t)
  | spoiled {p r : Bytes} {t : Text} (hp : Spoiled p r) (h : Decoded r t) :
    Decoded (p ++ r) ('\uFFFD' :: t)

theorem front_of_char (c : Char) (r : Bytes) : ∃ b ts, String.utf8EncodeChar c = b :: ts ∧
    front b (ts ++ r) = (some c, ts.length) := by
  obtain ⟨n, b, ts, he, ⟨⟨lo, hi, ht, hr⟩, hlen⟩, hv⟩ := exists_whole c
  refine ⟨b, ts, he, ?_⟩
  have hc : Char.ofNat (valueOf n b ts) = c := by rw [hv, Char.ofNat_toNat]
  rw [front, ht]
  simp only [tailRun_append hr hlen r, hlen, if_true]
  rw [← hc, valueOf]

theorem front_cases (b : UInt8) (r : Bytes) :
    (∃ c ts r', r = ts ++ r' ∧ String.utf8EncodeChar c = b :: ts ∧
      front b r = (some c, ts.length)) ∨
    ∃ p r', r = p ++ r' ∧ Spoiled (b :: p) r' ∧ front b r = (none, p.length) := by
  rw [front]
  cases ht : tails b with
  | none =>
    refine .inr ⟨[], r, rfl,
      ⟨List.cons_ne_nil b [], fun c hc => ?_, .inl rfl, fun q hq hb => ?_⟩, rfl⟩
    · obtain ⟨n, b', ts, he, ⟨⟨lo, hi, hs, -⟩, -⟩, -⟩ := exists_whole c
      rw [he, List.cons_append, List.cons_prefix_cons] at hc
      rw [hc.1, ht] at hs
      cases hs
    · cases q with
      | nil => exact Nat.zero_le _
      | cons b' q =>
        obtain ⟨n, lo, hi, hs, -⟩ := begins_cons_iff.1 hb
        rw [List.cons_append, List.cons_prefix_cons] at hq
        rw [hq.1, ht] at hs
        cases hs
  | some bounds =>
    obtain ⟨n, lo, hi⟩ := bounds
    have hrun : Tailed n lo hi (tailRun n lo hi r) := tailed_tailRun r
    -- No run of tails is longer, so a run that is too short belongs to no character.
    have hmost : ∀ ts, Tailed n lo hi ts → ts <+: r → ts.length ≤ (tailRun n lo hi r).length :=
      fun ts => length_le_tailRun
    obtain ⟨r', hr⟩ : tailRun n lo hi r <+: r := tailRun_initial r
    simp only
    generalize tailRun n lo hi r = run at hrun hmost hr ⊢
    split
    · next hlen =>
      have hwhole : Whole n b run := ⟨⟨lo, hi, ht, hrun⟩, hlen⟩
      exact .inl ⟨_, run, r', hr.symm, hwhole.encodeChar, by rw [hlen, valueOf]⟩
    · next hlen =>
      refine .inr ⟨run, r', hr.symm, ⟨List.cons_ne_nil b run, fun c hc => hlen ?_,
        .inr (begins_cons_iff.2 ⟨n, lo, hi, ht, hrun⟩), fun q hq hb => ?_⟩, rfl⟩
      · obtain ⟨m, b', ts, he, ⟨⟨lo', hi', hs, hts⟩, hm⟩, -⟩ := exists_whole c
        rw [he, List.cons_append, List.cons_prefix_cons, hr] at hc
        rw [hc.1, ht] at hs
        cases hs
        exact Nat.le_antisymm hrun.length (hm ▸ hmost ts hts hc.2)
      · cases q with
        | nil => exact Nat.zero_le _
        | cons b' q =>
          obtain ⟨m, lo', hi', hs, hq'⟩ := begins_cons_iff.1 hb
          rw [List.cons_append, List.cons_prefix_cons, hr] at hq
          rw [hq.1, ht] at hs
          cases hs
          exact Nat.succ_le_succ (hmost q hq' hq.2)

theorem Spoiled.eq {p r q s : Bytes} (hp : Spoiled p r) (hq : Spoiled q s) (h : p ++ r = q ++ s) :
    p = q := by
  have hle : ∀ {p r q s : Bytes}, Spoiled p r → Spoiled q s → p ++ r = q ++ s →
      p.length ≤ q.length := by
    intro p r q s hp hq h
    rcases hp.begins with h1 | hb
    · rw [h1]
      exact List.length_pos_iff.2 hq.nonempty
    · exact hq.longest p (h ▸ List.prefix_append p r) hb
  exact (List.append_inj h (Nat.le_antisymm (hle hp hq h) (hle hq hp h.symm))).1

theorem front_of_spoiled {p r : Bytes} (h : Spoiled p r) :
    ∃ b ts, p = b :: ts ∧ front b (ts ++ r) = (none, ts.length) := by
  obtain ⟨b, ts, rfl⟩ := List.exists_cons_of_ne_nil h.nonempty
  refine ⟨b, ts, rfl, ?_⟩
  rcases front_cases b (ts ++ r) with ⟨c, us, r', hr, he, -⟩ | ⟨us, r', hr, hs, hf⟩
  · refine absurd ?_ (h.unfinished c)
    rw [he, List.cons_append, hr, ← List.cons_append]
    exact List.prefix_append _ _
  · have heq : b :: ts = b :: us := h.eq hs (congrArg (b :: ·) hr)
    cases heq
    exact hf

theorem lossyFrom_eq_drop (k : Nat) (bs : Bytes) : lossyFrom k bs = lossy (bs.drop k) := by
  fun_induction lossyFrom k bs with
  | case1 k => rw [List.drop_nil]; rfl
  | case2 k b r ih => exact ih
  | case3 b r ih => rw [List.drop_zero, lossy, lossyFrom]

theorem lossy_cons (b : UInt8) (r : Bytes) :
    lossy (b :: r) = (front b r).1.getD '\uFFFD' :: lossy (r.drop (front b r).2) := by
  rw [lossy, lossyFrom, lossyFrom_eq_drop]

theorem lossy_char (c : Char) (r : Bytes) :
    lossy (String.utf8EncodeChar c ++ r) = c :: lossy r := by
  obtain ⟨b, ts, he, hf⟩ := front_of_char c r
  rw [he, List.cons_append, lossy_cons, hf, List.drop_left]
  rfl

theorem lossy_spoiled {p r : Bytes} (h : Spoiled p r) : lossy (p ++ r) = '\uFFFD' :: lossy r := by
  obtain ⟨b, ts, rfl, hf⟩ := front_of_spoiled h
  rw [List.cons_append, lossy_cons, hf, List.drop_left]
  rfl

theorem decoded_lossy (bs : Bytes) : Decoded bs (lossy bs) := by
  induction hn : bs.length using Nat.strongRecOn generalizing bs with
  | ind n ih =>
    cases bs with
    | nil => exact .nil
    | cons b r =>
      rw [List.length_cons] at hn
      rcases front_cases b r with ⟨c, ts, r', rfl, he, -⟩ | ⟨p, r', rfl, hs, -⟩
      · rw [← List.cons_append, ← he, lossy_char]
        refine .char c (ih _ ?_ r' rfl)
        rw [List.length_append] at hn
        omega
      · rw [← List.cons_append, lossy_spoiled hs]
        refine .spoiled hs (ih _ ?_ r' rfl)
        rw [List.length_append] at hn
        omega

theorem decoded_iff {bs : Bytes} {t : Text} : Decoded bs t ↔ t = lossy bs := by
  refine ⟨fun h => ?_, fun h => h ▸ decoded_lossy bs⟩
  induction h with
  | nil => rfl
  | char c h ih => rw [lossy_char, ih]
  | spoiled hs h ih => rw [lossy_spoiled hs, ih]

example : lossy [0xE2, 0x82, 0x0A, 0xFF] = ("\uFFFD\n\uFFFD" : Text) := by decide +kernel

def Parted (a : Bytes) : Prop := ∀ b ∈ a.getLast?, b.toNat < 0x80

theorem Parted.of_append {p a : Bytes} (h : Parted (p ++ a)) : Parted a := by
  intro b hb
  refine h b ?_
  rw [List.getLast?_append, hb]
  rfl

theorem Parted.prefix {a r q : Bytes} (h : Parted a) (ha : a ≠ []) (hq : q <+: a ++ r)
    (hb : Begins q) : q <+: a := by
  rcases List.prefix_or_prefix_of_prefix hq (List.prefix_append a r) with hqa | haq
  · exact hqa
  · have hl := List.getLast?_eq_some_getLast ha
    have hone : q = [a.getLast ha] :=
      hb.eq_singleton (haq.subset (List.getLast_mem ha)) (h _ hl)
    have hlen : q.length ≤ a.length := by
      rw [hone]
      exact List.length_pos_iff.2 ha
    have heq : a = q := haq.eq_of_length_le hlen
    exact heq ▸ List.prefix_rfl

theorem Spoiled.append {p a : Bytes} (h : Spoiled p a) (hc : Parted (p ++ a)) (r : Bytes) :
    Spoiled p (a ++ r) := by
  have hback : ∀ {q : Bytes}, q <+: p ++ (a ++ r) → Begins q → q <+: p ++ a := by
    intro q hq hb
    rw [← List.append_assoc] at hq
    exact hc.prefix (List.append_ne_nil_of_left_ne_nil h.nonempty a) hq hb
  exact ⟨h.nonempty, fun c hp => h.unfinished c (hback hp (begins_encodeChar c)), h.begins,
    fun q hq hb => h.longest q (hback hq hb) hb⟩

theorem Decoded.append {a r : Bytes} {t u : Text} (ha : Decoded a t) (hc : Parted a)
    (hr : Decoded r u) : Decoded (a ++ r) (t ++ u) := by
  induction ha with
  | nil => exact hr
  | char c h ih =>
    rw [List.append_assoc]
    exact .char c (ih hc.of_append)
  | spoiled hp h ih =>
    rw [List.append_assoc]
    exact .spoiled (hp.append hc r) (ih hc.of_append)

theorem lossy_append {a : Bytes} (h : Parted a) (r : Bytes) : lossy (a ++ r) = lossy a ++ lossy r :=
  (decoded_iff.1 ((decoded_lossy a).append h (decoded_lossy r))).symm

/-- The bytes cut behind each line feed. -/
structure Chunked (bs : Bytes) (cs : List Bytes) : Prop where
  flatten : cs.flatten = bs
  nonempty : [] ∉ cs
  feeds : ∀ c ∈ cs, 0x0A ∉ c.dropLast
  ended : ∀ c ∈ cs.dropLast, c.getLast? = some 0x0A

theorem chunked_chunks (bs : Bytes) : Chunked bs (chunks bs) := by
  fun_induction chunks bs with
  | case1 => exact ⟨rfl, List.not_mem_nil, nofun, nofun⟩
  | case2 r ih =>
    refine ⟨congrArg (0x0A :: ·) ih.flatten, ?_, ?_, ?_⟩
    · exact List.not_mem_cons_of_ne_of_not_mem nofun ih.nonempty
    · exact List.forall_mem_cons.2 ⟨List.not_mem_nil, ih.feeds⟩
    · cases hr : chunks r with
      | nil => exact nofun
      | cons d cs =>
        rw [hr] at ih
        exact List.forall_mem_cons.2 ⟨rfl, ih.ended⟩
  | case3 b r hb hr ih =>
    rw [hr] at ih
    refine ⟨congrArg (b :: ·) ih.flatten, ?_, ?_, nofun⟩
    · exact List.not_mem_cons_of_ne_of_not_mem nofun List.not_mem_nil
    · exact List.forall_mem_singleton.2 List.not_mem_nil
  | case4 b r hb d cs hr ih =>
    rw [hr] at ih
    obtain ⟨hd, hcs⟩ := List.forall_mem_cons.1 ih.feeds
    obtain ⟨x, d, rfl⟩ : ∃ x d', d = x :: d' :=
      List.exists_cons_of_ne_nil fun h => ih.nonempty (h ▸ List.mem_cons_self)
    refine ⟨congrArg (b :: ·) ih.flatten, ?_, ?_, ?_⟩
    · exact List.not_mem_cons_of_ne_of_not_mem nofun fun h =>
        ih.nonempty (List.mem_cons_of_mem _ h)
    · refine List.forall_mem_cons.2 ⟨?_, hcs⟩
      exact List.not_mem_cons_of_ne_of_not_mem (Ne.symm hb) hd
    · cases cs with
      | nil => exact nofun
      | cons e cs =>
        obtain ⟨hx, hcs⟩ := List.forall_mem_cons.1 ih.ended
        exact List.forall_mem_cons.2 ⟨hx, hcs⟩

/-- Decoding chunk by chunk is decoding all at once. -/
theorem flatten_lossy {bs : Bytes} {cs : List Bytes} (h : Chunked bs cs) :
    (cs.map lossy).flatten = lossy bs := by
  have hended := h.ended
  rw [← h.flatten]
  clear h
  induction cs with
  | nil => rfl
  | cons c cs ih =>
    cases cs with
    | nil => simp
    | cons d cs =>
      obtain ⟨hc, hcs⟩ := List.forall_mem_cons.1 hended
      have hcut : Parted c := by
        intro b hb
        rw [hc] at hb
        cases hb
        decide
      rw [List.map_cons, List.flatten_cons, List.flatten_cons, ih hcs, lossy_append hcut]

end Polyglot.Text.Utf8
