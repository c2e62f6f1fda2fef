import Polyglot.Text.Basic

/-!
# Forms of characters

The bytes that stand for a character, told in two ways that agree: what the number of the
character comes to in bytes, and what the tables of leading bytes and their tails let through.
What begins a form is a leading byte with tails behind it, as far as they are there; a byte below
0x80 is a form by itself and in no other.
-/
namespace Polyglot.Text.Utf8

section
variable {b : UInt8}

theorem tails_one (h : b.toNat < 0x80) : tails b = some (0, 0, 0) := by
  rw [tails, if_pos (UInt8.lt_iff_toNat_lt.2 h)]

theorem tails_none (h : 0x80 ≤ b.toNat) (h' : b.toNat < 0xC2 ∨ 0xF4 < b.toNat) :
    tails b = none := by
  simp only [tails, UInt8.lt_iff_toNat_lt, ← UInt8.toNat_inj, UInt8.reduceToNat]
  grind

theorem tails_two (h : 0xC2 ≤ b.toNat) (h' : b.toNat < 0xE0) :
    tails b = some (1, 0x80, 0xBF) := by
  simp only [tails, UInt8.lt_iff_toNat_lt, UInt8.reduceToNat]
  rw [if_neg (by omega), if_neg (by omega), if_pos h']

theorem tails_three (h : 0xE0 ≤ b.toNat) (h' : b.toNat < 0xF0) :
    tails b = some (2, if b.toNat = 0xE0 then 0xA0 else 0x80,
      if b.toNat = 0xED then 0x9F else 0xBF) := by
  simp only [tails, UInt8.lt_iff_toNat_lt, ← UInt8.toNat_inj, UInt8.reduceToNat]
  rw [if_neg (by omega), if_neg (by omega), if_neg (by omega), if_pos h']
  grind

theorem tails_four (h : 0xF0 ≤ b.toNat) (h' : b.toNat ≤ 0xF4) :
    tails b = some (3, if b.toNat = 0xF0 then 0x90 else 0x80,
      if b.toNat = 0xF4 then 0x8F else 0xBF) := by
  simp only [tails, UInt8.lt_iff_toNat_lt, ← UInt8.toNat_inj, UInt8.reduceToNat]
  grind

end

structure Tailed (n : Nat) (lo hi : UInt8) (ts : Bytes) : Prop where
  length : ts.length ≤ n
  first : ∀ b ∈ ts.head?, lo ≤ b ∧ b ≤ hi
  rest : ∀ b ∈ ts.tail, isTail b = true

section
variable {n : Nat} {lo hi : UInt8}

theorem Tailed.initial {ts us : Bytes} (h : Tailed n lo hi ts) (hp : us <+: ts) :
    Tailed n lo hi us := by
  obtain ⟨vs, rfl⟩ := hp
  cases us with
  | nil => exact ⟨Nat.zero_le n, nofun, nofun⟩
  | cons b us =>
    refine ⟨?_, h.first, fun x hx => h.rest x (List.mem_append_left vs hx)⟩
    have hlen := h.length
    rw [List.length_append] at hlen
    omega

theorem tailRun_initial (r : Bytes) : tailRun n lo hi r <+: r := by
  fun_cases tailRun n lo hi r with
  | case1 => exact List.nil_prefix
  | case2 => exact List.nil_prefix
  | case3 n b r hb =>
    exact (List.prefix_cons_inj b).2 ((List.takeWhile_prefix _).trans (List.take_prefix n r))
  | case4 => exact List.nil_prefix

theorem tailed_tailRun (r : Bytes) : Tailed n lo hi (tailRun n lo hi r) := by
  fun_cases tailRun n lo hi r with
  | case1 => exact ⟨Nat.zero_le _, nofun, nofun⟩
  | case2 => exact ⟨Nat.zero_le _, nofun, nofun⟩
  | case3 n b r hb =>
    refine ⟨?_, ?_, ?_⟩
    · have hw := (List.takeWhile_prefix (p := isTail) (l := r.take n)).length_le
      rw [List.length_take] at hw
      rw [List.length_cons]
      omega
    · rintro x ⟨⟩
      simpa using hb
    · exact fun x hx => List.all_eq_true.1 List.all_takeWhile x hx
  | case4 => exact ⟨Nat.zero_le _, nofun, nofun⟩

theorem length_le_tailRun {r ts : Bytes} (h : Tailed n lo hi ts) (hp : ts <+: r) :
    ts.length ≤ (tailRun n lo hi r).length := by
  cases ts with
  | nil => exact Nat.zero_le _
  | cons b ts =>
    obtain ⟨vs, rfl⟩ := hp
    obtain ⟨m, rfl⟩ : ∃ m, n = m + 1 := Nat.exists_eq_succ_of_ne_zero (by
      have hlen := h.length
      rw [List.length_cons] at hlen
      omega)
    have hlen : ts.length ≤ m := Nat.le_of_succ_le_succ h.length
    have hb : (decide (lo ≤ b) && decide (b ≤ hi)) = true := by simpa using h.first b rfl
    have hrest : ∀ x ∈ ts, isTail x = true := h.rest
    rw [List.cons_append, tailRun, if_pos hb, List.length_cons, List.length_cons, List.take_append,
      List.take_of_length_le hlen, List.takeWhile_append_of_pos hrest, List.length_append]
    exact Nat.succ_le_succ (Nat.le_add_right _ _)

theorem tailRun_append {ts : Bytes} (h : Tailed n lo hi ts) (hn : ts.length = n) (r : Bytes) :
    tailRun n lo hi (ts ++ r) = ts := by
  have hle := length_le_tailRun h (List.prefix_append ts r)
  have hrest : Tailed n lo hi (tailRun n lo hi (ts ++ r)) := tailed_tailRun (ts ++ r)
  have hge := hrest.length
  have hrun : tailRun n lo hi (ts ++ r) <+: ts :=
    List.prefix_of_prefix_length_le (tailRun_initial (ts ++ r)) (List.prefix_append ts r) (by omega)
  exact hrun.eq_of_length (by omega)

end

def valueOf (n : Nat) (b : UInt8) (ts : Bytes) : Nat :=
  ts.foldl (fun a t => a * 64 + t.toNat % 64) (leadBits n b)

/-- The bytes are the whole form of a character: a leading byte and all its tails. -/
structure Whole (n : Nat) (b : UInt8) (ts : Bytes) : Prop where
  exists_bounds : ∃ lo hi, tails b = some (n, lo, hi) ∧ Tailed n lo hi ts
  length : ts.length = n

theorem isTail_iff {b : UInt8} : isTail b = true ↔ 0x80 ≤ b.toNat ∧ b.toNat ≤ 0xBF := by
  rw [isTail, Bool.and_eq_true, decide_eq_true_eq, decide_eq_true_eq, UInt8.le_iff_toNat_le,
    UInt8.le_iff_toNat_le]
  rfl

theorem tailed_cons_iff {n : Nat} {lo hi b : UInt8} {ts : Bytes} : Tailed (n + 1) lo hi (b :: ts) ↔
    ts.length ≤ n ∧ lo.toNat ≤ b.toNat ∧ b.toNat ≤ hi.toNat ∧
      ∀ x ∈ ts, 0x80 ≤ x.toNat ∧ x.toNat ≤ 0xBF := by
  constructor
  · intro h
    obtain ⟨hlo, hhi⟩ := h.first b rfl
    exact ⟨Nat.le_of_succ_le_succ h.length, UInt8.le_iff_toNat_le.1 hlo,
      UInt8.le_iff_toNat_le.1 hhi, fun x hx => isTail_iff.1 (h.rest x hx)⟩
  · rintro ⟨hlen, hlo, hhi, hrest⟩
    refine ⟨Nat.succ_le_succ hlen, ?_, fun x hx => isTail_iff.2 (hrest x hx)⟩
    rintro x ⟨⟩
    exact ⟨UInt8.le_iff_toNat_le.2 hlo, UInt8.le_iff_toNat_le.2 hhi⟩

theorem toNat_byte {k : Nat} (h : k < 256) : (UInt8.ofNat k).toNat = k := by
  rw [UInt8.toNat_ofNat', Nat.mod_eq_of_lt h]

inductive Encoded (v : Nat) : Bytes → Prop
  | one {a : UInt8} (ha : a.toNat = v) (hv : v < 0x80) : Encoded v [a]
  | two {a x : UInt8} (ha : a.toNat = v / 64 + 0xC0) (hx : x.toNat = v % 64 + 0x80)
    (hv : 0x80 ≤ v) (hv' : v < 0x800) : Encoded v [a, x]
  | three {a x y : UInt8} (ha : a.toNat = v / 4096 + 0xE0) (hx : x.toNat = v / 64 % 64 + 0x80)
    (hy : y.toNat = v % 64 + 0x80) (hv : 0x800 ≤ v) (hv' : v < 0x10000) : Encoded v [a, x, y]
  | four {a x y z : UInt8} (ha : a.toNat = v / 262144 + 0xF0)
    (hx : x.toNat = v / 4096 % 64 + 0x80) (hy : y.toNat = v / 64 % 64 + 0x80)
    (hz : z.toNat = v % 64 + 0x80) (hv : 0x10000 ≤ v) : Encoded v [a, x, y, z]

theorem encoded (c : Char) : Encoded c.toNat (String.utf8EncodeChar c) := by
  have hc : c.toNat < 0xD800 ∨ 0xDFFF < c.toNat ∧ c.toNat < 0x110000 := c.valid
  have henc : String.utf8EncodeChar c =
      if c.toNat ≤ 127 then [UInt8.ofNat c.toNat]
      else if c.toNat ≤ 2047 then
        [UInt8.ofNat (c.toNat / 64 % 32 + 192), UInt8.ofNat (c.toNat % 64 + 128)]
      else if c.toNat ≤ 65535 then
        [UInt8.ofNat (c.toNat / 4096 % 16 + 224), UInt8.ofNat (c.toNat / 64 % 64 + 128),
          UInt8.ofNat (c.toNat % 64 + 128)]
      else
        [UInt8.ofNat (c.toNat / 262144 % 8 + 240), UInt8.ofNat (c.toNat / 4096 % 64 + 128),
          UInt8.ofNat (c.toNat / 64 % 64 + 128), UInt8.ofNat (c.toNat % 64 + 128)] := rfl
  rw [henc]
  generalize c.toNat = v at hc
  split
  · exact .one (toNat_byte (by omega)) (by omega)
  split
  · refine .two ?_ (toNat_byte (by omega)) (by omega) (by omega)
    rw [toNat_byte (by omega)]
    omega
  split
  · refine .three ?_ (toNat_byte (by omega)) (toNat_byte (by omega)) (by omega) (by omega)
    rw [toNat_byte (by omega)]
    omega
  · refine .four ?_ (toNat_byte (by omega)) (toNat_byte (by omega)) (toNat_byte (by omega))
      (by omega)
    rw [toNat_byte (by omega)]
    omega

theorem Encoded.eq {v : Nat} {bs bs' : Bytes} (h : Encoded v bs) (h' : Encoded v bs') :
    bs = bs' := by
  -- Forms of different lengths are for different numbers.
  cases h <;> cases h' <;> first
    | omega
    | simp only [List.cons.injEq, ← UInt8.toNat_inj, and_true]
      omega

inductive Form : Nat → UInt8 → Bytes → Prop
  | one {b : UInt8} (hb : b.toNat < 0x80) : Form 0 b []
  | two {b x : UInt8} (hb : 0xC2 ≤ b.toNat ∧ b.toNat < 0xE0)
    (hx : 0x80 ≤ x.toNat ∧ x.toNat ≤ 0xBF) : Form 1 b [x]
  | three {b x y : UInt8} (hb : 0xE0 ≤ b.toNat ∧ b.toNat < 0xF0)
    (hx : 0x80 ≤ x.toNat ∧ x.toNat ≤ 0xBF) (hlo : b.toNat = 0xE0 → 0xA0 ≤ x.toNat)
    (hhi : b.toNat = 0xED → x.toNat ≤ 0x9F) (hy : 0x80 ≤ y.toNat ∧ y.toNat ≤ 0xBF) :
    Form 2 b [x, y]
  | four {b x y z : UInt8} (hb : 0xF0 ≤ b.toNat ∧ b.toNat ≤ 0xF4)
    (hx : 0x80 ≤ x.toNat ∧ x.toNat ≤ 0xBF) (hlo : b.toNat = 0xF0 → 0x90 ≤ x.toNat)
    (hhi : b.toNat = 0xF4 → x.toNat ≤ 0x8F) (hy : 0x80 ≤ y.toNat ∧ y.toNat ≤ 0xBF)
    (hz : 0x80 ≤ z.toNat ∧ z.toNat ≤ 0xBF) : Form 3 b [x, y, z]

section
variable {n : Nat} {b : UInt8} {ts : Bytes}

theorem Whole.form (h : Whole n b ts) : Form n b ts := by
  obtain ⟨⟨lo, hi, ht, htail⟩, hlen⟩ := h
  have hranges : b.toNat < 0x80 ∨ 0x80 ≤ b.toNat ∧ (b.toNat < 0xC2 ∨ 0xF4 < b.toNat) ∨
      0xC2 ≤ b.toNat ∧ b.toNat < 0xE0 ∨ 0xE0 ≤ b.toNat ∧ b.toNat < 0xF0 ∨
      0xF0 ≤ b.toNat ∧ b.toNat ≤ 0xF4 := by omega
  rcases hranges with hb | ⟨hb, hno⟩ | hb | hb | hb
  · rw [tails_one hb] at ht
    cases ht
    obtain rfl := List.eq_nil_of_length_eq_zero hlen
    exact .one hb
  · rw [tails_none hb hno] at ht
    cases ht
  · rw [tails_two hb.1 hb.2] at ht
    cases ht
    match ts, hlen with
    | [x], _ =>
      obtain ⟨-, hlo, hhi, -⟩ := tailed_cons_iff.1 htail
      exact .two hb ⟨hlo, hhi⟩
  · rw [tails_three hb.1 hb.2] at ht
    cases ht
    match ts, hlen with
    | [x, y], _ =>
      obtain ⟨-, hlo, hhi, hrest⟩ := tailed_cons_iff.1 htail
      have hx : (0x80 ≤ x.toNat ∧ x.toNat ≤ 0xBF) ∧ (b.toNat = 0xE0 → 0xA0 ≤ x.toNat) ∧
          (b.toNat = 0xED → x.toNat ≤ 0x9F) := by
        split at hlo <;> split at hhi <;> simp only [UInt8.reduceToNat] at hlo hhi <;> omega
      exact .three hb hx.1 hx.2.1 hx.2.2 (hrest y List.mem_cons_self)
  · rw [tails_four hb.1 hb.2] at ht
    cases ht
    match ts, hlen with
    | [x, y, z], _ =>
      obtain ⟨-, hlo, hhi, hrest⟩ := tailed_cons_iff.1 htail
      have hx : (0x80 ≤ x.toNat ∧ x.toNat ≤ 0xBF) ∧ (b.toNat = 0xF0 → 0x90 ≤ x.toNat) ∧
          (b.toNat = 0xF4 → x.toNat ≤ 0x8F) := by
        split at hlo <;> split at hhi <;> simp only [UInt8.reduceToNat] at hlo hhi <;> omega
      exact .four hb hx.1 hx.2.1 hx.2.2 (hrest y List.mem_cons_self)
        (hrest z (List.mem_cons_of_mem y List.mem_cons_self))

theorem Form.whole (h : Form n b ts) : Whole n b ts := by
  cases h with
  | one hb => exact ⟨⟨0, 0, tails_one hb, Nat.le_refl 0, nofun, nofun⟩, rfl⟩
  | two hb hx =>
    exact ⟨⟨_, _, tails_two hb.1 hb.2, tailed_cons_iff.2 ⟨Nat.le_refl 0, hx.1, hx.2, nofun⟩⟩, rfl⟩
  | three hb hx hlo hhi hy =>
    refine ⟨⟨_, _, tails_three hb.1 hb.2, tailed_cons_iff.2 ⟨Nat.le_refl 1, ?_, ?_, ?_⟩⟩, rfl⟩
    · split
      · next h => exact hlo h
      · exact hx.1
    · split
      · next h => exact hhi h
      · exact hx.2
    · exact List.forall_mem_singleton.2 hy
  | four hb hx hlo hhi hy hz =>
    refine ⟨⟨_, _, tails_four hb.1 hb.2, tailed_cons_iff.2 ⟨Nat.le_refl 2, ?_, ?_, ?_⟩⟩, rfl⟩
    · split
      · next h => exact hlo h
      · exact hx.1
    · split
      · next h => exact hhi h
      · exact hx.2
    · exact List.forall_mem_cons.2 ⟨hy, List.forall_mem_singleton.2 hz⟩

theorem valueOf_two (b x : UInt8) :
    valueOf 1 b [x] = b.toNat % 0x20 * 64 + x.toNat % 64 := rfl

theorem valueOf_three (b x y : UInt8) :
    valueOf 2 b [x, y] = (b.toNat % 0x10 * 64 + x.toNat % 64) * 64 + y.toNat % 64 := rfl

theorem valueOf_four (b x y z : UInt8) : valueOf 3 b [x, y, z] =
    ((b.toNat % 0x08 * 64 + x.toNat % 64) * 64 + y.toNat % 64) * 64 + z.toNat % 64 := rfl

theorem Form.valid (h : Form n b ts) : (valueOf n b ts).isValidChar := by
  rw [Nat.isValidChar]
  cases h with
  | one hb =>
    change b.toNat < _ ∨ _
    omega
  | two hb hx =>
    rw [valueOf_two]
    omega
  | three hb hx hlo hhi hy =>
    rw [valueOf_three]
    omega
  | four hb hx hlo hhi hy hz =>
    rw [valueOf_four]
    omega

theorem Form.encoded (h : Form n b ts) : Encoded (valueOf n b ts) (b :: ts) := by
  cases h with
  | one hb => exact .one rfl hb
  | two hb hx =>
    rw [valueOf_two]
    exact .two (by omega) (by omega) (by omega) (by omega)
  | three hb hx hlo hhi hy =>
    rw [valueOf_three]
    exact .three (by omega) (by omega) (by omega) (by omega) (by omega)
  | four hb hx hlo hhi hy hz =>
    rw [valueOf_four]
    exact .four (by omega) (by omega) (by omega) (by omega) (by omega)

theorem Whole.encodeChar (h : Whole n b ts) :
    String.utf8EncodeChar (Char.ofNat (valueOf n b ts)) = b :: ts := by
  have hv : (Char.ofNat (valueOf n b ts)).toNat = valueOf n b ts := by
    rw [Char.ofNat, dif_pos h.form.valid]
    rfl
  have henc := encoded (Char.ofNat (valueOf n b ts))
  rw [hv] at henc
  exact henc.eq h.form.encoded

end

theorem exists_whole (c : Char) : ∃ n b ts, String.utf8EncodeChar c = b :: ts ∧ Whole n b ts ∧
    valueOf n b ts = c.toNat := by
  have hc : c.toNat < 0xD800 ∨ 0xDFFF < c.toNat ∧ c.toNat < 0x110000 := c.valid
  have henc := encoded c
  generalize String.utf8EncodeChar c = bs at henc
  generalize c.toNat = v at hc henc
  cases henc with
  | @one a ha hv => exact ⟨0, a, [], rfl, (Form.one (by omega)).whole, ha⟩
  | @two a x ha hx hv hv' =>
    refine ⟨1, a, [x], rfl, (Form.two (by omega) (by omega)).whole, ?_⟩
    rw [valueOf_two]
    omega
  | @three a x y ha hx hy hv hv' =>
    have hform : Form 2 a [x, y] :=
      .three (by omega) (by omega) (by omega) (by omega) (by omega)
    refine ⟨2, a, [x, y], rfl, hform.whole, ?_⟩
    rw [valueOf_three]
    omega
  | @four a x y z ha hx hy hz hv =>
    have hform : Form 3 a [x, y, z] :=
      .four (by omega) (by omega) (by omega) (by omega) (by omega) (by omega)
    refine ⟨3, a, [x, y, z], rfl, hform.whole, ?_⟩
    rw [valueOf_four]
    omega

def Begins (p : Bytes) : Prop := ∃ c : Char, p <+: String.utf8EncodeChar c

theorem bounds_of_tails {b lo hi : UInt8} {n : Nat} (h : tails b = some (n, lo, hi)) : lo ≤ hi := by
  revert h
  unfold tails
  repeat' split
  all_goals rintro ⟨⟩
  all_goals decide

theorem exists_whole_of_tailed {b lo hi : UInt8} {n : Nat} {ts : Bytes}
    (h : tails b = some (n, lo, hi)) (ht : Tailed n lo hi ts) : ∃ us, ts <+: us ∧ Whole n b us := by
  have hfill : ∀ m, ∀ x ∈ List.replicate m (0x80 : UInt8), isTail x = true := by
    intro m x hx
    rw [List.eq_of_mem_replicate hx]
    rfl
  cases ts with
  | nil =>
    cases n with
    | zero => exact ⟨[], List.prefix_rfl, ⟨lo, hi, h, ht⟩, rfl⟩
    | succ m =>
      have hwhole : (lo :: List.replicate m (0x80 : UInt8)).length = m + 1 := by
        rw [List.length_cons, List.length_replicate]
      refine ⟨lo :: List.replicate m 0x80, List.nil_prefix,
        ⟨lo, hi, h, Nat.le_of_eq hwhole, ?_, hfill m⟩, hwhole⟩
      rintro x ⟨⟩
      exact ⟨UInt8.le_refl lo, bounds_of_tails h⟩
  | cons x ts =>
    have hlen : (x :: ts).length ≤ n := ht.length
    have hwhole :
        ((x :: ts) ++ List.replicate (n - (x :: ts).length) (0x80 : UInt8)).length = n := by
      rw [List.length_append, List.length_replicate]
      omega
    refine ⟨(x :: ts) ++ List.replicate (n - (x :: ts).length) 0x80, List.prefix_append _ _,
      ⟨lo, hi, h, Nat.le_of_eq hwhole, ht.first, fun y hy => ?_⟩, hwhole⟩
    rcases List.mem_append.1 hy with hy | hy
    · exact ht.rest y hy
    · exact hfill _ y hy

theorem begins_cons_iff {b : UInt8} {ts : Bytes} :
    Begins (b :: ts) ↔ ∃ n lo hi, tails b = some (n, lo, hi) ∧ Tailed n lo hi ts := by
  constructor
  · rintro ⟨c, hp⟩
    obtain ⟨n, b', ts', he, ⟨⟨lo, hi, ht, hr⟩, -⟩, -⟩ := exists_whole c
    rw [he, List.cons_prefix_cons] at hp
    obtain ⟨rfl, hp⟩ := hp
    exact ⟨n, lo, hi, ht, hr.initial hp⟩
  · rintro ⟨n, lo, hi, ht, hr⟩
    obtain ⟨us, hp, hw⟩ := exists_whole_of_tailed ht hr
    exact ⟨_, hw.encodeChar ▸ (List.prefix_cons_inj b).2 hp⟩

theorem eq_singleton_of_mem {c : Char} {b : UInt8} (h : b ∈ String.utf8EncodeChar c)
    (hb : b.toNat < 0x80) : String.utf8EncodeChar c = [b] := by
  have henc := encoded c
  generalize String.utf8EncodeChar c = bs at h henc ⊢
  cases henc with
  | one ha hv => rw [List.mem_singleton.1 h]
  | two ha hx hv hv' =>
    simp only [List.mem_cons, List.not_mem_nil, or_false] at h
    rcases h with rfl | rfl <;> omega
  | three ha hx hy hv hv' =>
    simp only [List.mem_cons, List.not_mem_nil, or_false] at h
    rcases h with rfl | rfl | rfl <;> omega
  | four ha hx hy hz hv =>
    simp only [List.mem_cons, List.not_mem_nil, or_false] at h
    rcases h with rfl | rfl | rfl | rfl <;> omega

theorem Begins.eq_singleton {p : Bytes} {b : UInt8} (h : Begins p) (hm : b ∈ p)
    (hb : b.toNat < 0x80) : p = [b] := by
  obtain ⟨c, hp⟩ := h
  rw [eq_singleton_of_mem (hp.subset hm) hb, List.prefix_cons_iff] at hp
  rcases hp with rfl | ⟨q, rfl, hq⟩
  · cases hm
  · rw [List.prefix_nil.1 hq]

theorem begins_encodeChar (c : Char) : Begins (String.utf8EncodeChar c) := ⟨c, List.prefix_rfl⟩

end Polyglot.Text.Utf8
