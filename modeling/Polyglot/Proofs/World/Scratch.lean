import Polyglot.Proofs.World.Files
import Polyglot.Run.Scheduler

/-!
# The scratch directory

A unit's files are named by its digest, whose digits are plain characters, so each is
found under its name in the scratch directory. `Workshop.Ready` says that there is
such a directory; a unit whose process answers with a table of values then completes
with just these values.
-/
namespace Polyglot

namespace Text

def IsPlain (c : Char) : Prop := c.utf8Size = 1 ∧ c ≠ '/' ∧ c ≠ '\x00'

instance (c : Char) : Decidable (IsPlain c) := inferInstanceAs (Decidable (_ ∧ _))

def Plain (t : Text) : Prop := ∀ c ∈ t, IsPlain c

instance (t : Text) : Decidable (Plain t) := List.decidableBAll IsPlain t

theorem size_of_plain {t : Text} (h : t.Plain) : size t = t.length := by
  induction t with
  | nil => rfl
  | cons c r ih =>
    rw [size, (h c List.mem_cons_self).1, ih fun x hx => h x (List.mem_cons_of_mem c hx),
      List.length_cons, Nat.add_comm]

end Text

theorem Path.isName_of_plain {n : Text} (h : n.Plain) (hmin : 3 ≤ n.length)
    (hmax : n.length ≤ Files.maxName) : IsName n where
  separator := fun hm => (h _ hm).2.1 rfl
  nul := fun hm => (h _ hm).2.2 rfl
  filler := by
    rw [isFiller, Bool.or_eq_false_iff, beq_eq_false_iff_ne, beq_eq_false_iff_ne]
    constructor <;> rintro rfl <;> exact absurd hmin (by decide)
  above := by rintro rfl; exact absurd hmin (by decide)
  fits := Text.size_of_plain h ▸ hmax

namespace Digest

theorem isPlain_digitChar : ∀ n < 16, Text.IsPlain (Nat.digitChar n) := by decide

theorem wordHex_plain (w : UInt32) :
    (wordHex w).length = 8 ∧ (wordHex w).Plain := by
  refine ⟨rfl, fun c hc => ?_⟩
  obtain ⟨i, -, hi⟩ := List.mem_flatMap.1 hc
  have hb : (w >>> UInt32.ofNat (8 * i)).toNat % 256 < 256 := Nat.mod_lt _ (by decide)
  rcases List.mem_cons.1 hi with rfl | hi
  · exact isPlain_digitChar _ (Nat.div_lt_of_lt_mul hb)
  · rw [List.mem_singleton.1 hi]
    exact isPlain_digitChar _ (Nat.mod_lt _ (by decide))

theorem hex_plain (t : Text) : (hex t).length ≤ 64 ∧ (hex t).Plain := by
  rw [hex, hexOfBytes]
  cases root (leaves (Text.Utf8.encode t)).length (leaves (Text.Utf8.encode t)) with
  | none => exact ⟨Nat.zero_le _, fun c hc => absurd hc List.not_mem_nil⟩
  | some n =>
    dsimp only
    constructor
    · have hl : (n.compress rootNode).toList.length = 8 := by simp [Node.compress]
      have hw : ∀ w ∈ (n.compress rootNode).toList, (wordHex w).length = 8 :=
        fun w _ => (wordHex_plain w).1
      refine Nat.le_of_eq ?_
      rw [List.length_flatMap, List.map_congr_left hw, List.map_const', List.sum_replicate_nat, hl]
    · intro c hc
      obtain ⟨w, -, hw⟩ := List.mem_flatMap.1 hc
      exact (wordHex_plain w).2 c hw

end Digest

namespace GuestUnit

def sourceName (u : GuestUnit) : Text := u.stem ++ ['.'] ++ u.language.extension

def resultName (u : GuestUnit) : Text := u.stem ++ ".json"

def longestName : Nat := 74

theorem stem_plain (u : GuestUnit) : (2 ≤ u.stem.length ∧ u.stem.length ≤ 69) ∧
    u.stem.Plain := by
  obtain ⟨hl, hp⟩ := Digest.hex_plain u.source
  have hk : (1 ≤ u.kind.suffix.length ∧ u.kind.suffix.length ≤ 4) ∧
      u.kind.suffix.Plain := by
    cases u.kind <;> decide
  constructor
  · rw [stem, hash, List.length_append, List.length_append, List.length_singleton]
    omega
  · intro c hc
    rcases List.mem_append.1 hc with hc | hc
    · rcases List.mem_append.1 hc with hc | hc
      · exact hp c hc
      · rw [List.mem_singleton.1 hc]
        decide
    · exact hk.2 c hc

theorem isName_stem (u : GuestUnit) {e : Text} (hl : 1 ≤ e.length ∧ e.length ≤ 5)
    (hp : e.Plain) :
    Path.IsName (u.stem ++ e) ∧ Text.size (u.stem ++ e) ≤ longestName := by
  obtain ⟨hs, hc⟩ := u.stem_plain
  have hall : Text.Plain (u.stem ++ e) :=
    fun c hm => (List.mem_append.1 hm).elim (hc c) (hp c)
  have hlen : (u.stem ++ e).length = u.stem.length + e.length := List.length_append
  have hlong : (u.stem ++ e).length ≤ longestName := by
    rw [hlen, longestName]
    omega
  refine ⟨Path.isName_of_plain hall ?_ (Nat.le_trans hlong (by decide)), ?_⟩
  · rw [hlen]
    omega
  · rw [Text.size_of_plain hall]
    exact hlong

theorem isName_source (u : GuestUnit) :
    Path.IsName u.sourceName ∧ Text.size u.sourceName ≤ longestName := by
  rw [sourceName, List.append_assoc]
  apply u.isName_stem <;> cases u.language <;> decide

theorem isName_result (u : GuestUnit) :
    Path.IsName u.resultName ∧ Text.size u.resultName ≤ longestName := by
  apply u.isName_stem <;> decide

end GuestUnit

theorem Machine.resultOf_sourcePath (s : Scratch) (u : GuestUnit) :
    resultOf (s.sourcePath u) = s.resultPath u := by
  obtain ⟨w, hw⟩ := Path.exists_join s.root
  have hs : s.sourcePath u = (w ++ u.stem) ++ '.' :: u.language.extension := by
    refine (hw _ u.isName_source.1).trans ?_
    rw [GuestUnit.sourceName, List.append_assoc, List.append_assoc]
    rfl
  have hr : s.resultPath u = (w ++ u.stem) ++ '.' :: "json" := by
    refine (hw _ u.isName_result.1).trans ?_
    rw [GuestUnit.resultName, List.append_assoc]
    rfl
  have hdot : ∀ c ∈ u.language.extension.reverse, (c != '.') = true :=
    List.all_eq_true.1 (by cases u.language <;> rfl)
  rw [resultOf, hs, hr, List.reverse_append, List.reverse_cons, List.append_assoc,
    List.dropWhile_append_of_pos hdot, List.singleton_append, List.dropWhile_cons,
    if_neg (by decide), List.reverse_cons, List.reverse_reverse, List.append_assoc]
  rfl

end Polyglot
