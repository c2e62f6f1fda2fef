import Polyglot.Proofs.World.Files

/-!
# Files written and read back

Whatever directory a path stands for, a name joined to it leads to an entry of that
name, and no other name leads there. So a file that is written under one name is read
back under it, and a name that was cleared stays clear when another is written.
-/
namespace Polyglot

theorem Path.exists_components (root : Text) : ∃ cs : List Text, ∀ n, IsName n →
    Text.splitOn '/' (join root n) = cs ++ [n] ∧
      isAbsolute (join root n) = isAbsolute root := by
  by_cases hroot : root = []
  · refine ⟨[], fun n hn => ?_⟩
    rw [join, if_neg hn.relative, if_pos (.inl hroot), hroot, List.nil_append]
    exact ⟨Text.splitOn_of_not_mem hn.separator, Bool.eq_false_iff.2 hn.relative⟩
  · have hstart : ∀ rest, isAbsolute (root ++ rest) = isAbsolute root := by
      intro rest
      cases root with
      | nil => exact absurd rfl hroot
      | cons c r => rfl
    by_cases hlast : root.getLast? = some '/'
    · obtain ⟨q, rfl⟩ := List.getLast?_eq_some_iff.1 hlast
      refine ⟨Text.splitOn '/' q, fun n hn => ?_⟩
      rw [join, if_neg hn.relative, if_pos (.inr hlast)]
      refine ⟨?_, hstart n⟩
      rw [List.append_assoc, List.singleton_append, Text.splitOn_append_cons,
        Text.splitOn_of_not_mem hn.separator]
    · refine ⟨Text.splitOn '/' root, fun n hn => ?_⟩
      rw [join, if_neg hn.relative, if_neg (not_or.2 ⟨hroot, hlast⟩), List.append_assoc]
      refine ⟨?_, hstart _⟩
      rw [List.singleton_append, Text.splitOn_append_cons,
        Text.splitOn_of_not_mem hn.separator]

namespace Files
variable {fs fs' fs'' : Files} {here there : Location} {root n p : Text}

theorem follow_of_locate (h : fs.locate p = .ok here) :
    pathFault? p = none ∧ fs.follow p = .ok here := by
  rw [locate] at h
  cases hp : pathFault? p with
  | some e => rw [hp] at h; cases h
  | none => rw [hp] at h; exact ⟨rfl, h⟩

theorem eq_of_walk_name (hn : Path.IsName n) (h : fs.walk here [n] = .ok there) :
    fs.at? here = some .dir ∧ there = here ++ [n] := by
  cases ha : fs.at? here with
  | none => rw [walk, ha] at h; cases h
  | some e =>
    cases e with
    | file content => rw [walk, ha] at h; cases h
    | dir =>
      rw [walk_name ha hn] at h
      exact ⟨rfl, (Except.ok.inj h).symm⟩

theorem exists_of_locate_join (hn : Path.IsName n) (h : fs.locate (Path.join root n) = .ok there) :
    ∃ here, there = here ++ [n] := by
  obtain ⟨cs, hcs⟩ := Path.exists_components root
  have hf := (follow_of_locate h).2
  rw [follow, (hcs n hn).1, walk_append] at hf
  cases hw : fs.walk
      (if Path.isAbsolute (Path.join root n) then [] else Path.components fs.cwd) cs with
  | error e => rw [hw] at hf; cases hf
  | ok here =>
    rw [hw] at hf
    exact ⟨here, (eq_of_walk_name hn hf).2⟩

theorem locate_sibling {m : Text} (hn : Path.IsName n) (hm : Path.IsName m)
    (h : fs.locate (Path.join root n) = .ok there)
    (hp : pathFault? (Path.join root m) = none) :
    ∃ here, fs.at? here = some .dir ∧ fs.locate (Path.join root m) = .ok (here ++ [m]) := by
  obtain ⟨cs, hcs⟩ := Path.exists_components root
  have hf := (follow_of_locate h).2
  rw [follow, (hcs n hn).1, (hcs n hn).2, walk_append] at hf
  rw [locate, hp, follow, (hcs m hm).1, (hcs m hm).2, walk_append]
  cases hw : fs.walk (if Path.isAbsolute root then [] else Path.components fs.cwd) cs with
  | error e => rw [hw] at hf; cases hf
  | ok here =>
    rw [hw] at hf
    have hd := (eq_of_walk_name hn hf).1
    exact ⟨here, hd, walk_name hd hm⟩

def Apart (p q : Text) : Prop :=
  ∀ fs fs' : Files, ∀ l l', fs.locate p = .ok l → fs'.locate q = .ok l' → l ≠ l'

theorem apart_join {m : Text} (hn : Path.IsName n) (hm : Path.IsName m) (hne : n ≠ m)
    (root root' : Text) : Apart (Path.join root n) (Path.join root' m) := by
  intro fs fs' l l' hl hl' he
  obtain ⟨here, rfl⟩ := exists_of_locate_join hn hl
  obtain ⟨here', rfl⟩ := exists_of_locate_join hm hl'
  have hlast := congrArg List.getLast? he
  simp only [List.getLast?_concat, Option.some.injEq] at hlast
  exact hne hlast

theorem exists_of_entry {e : Entry} (h : fs.entry? p = .ok e) :
    ∃ l, fs.locate p = .ok l ∧ fs.at? l = some e := by
  rw [ entry?] at h
  cases hl : fs.locate p with
  | error err => rw [hl] at h; cases h
  | ok l =>
    simp only [hl] at h
    cases ha : fs.at? l with
    | none => rw [ha] at h; cases h
    | some e' =>
      rw [ha] at h
      cases h
      exact ⟨l, rfl, ha⟩

namespace Keeps

theorem refl (fs : Files) : Keeps fs fs := ⟨rfl, fun _ => Iff.rfl⟩

theorem symm (h : Keeps fs fs') : Keeps fs' fs := ⟨h.cwd.symm, fun l => (h.dirs l).symm⟩

theorem trans (h : Keeps fs fs') (k : Keeps fs' fs'') : Keeps fs fs'' :=
  ⟨k.cwd.trans h.cwd, fun l => (k.dirs l).trans (h.dirs l)⟩

theorem locate_iff (h : Keeps fs fs') : fs'.locate p = .ok here ↔ fs.locate p = .ok here :=
  ⟨h.symm.locate, h.locate⟩

end Keeps

def Absent (fs : Files) (p : Text) : Prop := ∀ l, fs.locate p = .ok l → fs.at? l = none

theorem at?_of_locate {e : Entry} (h : fs.locate p = .ok here) (ha : fs.at? here = some e) :
    fs.entry? p = .ok e := by
  simp only [ entry?, h, ha]

theorem exists_of_target (h : fs.target p = .ok here) :
    fs.locate p = .ok here ∧ fs.at? here ≠ some .dir := by
  unfold target at h
  cases hp : pathFault? p with
  | some e => rw [hp] at h; cases h
  | none =>
    simp only [hp] at h
    by_cases hs : p.getLast? = some '/'
    · simp only [hs, if_true] at h
      cases hf : fs.follow (beforeLast p) with
      | error e => rw [hf] at h; cases h
      | ok l => rw [hf] at h; cases h
    · simp only [hs, if_false] at h
      cases hf : fs.follow p with
      | error e => rw [hf] at h; cases h
      | ok l =>
        simp only [hf] at h
        by_cases hd : fs.at? l = some .dir
        · simp only [hd, if_true] at h
          cases h
        · simp only [hd, if_false] at h
          obtain rfl := Except.ok.inj h
          exact ⟨by simp only [locate, hp, hf], hd⟩

theorem exists_of_write {content : Text.Utf8.Bytes} (h : fs.write p content = .ok fs') :
    ∃ l, fs.locate p = .ok l ∧ fs.at? l ≠ some .dir ∧ fs' = fs.put l content := by
  rw [write] at h
  cases hl : fs.target p with
  | error e => rw [hl] at h; cases h
  | ok l =>
    rw [hl] at h
    obtain ⟨hloc, hd⟩ := exists_of_target hl
    exact ⟨l, hloc, hd, (Except.ok.inj h).symm⟩

theorem keeps_of_write {content : Text.Utf8.Bytes} (h : fs.write p content = .ok fs') :
    Keeps fs fs' := by
  obtain ⟨l, -, hd, rfl⟩ := exists_of_write h
  exact keeps_put hd content

theorem read_of_write {content : Text.Utf8.Bytes} (h : fs.write p content = .ok fs') :
    fs'.read p = .ok content := by
  have hk := keeps_of_write h
  obtain ⟨l, hl, hd, rfl⟩ := exists_of_write h
  have ha : (fs.put l content).at? l = some (.file content (fs.isExecutable l)) := by
    rw [at?_put hd, if_pos rfl]
  rw [read, at?_of_locate (hk.locate hl) ha]

theorem at?_of_write {q : Text} {content : Text.Utf8.Bytes} (h : fs.write p content = .ok fs')
    (hpq : Apart p q) {l : Location} (hl : fs'.locate q = .ok l) : fs'.at? l = fs.at? l := by
  obtain ⟨l', hl', hd, rfl⟩ := exists_of_write h
  rw [at?_put hd, if_neg fun e => hpq _ _ l' l hl' hl e.symm]

theorem Absent.of_write {q : Text} {content : Text.Utf8.Bytes} (ha : fs.Absent q)
    (h : fs.write p content = .ok fs') (hpq : Apart p q) : fs'.Absent q := by
  intro l hl
  rw [at?_of_write h hpq hl]
  exact ha l ((keeps_of_write h).locate_iff.1 hl)

theorem read_of_write_apart {q : Text} {content old : Text.Utf8.Bytes} (hq : fs.read q = .ok old)
    (h : fs.write p content = .ok fs') (hpq : Apart p q) : fs'.read q = .ok old := by
  rw [read, entry?] at hq
  cases hl : fs.locate q with
  | error e => simp only [hl] at hq; cases hq
  | ok l =>
    simp only [hl] at hq
    have hl' := (keeps_of_write h).locate hl
    rw [read, entry?]
    simp only [hl', at?_of_write h hpq hl']
    exact hq

theorem exists_of_remove (h : fs.remove p = .ok fs') :
    ∃ l content executable, fs.locate p = .ok l ∧ fs.at? l = some (.file content executable) ∧
      fs' = { fs with entries := fs.entries.filter (·.1 != l) } := by
  unfold remove at h
  cases hl : fs.locate p with
  | error e => rw [hl] at h; cases h
  | ok l =>
    simp only [hl] at h
    cases ha : fs.at? l with
    | none => rw [ha] at h; cases h
    | some e =>
      cases e with
      | dir => rw [ha] at h; cases h
      | file content =>
        simp only [ha] at h
        exact ⟨l, content, _, rfl, ha, (Except.ok.inj h).symm⟩

theorem keeps_of_remove (h : fs.remove p = .ok fs') : Keeps fs fs' := by
  obtain ⟨l, content, executable, -, ha, rfl⟩ := exists_of_remove h
  exact keeps_erase (by simp [ha])

theorem absent_of_remove (h : fs.remove p = .ok fs') : fs'.Absent p := by
  have hk := keeps_of_remove h
  obtain ⟨l, content, executable, hl, ha, rfl⟩ := exists_of_remove h
  have hd : fs.at? l ≠ some .dir := by simp [ha]
  intro l' hl'
  have he : l' = l := Except.ok.inj ((hk.locate_iff.1 hl').symm.trans hl)
  rw [at?_erase (ne_nil_of_at? hd), if_pos he]

theorem absent_of_remove_notFound (h : fs.remove p = .error .notFound) : fs.Absent p := by
  intro l hl
  simp only [remove, hl] at h
  cases ha : fs.at? l with
  | none => rfl
  | some e => cases e <;> simp [ha] at h

def Cleared (fs g : Files) (p : Text) : Prop :=
  fs.remove p = .ok g ∨ fs.remove p = .error .notFound ∧ g = fs

theorem Cleared.keeps (h : Cleared fs fs' p) : Keeps fs fs' := by
  obtain hr | ⟨-, rfl⟩ := h
  · exact keeps_of_remove hr
  · exact Keeps.refl fs'

theorem Cleared.absent (h : Cleared fs fs' p) : fs'.Absent p := by
  obtain hr | ⟨hr, rfl⟩ := h
  · exact absent_of_remove hr
  · exact absent_of_remove_notFound hr

theorem Cleared.pathFault? (h : Cleared fs fs' p) (hne : p ≠ []) : Files.pathFault? p = none := by
  cases hp : Files.pathFault? p with
  | none => rfl
  | some e =>
    have hr : fs.remove p = .error e := by simp only [remove, locate, hp]
    have hfound : e ≠ .notFound := by
      rintro rfl
      unfold Files.pathFault? at hp
      split at hp
      · cases hp
      · split at hp <;> cases hp
    obtain h | ⟨h, -⟩ := h
    · rw [hr] at h
      cases h
    · exact absurd (Except.error.inj (hr.symm.trans h)) hfound

theorem exists_cleared {l : Location} (hl : fs.locate p = .ok l) (hd : fs.at? l ≠ some .dir) :
    ∃ g, Cleared fs g p ∧ ∀ x, g.at? x = if x = l then none else fs.at? x := by
  cases ha : fs.at? l with
  | none =>
    refine ⟨fs, .inr ⟨by simp only [remove, hl, ha], rfl⟩, fun x => ?_⟩
    by_cases hx : x = l
    · rw [if_pos hx, hx, ha]
    · rw [if_neg hx]
  | some e =>
    cases e with
    | dir => exact absurd ha hd
    | file content executable =>
      refine ⟨{ fs with entries := fs.entries.filter (·.1 != l) }, .inl ?_, fun x => ?_⟩
      · simp only [remove, hl, ha]
      · exact at?_erase (ne_nil_of_at? hd) x

end Files
end Polyglot
