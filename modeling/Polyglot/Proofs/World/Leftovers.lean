import Polyglot.Proofs.World.Writing

/-!
# Files that differ in one directory

Two file systems that differ in the files of one directory alone are the same to every
path that does not end at one of these files: a walk only asks where directories are.
What is written to a name in the directory, or removed from it, is then the same in both.
-/
namespace Polyglot
namespace Files
variable {here start : Location} {fs fs' g g' : Files} {cs : List Text} {p n root : Text}

/-- The second differs from the first in files of the directory at `here` alone. -/
structure SameBut (here : Location) (fs fs' : Files) : Prop extends Keeps fs fs' where
  other : ∀ l, (∀ n, l ≠ here ++ [n]) → fs'.at? l = fs.at? l

namespace SameBut

theorem refl (here : Location) (fs : Files) : SameBut here fs fs := ⟨Keeps.refl fs, fun _ _ => rfl⟩

theorem setCwd (h : SameBut here fs fs') (dir : Text) :
    SameBut here { fs with cwd := dir } { fs' with cwd := dir } :=
  ⟨⟨rfl, h.dirs⟩, h.other⟩

theorem at?_eq (h : SameBut here fs fs') {l : Location}
    (hl : ∀ n, l = here ++ [n] → fs.at? l = some .dir) : fs'.at? l = fs.at? l := by
  by_cases hd : fs.at? l = some .dir
  · rw [hd]
    exact (h.dirs l).2 hd
  · exact h.other l fun n hn => hd (hl n hn)

theorem walk_eq_of_length (h : SameBut here fs fs') (start : Location) (cs : List Text)
    (hl : start.length + cs.length ≤ here.length + 1) : fs'.walk start cs = fs.walk start cs := by
  induction cs generalizing start with
  | nil => rfl
  | cons c r ih =>
    rw [List.length_cons] at hl
    have ha : fs'.at? start = fs.at? start := by
      apply h.other
      rintro n rfl
      simp only [List.length_append, List.length_singleton] at hl
      omega
    rw [walk, walk, ha]
    cases fs.at? start with
    | none => rfl
    | some e =>
      cases e with
      | file content => rfl
      | dir =>
        have hstay := ih start (by omega)
        have hup := ih start.dropLast (by rw [List.length_dropLast]; omega)
        have hdown := ih (start ++ [c])
          (by rw [List.length_append, List.length_singleton]; omega)
        simp only [hstay, hup, hdown]

end SameBut

def lookedAt (fs : Files) : Location → List Text → Location
  | here, [] => here
  | here, c :: r =>
    if fs.at? here = some .dir then
      if Path.isFiller c then fs.lookedAt here r
      else if c = ['.', '.'] then fs.lookedAt here.dropLast r
      else if maxName < Text.size c then here
      else fs.lookedAt (here ++ [c]) r
    else here

def endOf (fs : Files) (p : Text) : Location :=
  fs.lookedAt (if Path.isAbsolute p then [] else Path.components fs.cwd) (Text.splitOn '/' p)

/-- The path ends at a name in the directory, and that is no directory itself. -/
def Strays (fs : Files) (here : Location) (p : Text) : Prop :=
  ∃ n, fs.endOf p = here ++ [n] ∧ fs.at? (here ++ [n]) ≠ some .dir

theorem lookedAt_of_walk (h : fs.walk start cs = .ok here) : fs.lookedAt start cs = here := by
  induction cs generalizing start with
  | nil => exact Except.ok.inj h
  | cons c r ih =>
    rw [walk] at h
    rw [lookedAt]
    cases ha : fs.at? start with
    | none => rw [ha] at h; cases h
    | some e =>
      rw [ha] at h
      cases e with
      | file content => cases h
      | dir =>
        dsimp only at h
        rw [if_pos rfl]
        split at h
        · next hf => rw [if_pos hf]; exact ih h
        · next hf =>
          rw [if_neg hf]
          split at h
          · next hu => rw [if_pos hu]; exact ih h
          · next hu =>
            rw [if_neg hu]
            split at h
            · cases h
            · next hs => rw [if_neg hs]; exact ih h

theorem endOf_of_locate (h : fs.locate p = .ok here) : fs.endOf p = here :=
  lookedAt_of_walk (follow_of_locate h).2

theorem Keeps.lookedAt_eq (h : Keeps fs fs') : fs'.lookedAt start cs = fs.lookedAt start cs := by
  induction cs generalizing start with
  | nil => rfl
  | cons c r ih => simp only [lookedAt, h.dirs, ih]

theorem Keeps.strays_iff (h : Keeps fs fs') : fs'.Strays here p ↔ fs.Strays here p := by
  simp only [Strays, endOf, h.cwd, h.lookedAt_eq, ne_eq, h.dirs]

namespace SameBut

theorem walk_eq (h : SameBut here fs fs') (start : Location) (cs : List Text)
    (hl : ∀ n, fs.lookedAt start cs = here ++ [n] → fs.at? (here ++ [n]) = some .dir) :
    fs'.walk start cs = fs.walk start cs := by
  induction cs generalizing start with
  | nil => rfl
  | cons c r ih =>
    by_cases hd : fs.at? start = some .dir
    · rw [walk, walk, hd, (h.dirs start).2 hd]
      rw [lookedAt, if_pos hd] at hl
      dsimp only
      split
      · next hf => exact ih start (by rwa [if_pos hf] at hl)
      · next hf =>
        rw [if_neg hf] at hl
        split
        · next hu => exact ih start.dropLast (by rwa [if_pos hu] at hl)
        · next hu =>
          rw [if_neg hu] at hl
          split
          · rfl
          · next hs => exact ih (start ++ [c]) (by rwa [if_neg hs] at hl)
    · rw [lookedAt, if_neg hd] at hl
      have ha : fs'.at? start = fs.at? start := h.other start fun n hn => hd (hn ▸ hl n hn)
      rw [walk, walk, ha]
      cases hs : fs.at? start with
      | none => rfl
      | some e =>
        cases e with
        | file content => rfl
        | dir => exact absurd hs hd

theorem locate_eq (h : SameBut here fs fs') (hp : ¬ fs.Strays here p) :
    fs'.locate p = fs.locate p := by
  have hw := h.walk_eq (if Path.isAbsolute p then [] else Path.components fs.cwd)
    (Text.splitOn '/' p) fun n hn => Decidable.byContradiction fun hd => hp ⟨n, hn, hd⟩
  rw [locate, locate, follow, follow, h.cwd, hw]

theorem at?_of_locate (h : SameBut here fs fs') (hp : ¬ fs.Strays here p) {l : Location}
    (hl : fs.locate p = .ok l) : fs'.at? l = fs.at? l := by
  apply h.at?_eq
  rintro n rfl
  exact Decidable.byContradiction fun hd => hp ⟨n, endOf_of_locate hl, hd⟩

theorem entry?_eq (h : SameBut here fs fs') (hp : ¬ fs.Strays here p) :
    fs'.entry? p = fs.entry? p := by
  rw [ entry?, entry?, h.locate_eq hp]
  cases hl : fs.locate p with
  | error e => rfl
  | ok l => simp only [h.at?_of_locate hp hl]

theorem canonical_eq (h : SameBut here fs fs') (hp : ¬ fs.Strays here p) :
    fs'.canonical p = fs.canonical p := by
  rw [canonical, canonical, h.locate_eq hp]
  cases hl : fs.locate p with
  | error e => rfl
  | ok l => simp only [h.at?_of_locate hp hl]

theorem entry?_ne_dir (h : SameBut here fs fs') (hp : fs.Strays here p) :
    fs'.entry? p ≠ .ok .dir := by
  obtain ⟨n, hn, hd⟩ := h.toKeeps.strays_iff.2 hp
  intro he
  obtain ⟨l, hl, ha⟩ := exists_of_entry he
  rw [← endOf_of_locate hl, hn] at ha
  exact hd ha

end SameBut
end Files

def Location.Plain (here : Location) : Prop := ∀ c ∈ here, '/' ∉ c ∧ c ≠ []

theorem Location.Plain.splitOn_join {here : Location} {n : Text} (h : here.Plain)
    (hn : Path.IsName n) : Text.splitOn '/' (Path.join here.path n) = [] :: (here ++ [n]) := by
  have hname : Text.splitOn '/' n = [n] := Text.splitOn_of_not_mem hn.separator
  rw [Path.join, if_neg hn.relative]
  by_cases he : here = []
  · subst he
    rw [if_pos (.inr rfl)]
    exact (Text.splitOn_append_cons [] n).trans (congrArg _ hname)
  have hpath : Text.splitOn '/' here.path = [] :: here := by
    refine (Text.splitOn_append_cons [] _).trans ?_
    rw [Text.splitOn_joinWith he fun c hc => (h c hc).1]
    rfl
  have hlast : ¬ (here.path = [] ∨ here.path.getLast? = some '/') := by
    rintro (hnil | hsep)
    · cases hnil
    · obtain ⟨q, hq⟩ := List.getLast?_eq_some_iff.1 hsep
      rw [hq, Text.splitOn_append_cons, ← List.singleton_append] at hpath
      have hends := congrArg List.getLast? hpath
      rw [List.getLast?_append, List.getLast?_append, List.getLast?_eq_some_getLast he] at hends
      exact (h _ (List.getLast_mem he)).2 (Option.some.inj hends).symm
  rw [if_neg hlast, List.append_assoc, List.singleton_append, Text.splitOn_append_cons, hpath,
    hname]
  rfl

namespace Files
variable {here start there : Location} {fs fs' g g' : Files} {cs : List Text} {p q n root : Text}
  {content : Text.Utf8.Bytes}

theorem plain_of_walk (hs : start.Plain) (hc : ∀ c ∈ cs, '/' ∉ c)
    (h : fs.walk start cs = .ok there) : there.Plain := by
  induction cs generalizing start with
  | nil => exact Except.ok.inj h ▸ hs
  | cons c r ih =>
    have hr : ∀ x ∈ r, '/' ∉ x := fun x hx => hc x (List.mem_cons_of_mem c hx)
    rw [walk] at h
    split at h
    · cases h
    · cases h
    · split at h
      · exact ih hs hr h
      · next hf =>
        split at h
        · exact ih (fun x hx => hs x (List.dropLast_subset _ hx)) hr h
        · split at h
          · cases h
          · refine ih (fun x hx => ?_) hr h
            rcases List.mem_append.1 hx with hx | hx
            · exact hs x hx
            · rw [List.mem_singleton.1 hx]
              refine ⟨hc c List.mem_cons_self, ?_⟩
              rintro rfl
              exact hf rfl

theorem plain_components (t : Text) : Location.Plain (Path.components t) := by
  intro c hc
  rw [Path.components, List.mem_filter] at hc
  obtain ⟨hm, hf⟩ := hc
  rw [Path.pieces, Path.dropFillers, List.mem_reverse] at hm
  have hm := List.mem_reverse.1 ((List.dropWhile_sublist _).subset hm)
  refine ⟨Text.not_mem_of_mem_splitOn hm, ?_⟩
  rintro rfl
  cases hf

theorem plain_of_locate (h : fs.locate p = .ok there) : there.Plain := by
  refine plain_of_walk ?_ (fun c hc => Text.not_mem_of_mem_splitOn hc) (follow_of_locate h).2
  split
  · exact fun c hc => absurd hc List.not_mem_nil
  · exact plain_components fs.cwd

def Agree (p : Text) (fs fs' : Files) : Prop := ∀ l, fs.locate p = .ok l → fs'.at? l = fs.at? l

namespace SameBut

theorem follow_join (h : SameBut here fs fs') (hh : here.Plain) (hn : Path.IsName n) :
    fs'.follow (Path.join here.path n) = fs.follow (Path.join here.path n) := by
  obtain ⟨_, hcs⟩ := Path.exists_components here.path
  have ha : Path.isAbsolute (Path.join here.path n) = true := (hcs n hn).2
  rw [follow, follow, if_pos ha, if_pos ha, hh.splitOn_join hn]
  have hw := h.walk_eq_of_length [] (here ++ [n]) (by simp)
  simpa only [walk, at?, if_true, Path.isFiller, beq_self_eq_true, Bool.true_or] using hw

theorem locate_join (h : SameBut here fs fs') (hh : here.Plain) (hn : Path.IsName n) :
    fs'.locate (Path.join here.path n) = fs.locate (Path.join here.path n) := by
  rw [locate, locate, h.follow_join hh hn]

theorem target_join (h : SameBut here fs fs') (hh : here.Plain) (hn : Path.IsName n) :
    fs'.target (Path.join here.path n) = fs.target (Path.join here.path n) := by
  unfold target
  rw [if_neg (getLast?_join hn), h.follow_join hh hn]
  simp only [h.dirs, getLast?_join hn, if_false]

theorem isExecutable_eq (h : fs'.at? there = fs.at? there) :
    fs'.isExecutable there = fs.isExecutable there := by
  rw [isExecutable, isExecutable, h]

theorem put (h : SameBut here fs fs') (hd : fs.at? there ≠ some .dir)
    (content : Text.Utf8.Bytes) :
    SameBut here (fs.put there content) (fs'.put there content) := by
  have hd' : fs'.at? there ≠ some .dir := fun he => hd ((h.dirs there).1 he)
  refine ⟨(keeps_put hd content).symm.trans (h.toKeeps.trans (keeps_put hd' content)), ?_⟩
  intro l hl
  rw [at?_put hd, at?_put hd', h.other l hl]
  by_cases he : l = there
  · rw [if_pos he, if_pos he, isExecutable_eq (he ▸ h.other l hl)]
  · rw [if_neg he, if_neg he]

theorem write_join (h : SameBut here fs fs') (hh : here.Plain) (hn : Path.IsName n)
    (hp : p = Path.join here.path n) (content : Text.Utf8.Bytes) :
    (∃ e, fs.write p content = .error e ∧ fs'.write p content = .error e) ∨
      ∃ g g', fs.write p content = .ok g ∧ fs'.write p content = .ok g' ∧ SameBut here g g' ∧
        ∀ q, Agree q fs fs' → Agree q g g' := by
  have ht : fs'.target p = fs.target p := hp ▸ h.target_join hh hn
  cases hl : fs.target p with
  | error e => exact .inl ⟨e, by rw [write, hl]; rfl, by rw [write, ht, hl]; rfl⟩
  | ok l =>
    have hw : fs.write p content = .ok (fs.put l content) := by rw [write, hl]; rfl
    have hk := keeps_of_write hw
    obtain ⟨-, hd⟩ := exists_of_target hl
    have hd' : fs'.at? l ≠ some .dir := fun he => hd ((h.dirs l).1 he)
    refine .inr ⟨_, fs'.put l content, hw, by rw [write, ht, hl]; rfl, h.put hd content, ?_⟩
    intro q hq l' hl'
    have ha := hq l' (hk.locate_iff.1 hl')
    rw [at?_put hd, at?_put hd', ha]
    by_cases he : l' = l
    · rw [if_pos he, if_pos he, isExecutable_eq (he ▸ ha)]
    · rw [if_neg he, if_neg he]

end SameBut

namespace SameBut

theorem clear_join (h : SameBut here fs fs') (hh : here.Plain) (hn : Path.IsName n)
    (hp : p = Path.join here.path n) :
    (∃ e, e ≠ .notFound ∧ fs.remove p = .error e ∧ fs'.remove p = .error e) ∨
      ∃ g g', Cleared fs g p ∧ Cleared fs' g' p ∧ SameBut here g g' ∧ Agree p g g' := by
  have hloc : fs'.locate p = fs.locate p := hp ▸ h.locate_join hh hn
  cases hl : fs.locate p with
  | error e =>
    have hr : fs.remove p = .error e := by simp only [remove, hl]
    have hr' : fs'.remove p = .error e := by simp only [remove, hloc, hl]
    by_cases he : e = .notFound
    · subst he
      refine .inr ⟨fs, fs', .inr ⟨hr, rfl⟩, .inr ⟨hr', rfl⟩, h, fun l hl' => ?_⟩
      rw [hl] at hl'
      cases hl'
    · exact .inl ⟨e, he, hr, hr'⟩
  | ok l =>
    by_cases hd : fs.at? l = some .dir
    · refine .inl ⟨.isDirectory, by simp, by simp only [remove, hl, hd], ?_⟩
      simp only [remove, hloc, hl, (h.dirs l).2 hd]
    · obtain ⟨g, hc, hg⟩ := exists_cleared hl hd
      obtain ⟨g', hc', hg'⟩ :=
        exists_cleared (hloc.trans hl) fun hd' => hd ((h.dirs l).1 hd')
      have hk := hc.keeps.symm.trans (h.toKeeps.trans hc'.keeps)
      refine .inr ⟨g, g', hc, hc', ⟨hk, fun x hx => ?_⟩, ?_⟩
      · rw [hg, hg', h.other x hx]
      · intro x hx
        have hx : x = l := Except.ok.inj ((hc.keeps.locate_iff.1 hx).symm.trans hl)
        rw [hg, hg', if_pos hx, if_pos hx]

theorem readText_join (h : SameBut here fs fs') (hh : here.Plain) (hn : Path.IsName n)
    (hp : p = Path.join here.path n) (ha : Agree p fs fs') : fs'.readText p = fs.readText p := by
  have hloc : fs'.locate p = fs.locate p := hp ▸ h.locate_join hh hn
  have he : fs'.entry? p = fs.entry? p := by
    rw [ entry?, entry?, hloc]
    cases hl : fs.locate p with
    | error e => rfl
    | ok l => simp only [ha l hl]
  rw [readText, readText, read, read, he]

end SameBut

/-- With the directory at `root` made, which is at `here` then, the files are `made`. -/
structure Houses (fs : Files) (root : Text) (here : Location) (made : Files) : Prop where
  makes : fs.makeDirs root = .ok made
  located : made.locate root = .ok here
  dir : made.at? here = some .dir

theorem Houses.canonical {made : Files} (h : fs.Houses root here made) :
    made.canonical root = .ok here.path := by
  simp only [Files.canonical, h.located, h.dir, Option.isSome_some, if_true]

theorem walk_filler (hc : ∀ c ∈ cs, Path.isFiller c = true) (h : fs.walk start cs = .ok there) :
    there = start := by
  induction cs with
  | nil => exact (Except.ok.inj h).symm
  | cons c r ih =>
    rw [walk] at h
    split at h
    · cases h
    · cases h
    · rw [if_pos (hc c List.mem_cons_self)] at h
      exact ih (fun x hx => hc x (List.mem_cons_of_mem c hx)) h

theorem filler_of_separators {t : Text} (ht : ∀ c ∈ t, (c == '/') = true) :
    ∀ p ∈ Text.splitOn '/' t, Path.isFiller p = true := by
  induction t with
  | nil => simp [Text.splitOn, Path.isFiller]
  | cons c r ih =>
    have hc : c = '/' := eq_of_beq (ht c List.mem_cons_self)
    rw [Text.splitOn, if_pos hc]
    intro p hp
    rcases List.mem_cons.1 hp with rfl | hp
    · rfl
    · exact ih (fun x hx => ht x (List.mem_cons_of_mem c hx)) p hp

theorem follow_trim (h : fs.follow p = .ok there) :
    fs.follow (trimSeparators p) = .ok there := by
  unfold trimSeparators
  cases hq : (p.reverse.dropWhile (· == '/')).reverse with
  | nil => exact h
  | cons c r =>
    obtain ⟨t, ht, hp⟩ : ∃ t, (∀ c ∈ t, (c == '/') = true) ∧ p = (c :: r) ++ t := by
      refine ⟨(p.reverse.takeWhile (· == '/')).reverse, fun c hc => ?_, ?_⟩
      · exact List.all_eq_true.1 List.all_takeWhile c (List.mem_reverse.1 hc)
      · rw [← hq, ← List.reverse_append, List.takeWhile_append_dropWhile, List.reverse_reverse]
    cases t with
    | nil => rwa [hp, List.append_nil] at h
    | cons s t =>
      have hs : s = '/' := eq_of_beq (ht s List.mem_cons_self)
      have hstart : Path.isAbsolute (c :: r ++ '/' :: t) = Path.isAbsolute (c :: r) := rfl
      rw [hp, hs, follow, hstart, Text.splitOn_append_cons, walk_append] at h
      rw [follow]
      cases hw : fs.walk (if Path.isAbsolute (c :: r) then [] else Path.components fs.cwd)
          (Text.splitOn '/' (c :: r)) with
      | error e => rw [hw] at h; cases h
      | ok l =>
        rw [hw] at h
        exact congrArg _ (walk_filler (filler_of_separators fun x hx =>
          ht x (List.mem_cons_of_mem s hx)) h).symm

theorem houses_of_dir (hl : fs.locate root = .ok here) (hd : fs.at? here = some .dir) :
    fs.Houses root here fs := by
  refine ⟨?_, hl, hd⟩
  obtain ⟨hp, hf⟩ := follow_of_locate hl
  have hdir : fs.makeDir root = .error .alreadyExists := by
    simp only [makeDir, place, hp, follow_trim hf, hd]
  have his : fs.isDir root = true := by
    simp only [isDir, at?_of_locate hl hd]
  obtain ⟨above, ha⟩ : ∃ above, Path.ancestors root = root :: above := by
    unfold Path.ancestors
    cases root.length with
    | zero => exact ⟨[], rfl⟩
    | succ k =>
      rw [Path.ancestors.go]
      cases Path.parent? root with
      | none => exact ⟨[], rfl⟩
      | some q => exact ⟨_, rfl⟩
  unfold makeDirs
  split
  · rfl
  · rw [ha, makeAll, hdir]
    simp only [his, if_true]

/-- Once the directory is made in both, the two differ in its files alone. -/
def SameBesides (root : Text) (here : Location) (fs fs' made : Files) : Prop :=
  fs.Houses root here made ∧ ∃ made', fs'.Houses root here made' ∧ SameBut here made made'

end Files
end Polyglot
