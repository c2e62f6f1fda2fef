import Polyglot.Proofs.Text.Pieces
import Polyglot.World.Files

/-!
# Files of a directory

A path is walked component by component, so a plain name joined to the path of a
directory leads to the entry of that name in it, whatever way the path takes. Files
are written and removed without a change to any directory, so every walk that was
possible before leads to the same place afterwards.
-/
namespace Polyglot

structure Path.IsName (n : Text) : Prop where
  separator : '/' ∉ n
  nul : '\x00' ∉ n
  filler : Path.isFiller n = false
  above : n ≠ ['.', '.']
  fits : Text.size n ≤ Files.maxName

theorem Path.IsName.ne_nil {n : Text} (h : IsName n) : n ≠ [] := by
  rintro rfl
  exact absurd h.filler (by decide)

theorem Path.IsName.relative {n : Text} (h : IsName n) : ¬ isAbsolute n = true := by
  cases n with
  | nil => exact absurd rfl h.ne_nil
  | cons c r => exact fun ha => h.separator (Option.some.inj (eq_of_beq ha) ▸ List.mem_cons_self)

theorem Path.exists_join (root : Text) :
    ∃ w, ∀ n, IsName n → join root n = w ++ n := by
  by_cases hc : root = [] ∨ root.getLast? = some '/'
  · exact ⟨root, fun n hn => by rw [join, if_neg hn.relative, if_pos hc]⟩
  · exact ⟨root ++ ['/'], fun n hn => by rw [join, if_neg hn.relative, if_neg hc]⟩

namespace Files
variable {fs : Files} {here : Location} {root n : Text}

theorem walk_append (fs : Files) (here : Location) (a b : List Text) :
    fs.walk here (a ++ b) = (fs.walk here a).bind fun there => fs.walk there b := by
  induction a generalizing here with
  | nil => rfl
  | cons c r ih =>
    rw [List.cons_append, walk, walk]
    cases fs.at? here with
    | none => rfl
    | some e =>
      cases e with
      | file content => rfl
      | dir =>
        dsimp only
        split
        · exact ih here
        · split
          · exact ih here.dropLast
          · split
            · rfl
            · exact ih (here ++ [c])

theorem walk_name (hd : fs.at? here = some .dir) (hn : Path.IsName n) :
    fs.walk here [n] = .ok (here ++ [n]) := by
  have hf : ¬ Path.isFiller n = true := by rw [hn.filler]; nofun
  rw [walk, hd]
  dsimp only
  rw [if_neg hf, if_neg hn.above, if_neg (Nat.not_lt.2 hn.fits), walk]

theorem follow_join (hr : fs.follow root = .ok here) (hd : fs.at? here = some .dir)
    (hne : root ≠ []) (hn : Path.IsName n) :
    fs.follow (Path.join root n) = .ok (here ++ [n]) := by
  have hname : Text.splitOn '/' n = [n] := Text.splitOn_of_not_mem hn.separator
  have hstart : ∀ rest, Path.isAbsolute (root ++ rest) = Path.isAbsolute root := by
    intro rest
    cases root with
    | nil => exact absurd rfl hne
    | cons c r => rfl
  rw [Path.join, if_neg hn.relative]
  by_cases hl : root.getLast? = some '/'
  · -- The directory's path ends in a component that counts for nothing.
    obtain ⟨q, rfl⟩ : ∃ q, root = q ++ ['/'] := List.getLast?_eq_some_iff.1 hl
    rw [if_pos (.inr hl), follow, hstart, List.append_assoc, List.singleton_append,
      Text.splitOn_append_cons, hname, walk_append]
    rw [follow, Text.splitOn_append_cons, walk_append] at hr
    cases hw : fs.walk (if Path.isAbsolute (q ++ ['/']) then [] else Path.components fs.cwd)
        (Text.splitOn '/' q) with
    | error e => rw [hw] at hr; cases hr
    | ok there =>
      rw [hw] at hr
      have hr : fs.walk there [[]] = .ok here := hr
      have ht : there = here := by
        rw [walk] at hr
        cases ha : fs.at? there with
        | none => rw [ha] at hr; cases hr
        | some e =>
          rw [ha] at hr
          cases e with
          | file content => cases hr
          | dir => cases hr; rfl
      rw [ht]
      exact walk_name hd hn
  · have hc : ¬ (root = [] ∨ root.getLast? = some '/') := not_or.2 ⟨hne, hl⟩
    rw [if_neg hc, follow, List.append_assoc, hstart, List.singleton_append,
      Text.splitOn_append_cons, hname, walk_append]
    rw [follow] at hr
    rw [hr]
    exact walk_name hd hn

theorem size_join (root : Text) (n : Text) :
    Text.size (Path.join root n) ≤ Text.size root + 1 + Text.size n := by
  rw [Path.join]
  split
  · omega
  · split
    · rw [Text.size_append]; omega
    · rw [Text.size_append, Text.size_append]
      exact Nat.le_refl _

theorem pathFault?_join (hr : pathFault? root = none) (hn : Path.IsName n)
    (hs : Text.size root + 1 + Text.size n < maxPath) :
    pathFault? (Path.join root n) = none := by
  have hnul : hasNul (Path.join root n) = false := by
    have hroot : '\x00' ∉ root := by
      intro hm
      have hc : hasNul root = true := List.contains_iff_mem.2 hm
      rw [pathFault?, if_pos hc] at hr
      cases hr
    rw [hasNul, ← Bool.not_eq_true, List.contains_iff_mem, Path.join]
    split
    · exact hn.nul
    · split
      · exact fun hm => (List.mem_append.1 hm).elim hroot hn.nul
      · intro hm
        rcases List.mem_append.1 hm with hm | hm
        · rcases List.mem_append.1 hm with hm | hm
          · exact hroot hm
          · exact absurd (List.mem_singleton.1 hm) (by decide)
        · exact hn.nul hm
  have hne : Path.join root n ≠ [] := by
    rw [Path.join]
    split
    · exact hn.ne_nil
    · split <;> exact List.append_ne_nil_of_right_ne_nil _ hn.ne_nil
  have hb := size_join root n
  have hnul : ¬ hasNul (Path.join root n) = true := by rw [hnul]; nofun
  rw [pathFault?, if_neg hnul, if_neg hne, if_neg (by omega)]

theorem locate_join (hr : fs.locate root = .ok here) (hd : fs.at? here = some .dir)
    (hn : Path.IsName n) (hs : Text.size root + 1 + Text.size n < maxPath) :
    fs.locate (Path.join root n) = .ok (here ++ [n]) := by
  have hp : pathFault? root = none := by
    cases h : pathFault? root with
    | none => rfl
    | some e => rw [locate, h] at hr; cases hr
  have hne : root ≠ [] := by
    rintro rfl
    exact absurd hp (by decide)
  rw [locate, hp] at hr
  rw [locate, pathFault?_join hp hn hs]
  exact follow_join hr hd hne hn

theorem getLast?_join (hn : Path.IsName n) : (Path.join root n).getLast? ≠ some '/' := by
  obtain ⟨w, hw⟩ := Path.exists_join root
  rw [hw n hn, List.getLast?_append, List.getLast?_eq_some_getLast hn.ne_nil]
  exact fun h => hn.separator (Option.some.inj h ▸ List.getLast_mem hn.ne_nil)

theorem target_of_locate {p : Text} (hl : fs.locate p = .ok here) (hs : p.getLast? ≠ some '/')
    (hf : fs.at? here ≠ some .dir) : fs.target p = .ok here := by
  unfold locate at hl
  unfold target
  cases hp : pathFault? p with
  | some e => rw [hp] at hl; cases hl
  | none =>
    rw [hp] at hl
    dsimp only at hl ⊢
    rw [if_neg hs, hl]
    exact if_neg hf

theorem find?_filter_ne (here there : Location) (hne : there ≠ here)
    (l : List (Location × Entry)) :
    (l.filter (·.1 != here)).find? (·.1 == there) = l.find? (·.1 == there) := by
  have hp : ∀ x : Location × Entry,
      decide ((x.1 != here) = true ∧ (x.1 == there) = true) = (x.1 == there) := by
    intro x
    rw [Bool.eq_iff_iff, decide_eq_true_iff]
    exact ⟨And.right, fun hx => ⟨bne_iff_ne.2 fun e => hne (eq_of_beq hx ▸ e), hx⟩⟩
  rw [List.find?_filter]
  simp only [hp]

theorem at?_set {here : Location} (hh : here ≠ []) (there : Location) (e : Entry) :
    (fs.set here e).at? there = if there = here then some e else fs.at? there := by
  by_cases ht : there = []
  · rw [ht, if_neg (Ne.symm hh)]
    rfl
  · rw [at?, at?, if_neg ht, if_neg ht, set, List.find?_cons]
    by_cases he : there = here
    · rw [if_pos he, he, beq_self_eq_true]
      rfl
    · have hb : (here == there) = false := by
        rw [beq_eq_false_iff_ne]
        exact Ne.symm he
      rw [if_neg he, hb]
      exact congrArg _ (find?_filter_ne here there he fs.entries)

theorem at?_erase {here : Location} (hh : here ≠ []) (there : Location) :
    Files.at? { fs with entries := fs.entries.filter (·.1 != here) } there =
      if there = here then none else fs.at? there := by
  by_cases he : there = here
  · have hn : (fs.entries.filter (·.1 != here)).find? (·.1 == here) = none := by
      refine List.find?_eq_none.2 fun x hx hb => ?_
      exact bne_iff_ne.1 (List.mem_filter.1 hx).2 (eq_of_beq hb)
    rw [if_pos he, he, at?, if_neg hh, hn]
    rfl
  · rw [if_neg he, at?, at?, find?_filter_ne here there he]

structure Keeps (fs fs' : Files) : Prop where
  cwd : fs'.cwd = fs.cwd
  dirs : ∀ l, fs'.at? l = some .dir ↔ fs.at? l = some .dir

namespace Keeps
variable {fs' : Files}

theorem walk (hk : Keeps fs fs') {there : Location} {cs : List Text}
    (h : fs.walk here cs = .ok there) : fs'.walk here cs = .ok there := by
  induction cs generalizing here with
  | nil => exact h
  | cons c r ih =>
    rw [Files.walk] at h ⊢
    cases ha : fs.at? here with
    | none => rw [ha] at h; cases h
    | some e =>
      rw [ha] at h
      cases e with
      | file old => cases h
      | dir =>
        rw [(hk.dirs here).2 ha]
        dsimp only at h ⊢
        by_cases hfill : Path.isFiller c = true
        · rw [if_pos hfill] at h ⊢
          exact ih h
        · rw [if_neg hfill] at h ⊢
          by_cases habove : c = ['.', '.']
          · rw [if_pos habove] at h ⊢
            exact ih h
          · rw [if_neg habove] at h ⊢
            by_cases hlong : maxName < Text.size c
            · rw [if_pos hlong] at h
              cases h
            · rw [if_neg hlong] at h ⊢
              exact ih h

theorem locate (hk : Keeps fs fs') {p : Text} {there : Location}
    (h : fs.locate p = .ok there) : fs'.locate p = .ok there := by
  rw [Files.locate] at h ⊢
  cases hp : pathFault? p with
  | some e => rw [hp] at h; cases h
  | none =>
    rw [hp] at h
    rw [follow] at h
    dsimp only
    rw [follow, hk.cwd]
    exact hk.walk h

end Keeps

theorem ne_nil_of_at? (h : fs.at? here ≠ some .dir) : here ≠ [] := by
  rintro rfl
  exact h rfl

theorem keeps_set (hf : fs.at? here ≠ some .dir) (content : Text.Utf8.Bytes)
    (executable : Bool) : Keeps fs (fs.set here (.file content executable)) := by
  refine ⟨rfl, fun l => ?_⟩
  rw [at?_set (ne_nil_of_at? hf)]
  by_cases hl : l = here
  · rw [if_pos hl, hl]
    exact ⟨nofun, fun h => absurd h hf⟩
  · rw [if_neg hl]

theorem at?_put (hf : fs.at? here ≠ some .dir) (there : Location)
    (content : Text.Utf8.Bytes) : (fs.put here content).at? there =
      if there = here then some (.file content (fs.isExecutable here)) else fs.at? there :=
  at?_set (ne_nil_of_at? hf) there _

theorem keeps_put (hf : fs.at? here ≠ some .dir) (content : Text.Utf8.Bytes) :
    Keeps fs (fs.put here content) :=
  keeps_set hf content _

theorem keeps_erase (hf : fs.at? here ≠ some .dir) :
    Keeps fs { fs with entries := fs.entries.filter (·.1 != here) } := by
  refine ⟨rfl, fun l => ?_⟩
  rw [at?_erase (ne_nil_of_at? hf)]
  by_cases hl : l = here
  · rw [if_pos hl, hl]
    exact ⟨nofun, fun h => absurd h hf⟩
  · rw [if_neg hl]

end Files
end Polyglot
