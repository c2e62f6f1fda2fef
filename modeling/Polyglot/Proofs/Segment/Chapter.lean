import Polyglot.Proofs.Analysis.Lines

/-!
# Chapters of a source

A source reads as chapters: a tag line, and behind it the lines up to the next one. Only
blank lines come before the first. Collecting turns each chapter into a segment, or into a
warning if there is nothing but blanks in it, and so no line is lost on the way.
-/
namespace Polyglot

theorem mem_numberFrom {n k : Nat} {ts : List Text} {t : Text} :
    (k, t) ∈ numberFrom n ts ↔ n ≤ k ∧ ts[k - n]? = some t := by
  induction ts generalizing n with
  | nil => simp [numberFrom]
  | cons x r ih =>
    rw [numberFrom, List.mem_cons, ih, Prod.mk.injEq]
    by_cases hk : k = n
    · subst hk
      rw [Nat.sub_self]
      constructor
      · rintro (⟨-, rfl⟩ | ⟨hl, -⟩)
        · exact ⟨Nat.le_refl k, rfl⟩
        · exact absurd hl (Nat.not_succ_le_self k)
      · rintro ⟨-, ht⟩
        exact .inl ⟨rfl, (Option.some.inj ht).symm⟩
    · constructor
      · rintro (⟨he, -⟩ | ⟨hl, hr⟩)
        · exact absurd he hk
        · refine ⟨by omega, ?_⟩
          rw [show k - n = k - (n + 1) + 1 by omega]
          exact hr
      · rintro ⟨hl, hr⟩
        refine .inr ⟨by omega, ?_⟩
        rw [show k - n = k - (n + 1) + 1 by omega] at hr
        exact hr

theorem numberFrom_append (n : Nat) (ts us : List Text) :
    numberFrom n (ts ++ us) = numberFrom n ts ++ numberFrom (n + ts.length) us := by
  induction ts generalizing n with
  | nil => rfl
  | cons t r ih =>
    rw [List.cons_append, numberFrom, ih, numberFrom, List.cons_append, List.length_cons,
      Nat.add_assoc, Nat.add_comm 1]

theorem pairwise_numberFrom (n : Nat) (ts : List Text) :
    (numberFrom n ts).Pairwise fun a b => a.1 < b.1 :=
  pairwise_of_numbers (f := Prod.fst) (map_fst_numberFrom n ts)

namespace Text

theorem not_mem_of_mem_linesOf {ps : List Text} (h : ∀ t ∈ ps, '\n' ∉ t) :
    ∀ t ∈ linesOf ps, '\n' ∉ t := by
  induction ps with
  | nil => exact h
  | cons p r ih =>
    have hr : ∀ t ∈ r, '\n' ∉ t := fun t ht => h t (List.mem_cons_of_mem p ht)
    have hp : '\n' ∉ dropReturn p := by
      unfold dropReturn
      split
      · exact fun hm => h p List.mem_cons_self ((List.dropLast_sublist p).subset hm)
      · exact h p List.mem_cons_self
    cases r with
    | nil =>
      rw [linesOf]
      split
      · exact List.forall_mem_nil _
      · exact h
    | cons q r =>
      intro t ht
      rcases List.mem_cons.1 ht with rfl | ht
      · exact hp
      · exact ih hr t ht

theorem not_mem_of_mem_lines {source t : Text} (h : t ∈ lines source) : '\n' ∉ t :=
  not_mem_of_mem_linesOf (fun _ hp => not_mem_of_mem_splitOn hp) t h

def LineAt (source : Text) (n : Nat) (line : Text) : Prop :=
  (n, line) ∈ numberFrom 1 (lines source)

theorem LineAt.bounds {source line : Text} {n : Nat} (h : source.LineAt n line) :
    1 ≤ n ∧ n ≤ (lines source).length := by
  obtain ⟨hl, ht⟩ := mem_numberFrom.1 h
  have hlen := (List.getElem?_eq_some_iff.1 ht).1
  omega

end Text

def SegmentWarning.tag : SegmentWarning → Text
  | empty tag _ => tag
  | trailing tag _ => tag

def SegmentWarning.line : SegmentWarning → Nat
  | empty _ line => line
  | trailing _ line => line

namespace Segmentation

/-- The line opens a segment of the language. -/
def Opens (e : Engine) (l : Language) (tag line : Text) : Prop :=
  parseTag line = some tag ∧ ∃ spec, e.specOfTag? tag = some spec ∧ spec.language = l

/-- A tag line and what it opens. -/
structure Chapter where
  heading : Text
  content : Open

namespace Chapter

def lines (c : Chapter) : List (Nat × Text) :=
  (c.content.tagLine, c.heading) :: numberFrom (c.content.tagLine + 1) c.content.body

def isBlank (c : Chapter) : Bool := c.content.isBlank

def push (c : Chapter) (line : Text) : Chapter := { c with content := c.content.push line }

structure Sound (e : Engine) (c : Chapter) : Prop where
  opens : Opens e c.content.language c.content.tag c.heading
  plain : ∀ t ∈ c.content.body, parseTag t = none
  feed : ∀ t ∈ c.content.body, '\n' ∉ t

theorem lines_push (c : Chapter) (line : Text) :
    (c.push line).lines =
      c.lines ++ [(c.content.tagLine + 1 + c.content.body.length, line)] := by
  simp only [lines, push, Open.push, numberFrom_append, List.cons_append]
  rfl

theorem Sound.push {e : Engine} {c : Chapter} (h : c.Sound e) {line : Text}
    (ht : parseTag line = none) (hl : '\n' ∉ line) : (c.push line).Sound e :=
  ⟨h.opens, List.forall_mem_append.2 ⟨h.plain, List.forall_mem_singleton.2 ht⟩,
    List.forall_mem_append.2 ⟨h.feed, List.forall_mem_singleton.2 hl⟩⟩

end Chapter

/-- The lines read as a preface of blank lines and then the chapters. -/
structure Reads (e : Engine) (ls preface : List (Nat × Text)) (cs : List Chapter) : Prop where
  lines : ls = preface ++ cs.flatMap Chapter.lines
  preface : ∀ x ∈ preface, parseTag x.2 = none ∧ Text.allBlank x.2 = true
  sound : ∀ c ∈ cs, c.Sound e

/-- Each chapter with code in it is a segment, in order; each other one has its warning. -/
structure Settles (cs : List Chapter) (out : Segmentation) : Prop where
  segments : out.segments =
    (cs.filter fun c => !c.isBlank).mapIdx fun i c => c.content.segment i
  warnings : out.warnings.map (fun w => (w.tag, w.line)) =
    (cs.filter Chapter.isBlank).map fun c => (c.content.tag, c.content.tagLine)

variable {e : Engine} {seen preface : List (Nat × Text)} {cs : List Chapter} {c : Chapter}
  {out : Segmentation} {n : Nat} {line : Text}

theorem Reads.append (h : Reads e seen preface cs) (hc : c.Sound e) :
    Reads e (seen ++ c.lines) preface (cs ++ [c]) := by
  refine ⟨?_, h.preface, List.forall_mem_append.2 ⟨h.sound, List.forall_mem_singleton.2 hc⟩⟩
  rw [h.lines, List.flatMap_append, List.flatMap_singleton, List.append_assoc]

theorem Reads.push (h : Reads e seen preface (cs ++ [c])) (ht : parseTag line = none)
    (hl : '\n' ∉ line) :
    Reads e (seen ++ [(c.content.tagLine + 1 + c.content.body.length, line)]) preface
      (cs ++ [c.push line]) := by
  obtain ⟨hcs, hc⟩ := List.forall_mem_append.1 h.sound
  refine ⟨?_, h.preface, List.forall_mem_append.2 ⟨hcs, List.forall_mem_singleton.2 ?_⟩⟩
  · rw [h.lines, List.flatMap_append, List.flatMap_append, List.flatMap_singleton,
      List.flatMap_singleton, c.lines_push, List.append_assoc, List.append_assoc]
  · exact (hc c List.mem_cons_self).push ht hl

theorem Reads.skip (h : Reads e seen preface []) (ht : parseTag line = none)
    (hb : Text.allBlank line = true) :
    Reads e (seen ++ [(n, line)]) (preface ++ [(n, line)]) [] := by
  refine ⟨?_, List.forall_mem_append.2 ⟨h.preface, List.forall_mem_singleton.2 ⟨ht, hb⟩⟩,
    h.sound⟩
  rw [h.lines, List.flatMap_nil, List.append_nil, List.append_nil]

theorem Settles.close (h : Settles cs out) (c : Chapter) (atEnd : Bool) :
    Settles (cs ++ [c]) (close atEnd out c.content) := by
  have hlen : out.segments.length = (cs.filter fun c => !c.isBlank).length := by
    rw [h.segments, List.length_mapIdx]
  have hwarning : ((c.content.warning atEnd).tag, (c.content.warning atEnd).line) =
      (c.content.tag, c.content.tagLine) := by
    unfold Open.warning
    split <;> rfl
  unfold Segmentation.close
  cases hb : c.content.isBlank with
  | true =>
    have hc : c.isBlank = true := hb
    refine ⟨?_, ?_⟩
    · rw [List.filter_append, List.filter_cons_of_neg (by simp [hc]), List.filter_nil,
        List.append_nil]
      exact h.segments
    · rw [List.filter_append, List.filter_cons_of_pos hc, List.filter_nil, List.map_append,
        ← h.warnings, if_pos rfl, List.map_append, List.map_singleton, hwarning]
      rfl
  | false =>
    have hc : c.isBlank = false := hb
    refine ⟨?_, ?_⟩
    · rw [List.filter_append, List.filter_cons_of_pos (by simp [hc]), List.filter_nil,
        List.mapIdx_concat, ← h.segments, ← hlen]
      rfl
    · rw [List.filter_append, List.filter_cons_of_neg (by simp [hc]), List.filter_nil,
        List.append_nil]
      exact h.warnings

theorem Settles.closeOpen (h : Settles cs out) (current : Option Chapter) (atEnd : Bool) :
    Settles (cs ++ current.toList)
      (Segmentation.closeOpen atEnd out (current.map Chapter.content)) := by
  cases current with
  | none => rwa [Option.toList_none, List.append_nil]
  | some c => exact h.close c atEnd

/-- How things stand when the line with number `n` comes: the lines seen so far read as
the closed chapters and the open one, which has all lines since its tag. -/
structure ReadSoFar (e : Engine) (seen : List (Nat × Text)) (out : Segmentation)
    (closed : List Chapter) (current : Option Chapter) (n : Nat) : Prop where
  reads : ∃ preface, Reads e seen preface (closed ++ current.toList)
  settles : Settles closed out
  next : ∀ c ∈ current, c.content.tagLine + 1 + c.content.body.length = n
  unopened : current = none → closed = []

def Collected (e : Engine) (ls : List (Nat × Text)) : Except LayoutError Segmentation → Prop
  | .ok out => ∃ preface cs, Reads e ls preface cs ∧ Settles cs out
  | .error err => err.fault = .codeOutsideSegment ∧
      ∃ pre line post, ls = pre ++ (err.line, line) :: post ∧ Text.allBlank line = false ∧
        parseTag line = none ∧ ∀ x ∈ pre, parseTag x.2 = none

theorem collected_collect {closed : List Chapter} {current : Option Chapter} {ts : List Text}
    (h : ReadSoFar e seen out closed current n) (hf : ∀ t ∈ ts, '\n' ∉ t)
    (hk : ∀ t ∈ ts, ∀ tag, parseTag t = some tag → (e.specOfTag? tag).isSome = true) :
    Collected e (seen ++ numberFrom n ts)
      (collect e out (current.map Chapter.content) (numberFrom n ts)) := by
  induction ts generalizing n seen out closed current with
  | nil =>
    obtain ⟨preface, hr⟩ := h.reads
    rw [numberFrom, List.append_nil]
    exact ⟨preface, _, hr, h.settles.closeOpen current true⟩
  | cons line r ih =>
    have hr : ∀ out' closed' current',
        ReadSoFar e (seen ++ [(n, line)]) out' closed' current' (n + 1) →
        Collected e (seen ++ (n, line) :: numberFrom (n + 1) r)
          (collect e out' (current'.map Chapter.content) (numberFrom (n + 1) r)) := by
      intro out' closed' current' h'
      rw [List.append_cons]
      exact ih h' (fun t hm => hf t (List.mem_cons_of_mem line hm))
        fun t hm => hk t (List.mem_cons_of_mem line hm)
    -- What is left is to restore the invariant behind the line, for each thing it can be.
    obtain ⟨preface, hreads⟩ := h.reads
    rw [numberFrom, collect.eq_def]
    dsimp only
    cases ht : parseTag line with
    | some tag =>
      obtain ⟨spec, hs⟩ := Option.isSome_iff_exists.1 (hk line List.mem_cons_self tag ht)
      simp only [hs, Option.map_some]
      have hc : Chapter.Sound e ⟨line, ⟨tag, spec.language, n, []⟩⟩ :=
        ⟨⟨ht, spec, hs, rfl⟩, List.forall_mem_nil _, List.forall_mem_nil _⟩
      exact hr _ _ (some ⟨line, ⟨tag, spec.language, n, []⟩⟩) ⟨⟨preface, hreads.append hc⟩,
        h.settles.closeOpen current false, by rintro _ ⟨⟩; rfl, by rintro ⟨⟩⟩
    | none =>
      cases current with
      | some c =>
        have hn := h.next c rfl
        refine hr _ _ (some (c.push line)) ⟨⟨preface, ?_⟩, h.settles, ?_, by rintro ⟨⟩⟩
        · rw [← hn]
          exact hreads.push ht (hf line List.mem_cons_self)
        · rintro _ ⟨⟩
          rw [← hn, Chapter.push, Open.push, List.length_append]
          rfl
      | none =>
        have hclosed := h.unopened rfl
        subst hclosed
        dsimp only [Option.map_none]
        split
        · next hb =>
          exact hr _ _ none ⟨⟨_, hreads.skip ht hb⟩, h.settles, by rintro _ ⟨⟩, fun _ => rfl⟩
        · next hb =>
          refine ⟨rfl, seen, line, numberFrom (n + 1) r, rfl, Bool.eq_false_iff.2 hb, ht, ?_⟩
          rw [hreads.lines, Option.toList_none, List.append_nil, List.flatMap_nil, List.append_nil]
          exact fun x hx => (hreads.preface x hx).1

variable {ls : List (Nat × Text)}

theorem mem_unknownTags {t : UnknownTag} : t ∈ unknownTags e ls ↔
    ∃ line, (t.line, line) ∈ ls ∧ parseTag line = some t.tag ∧ e.specOfTag? t.tag = none := by
  rw [unknownTags, List.mem_filterMap]
  constructor
  · rintro ⟨⟨n, line⟩, hm, hu⟩
    rw [unknownTag?] at hu
    cases ht : parseTag line with
    | none => simp only [ht] at hu; cases hu
    | some tag =>
      simp only [ht] at hu
      split at hu
      · cases hu
      · next hs =>
        cases hu
        exact ⟨line, hm, ht, Option.not_isSome_iff_eq_none.1 hs⟩
  · rintro ⟨line, hm, ht, hs⟩
    refine ⟨(t.line, line), hm, ?_⟩
    simp only [unknownTag?, ht, hs]
    rfl

theorem pairwise_unknownTags (h : ls.Pairwise fun a b => a.1 < b.1) :
    (unknownTags e ls).Pairwise fun a b => a.line < b.line := by
  have hline : ∀ x t, unknownTag? e x = some t → t.line = x.1 := by
    intro x t hu
    rw [unknownTag?] at hu
    split at hu
    · cases hu
    · split at hu
      · cases hu
      · cases hu; rfl
  refine List.Pairwise.filterMap (unknownTag? e) (fun x y hxy t ht u hu => ?_) h
  rw [hline x t ht, hline y u hu]
  exact hxy

theorem collected_of_known {source : Text}
    (h : (unknownTags e (numberFrom 1 (Text.lines source))).isEmpty = true) :
    Collected e (numberFrom 1 (Text.lines source))
      (collect e ⟨[], []⟩ none (numberFrom 1 (Text.lines source))) := by
  have hstart : ReadSoFar e [] ⟨[], []⟩ [] none 1 :=
    ⟨⟨[], rfl, List.forall_mem_nil _, List.forall_mem_nil _⟩, ⟨rfl, rfl⟩, nofun, fun _ => rfl⟩
  refine collected_collect hstart (fun _ hm => Text.not_mem_of_mem_lines hm) fun t hm tag ht => ?_
  obtain ⟨i, hi, rfl⟩ := List.getElem_of_mem hm
  have hline : (1 + i, (Text.lines source)[i]) ∈ numberFrom 1 (Text.lines source) := by
    rw [mem_numberFrom, Nat.add_sub_cancel_left]
    exact ⟨Nat.le_add_right 1 i, List.getElem?_eq_getElem hi⟩
  cases hs : e.specOfTag? tag with
  | some spec => rfl
  | none =>
    have hu : (⟨tag, 1 + i⟩ : UnknownTag) ∈ unknownTags e (numberFrom 1 (Text.lines source)) :=
      mem_unknownTags.2 ⟨_, hline, ht, hs⟩
    rw [List.isEmpty_iff.1 h] at hu
    cases hu

theorem exists_chapters {source : Text} (h : ofSource e source = .ok out) :
    ∃ preface cs, Reads e (numberFrom 1 (Text.lines source)) preface cs ∧ Settles cs out := by
  unfold ofSource ofLines at h
  split at h
  · next hk =>
    have hc := collected_of_known hk
    generalize collect e ⟨[], []⟩ none (numberFrom 1 (Text.lines source)) = o at h hc
    cases o with
    | error err => cases h
    | ok out => cases h; exact hc
  · cases h

end Segmentation
end Polyglot
