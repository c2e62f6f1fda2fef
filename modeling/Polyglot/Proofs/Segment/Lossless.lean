import Polyglot.Proofs.Segment.Chapter

/-!
# Segments in their source

The chapters of a source follow one another, each with its lines up to the tag line of the
next. So do the segments, counted from zero, each line with the number it has in the source.

Main statements: every line of a segment is a line of code in the segment's language, and
nothing that stands before the first tag is part of a segment. And the segments of a source
and its warnings account for its lines: the lines of a segment are those of the source under
the same numbers, its tag stands on the line before them, each tag line opens one segment or
has one warning, and each line of code belongs to one segment.
-/
namespace Polyglot

namespace Segment

def stop (s : Segment) : Nat := s.firstLine + s.lines.length

theorem length_lines (s : Segment) :
    s.lines.length = (Text.splitOn '\n' s.source).length := by
  rw [← s.texts_lines, List.length_map]

theorem firstLine_lt_stop (s : Segment) : s.firstLine < s.stop := by
  have hn := List.length_pos_iff.2 (Text.splitOn_ne_nil '\n' s.source)
  rw [← s.length_lines] at hn
  exact Nat.lt_add_of_pos_right hn

end Segment

namespace Segmentation
variable {e : Engine} {preface : List (Nat × Text)} {cs : List Chapter} {c : Chapter}
  {out : Segmentation}

namespace Chapter

theorem splitOn_source (hb : c.isBlank = false) (hc : c.Sound e) (i : Nat) :
    Text.splitOn '\n' (c.content.segment i).source = c.content.body := by
  have hne : c.content.body ≠ [] := by
    intro he
    rw [isBlank, Open.isBlank, he] at hb
    cases hb
  exact Text.splitOn_unlines hne hc.feed

theorem stop_segment (hb : c.isBlank = false) (hc : c.Sound e) (i : Nat) :
    (c.content.segment i).stop = c.content.tagLine + 1 + c.content.body.length := by
  rw [Segment.stop, Segment.length_lines, splitOn_source hb hc]
  rfl

theorem numbered_segment (hb : c.isBlank = false) (hc : c.Sound e) (i : Nat) :
    (c.content.segment i).numbered = numberFrom (c.content.tagLine + 1) c.content.body := by
  rw [Segment.numbered, splitOn_source hb hc]
  rfl

theorem numbers_lines (c : Chapter) : c.lines.map Prod.fst =
    List.range' c.content.tagLine (c.content.body.length + 1) := by
  rw [lines, List.map_cons, map_fst_numberFrom, List.range'_succ]

end Chapter

theorem Settles.exists_chapter (h : Settles cs out) {g : Segment} (hg : g ∈ out.segments) :
    ∃ c ∈ cs, c.isBlank = false ∧ ∃ i, g = c.content.segment i := by
  rw [h.segments, List.mem_mapIdx] at hg
  obtain ⟨i, hi, rfl⟩ := hg
  obtain ⟨hc, hb⟩ := List.mem_filter.1 (List.getElem_mem hi)
  rw [Bool.not_eq_true'] at hb
  exact ⟨_, hc, hb, i, rfl⟩

theorem Reads.pairwise_lines {source : Text}
    (h : Reads e (numberFrom 1 (Text.lines source)) preface cs) :
    cs.Pairwise fun c d => ∀ x ∈ c.lines, ∀ y ∈ d.lines, x.1 < y.1 := by
  have hp := pairwise_numberFrom 1 (Text.lines source)
  rw [h.lines, List.pairwise_append, List.pairwise_flatMap] at hp
  exact hp.2.1.2

theorem Reads.pairwise {source : Text}
    (h : Reads e (numberFrom 1 (Text.lines source)) preface cs) :
    cs.Pairwise fun c d => c.content.tagLine + c.content.body.length < d.content.tagLine := by
  refine h.pairwise_lines.imp fun {c d} hcd => ?_
  have hlast : c.content.tagLine + c.content.body.length ∈ c.lines.map Prod.fst := by
    rw [c.numbers_lines, List.mem_range'_1]
    omega
  obtain ⟨x, hx, hn⟩ := List.mem_map.1 hlast
  rw [← hn]
  exact hcd x hx _ List.mem_cons_self

def Counted (out : Segmentation) : Prop :=
  out.segments.map (·.ordinal) = List.range out.segments.length

theorem Settles.counted (h : Settles cs out) : out.Counted := by
  unfold Counted
  rw [h.segments]
  refine List.ext_getElem (by simp) fun i _ _ => ?_
  simp only [List.getElem_map, List.getElem_mapIdx, List.getElem_range]
  rfl

theorem counted_of_ofSource {source : Text} (h : ofSource e source = .ok out) : out.Counted := by
  obtain ⟨_, _, -, hs⟩ := exists_chapters h
  exact hs.counted

theorem ordered_of_ofSource {source : Text} {s : Segmentation} (h : ofSource e source = .ok s) :
    s.segments.Pairwise fun a b => a.stop ≤ b.firstLine := by
  obtain ⟨preface, cs, hr, hs⟩ := exists_chapters h
  have hp := List.pairwise_iff_getElem.1 (hr.pairwise.filter fun c => !c.isBlank)
  rw [hs.segments, List.pairwise_iff_getElem]
  intro i j hi hj hij
  rw [List.length_mapIdx] at hi hj
  obtain ⟨hc, hb⟩ := List.mem_filter.1 (List.getElem_mem hi)
  rw [Bool.not_eq_true'] at hb
  rw [List.getElem_mapIdx, List.getElem_mapIdx, Chapter.stop_segment hb (hr.sound _ hc)]
  have hlt := hp i j hi hj hij
  exact Nat.le_trans (by omega) (Nat.le_succ_of_le hlt)

end Segmentation

namespace Segmentation

def CodeAt (e : Engine) (source : Text) (l : Language) (n : Nat) (line : Text) : Prop :=
  source.LineAt n line ∧ ∃ m tag tagLine, m < n ∧ source.LineAt m tagLine ∧
    Opens e l tag tagLine ∧ ∀ k x, m < k → k ≤ n → source.LineAt k x → parseTag x = none

def Stretch (e : Engine) (ls : List (Nat × Text)) (l : Language) (tag : Text) (m : Nat)
    (body : List (Nat × Text)) : Prop :=
  ∃ pre tagLine post, ls = pre ++ (m, tagLine) :: (body ++ post) ∧ Opens e l tag tagLine ∧
    ∀ x ∈ body, parseTag x.2 = none

variable {e : Engine} {ls preface : List (Nat × Text)} {cs : List Chapter} {c : Chapter}
  {l : Language} {tag : Text} {m : Nat} {body : List (Nat × Text)}

theorem Stretch.codeAt {source : Text}
    (h : Stretch e (numberFrom 1 (Text.lines source)) l tag m body) {x : Nat × Text}
    (hx : x ∈ body) : CodeAt e source l x.1 x.2 := by
  obtain ⟨pre, tagLine, post, hs, ho, hb⟩ := h
  have hp := pairwise_numberFrom 1 (Text.lines source)
  rw [hs, List.pairwise_append, List.pairwise_cons, List.pairwise_append] at hp
  obtain ⟨-, ⟨hm, -, -, hpost⟩, hpre⟩ := hp
  have hat : ∀ y ∈ (m, tagLine) :: (body ++ post), source.LineAt y.1 y.2 := by
    intro y hy
    rw [Text.LineAt, hs]
    exact List.mem_append_right _ hy
  refine ⟨hat x (List.mem_cons_of_mem _ (List.mem_append_left _ hx)), m, tag, tagLine,
    hm x (List.mem_append_left _ hx), hat _ List.mem_cons_self, ho, fun k y hmk hkx hy => ?_⟩
  -- A line that comes after the tag line and not after `x` is one of the stretch.
  rw [Text.LineAt, hs, List.mem_append, List.mem_cons, List.mem_append] at hy
  rcases hy with hy | hy | hy | hy
  · exact absurd (hpre _ hy _ List.mem_cons_self) (Nat.lt_asymm hmk)
  · cases hy
    exact absurd hmk (Nat.lt_irrefl m)
  · exact hb _ hy
  · exact absurd (hpost x hx _ hy) (Nat.not_lt.2 hkx)

theorem Reads.stretch (h : Reads e ls preface cs) (hc : c ∈ cs) :
    Stretch e ls c.content.language c.content.tag c.content.tagLine
      (numberFrom (c.content.tagLine + 1) c.content.body) := by
  have hsound := h.sound c hc
  obtain ⟨before, after, rfl⟩ := List.append_of_mem hc
  refine ⟨preface ++ before.flatMap Chapter.lines, c.heading, after.flatMap Chapter.lines, ?_,
    hsound.opens, fun x hx => ?_⟩
  · rw [h.lines, List.flatMap_append, List.flatMap_cons, List.append_assoc]
    rfl
  · have ht := List.mem_map_of_mem (f := Prod.snd) hx
    rw [map_snd_numberFrom] at ht
    exact hsound.plain _ ht

theorem stretch_of_ofSource {source : Text} {s : Segmentation} (h : ofSource e source = .ok s) :
    ∀ g ∈ s.segments, ∃ m, g.firstLine = m + 1 ∧
      Stretch e (numberFrom 1 (Text.lines source)) g.language g.tag m g.numbered := by
  obtain ⟨preface, cs, hr, hs⟩ := exists_chapters h
  intro g hg
  obtain ⟨c, hc, hb, i, rfl⟩ := hs.exists_chapter hg
  refine ⟨c.content.tagLine, rfl, ?_⟩
  rw [Chapter.numbered_segment hb (hr.sound c hc)]
  exact hr.stretch hc

theorem codeAt_of_mem {source : Text} {s : Segmentation} (h : ofSource e source = .ok s)
    {g : Segment} (hg : g ∈ s.segments) {x : Line} (hx : x ∈ g.lines) :
    CodeAt e source g.language x.number x.text := by
  obtain ⟨m, -, hs⟩ := stretch_of_ofSource h g hg
  obtain ⟨y, hy, rfl⟩ := List.mem_map.1 hx
  exact hs.codeAt hy

end Segmentation

theorem countP_eq_one {α : Type} {xs : List α} {p : α → Bool} {x : α}
    (h : xs.Pairwise fun a b => ¬ (p a = true ∧ p b = true)) (hx : x ∈ xs) (hp : p x = true) :
    xs.countP p = 1 := by
  induction xs with
  | nil => cases hx
  | cons y r ih =>
    rw [List.pairwise_cons] at h
    by_cases hy : p y = true
    · have hr : r.countP p = 0 := List.countP_eq_zero.2 fun z hz hpz => h.1 z hz ⟨hy, hpz⟩
      rw [List.countP_cons_of_pos hy, hr]
    · rcases List.mem_cons.1 hx with rfl | hx
      · exact absurd hp hy
      · rw [List.countP_cons_of_neg hy]
        exact ih h.2 hx

theorem countP_mapIdx {α β : Type} {xs : List α} {f : Nat → α → β} {p : β → Bool} {q : α → Bool}
    (h : ∀ x ∈ xs, ∀ i, p (f i x) = q x) : (xs.mapIdx f).countP p = xs.countP q := by
  induction xs generalizing f with
  | nil => rfl
  | cons x r ih =>
    rw [List.mapIdx_cons, List.countP_cons, List.countP_cons, h x List.mem_cons_self 0,
      ih fun y hy i => h y (List.mem_cons_of_mem x hy) (i + 1)]

namespace Segmentation

/-- The segments and the warnings account for the lines of the source. -/
structure Lossless (e : Engine) (source : Text) (out : Segmentation) : Prop where
  counted : out.Counted
  ordered : out.segments.Pairwise fun a b => a.stop ≤ b.firstLine
  lines : ∀ g ∈ out.segments, ∀ x ∈ g.numbered, source.LineAt x.1 x.2
  tagged : ∀ g ∈ out.segments, ∃ m line, g.firstLine = m + 1 ∧ source.LineAt m line ∧
    Opens e g.language g.tag line
  warned : ∀ w ∈ out.warnings, ∃ line, source.LineAt w.line line ∧ parseTag line = some w.tag
  tags : ∀ m line tag, source.LineAt m line → parseTag line = some tag →
    out.segments.countP (fun g => g.tag == tag && g.firstLine == m + 1) +
      out.warnings.countP (fun w => w.tag == tag && w.line == m) = 1
  code : ∀ n line, source.LineAt n line → parseTag line = none → Text.allBlank line = false →
    out.segments.countP (fun g => decide ((n, line) ∈ g.numbered)) = 1

variable {e : Engine} {source line tag : Text} {out : Segmentation} {cs : List Chapter}
  {preface : List (Nat × Text)} {n m : Nat} {c : Chapter}

theorem Settles.countP_segments (h : Settles cs out) {p : Segment → Bool} {q : Chapter → Bool}
    (hq : ∀ c ∈ cs, c.isBlank = false → ∀ i, p (c.content.segment i) = q c) :
    out.segments.countP p = (cs.filter fun c => !c.isBlank).countP q := by
  rw [h.segments]
  refine countP_mapIdx fun c hc i => ?_
  obtain ⟨hc, hb⟩ := List.mem_filter.1 hc
  rw [Bool.not_eq_true'] at hb
  exact hq c hc hb i

theorem Settles.countP_warnings (h : Settles cs out) (q : Text × Nat → Bool) :
    out.warnings.countP (fun w => q (w.tag, w.line)) =
      (cs.filter Chapter.isBlank).countP fun c => q (c.content.tag, c.content.tagLine) := by
  have hw : out.warnings.countP (fun w => q (w.tag, w.line)) =
      (out.warnings.map fun w => (w.tag, w.line)).countP q := List.countP_map.symm
  rw [hw, h.warnings, List.countP_map]
  rfl

theorem Settles.exists_chapter_of_warning (h : Settles cs out) {w : SegmentWarning}
    (hw : w ∈ out.warnings) : ∃ c ∈ cs, c.content.tag = w.tag ∧ c.content.tagLine = w.line := by
  have hm := List.mem_map_of_mem (f := fun w : SegmentWarning => (w.tag, w.line)) hw
  rw [h.warnings] at hm
  obtain ⟨c, hc, he⟩ := List.mem_map.1 hm
  exact ⟨c, (List.mem_filter.1 hc).1, (Prod.mk.inj he).1, (Prod.mk.inj he).2⟩

theorem Reads.lineAt (h : Reads e (numberFrom 1 (Text.lines source)) preface cs) (hc : c ∈ cs)
    {x : Nat × Text} (hx : x ∈ c.lines) : source.LineAt x.1 x.2 := by
  rw [Text.LineAt, h.lines]
  exact List.mem_append_right _ (List.mem_flatMap.2 ⟨c, hc, hx⟩)

theorem Reads.lineAt_heading (h : Reads e (numberFrom 1 (Text.lines source)) preface cs)
    (hc : c ∈ cs) : source.LineAt c.content.tagLine c.heading :=
  h.lineAt hc List.mem_cons_self

theorem Reads.exists_of_tag (h : Reads e (numberFrom 1 (Text.lines source)) preface cs)
    (hl : source.LineAt m line) (ht : parseTag line = some tag) :
    ∃ c ∈ cs, c.content.tagLine = m ∧ c.content.tag = tag := by
  rw [Text.LineAt, h.lines] at hl
  rcases List.mem_append.1 hl with hl | hl
  · rw [(h.preface _ hl).1] at ht
    cases ht
  · obtain ⟨c, hc, hl⟩ := List.mem_flatMap.1 hl
    have hsound := h.sound c hc
    rcases List.mem_cons.1 hl with hl | hl
    · cases hl
      exact ⟨c, hc, rfl, Option.some.inj (hsound.opens.1.symm.trans ht)⟩
    · have hb := List.mem_map_of_mem (f := Prod.snd) hl
      rw [map_snd_numberFrom] at hb
      rw [hsound.plain line hb] at ht
      cases ht

theorem Reads.exists_of_code (h : Reads e (numberFrom 1 (Text.lines source)) preface cs)
    (hl : source.LineAt n line) (ht : parseTag line = none)
    (hb : Text.allBlank line = false) :
    ∃ c ∈ cs, c.isBlank = false ∧
      (n, line) ∈ numberFrom (c.content.tagLine + 1) c.content.body := by
  rw [Text.LineAt, h.lines] at hl
  rcases List.mem_append.1 hl with hl | hl
  · rw [(h.preface _ hl).2] at hb
    cases hb
  · obtain ⟨c, hc, hl⟩ := List.mem_flatMap.1 hl
    rcases List.mem_cons.1 hl with hx | hl
    · cases hx
      rw [(h.sound c hc).opens.1] at ht
      cases ht
    · refine ⟨c, hc, Bool.eq_false_iff.2 fun hblank => ?_, hl⟩
      have hm := List.mem_map_of_mem (f := Prod.snd) hl
      rw [map_snd_numberFrom] at hm
      rw [List.all_eq_true.1 hblank line hm] at hb
      cases hb

theorem Reads.countP_tag (h : Reads e (numberFrom 1 (Text.lines source)) preface cs)
    (hl : source.LineAt m line) (ht : parseTag line = some tag) :
    cs.countP (fun c => c.content.tag == tag && c.content.tagLine == m) = 1 := by
  obtain ⟨c, hc, hm, htag⟩ := h.exists_of_tag hl ht
  refine countP_eq_one (h.pairwise.imp fun {c d} hcd => ?_) hc (by simp [hm, htag])
  rintro ⟨ha, hb⟩
  simp only [Bool.and_eq_true, beq_iff_eq] at ha hb
  omega

theorem Reads.countP_code (h : Reads e (numberFrom 1 (Text.lines source)) preface cs)
    (hl : source.LineAt n line) (ht : parseTag line = none) (hb : Text.allBlank line = false) :
    (cs.filter fun c => !c.isBlank).countP (fun c =>
      decide ((n, line) ∈ numberFrom (c.content.tagLine + 1) c.content.body)) = 1 := by
  obtain ⟨c, hc, hblank, hm⟩ := h.exists_of_code hl ht hb
  have hp := h.pairwise_lines.filter fun c => !c.isBlank
  refine countP_eq_one (hp.imp fun {c d} hcd => ?_)
    (List.mem_filter.2 ⟨hc, by rw [hblank]; rfl⟩) (decide_eq_true hm)
  rintro ⟨ha, hb⟩
  exact Nat.lt_irrefl n (hcd _ (List.mem_cons_of_mem _ (of_decide_eq_true ha)) _
    (List.mem_cons_of_mem _ (of_decide_eq_true hb)))

/-- Cutting a source up into segments loses none of its lines and repeats none. -/
theorem lossless_of_ofSource (h : ofSource e source = .ok out) : Lossless e source out := by
  obtain ⟨preface, cs, hr, hs⟩ := exists_chapters h
  have hnumbered : ∀ c ∈ cs, c.isBlank = false → ∀ i,
      (c.content.segment i).numbered = numberFrom (c.content.tagLine + 1) c.content.body :=
    fun c hc hb i => Chapter.numbered_segment hb (hr.sound c hc) i
  refine ⟨hs.counted, ordered_of_ofSource h, fun g hg x hx => ?_, fun g hg => ?_, fun w hw => ?_,
    fun m line tag hl ht => ?_, fun n line hl ht hb => ?_⟩
  · obtain ⟨c, hc, hb, i, rfl⟩ := hs.exists_chapter hg
    rw [hnumbered c hc hb] at hx
    exact hr.lineAt hc (List.mem_cons_of_mem _ hx)
  · obtain ⟨c, hc, -, i, rfl⟩ := hs.exists_chapter hg
    exact ⟨c.content.tagLine, c.heading, rfl, hr.lineAt_heading hc, (hr.sound c hc).opens⟩
  · obtain ⟨c, hc, htag, hline⟩ := hs.exists_chapter_of_warning hw
    rw [← htag, ← hline]
    exact ⟨c.heading, hr.lineAt_heading hc, (hr.sound c hc).opens.1⟩
  · have hsegments := hs.countP_segments
      (p := fun g => g.tag == tag && g.firstLine == m + 1)
      (q := fun c => c.content.tag == tag && c.content.tagLine == m)
      fun c _ _ i => by simp [Open.segment]
    rw [hsegments, hs.countP_warnings fun x => x.1 == tag && x.2 == m, Nat.add_comm,
      ← List.countP_eq_countP_filter_add]
    exact hr.countP_tag hl ht
  · rw [hs.countP_segments fun c hc hb' i => by rw [hnumbered c hc hb' i]]
    exact hr.countP_code hl ht hb

/-- Tags with nothing behind them, one of them at the end, and returns before the feeds. -/
def gappedSource : Text := "\r\n[py]\r\n \r\n[js]\r\nlet x = 1\r\n\r\nx\n[py]"

theorem lossless_gappedSource :
    ∃ out, ofSource .standard gappedSource = .ok out ∧
      out.segments = [⟨.javascript, "js", "let x = 1\n\nx", 0, 5⟩] ∧
      out.warnings = [.empty "py" 2, .trailing "py" 8] ∧
      Lossless .standard gappedSource out := by
  have hv : (ofSource .standard gappedSource).toOption.map (fun o => (o.segments, o.warnings)) =
      some ([⟨.javascript, "js", "let x = 1\n\nx", 0, 5⟩],
        [.empty "py" 2, .trailing "py" 8]) := by decide +kernel
  cases hc : ofSource .standard gappedSource with
  | error err => rw [hc] at hv; cases hv
  | ok out =>
    rw [hc] at hv
    obtain ⟨hsegments, hwarnings⟩ := Prod.mk.inj (Option.some.inj hv)
    exact ⟨out, rfl, hsegments, hwarnings, lossless_of_ofSource hc⟩

end Segmentation
end Polyglot
