import Polyglot.Proofs.Unit.Declaring
import Polyglot.Proofs.Unit.Tracking

/-!
# Preambles read back

The declarations that stand before guest code give back to the reader of source lines
the names and the printed values they were made from. A line of them is one statement,
whatever a key or a string is made of.
-/
namespace Polyglot

namespace Token

structure Lone (ts : List Token) : Prop extends Tidy ts where
  single : ((splitTopLevel ';' ts).filter (!·.isEmpty)).length = 1

theorem lone_declare {l : Language} {n w : Text} {pos : Nat} {vs : List Token}
    (h : Fills w pos vs) (after : Nat) :
    Lone (opened l ++ (named l n ++ vs) ++ closed after l) where
  toTidy := by
    obtain ⟨ho, hn, hc⟩ := tidy_frame l n after
    exact (ho.append (hn.append h.toTidy)).append hc
  single := by
    rw [splitTopLevel_declare (h.uncut.at (.inr rfl))]
    cases l <;> simp [ended, opened, named]

end Token

namespace Binding
open Token

theorem targets_of_unequal {ts : List Token} (h : ∀ t ∈ ts, t.isPunct '=' = false) :
    targets ts = ([], ts) := by
  match ts with
  | [] => rfl
  | [_] => rfl
  | t :: e :: r =>
    have he : assigns (e :: r) = false := by
      have he := h e (by simp)
      cases r <;> simp [assigns, he]
    rw [targets, he]
    simp

theorem expression_of_fills (l : Language) {w : Text} {pos : Nat} {ts : List Token}
    (h : Fills w pos ts) : Expression l w pos ts where
  first := h.first
  last := h.last
  code := h.code
  semicolon := h.uncut.at (.inr rfl)
  comma := fun _ => h.uncut.at (.inl rfl)
  value := fun _ => by rw [targets_of_unequal h.unequal]

theorem ofTokens_declare_fills (l : Language) {n w : Text} (hn : l.validName n = true)
    (hw : Scans l w (Fills w)) (hs : Text.Solid w) (number : Nat) :
    ofTokens l (l.declare n w) number (tokenize l (l.declare n w)) = [⟨n, w, number⟩] ∧
      Lone (tokenize l (l.declare n w)) := by
  cases n with
  | nil => cases hn
  | cons c r =>
    simp only [Language.validName, Bool.and_eq_true, Bool.not_eq_true'] at hn
    obtain ⟨⟨hstart, hr⟩, hreserved⟩ := hn
    obtain ⟨vs, htokens, hv⟩ := tokenize_declare hstart hr hw
    have hx := hw.imp fun _ _ => expression_of_fills l
    refine ⟨ofTokens_declare hstart hr ?_ hx hs.trim hs.ne_nil number, ?_⟩
    · rintro rfl
      exact hreserved
    · rw [htokens]
      exact lone_declare hv _

/-- All that is read from lines numbered from `first` on. -/
def ofLines (l : Language) (first : Nat) (lines : List Text) : List Binding :=
  (numberFrom first lines).flatMap fun x => ofTokens l x.2 x.1 (tokenize l x.2)

end Binding

namespace Globals

/-- The globals that a preamble declares, in the order of the table: those that the language
can name, without the ones that a language that declares once leaves to the guest code. -/
def shown (g : Globals) (l : Language) (skip : List Text) : List (Text × Value) :=
  g.items.filter fun m => l.validName m.1 && !(l.declaresOnce && skip.contains m.1)

section
variable (g : Globals) (l : Language) (skip : List Text)

theorem map_fst_shown : (g.shown l []).map Prod.fst = g.visible l := by
  have hp : (fun m : Text × Value => l.validName m.1 && !(l.declaresOnce && [].contains m.1)) =
      l.validName ∘ Prod.fst := by
    funext m
    simp
  rw [shown, hp, visible, Catalog.names, List.filter_map]

theorem declared_eq_shown :
    g.declared l skip = (g.shown l skip).map fun m => (m.1, m.2.render l) := by
  have hp : (fun n => !(l.declaresOnce && skip.contains n) && l.validName n) ∘ Prod.fst =
      fun m : Text × Value => l.validName m.1 && !(l.declaresOnce && skip.contains m.1) := by
    funext m
    exact Bool.and_comm _ _
  rw [declared, Language.declarable, visible, Catalog.names, List.filter_filter, List.filter_map,
    List.map_map, hp]
  refine List.map_congr_left fun m hm => ?_
  have hf : g.find? m.1 = some m := Catalog.find?_of_mem g.nodup (List.mem_filter.1 hm).1
  simp [rendered, value?, hf]

theorem preamble_eq_shown : g.preamble l skip =
    Text.unlines ((g.shown l skip).map fun m => l.declare m.1 (m.2.render l)) := by
  rw [preamble_eq_declared, declared_eq_shown, Placeholder.declareLines, List.map_map]
  rfl

end

theorem solid_declare {l : Language} {n w : Text} (hn : l.validName n = true)
    (hw : Text.Solid w) : Text.Solid (l.declare n w) := by
  obtain ⟨hne, hword⟩ := Token.isWord_of_validName hn
  have hfeed : '\n' ∉ n := fun hm => absurd (hword _ hm) (by decide +kernel)
  obtain ⟨c, r, rfl⟩ := List.exists_cons_of_ne_nil hne
  cases l with
  | javascript =>
    rw [Placeholder.declare_javascript]
    refine ⟨?_, ⟨'v', _, rfl, by decide⟩, ⟨';', _, rfl, by decide⟩⟩
    simp only [List.mem_append, hfeed, hw.feed, or_false]
    decide
  | python =>
    simp only [Language.validName, Bool.and_eq_true] at hn
    have hb := (Token.beginsWord_of_startsName hn.1.1).blank
    obtain ⟨d, s, hl, he⟩ := hw.last
    rw [Placeholder.declare_python]
    refine ⟨?_, ⟨c, _, rfl, hb⟩, ⟨d, c :: r ++ " = " ++ s, by rw [hl, List.append_assoc _ s], he⟩⟩
    simp only [List.mem_append, hfeed, hw.feed, or_false]
    decide

end Globals

/-- The lines of a generated program: those of its parts that are not empty. -/
def Draft.rows (parts : List Text) : List Text :=
  (parts.filter (!·.isEmpty)).flatMap (Text.splitOn '\n')

theorem Draft.splitOn_assemble {parts : List Text} (h : ∃ p ∈ parts, p ≠ []) :
    Text.splitOn '\n' (assemble parts) = rows parts ++ [[]] := by
  have hne : parts.filter (!·.isEmpty) ≠ [] := by
    obtain ⟨p, hp, hn⟩ := h
    exact List.ne_nil_of_mem (List.mem_filter.2 ⟨hp, by simp [hn]⟩)
  rw [assemble, Text.splitOn_append_cons, Text.splitOn_unlines_flatMap hne]
  rfl

namespace Globals

section
variable {g : Globals} (hg : g.Proper) (l : Language) (skip : List Text)
include hg

theorem of_mem_shown {m : Text × Value} (hm : m ∈ g.shown l skip) :
    l.validName m.1 = true ∧ m.2.Proper := by
  obtain ⟨hm, hv⟩ := List.mem_filter.1 hm
  exact ⟨(Bool.and_eq_true_iff.1 hv).1, hg m hm⟩

theorem read_shown : ∀ m ∈ g.shown l skip, ∀ number,
    Binding.ofTokens l (l.declare m.1 (m.2.render l)) number
        (Token.tokenize l (l.declare m.1 (m.2.render l))) = [⟨m.1, m.2.render l, number⟩] ∧
      Token.Lone (Token.tokenize l (l.declare m.1 (m.2.render l))) := by
  intro m hm number
  obtain ⟨hn, hp⟩ := of_mem_shown hg l skip hm
  exact Binding.ofTokens_declare_fills l hn (Value.scans_render l hp) (Value.solid_render l hp)
    number

theorem solid_shown : ∀ w ∈ (g.shown l skip).map fun m => l.declare m.1 (m.2.render l),
    Text.Solid w := by
  refine List.forall_mem_map.2 fun m hm => ?_
  obtain ⟨hn, hp⟩ := of_mem_shown hg l skip hm
  exact solid_declare hn (Value.solid_render l hp)

theorem lines_preamble : Text.lines (g.preamble l skip) =
    (g.shown l skip).map fun m => l.declare m.1 (m.2.render l) := by
  rw [preamble_eq_shown, Text.lines_unlines (solid_shown hg l skip)]

theorem rows_preamble : Draft.rows [g.preamble l skip] = Text.lines (g.preamble l skip) := by
  have hsolid := solid_shown hg l skip
  rw [lines_preamble hg, preamble_eq_shown]
  generalize (g.shown l skip).map (fun m => l.declare m.1 (m.2.render l)) = ls at hsolid
  by_cases hn : ls = []
  · rw [hn]
    rfl
  · have hs := Text.splitOn_unlines hn fun w hw => (hsolid w hw).feed
    have hne : Text.unlines ls ≠ [] := by
      intro he
      rw [he] at hs
      exact (hsolid [] (hs ▸ List.mem_cons_self)).ne_nil rfl
    simp [Draft.rows, hne, hs]

theorem splitOn_text (d : Draft) (tracked : List Text) :
    Text.splitOn '\n'
        { d with preamble := g.preamble l skip, postamble := l.postamble tracked }.text =
      Draft.rows [d.imports] ++ Text.lines (g.preamble l skip) ++
        Draft.rows [d.carried, d.definitions, d.body, l.postamble tracked] ++ [[]] := by
  have hpost : l.postamble tracked ≠ [] := by cases l <;> exact List.cons_ne_nil _ _
  rw [Draft.text, Draft.splitOn_assemble ⟨l.postamble tracked, by simp, hpost⟩,
    ← rows_preamble hg]
  simp only [Draft.rows, ← List.flatMap_append, ← List.filter_append, List.cons_append,
    List.nil_append]

end

theorem ofLines_declare {l : Language} {ms : List (Text × Value)} (h : ∀ m ∈ ms, ∀ number,
    Binding.ofTokens l (l.declare m.1 (m.2.render l)) number
      (Token.tokenize l (l.declare m.1 (m.2.render l))) = [⟨m.1, m.2.render l, number⟩])
    (first : Nat) :
    Binding.ofLines l first (ms.map fun m => l.declare m.1 (m.2.render l)) =
      (ms.zipIdx first).map fun x => ⟨x.1.1, x.1.2.render l, x.2⟩ := by
  induction ms generalizing first with
  | nil => rfl
  | cons m r ih =>
    have hr := ih (fun x hx => h x (List.mem_cons_of_mem m hx)) (first + 1)
    rw [List.map_cons, Binding.ofLines, numberFrom, List.flatMap_cons, h m List.mem_cons_self,
      List.zipIdx_cons, List.map_cons, ← hr]
    rfl

/-- A preamble is one line for each global that is shown, and what is read from its lines are
these globals: no key or string makes a line, a statement, a comment, an open string or an
open bracket of its own, in the preamble or in the program around it. -/
theorem preamble_reads_back {g : Globals} (hg : g.Proper) (l : Language)
    (skip : List Text) :
    (g.shown l []).map Prod.fst = g.visible l ∧
      Text.lines (g.preamble l skip) =
        (g.shown l skip).map (fun m => l.declare m.1 (m.2.render l)) ∧
      (∀ first, Binding.ofLines l first (Text.lines (g.preamble l skip)) =
        ((g.shown l skip).zipIdx first).map fun x => ⟨x.1.1, x.1.2.render l, x.2⟩) ∧
      (∀ line ∈ Text.lines (g.preamble l skip), Token.Lone (Token.tokenize l line)) ∧
      ∀ (d : Draft) (tracked : List Text),
        Text.splitOn '\n'
            { d with preamble := g.preamble l skip, postamble := l.postamble tracked }.text =
          Draft.rows [d.imports] ++ Text.lines (g.preamble l skip) ++
            Draft.rows [d.carried, d.definitions, d.body, l.postamble tracked] ++ [[]] := by
  have hread := read_shown hg l skip
  have hlines := lines_preamble hg l skip
  refine ⟨g.map_fst_shown l, hlines, fun first => ?_, ?_, splitOn_text hg l skip⟩
  · rw [hlines]
    exact ofLines_declare (fun m hm number => (hread m hm number).1) first
  · rw [hlines]
    exact List.forall_mem_map.2 fun m hm => (hread m hm 0).2

/-- Quotes, comment marks, brackets and a line feed in strings and keys, and a key that is no
name. -/
def crooked : Globals where
  items := [("a", .string "\"; b = 1 // # \\"), ("b = 2; c", .null),
    ("d", .object [("\x7d\n'", .array [.number "-1.5e+3", .bool true, .string "["])])]
  nodup := by decide

theorem crooked_reads_back : crooked.Proper ∧
    Binding.ofLines .javascript 1 (Text.lines (crooked.preamble .javascript [])) =
      [⟨"a", "\"\\\"; b = 1 // # \\\\\"", 1⟩,
        ⟨"d", "\x7b\"\x7d\\n'\": [-1.5e+3, true, \"[\"]\x7d", 2⟩] := by
  have hn : Value.IsNumber "-1.5e+3" := ⟨"-1.5e+3", [], by decide⟩
  have hp : crooked.Proper := by
    refine List.forall_mem_cons.2 ⟨trivial, List.forall_mem_cons.2 ⟨trivial, ?_⟩⟩
    exact List.forall_mem_singleton.2 ⟨⟨hn, trivial, trivial, trivial⟩, trivial⟩
  refine ⟨hp, ?_⟩
  obtain ⟨-, -, hread, -⟩ := preamble_reads_back hp .javascript []
  rw [hread 1]
  decide +kernel

end Globals

end Polyglot
