import Polyglot.Proofs.Unit.Splicing

/-!
# Values exchanged for calls

A calling line is edited in place, one call after the other, with offsets that were found in
the line as it was. From the last call to the first each edit leaves the bytes before it
alone, so every offset still cuts the text where it did, and the edits come to one exchange
of all calls at once.
-/
namespace Polyglot

namespace Text
variable {t : Text} {n start stop : Nat}

/-- The text can be cut at the byte: it has so many, and no character reaches across. -/
def CutAt (t : Text) (n : Nat) : Prop := ∃ a b, t = a ++ b ∧ size a = n

theorem takeBytes_append_dropBytes (n : Nat) (t : Text) : takeBytes n t ++ dropBytes n t = t := by
  induction t generalizing n with
  | nil => cases n <;> rfl
  | cons c r ih =>
    cases n with
    | zero => rfl
    | succ n => rw [takeBytes, dropBytes, List.cons_append, ih]

theorem cutAt_iff : CutAt t n ↔ size (takeBytes n t) = n := by
  constructor
  · rintro ⟨a, b, rfl, rfl⟩
    rw [takeBytes_size]
  · exact fun h => ⟨_, _, (takeBytes_append_dropBytes n t).symm, h⟩

instance (t : Text) (n : Nat) : Decidable (CutAt t n) := decidable_of_iff _ cutAt_iff.symm

/-- The bytes from `start` to `stop` can be taken out of the text. -/
structure HasRange (t : Text) (start stop : Nat) : Prop where
  ordered : start ≤ stop
  start : CutAt t start
  stop : CutAt t stop

theorem hasRange_append (a b c : Text) : HasRange (a ++ (b ++ c)) (size a) (size (a ++ b)) where
  ordered := by rw [size_append]; exact Nat.le_add_right _ _
  start := ⟨a, b ++ c, rfl, rfl⟩
  stop := ⟨a ++ b, c, (List.append_assoc a b c).symm, rfl⟩

/-- What the text has from the byte `pos` on, with a value in place of each range. Nothing
but `t` itself is read, so that no exchange can move the place of another. -/
def exchange (t : Text) : (pos : Nat) → List (Nat × Nat × Text) → Text
  | pos, [] => dropBytes pos t
  | pos, (start, stop, value) :: r => slice t pos start ++ (value ++ exchange t stop r)

end Text

namespace Generator
open Text (size HasRange exchange)

variable {l : Language} {line : Text}

def exchanged (l : Language) (p : CallSite × Value) : Nat × Nat × Text :=
  (p.1.start, p.1.stop, p.2.render l)

section
variable {pos : Nat} {text w : Text} {ps : List (CallSite × Value)}

theorem Woven.eq_exchange (h : Woven l line pos text ps w) {whole pre : Text}
    (hw : whole = pre ++ text) (hp : size pre = pos) :
    w = exchange whole pos (ps.map (exchanged l)) := by
  induction h generalizing pre with
  | rest => rw [List.map_nil, exchange, hw, ← hp, Text.dropBytes_size]
  | @call pos c v g x r w ps h _ ih =>
    have hnext : whole = pre ++ (g ++ x) ++ r := by rw [hw]; simp only [List.append_assoc]
    have hstop : size (pre ++ (g ++ x)) = c.stop := by
      rw [Text.size_append, Text.size_append, hp, h.stop, h.start, Nat.add_assoc]
    have hgap : Text.slice whole pos c.start = g := by
      rw [h.start, ← hp, hw, Text.slice_append]
    rw [List.map_cons, exchanged, exchange, hgap, ← ih hnext hstop]

theorem Woven.hasRange (h : Woven l line pos text ps w) (pre : Text) (hp : size pre = pos)
    {i : Nat} {p : CallSite × Value} (hi : ps[i]? = some p) :
    HasRange (pre ++ text) p.1.start p.1.stop ∧
      HasRange ((ps.drop (i + 1)).foldr
        (fun p body => Text.splice body p.1.start p.1.stop (p.2.render l)) (pre ++ text))
        p.1.start p.1.stop := by
  induction h generalizing pre i with
  | rest => cases hi
  | @call pos c v g x r w ps h next ih =>
    have hstart : size (pre ++ g) = c.start := by rw [Text.size_append, hp, h.start]
    have hstop : size (pre ++ g ++ x) = c.stop := by rw [Text.size_append, hstart, h.stop]
    rw [← List.append_assoc pre, ← List.append_assoc (pre ++ g)]
    cases i with
    | succ i => exact ih _ hstop hi
    | zero =>
      cases hi
      rw [List.drop_succ_cons, List.drop_zero, next.foldr_splice _ hstop, ← hstart, ← hstop,
        List.append_assoc (pre ++ g), List.append_assoc (pre ++ g)]
      exact ⟨Text.hasRange_append (pre ++ g) x r, Text.hasRange_append (pre ++ g) x w⟩

end

theorem spliceReturns_drop (l : Language) (text : Text) (calls : List CallSite)
    (returns : List Value) (i : Nat) :
    spliceReturns l text (calls.drop i) (returns.drop i) =
      ((calls.zip returns).drop i).foldr
        (fun p body => Text.splice body p.1.start p.1.stop (p.2.render l)) text := by
  rw [spliceReturns]
  exact congrArg _ List.drop_zipWith.symm

/-- No edit of a calling line can fail: the offsets of each call cut the text at the time
they are used, when the values of the calls behind it are in place. The body that comes out
is the line with all calls exchanged for their values at once. -/
theorem splices_at_once (ctx : SegmentContext) {text : Text} {functions : FunctionTable}
    {own : List Text} {number : Nat} {calls : List CallSite}
    (hcalls : CallSite.onLine ctx.language functions own number text = .ok calls)
    (returns : List Value) (line : Nat) (bound : List Text) (g : Globals) :
    (∀ i p, (calls.zip returns)[i]? = some p → HasRange text p.1.start p.1.stop ∧
      HasRange (spliceReturns ctx.language text (calls.drop (i + 1)) (returns.drop (i + 1)))
        p.1.start p.1.stop) ∧
    (calls.Pairwise fun c d => c.stop ≤ d.start) ∧
    (continuationDraft ctx text line calls returns bound g).body =
      exchange text 0 ((calls.zip returns).map (exchanged ctx.language)) := by
  obtain ⟨w, hw⟩ := exists_woven_onLine hcalls returns
  have hbody : (continuationDraft ctx text line calls returns bound g).body = w :=
    hw.foldr_splice [] rfl
  refine ⟨fun i p hi => ?_, (CallSite.onLine_eq_ok_iff.1 hcalls).ordered, ?_⟩
  · rw [spliceReturns_drop]
    exact hw.hasRange [] rfl hi
  · have hwhole : text = [] ++ text := rfl
    rw [hbody]
    exact hw.eq_exchange hwhole rfl

/-- Characters of two bytes before, in and behind the first of two calls. -/
def accentedLine : Text := "let é = g(\"ü\") + \"ö\" + g(2)"

def accentedCalls : List CallSite := [⟨"g", ["\"ü\""], 9, 16, 4⟩, ⟨"g", ["2"], 26, 30, 4⟩]

theorem splices_at_once_accented :
    let draft := continuationDraft fluentContext accentedLine 4 accentedCalls
      [.string "ß", .number "1000"] ["é"] .empty
    CallSite.onLine .javascript fluentTable [] 4 accentedLine = .ok accentedCalls ∧
      HasRange "let é = g(\"ü\") + \"ö\" + 1000" 9 16 ∧
      draft.body = "let é = \"ß\" + \"ö\" + 1000" := by
  have hcalls : CallSite.onLine .javascript fluentTable [] 4 accentedLine = .ok accentedCalls := by
    decide +kernel
  obtain ⟨hrange, -, hbody⟩ := splices_at_once fluentContext hcalls
    [.string "ß", .number "1000"] 4 ["é"] .empty
  have hmid : spliceReturns .javascript accentedLine (accentedCalls.drop 1)
      [Value.number "1000"] = "let é = g(\"ü\") + \"ö\" + 1000" := by decide +kernel
  refine ⟨hcalls, hmid ▸ (hrange 0 _ rfl).2, hbody.trans ?_⟩
  decide +kernel

end Generator
end Polyglot
