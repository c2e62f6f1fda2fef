import Polyglot.Error
import Polyglot.Token

/-!
# Segments

A source is cut at its tag lines into runs of one language. Unknown tags are all
reported before anything else; code before the first tag is an error; a tag
without code leaves a warning and no segment.
-/
namespace Polyglot

structure Segment where
  language : Language
  tag : Text
  source : Text
  ordinal : Nat
  firstLine : Nat
  deriving DecidableEq

structure Line where
  number : Nat
  text : Text
  tokens : List Token
  deriving DecidableEq

inductive SegmentWarning
  | empty (tag : Text) (line : Nat)
  | trailing (tag : Text) (line : Nat)
  deriving DecidableEq

structure Segmentation where
  segments : List Segment
  warnings : List SegmentWarning

def numberFrom (n : Nat) : List Text → List (Nat × Text)
  | [] => []
  | t :: r => (n, t) :: numberFrom (n + 1) r

namespace Segment

def numbered (s : Segment) : List (Nat × Text) :=
  numberFrom s.firstLine (Text.splitOn '\n' s.source)

def lines (s : Segment) : List Line :=
  s.numbered.map fun l => ⟨l.1, l.2, Token.tokenize s.language l.2⟩

end Segment

def SegmentWarning.message : SegmentWarning → Text
  | empty tag line => onLine line ("[" ++ tag ++ "] segment is empty and was skipped")
  | trailing tag line => onLine line ("trailing [" ++ tag ++ "] tag has no code")

namespace Segmentation

def continuesTag (c : Char) : Bool := Text.isAlphanumeric c || c == '_'

def parseTag (line : Text) : Option Text :=
  match Text.trim line with
  | '[' :: r =>
    match r.getLast? with
    | some ']' =>
      if !r.dropLast.isEmpty && r.dropLast.all continuesTag then some r.dropLast else none
    | _ => none
  | _ => none

def unknownTag? (e : Engine) (l : Nat × Text) : Option UnknownTag :=
  match parseTag l.2 with
  | none => none
  | some tag => if (e.specOfTag? tag).isSome then none else some ⟨tag, l.1⟩

def unknownTags (e : Engine) (ls : List (Nat × Text)) : List UnknownTag :=
  ls.filterMap (unknownTag? e)

/-- A segment whose closing line is not reached yet; the body is kept in order. -/
structure Open where
  tag : Text
  language : Language
  tagLine : Nat
  body : List Text

def Open.isBlank (o : Open) : Bool := o.body.all Text.allBlank

def Open.push (o : Open) (line : Text) : Open := { o with body := o.body ++ [line] }

def Open.segment (o : Open) (ordinal : Nat) : Segment where
  language := o.language
  tag := o.tag
  source := Text.unlines o.body
  ordinal := ordinal
  firstLine := o.tagLine + 1

def Open.warning (o : Open) (atEnd : Bool) : SegmentWarning :=
  if atEnd && o.body.isEmpty then .trailing o.tag o.tagLine else .empty o.tag o.tagLine

def close (atEnd : Bool) (out : Segmentation) (o : Open) : Segmentation :=
  if o.isBlank then { out with warnings := out.warnings ++ [o.warning atEnd] }
  else { out with segments := out.segments ++ [o.segment out.segments.length] }

def closeOpen (atEnd : Bool) (out : Segmentation) : Option Open → Segmentation
  | none => out
  | some o => close atEnd out o

def collect (e : Engine) (out : Segmentation) (current : Option Open) :
    List (Nat × Text) → Except LayoutError Segmentation
  | [] => .ok (closeOpen true out current)
  | (n, line) :: r =>
    match parseTag line with
    | some tag =>
      collect e (closeOpen false out current)
        ((e.specOfTag? tag).map fun s => ⟨tag, s.language, n, []⟩) r
    | none =>
      match current with
      | some o => collect e out (some (o.push line)) r
      | none =>
        if Text.allBlank line then collect e out none r
        else .error ⟨.codeOutsideSegment, n⟩

def ofLines (e : Engine) (ls : List (Nat × Text)) : Except EngineError Segmentation :=
  if (unknownTags e ls).isEmpty then
    match collect e ⟨[], []⟩ none ls with
    | .ok out => .ok out
    | .error err => .error (.layout err)
  else .error (.validation (unknownTags e ls))

def ofSource (e : Engine) (source : Text) : Except EngineError Segmentation :=
  ofLines e (numberFrom 1 (Text.lines source))

end Segmentation
end Polyglot
