import Polyglot.Build
import Polyglot.Chronicle
import Polyglot.Segment

/-!
# What the commands show

What a command leaves on its two output streams: what guests print goes to the
standard output, notices and the log go to the error stream. An excerpt shows the
lines of a source around a line of interest, numbered, with marks under that line's
text, moved in by as many columns as the blanks before it take up bytes. A finished
build or check is shown by its segments, functions and globals, the order of
execution, and the times of stages and units.
-/
namespace Polyglot.Excerpt

def reach : Nat := 2

def first (n : Nat) : Nat := max (n - reach) 1

def last (count n : Nat) : Nat := min (n + reach) count

def width (count n : Nat) : Nat := (Text.decimal (last count n)).length

def frame (width : Nat) : Text := List.replicate (width + 1) '-' ++ "|--\n"

def row (width : Nat) (l : Nat × Text) : Text :=
  Text.padLeft width (Text.decimal l.1) ++ " | " ++ l.2 ++ ['\n']

def inset (content : Text) : Nat := Text.size content - Text.size (Text.trimStart content)

def markCount (content : Text) : Nat := max (Text.trim content).length 1

def marks (width : Nat) (content : Text) : Text :=
  Text.blanks width ++ " | " ++ Text.blanks (inset content)
    ++ List.replicate (markCount content) '^' ++ ['\n']

def rows (width n : Nat) (l : Nat × Text) : Text :=
  if l.1 = n then row width l ++ marks width l.2 else row width l

def shown (lines : List Text) (n : Nat) : List (Nat × Text) :=
  (numberFrom 1 lines).filter fun l => first n ≤ l.1 && l.1 ≤ last lines.length n

def around (lines : List Text) (n : Nat) : Text :=
  let w := width lines.length n
  frame w ++ (shown lines n).flatMap (rows w n) ++ frame w

def ofLine? (source : Text) (n : Nat) : Option Text :=
  let lines := Text.lines source
  if n = 0 ∨ lines.length < n then none else some (around lines n)

end Polyglot.Excerpt

namespace Polyglot

structure Screen where
  stdout : Text := []
  stderr : Text := []
  deriving DecidableEq

namespace Screen

def print (s : Screen) (t : Text) : Screen := { s with stdout := s.stdout ++ t }

def note (s : Screen) (t : Text) : Screen := { s with stderr := s.stderr ++ t }

def noteLine (s : Screen) (t : Text) : Screen := s.note (t ++ ['\n'])

def warningText (message : Text) : Text := "⚠️  " ++ message

def showEntry (s : Screen) : OutputEntry → Screen
  | .stdout _ t => s.print t
  | .warning m => s.noteLine (warningText m)
  | .info m => s.noteLine m

def showNotice (s : Screen) (e : OutputEntry) : Screen :=
  if e.isPrinted then s else s.showEntry e

abbrev LogView := LogLine → Text

def showLine (v : LogView) (s : Screen) (l : LogLine) : Screen := s.note (v l)

def showLog (v : LogView) (s : Screen) : Event → Screen
  | .log l => s.showLine v l
  | .output _ => s

def showEvent (v : LogView) (s : Screen) : Event → Screen
  -- Everything as it comes.
  | .log l => s.showLine v l
  | .output e => s.showEntry e

def streamed (v : LogView) (c : Chronicle) : Screen := c.foldl (showEvent v) {}

def logged (v : LogView) (c : Chronicle) : Screen := c.foldl (showLog v) {}

end Screen
end Polyglot

namespace Polyglot.Tables

def callsPhrase : Nat → Text
  | 0 => "simple"
  | 1 => "1 call"
  | n => Text.decimal n ++ " calls"

def segmentRow (s : SegmentSummary) : Text :=
  "  #" ++ Text.decimal s.ordinal ++ " [" ++ s.tag ++ "] " ++ s.language.name ++ " lines "
    ++ Text.decimal s.firstLine ++ "-" ++ Text.decimal (s.firstLine + (s.lineCount - 1)) ++ " ("
    ++ callsPhrase s.calls ++ ")\n"

def functionRow (f : FunctionDef) : Text :=
  "  " ++ f.name ++ "(" ++ Text.joinWith ", " f.params ++ ") " ++ f.language.name ++ " line "
    ++ Text.decimal f.line ++ "\n"

def functionTable (fs : List FunctionDef) : Text :=
  if fs.isEmpty then [] else "[Functions]\n" ++ fs.flatMap functionRow

def globalTable (names : List Text) : Text :=
  if names.isEmpty then [] else "[Globals]\n  " ++ Text.joinWith ", " names ++ "\n"

def check (s : Summary) : Text :=
  "[Segments]\n" ++ s.segments.flatMap segmentRow ++ functionTable s.functions
    ++ globalTable s.globals

def orderRows (n : Nat) : List Text → Text
  | [] => []
  | h :: r => Text.padLeft 3 (Text.decimal n) ++ ". " ++ h ++ "\n" ++ orderRows (n + 1) r

def order (hashes : List Text) : Text := "[Execution Order]\n" ++ orderRows 1 hashes

def threeDigits (n : Nat) : Text := (Text.decimal (1000 + n % 1000)).drop 1

def time (us : Nat) : Text :=
  let n := (millisecondsOf us).thousandths
  Text.padLeft 10 (Text.decimal (n / 1000) ++ "." ++ threeDigits n) ++ "ms\n"

def stageRow (name : Text) (us : Nat) : Text := "  " ++ Text.padRight 8 name ++ " " ++ time us

def unitRow (r : UnitRecord) : Text :=
  "  " ++ GuestUnit.shorten r.hash ++ " " ++ Text.padRight 4 r.kind.suffix ++ " "
    ++ Text.padRight 10 r.language.name ++ " line " ++ Text.padRight 4 (Text.decimal r.firstLine)
    ++ " " ++ time r.elapsed

def elapsed (units : List UnitRecord) : Nat := units.foldr (fun r us => r.elapsed + us) 0

def times (t : Timings) (units : List UnitRecord) : Text :=
  "[Stages]\n" ++ (t.entries.flatMap fun e => stageRow e.1.name e.2) ++ stageRow "total" t.total
    ++ "[Units]\n" ++ units.flatMap unitRow ++ stageRow "total" (elapsed units)

end Polyglot.Tables
