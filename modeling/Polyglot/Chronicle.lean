import Polyglot.Engine
import Polyglot.Text.Printable

/-!
# Chronicle

Everything that a run lets the outside see, in the order in which it happened: log
lines, and the entries of the output, which are what the guests print and the
notices of the engine itself. A log line is a message with named fields, on a
channel, at a level; it is shown when its channel lets its level through.
-/
namespace Polyglot

inductive Level
  | error
  | warn
  | info
  | debug
  | trace
  deriving DecidableEq, Repr

namespace Level

def rank : Level → Nat
  | error => 1
  | warn => 2
  | info => 3
  | debug => 4
  | trace => 5

def all : List Level := [error, warn, info, debug, trace]

def name : Level → Text
  | error => "ERROR"
  | warn => "WARN"
  | info => "INFO"
  | debug => "DEBUG"
  | trace => "TRACE"

def number? (t : Text) : Option Nat :=
  let digits := match t with
    | '+' :: r => r
    | t => t
  if digits.isEmpty || !digits.all Char.isDigit then none
  else some (digits.foldl (fun n c => n * 10 + (c.toNat - '0'.toNat)) 0)

def parse? (t : Text) : Option Level :=
  all.find? fun l => Text.sameLetters l.name t || number? t == some l.rank

end Level

inductive Channel
  | phase (p : Phase)
  | build
  | console
  deriving DecidableEq

def Channel.target : Channel → Text
  | phase p => p.target
  | build => "mixl::api"
  | console => "mixl::cli"

structure LogLine where
  level : Level
  channel : Channel
  message : Text
  fields : List (Text × Text) := []
  deriving DecidableEq

namespace LogLine

def hexDigits (n : Nat) : Text := Nat.toDigits 16 n

def plain (c : Char) : Text :=
  if c = '\x1b' ∨ c = '\x07' ∨ c = '\x08' ∨ c = '\x0c' ∨ c = '\x7f' then
    "\\x" ++ (if c.toNat < 16 then ['0'] else []) ++ hexDigits c.toNat
  else if 0x80 ≤ c.toNat ∧ c.toNat ≤ 0x9f then "\\u\x7b" ++ hexDigits c.toNat ++ "\x7d"
  else [c]

def field (f : Text × Text) : Text := [' '] ++ f.1 ++ ['='] ++ f.2

def heading (l : LogLine) : Text := Text.padLeft 5 l.level.name ++ [' ']

def body (l : LogLine) : Text := l.message.flatMap plain ++ l.fields.flatMap field ++ ['\n']

def render (l : LogLine) : Text := l.heading ++ l.body

def stamp : Text := "1970-01-01T00:00:00.000000Z "

def filed (l : LogLine) : Text := stamp ++ l.heading ++ l.channel.target ++ ": " ++ l.body

def hasOwnForm (c : Char) : Bool := !(Text.isUnprintable c || Text.isExtender c)

/-- Within quotes every character can be read off: what has no form of its own is
written as its number. -/
def quotedChar (c : Char) : Text :=
  if c = '"' then ['\\', '"']
  else if c = '\\' then ['\\', '\\']
  else if c = '\n' then ['\\', 'n']
  else if c = '\r' then ['\\', 'r']
  else if c = '\t' then ['\\', 't']
  else if c = '\x00' then ['\\', '0']
  else if hasOwnForm c then [c]
  else "\\u\x7b" ++ hexDigits c.toNat ++ "\x7d"

def quoted (t : Text) : Text := ['"'] ++ t.flatMap quotedChar ++ ['"']

def listed (ts : List Text) : Text := ['['] ++ Text.joinWith ", " (ts.map quoted) ++ [']']

def optional : Option Text → Text
  | some t => "Some(" ++ quoted t ++ ")"
  | none => "None"

end LogLine

structure LogLevels where
  base : Level := .warn
  phases : List (Phase × Level) := []

namespace LogLevels

def ofVerbosity (n : Nat) : LogLevels :=
  match n with
  | 0 => ⟨.warn, []⟩
  | 1 => ⟨.info, []⟩
  | 2 => ⟨.debug, []⟩
  | _ => ⟨.trace, []⟩

def ofPhase (v : LogLevels) (p : Phase) : Level :=
  ((v.phases.find? (·.1 == p)).map (·.2)).getD v.base

def ofChannel (v : LogLevels) : Channel → Level
  | .phase p => v.ofPhase p
  | .build => v.base
  | .console => v.base

def shows (v : LogLevels) (l : LogLine) : Bool := l.level.rank ≤ (v.ofChannel l.channel).rank

end LogLevels

/-- What a guest printed names its unit by the digest of the unit's text. -/
inductive OutputEntry
  | stdout (unit text : Text)
  | warning (message : Text)
  | info (message : Text)
  deriving DecidableEq

namespace OutputEntry

def printed : OutputEntry → Text
  | stdout _ text => text
  | warning _ => []
  | info _ => []

def isPrinted : OutputEntry → Bool
  | stdout _ _ => true
  | warning _ => false
  | info _ => false

def allPrinted (entries : List OutputEntry) : Text := entries.flatMap printed

end OutputEntry

inductive Event
  | log (line : LogLine)
  | output (entry : OutputEntry)
  deriving DecidableEq

abbrev Chronicle := List Event

namespace Chronicle

def push (c : Chronicle) (e : OutputEntry) : Chronicle := c ++ [.output e]

def say (c : Chronicle) (l : LogLine) : Chronicle := c ++ [.log l]

def entryOf : Event → Option OutputEntry
  | .output e => some e
  | .log _ => none

def entries (c : Chronicle) : List OutputEntry := c.filterMap entryOf

def lineOf : Event → Option LogLine
  | .log l => some l
  | .output _ => none

def lines (c : Chronicle) : List LogLine := c.filterMap lineOf

def isSilent (c : Chronicle) : Bool := c.entries.isEmpty

def printed (c : Chronicle) : Text := OutputEntry.allPrinted c.entries

/-- The entries are taken out; the log stays. -/
def drained (c : Chronicle) : Chronicle := c.filter fun e => (entryOf e).isNone

theorem entries_push (c : Chronicle) (e : OutputEntry) : (c.push e).entries = c.entries ++ [e] := by
  simp [entries, push, entryOf]

theorem entries_say (c : Chronicle) (l : LogLine) : (c.say l).entries = c.entries := by
  simp [entries, say, entryOf]

theorem printed_push (c : Chronicle) (e : OutputEntry) :
    (c.push e).printed = c.printed ++ e.printed := by
  simp [printed, OutputEntry.allPrinted, entries_push]

theorem printed_say (c : Chronicle) (l : LogLine) : (c.say l).printed = c.printed := by
  simp [printed, entries_say]

end Chronicle
end Polyglot
