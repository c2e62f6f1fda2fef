import Polyglot.Console.Execute
import Polyglot.Value.Record
import Polyglot.World.Machine

/-!
# The program

Reads the files below the current directory and, from the standard input, the
replies of the guests, one a line; carries the command out; then writes what
changed and shows what the command shows. No guest is started from here. A reply is a
JSON object: what the guest prints, what it says on its error stream, its result file,
and how it ends. Every field may be left out.
-/
namespace Polyglot.Reply
open Text.Utf8 (Bytes)

def natural? : Value → Option Nat
  | .number digits => if digits.all Char.isDigit then some (Nat.ofDigitChars 10 digits 0) else none
  | _ => none

def bytes? (v : Value) : Option Bytes := v.text?.map Text.Utf8.encode

def result? : Value → Option (Option Bytes)
  -- No text, as against no field, means that there is no result file.
  | .null => some none
  | .string s => some (some (Text.Utf8.encode s))
  | _ => none

def status? (ms : List (Text × Value)) : Option ExitStatus := do
  match ← Value.withDefault? none (fun v => (natural? v).map some) ms "signal" with
  | some n => return .signal n
  | none => return .code (← Value.withDefault? 0 natural? ms "code")

def ofMembers? (ms : List (Text × Value)) : Option Reply := do
  let output ← Value.withDefault? [] bytes? ms "out"
  let errors ← Value.withDefault? [] bytes? ms "err"
  let result ← Value.withDefault? ({} : Reply).result result? ms "res"
  let status ← status? ms
  return ⟨output, errors, result, status⟩

def ofText? (t : Text) : Option Reply :=
  match Value.readDocument? t with
  | some (.object ms) => ofMembers? ms
  | _ => none

def ofScript (t : Text) : List Reply := (Text.lines t).filterMap ofText?

end Polyglot.Reply

namespace Polyglot.Main

def depth : Nat := 32

def ofBytes (bytes : ByteArray) : Text.Utf8.Bytes := bytes.toList

def toBytes (bytes : Text.Utf8.Bytes) : ByteArray := ⟨bytes.toArray⟩

def readEntry (below : IO.FS.DirEntry → Location → IO (List (Location × Entry)))
    (here : Location) (e : IO.FS.DirEntry) : IO (List (Location × Entry)) := do
  let place := here ++ [e.fileName.toList]
  if ← e.path.isDir then
    return (place, .dir) :: (← below e place)
  else
    return [(place, .file (ofBytes (← IO.FS.readBinFile e.path)))]

def readBelow : Nat → IO.FS.DirEntry → Location → IO (List (Location × Entry))
  | 0, _, _ => return []
  | n + 1, dir, here => do
    return ((← (← dir.path.readDir).toList.mapM (readEntry (readBelow n) here))).flatten

def above (here : Location) : List (Location × Entry) :=
  (List.range here.length).map fun n => (here.take (n + 1), .dir)

def readFiles : IO Files := do
  let dir ← IO.currentDir
  let cwd := dir.toString.toList
  let here := Path.components cwd
  let entries ← (← dir.readDir).toList.mapM (readEntry (readBelow depth) here)
  return ⟨above here ++ entries.flatten, cwd⟩

def writeEntry (old : Files) (e : Location × Entry) : IO Unit := do
  if old.at? e.1 = some e.2 then return ()
  let path := String.ofList (Location.path e.1)
  match e.2 with
  | .dir => IO.FS.createDirAll path
  | .file content _ => IO.FS.writeBinFile path (toBytes content)

def inOrder (fs : Files) : List (Location × Entry) :=
  fs.entries.mergeSort fun a b => a.1.length ≤ b.1.length

def writeFiles (old new : Files) : IO Unit := do
  for e in old.entries do
    if (new.at? e.1).isNone then IO.FS.removeFile (String.ofList (Location.path e.1))
  for e in inOrder new do
    writeEntry old e

def programs : List Text := [Language.javascript, Language.python].map Language.interpreter

def run (args : List Text) : IO UInt32 := do
  let files ← readFiles
  let script ← (← IO.getStdin).readToEnd
  let ending := Console.execute args ⟨files, programs, Reply.ofScript script.toList, []⟩
  writeFiles files ending.machine.files
  (← IO.getStdout).putStr (String.ofList ending.screen.stdout)
  (← IO.getStderr).putStr (String.ofList ending.screen.stderr)
  return UInt32.ofNat ending.code

end Polyglot.Main

def main (args : List String) : IO UInt32 := Polyglot.Main.run (args.map String.toList)
