import Polyglot.World.Files

/-!
# The machine a run sees

Files, and guest programs whose behaviour is a script: a list of replies, one for
each process that is launched. A process writes its output and its result file,
then ends. It is launched by the name of a program that is known, or by the path of a
file with its execute bit set; what the file says is not looked at.
-/
namespace Polyglot
open Text.Utf8 (Bytes)

inductive ExitStatus
  | code (n : Nat)
  | signal (n : Nat)
  deriving DecidableEq

namespace ExitStatus

def signalNames : List String := ["SIGHUP", "SIGINT", "SIGQUIT", "SIGILL", "SIGTRAP", "SIGABRT",
  "SIGBUS", "SIGFPE", "SIGKILL", "SIGUSR1", "SIGSEGV", "SIGUSR2", "SIGPIPE", "SIGALRM", "SIGTERM",
  "SIGSTKFLT", "SIGCHLD", "SIGCONT", "SIGSTOP", "SIGTSTP", "SIGTTIN", "SIGTTOU", "SIGURG",
  "SIGXCPU", "SIGXFSZ", "SIGVTALRM", "SIGPROF", "SIGWINCH", "SIGIO", "SIGPWR", "SIGSYS"]

def signalName (n : Nat) : Text :=
  match n with
  | 0 => []
  | n + 1 =>
    match signalNames[n]? with
    | some s => " (" ++ s.toList ++ ")"
    | none => []

def succeeded : ExitStatus → Bool
  | code n => n == 0
  | signal _ => false

def describe : ExitStatus → Text
  | code n => "exit code " ++ Text.decimal n
  | signal n => "signal: " ++ Text.decimal n ++ signalName n

end ExitStatus

/-- What one process does. Without a `result` it writes no result file. -/
structure Reply where
  output : Bytes := []
  errors : Bytes := []
  result : Option Bytes := some (Text.Utf8.encode "\x7b\x7d")
  status : ExitStatus := .code 0

structure Spawn where
  unbuffered : Text
  dir : Text
  args : List Text
  deriving DecidableEq

/-- `programs` are the ones that are found by their names. -/
structure Machine where
  files : Files
  programs : List Text
  replies : List Reply
  spawns : List Spawn

namespace Machine

/-- Why a program cannot be launched, if so. One with a separator is a path, seen from
the directory that the process runs in; a plain name is looked for in the directories
of programs. -/
def launchFault? (m : Machine) (dir program : Text) : Option IoError :=
  if m.programs.contains program then none
  else if program.contains '/' then
    match Files.entry? { m.files with cwd := dir } program with
    | .ok (.file _ true) => none
    | .ok _ => some .denied
    | .error e => some e
  else if program = ['.'] ∨ program = ['.', '.'] then some .denied
  else if Files.maxName < Text.size program then some .nameTooLong
  else some .notFound

theorem launchFault?_of_path {m : Machine} {dir program : Text}
    (hm : m.programs.contains program = false) (hp : program.contains '/' = true) :
    m.launchFault? dir program =
      match Files.entry? { m.files with cwd := dir } program with
      | .ok (.file _ true) => none
      | .ok _ => some .denied
      | .error e => some e := by
  rw [launchFault?, if_neg (ne_true_of_eq_false hm), if_pos hp]

def maxArgument : Nat := 131071

def resultOf (script : Text) : Text :=
  -- The result file stands beside the script, under its name up to the last dot.
  (script.reverse.dropWhile (· != '.')).reverse ++ ("json" : Text)

def enterDir (m : Machine) (dir : Option Text) : Except IoError Text :=
  match dir with
  | none => .ok m.files.cwd
  | some d =>
    match m.files.entry? d with
    | .error e => .error e
    | .ok (.file _ _) => .error .notDirectory
    | .ok .dir => m.files.canonical d

def writeResult (files : Files) (script : Text) : Option Bytes → Files
  | none => files
  | some content =>
    match files.write (resultOf script) content with
    | .ok files => files
    | .error _ => files

/-- The reply of the next process, or an empty one past the end of the script. -/
def nextReply (m : Machine) : Reply := m.replies.head?.getD {}

def afterLaunch (m : Machine) (dir script : Text) (args : List Text) : Machine where
  files := writeResult m.files script m.nextReply.result
  programs := m.programs
  replies := m.replies.drop 1
  spawns := m.spawns ++ [⟨"1", dir, args ++ [script]⟩]

def launch (m : Machine) (program : Text) (args : List Text) (script : Text)
    (dir : Option Text) : Except IoError (Reply × Machine) :=
  -- Launching fails without a trace, or uses up one reply.
  if (dir.toList ++ program :: args).any Files.hasNul then .error .nulInCommand
  else
    match m.enterDir dir with
    | .error e => .error e
    | .ok d =>
      match m.launchFault? d program with
      | some e => .error e
      | none =>
        if args.any (maxArgument < Text.size ·) then .error .argumentTooLong
        else .ok (m.nextReply, m.afterLaunch d script args)

end Machine
end Polyglot
