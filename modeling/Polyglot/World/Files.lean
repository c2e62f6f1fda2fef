import Polyglot.Text.Basic

/-!
# Paths and files

Paths are texts. Repeated separators and inner components that stand for the same
directory count for nothing when a path is taken apart, and stay as written when
paths are put together.

Files are a tree of directories and files, listed by location. A path is walked
component by component from the root or from the working directory; every step needs
a directory to start from. No name is longer than `maxName` bytes, no path as long as
`maxPath`, and none holds a NUL.
-/
namespace Polyglot.Path

def isAbsolute (p : Text) : Bool := p.head? == some '/'

def isFiller (piece : Text) : Bool := piece == [] || piece == ['.']

def lead (p : Text) : Text :=
  match p with
  | '/' :: _ => ['/']
  | ['.'] => ['.']
  | '.' :: '/' :: _ => ['.']
  | _ => []

def dropFillers (pieces : List Text) : List Text := (pieces.reverse.dropWhile isFiller).reverse

def pieces (p : Text) : List Text := dropFillers (Text.splitOn '/' (p.drop (lead p).length))

def components (p : Text) : List Text := (pieces p).filter (!isFiller ·)

def parent? (p : Text) : Option Text :=
  match pieces p with
  | [] => if lead p = ['.'] then some [] else none
  | q :: qs => some (lead p ++ Text.joinWith ['/'] (dropFillers (q :: qs).dropLast))

def join (base p : Text) : Text :=
  if isAbsolute p then p
  else if base = [] ∨ base.getLast? = some '/' then base ++ p
  else base ++ ['/'] ++ p

def fileName? (p : Text) : Option Text :=
  match (pieces p).getLast? with
  | some name => if name = ['.', '.'] then none else some name
  | none => none

/-- A name's part before its last dot and the part after it; a dot at the very
beginning does not count. -/
def splitName (name : Text) : Text × Option Text :=
  let after := (name.reverse.takeWhile (· != '.')).reverse
  let before := (name.take (name.length - after.length)).dropLast
  if before = [] then (name, none) else (before, some after)

def stem? (p : Text) : Option Text := (fileName? p).map fun name => (splitName name).1

def extension? (p : Text) : Option Text := (fileName? p).bind fun name => (splitName name).2

/-- The path from the root, seen from `cwd`. Steps to a parent stay, and so does a
separator at the end. -/
def absolute (cwd p : Text) : Text :=
  let start := if isAbsolute p then
      (if ['/', '/'].isPrefixOf p && !(['/', '/', '/'].isPrefixOf p) then ['/', '/'] else ['/'])
    else cwd
  let whole := (components p).foldl join start
  if p.getLast? = some '/' then join whole [] else whole

/-- The path and the directories above it, innermost first. At most as many as the
path has characters. -/
def ancestors (p : Text) : List Text := go p.length p
where
  go : Nat → Text → List Text
    | 0, p => [p]
    | n + 1, p =>
      match parent? p with
      | some q => p :: go n q
      | none => [p]

def baseDir (entry : Text) : Text :=
  match parent? entry with
  | some p => if p = [] then ['.'] else p
  | none => ['.']

end Polyglot.Path

namespace Polyglot
open Text.Utf8 (Bytes)

inductive IoError
  | notFound
  | denied
  | alreadyExists
  | notDirectory
  | isDirectory
  | nameTooLong
  | argumentTooLong
  | notUtf8
  | emptyPath
  | nulInPath
  | nulInCommand
  deriving DecidableEq, Repr

def IoError.message : IoError → Text
  | notFound => "No such file or directory (os error 2)"
  | denied => "Permission denied (os error 13)"
  | alreadyExists => "File exists (os error 17)"
  | notDirectory => "Not a directory (os error 20)"
  | isDirectory => "Is a directory (os error 21)"
  | nameTooLong => "File name too long (os error 36)"
  | argumentTooLong => "Argument list too long (os error 7)"
  | notUtf8 => "stream did not contain valid UTF-8"
  | emptyPath => "cannot make an empty path absolute"
  | nulInPath => "file name contained an unexpected NUL byte"
  | nulInCommand => "nul byte found in provided data"

abbrev Location := List Text

inductive Entry
  | dir
  | file (content : Bytes) (executable : Bool := false)
  deriving DecidableEq

structure Files where
  entries : List (Location × Entry)
  cwd : Text

namespace Location

def path (at_ : Location) : Text := '/' :: Text.joinWith ['/'] at_

end Location

namespace Files

def at? (fs : Files) (here : Location) : Option Entry :=
  if here = [] then some .dir else (fs.entries.find? (·.1 == here)).map (·.2)

def maxName : Nat := 255

def maxPath : Nat := 4096

def hasNul (t : Text) : Bool := t.contains '\x00'

def walk (fs : Files) : Location → List Text → Except IoError Location
  | here, [] => .ok here
  | here, c :: r =>
    match fs.at? here with
    | none => .error .notFound
    | some (.file _ _) => .error .notDirectory
    | some .dir =>
      if Path.isFiller c then fs.walk here r
      else if c = ['.', '.'] then fs.walk here.dropLast r
      else if maxName < Text.size c then .error .nameTooLong
      else fs.walk (here ++ [c]) r

def pathFault? (p : Text) : Option IoError :=
  if hasNul p then some .nulInPath
  else if p = [] then some .notFound
  else if maxPath ≤ Text.size p then some .nameTooLong
  else none

/-- Where the components of `p` lead; the last one may lead to nothing. -/
def follow (fs : Files) (p : Text) : Except IoError Location :=
  fs.walk (if Path.isAbsolute p then [] else Path.components fs.cwd) (Text.splitOn '/' p)

def locate (fs : Files) (p : Text) : Except IoError Location :=
  match pathFault? p with
  | some e => .error e
  | none => fs.follow p

def entry? (fs : Files) (p : Text) : Except IoError Entry :=
  match fs.locate p with
  | .error e => .error e
  | .ok here =>
    match fs.at? here with
    | none => .error .notFound
    | some e => .ok e

def isDir (fs : Files) (p : Text) : Bool :=
  match fs.entry? p with
  | .ok .dir => true
  | _ => false

def isFile (fs : Files) (p : Text) : Bool :=
  match fs.entry? p with
  | .ok (.file _ _) => true
  | _ => false

def isPresent (fs : Files) (p : Text) : Bool := (fs.entry? p).toBool

def read (fs : Files) (p : Text) : Except IoError Bytes :=
  match fs.entry? p with
  | .ok (.file content _) => .ok content
  | .ok .dir => .error .isDirectory
  | .error e => .error e

def readText (fs : Files) (p : Text) : Except IoError Text :=
  match fs.read p with
  | .error e => .error e
  | .ok content =>
    match Text.Utf8.decode? content with
    | some t => .ok t
    | none => .error .notUtf8

def set (fs : Files) (here : Location) (e : Entry) : Files :=
  { fs with entries := (here, e) :: fs.entries.filter (·.1 != here) }

def trimSeparators (p : Text) : Text :=
  match (p.reverse.dropWhile (· == '/')).reverse with
  | [] => p
  | q => q

def beforeLast (p : Text) : Text := ((trimSeparators p).reverse.dropWhile (· != '/')).reverse

/-- Where a file to be written lies. A path that ends in a separator names no file,
whatever its last component is; the directories before that are walked first. -/
def target (fs : Files) (p : Text) : Except IoError Location :=
  match pathFault? p with
  | some e => .error e
  | none =>
    if p.getLast? = some '/' then (fs.follow (beforeLast p)).bind fun _ => .error .isDirectory
    else
      match fs.follow p with
      | .error e => .error e
      | .ok here => if fs.at? here = some .dir then .error .isDirectory else .ok here

def isExecutable (fs : Files) (here : Location) : Bool :=
  match fs.at? here with
  | some (.file _ executable) => executable
  | some .dir => false
  | none => false

def put (fs : Files) (here : Location) (content : Bytes) : Files :=
  -- A file that is there keeps its execute bit; a new one has none.
  fs.set here (.file content (fs.isExecutable here))

def write (fs : Files) (p : Text) (content : Bytes) : Except IoError Files :=
  (fs.target p).map fun here => fs.put here content

def content (fs : Files) (here : Location) : Bytes :=
  match fs.at? here with
  | some (.file content _) => content
  | some .dir => []
  | none => []

def append (fs : Files) (p : Text) (more : Bytes) : Except IoError Files :=
  -- Appending makes a file where there is none.
  (fs.target p).map fun here => fs.put here (fs.content here ++ more)

def remove (fs : Files) (p : Text) : Except IoError Files :=
  match fs.locate p with
  | .error e => .error e
  | .ok here =>
    match fs.at? here with
    | none => .error .notFound
    | some .dir => .error .isDirectory
    | some (.file _ _) => .ok { fs with entries := fs.entries.filter (·.1 != here) }

def place (fs : Files) (p : Text) : Except IoError Location :=
  -- A separator at the end makes no difference to the name of a directory.
  match pathFault? p with
  | some e => .error e
  | none => fs.follow (trimSeparators p)

def makeDir (fs : Files) (p : Text) : Except IoError Files :=
  match fs.place p with
  | .error e => .error e
  | .ok here =>
    match fs.at? here with
    | some _ => .error .alreadyExists
    | none => .ok (fs.set here .dir)

def makeAll (fs : Files) : List Text → Except IoError Files
  | [] => .ok fs
  | p :: above =>
    match fs.makeDir p with
    | .ok fs => .ok fs
    | .error .notFound =>
      if above = [] ∨ p = [] then .error .notFound
      else
        match fs.makeAll above with
        | .error e => .error e
        | .ok made =>
          match made.makeDir p with
          | .ok made => .ok made
          | .error e => if made.isDir p then .ok made else .error e
    | .error e => if fs.isDir p then .ok fs else .error e

def makeDirs (fs : Files) (p : Text) : Except IoError Files :=
  if p = [] then .ok fs else fs.makeAll (Path.ancestors p)

def canonical (fs : Files) (p : Text) : Except IoError Text :=
  match fs.locate p with
  | .error e => .error e
  | .ok here => if (fs.at? here).isSome then .ok (Location.path here) else .error .notFound

def paths (fs : Files) : List Text :=
  fs.entries.filterMap fun e =>
    match e.2 with
    | .dir => none
    | .file _ _ => some (Location.path e.1)

end Files
end Polyglot
