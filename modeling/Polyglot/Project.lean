import Polyglot.Build
import Polyglot.Value.Record

/-!
# Projects and their settings

A command is given an entry file, a manifest, or a directory with a manifest in it.
The manifest names the entry file and may set tags, interpreters and the scratch
directory; its paths start at its own directory. It and the command line change the
engine: which tags are accepted, how each is run, and where generated files go.
Settings can also be read from a JSON list of tags.
-/
namespace Polyglot

inductive SettingsError
  | unknownTag (tag : Text)
  | emptyCommand (tag : Text)
  | noSuchTag (tag : Text)
  | badScratchDir (dir cause : Text)
  | badInterpreter (argument : Text)
  deriving DecidableEq

namespace SettingsError

def message : SettingsError → Text
  | unknownTag tag => "unknown language tag " ++ quotedName tag
  | emptyCommand tag => "empty interpreter command for " ++ quotedName tag
  | noSuchTag tag => "no language tag " ++ quotedName tag ++ " to set an interpreter for"
  | badScratchDir dir cause => "invalid scratch dir " ++ quotedName dir ++ ": " ++ cause
  | badInterpreter argument => "expected TAG=PROGRAM, got " ++ quotedName argument

end SettingsError

namespace Language

def commonTags : Language → List Text
  | javascript => ["js", "javascript", "node"]
  | python => ["py", "python", "python3"]

def ofCommonTag? (tag : Text) : Option Language :=
  [javascript, python].find? fun l => l.commonTags.contains (Text.lower tag)

def ofName? (name : Text) : Option Language := [javascript, python].find? (·.name == name)

end Language

namespace Engine

def specOfCommonTag (tag : Text) : Except SettingsError TagSpec :=
  match Language.ofCommonTag? tag with
  | some l => .ok (.ofLanguage tag l)
  | none => .error (.unknownTag tag)

def setTags (e : Engine) (tags : List Text) : Except SettingsError Engine :=
  (tags.mapM specOfCommonTag).map fun specs => { e with languages := specs }

def setFirst (tag program : Text) (args : List Text) : List TagSpec → List TagSpec
  | [] => []
  | s :: r =>
    if s.answers tag then { s with interpreter := program, args := args } :: r
    else s :: setFirst tag program args r

def setInterpreter (e : Engine) (tag command : Text) : Except SettingsError Engine :=
  match Text.words command with
  | [] => .error (.emptyCommand tag)
  | program :: args =>
    if (e.specOfTag? tag).isSome then
      .ok { e with languages := setFirst tag program args e.languages }
    else .error (.noSuchTag tag)

def setInterpreters (e : Engine) : List (Text × Text) → Except SettingsError Engine
  | [] => .ok e
  | (tag, command) :: r =>
    match e.setInterpreter tag command with
    | .ok e => e.setInterpreters r
    | .error err => .error err

end Engine

structure Overrides where
  scratchDir : Option Text := none
  interpreters : List (Text × Text) := []
  showSteps : Bool := false

namespace Overrides

def splitInterpreter (argument : Text) : Except SettingsError (Text × Text) :=
  match Text.cut? '=' argument with
  | none => .error (.badInterpreter argument)
  | some (tag, command) =>
    if Text.allBlank tag || Text.allBlank command then .error (.badInterpreter argument)
    else .ok (Text.trim tag, Text.trim command)

def setScratch (cwd : Text) (e : Engine) : Option Text → Except SettingsError Engine
  | none => .ok e
  | some dir =>
    if dir.isEmpty then .error (.badScratchDir dir IoError.emptyPath.message)
    else .ok { e with scratchDir := Path.absolute cwd dir }

def apply (o : Overrides) (cwd : Text) (e : Engine) : Except SettingsError BuildSettings :=
  match setScratch cwd e o.scratchDir with
  | .error err => .error err
  | .ok e => (e.setInterpreters o.interpreters).map fun e => ⟨e, o.showSteps⟩

end Overrides

namespace TagSpec

def language? : Value → Option Language
  | .string s => Language.ofName? s
  | .object [(s, .null)] => Language.ofName? s
  | _ => none

def ofMembers? (ms : List (Text × Value)) : Option TagSpec := do
  let tag ← Value.required? Value.text? ms "tag"
  let language ← Value.required? language? ms "language"
  let interpreter ← Value.required? Value.text? ms "interpreter"
  let args ← Value.withDefault? [] Value.texts? ms "args"
  return ⟨tag, language, interpreter, args⟩

def ofItems? (tag language interpreter args : Value) : Option TagSpec :=
  ofMembers? [("tag", tag), ("language", language), ("interpreter", interpreter), ("args", args)]

def ofValue? : Value → Option TagSpec
  | .object ms => ofMembers? ms
  | .array [tag, language, interpreter] => ofItems? tag language interpreter (.array [])
  | .array [tag, language, interpreter, args] => ofItems? tag language interpreter args
  | _ => none

def fieldNames : List Text := ["tag", "language", "interpreter", "args"]

def readList? (t : Text) : Option (List TagSpec) :=
  (Value.records? fieldNames t).bind fun vs => vs.mapM ofValue?

end TagSpec

structure Manifest where
  name : Option Text
  version : Option Text
  main : Text
  languages : List Text
  interpreters : List (Text × Text)
  scratchDir : Option Text
  deriving DecidableEq

namespace Manifest

def fileName : Text := "mixconf.json"

def ofMembers? (ms : List (Text × Value)) : Option Manifest := do
  let name ← Value.withDefault? none Value.optionalText? ms "name"
  let version ← Value.withDefault? none Value.optionalText? ms "version"
  let main ← Value.required? Value.text? ms "main"
  let languages ← Value.withDefault? [] Value.texts? ms "languages"
  let interpreters ← Value.withDefault? [] Value.textMembers? ms "interpreters"
  let scratchDir ← Value.withDefault? none Value.optionalText? ms "scratchDir"
  return ⟨name, version, main, languages, interpreters, scratchDir⟩

def fieldNames : List Text := ["name", "version", "main", "languages", "interpreters", "scratchDir"]

def ofValue? : Value → Option Manifest
  | .object ms => ofMembers? ms
  | .array vs => if vs.length = fieldNames.length then ofMembers? (fieldNames.zip vs) else none
  | _ => none

def unreadable : Text := "解析失败: " ++ Value.fault

def noMain : Text := "'main' 字段不能为空"

def noManifest : Text := "当前目录不是一个 MixL 项目（未找到 mixconf.json）"

def ofText (t : Text) : Except Text Manifest :=
  match (Value.record? fieldNames t).bind ofValue? with
  | none => .error unreadable
  | some m => if Text.allBlank m.main then .error noMain else .ok m

def read (fs : Files) (path : Text) : Except LoadError Manifest :=
  match fs.readText path with
  | .error e => .error (.manifest path e.message)
  | .ok t =>
    match ofText t with
    | .ok m => .ok m
    | .error cause => .error (.manifest path cause)

def setLanguages (m : Manifest) (e : Engine) : Except SettingsError Engine :=
  if m.languages.isEmpty then .ok e else e.setTags m.languages

def setScratch (m : Manifest) (root : Text) (e : Engine) : Engine :=
  match m.scratchDir with
  | some dir => { e with scratchDir := Path.join root dir }
  | none => e

def apply (m : Manifest) (root : Text) (e : Engine) : Except SettingsError Engine :=
  match m.setLanguages e with
  | .error err => .error err
  | .ok e => (e.setInterpreters m.interpreters).map (m.setScratch root)

end Manifest

/-- `root` is the directory of the manifest, or of the entry file without one. -/
structure Project where
  entry : Text
  manifest : Option Manifest
  root : Text
  deriving DecidableEq

namespace Project

def isManifestPath (path : Text) : Bool :=
  Path.fileName? path == some Manifest.fileName || Path.extension? path == some ("json" : Text)

def ofManifest (fs : Files) (path : Text) : Except LoadError Project :=
  (Manifest.read fs path).map fun m =>
    let root := Path.baseDir (Path.absolute fs.cwd path)
    ⟨Path.join root m.main, some m, root⟩

def ofDirectory (fs : Files) (dir : Text) : Except LoadError Project :=
  let path := Path.join dir Manifest.fileName
  if fs.isFile path then ofManifest fs path else .error (.manifest path Manifest.noManifest)

def ofEntry (fs : Files) (path : Text) : Except LoadError Project :=
  if path.isEmpty then .error (.entry path IoError.emptyPath.message)
  else
    let entry := Path.absolute fs.cwd path
    .ok ⟨entry, none, Path.baseDir entry⟩

def locate (fs : Files) (path : Text) : Except LoadError Project :=
  if fs.isDir path then ofDirectory fs path
  else if isManifestPath path then ofManifest fs path
  else ofEntry fs path

def engine (p : Project) : Except LoadError Engine :=
  match p.manifest with
  | none => .ok .standard
  | some m =>
    match m.apply p.root .standard with
    | .ok e => .ok e
    | .error err => .error (.manifest (Path.join p.root Manifest.fileName) err.message)

def nameless : Text := "mixl"

def name (p : Project) : Text :=
  match p.manifest.bind (·.name) with
  | some name => name
  | none => (Path.stem? p.entry).getD nameless

def version (p : Project) : Option Text := p.manifest.bind (·.version)

end Project
end Polyglot
