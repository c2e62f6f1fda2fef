import Polyglot.Text.Basic
import Polyglot.Text.Classes

/-!
# Guest languages and engine settings

What the engine knows about the two languages a source may mix: their marks and
words, and which names they can declare. And how it is set up: which tags a source
may use, how each is run, and where generated programs go.
-/
namespace Polyglot

inductive Language
  | javascript
  | python
  deriving DecidableEq, Repr

namespace Language

def name : Language → Text
  | javascript => "javascript"
  | python => "python"

def tag : Language → Text
  | javascript => "js"
  | python => "py"

def extension (l : Language) : Text := l.tag

def interpreter : Language → Text
  | javascript => "node"
  | python => "python3"

def commentMark : Language → Text
  | javascript => "//"
  | python => "#"

def quotes : Language → List Char
  | javascript => ['"', '\'', '`']
  | python => ['"', '\'']

def stringMarks : Language → List Text
  -- Words that, right before a quote, belong to the string; compared in lower case.
  | javascript => []
  | python => ["r", "b", "f", "u", "rb", "br", "fr", "rf"]

def functionWord : Language → Text
  | javascript => "function"
  | python => "def"

def declaresOnce : Language → Bool
  | javascript => true
  | python => false

def trueWord : Language → Text
  | javascript => "true"
  | python => "True"

def falseWord : Language → Text
  | javascript => "false"
  | python => "False"

def nullWord : Language → Text
  | javascript => "null"
  | python => "None"

def startsName (l : Language) (c : Char) : Bool :=
  Text.isAlphabetic c || c == '_' || (c == '$' && l == javascript)

def continuesName (l : Language) (c : Char) : Bool :=
  Text.isAlphanumeric c || c == '_' || (c == '$' && l == javascript)

def reservedWords : Language → List String
  | javascript => [
    "await", "break", "case", "catch", "class", "const", "continue", "debugger", "default",
    "delete", "do", "else", "enum", "export", "extends", "false", "finally", "for", "function",
    "if", "implements", "import", "in", "instanceof", "interface", "let", "new", "null",
    "package", "private", "protected", "public", "return", "static", "super", "switch", "this",
    "throw", "true", "try", "typeof", "var", "void", "while", "with", "yield"]
  | python => [
    "False", "None", "True", "and", "as", "assert", "async", "await", "break", "class",
    "continue", "def", "del", "elif", "else", "except", "finally", "for", "from", "global",
    "if", "import", "in", "is", "lambda", "nonlocal", "not", "or", "pass", "raise", "return",
    "try", "while", "with", "yield"]

def reserved (l : Language) : List Text := l.reservedWords.map String.toList

def isReserved (l : Language) (word : Text) : Bool := l.reserved.contains word

def validName (l : Language) : Text → Bool
  | [] => false
  | c :: r => l.startsName c && r.all l.continuesName && !l.isReserved (c :: r)

end Language

/-- A segment tag and how code under it is run; `args` stand before the script. -/
structure TagSpec where
  tag : Text
  language : Language
  interpreter : Text
  args : List Text
  deriving DecidableEq

namespace TagSpec

def ofLanguage (tag : Text) (l : Language) : TagSpec := ⟨tag, l, l.interpreter, []⟩

def answers (s : TagSpec) (tag : Text) : Bool := Text.sameLetters s.tag tag

end TagSpec

structure Engine where
  languages : List TagSpec
  scratchDir : Text
  workingDir : Option Text
  deriving DecidableEq

namespace Engine

def defaultScratch : Text := ".mixl"

def standard : Engine where
  languages :=
    [.ofLanguage Language.javascript.tag .javascript, .ofLanguage Language.python.tag .python]
  scratchDir := defaultScratch
  workingDir := none

def specOfTag? (e : Engine) (tag : Text) : Option TagSpec := e.languages.find? (·.answers tag)

/-- The first tag of a language serves every unit of that language. -/
def specFor? (e : Engine) (l : Language) : Option TagSpec :=
  e.languages.find? (·.language == l)

def tags (e : Engine) : List Text := e.languages.map (·.tag)

end Engine

inductive Phase
  | segment
  | analyze
  | resolve
  | codegen
  | run
  deriving DecidableEq, Repr

namespace Phase

def all : List Phase := [segment, analyze, resolve, codegen, run]

def name : Phase → Text
  | segment => "segment"
  | analyze => "analyze"
  | resolve => "resolve"
  | codegen => "codegen"
  | run => "run"

def target (p : Phase) : Text := "mixl::" ++ p.name

end Phase
end Polyglot
