import Polyglot.Value.Reader

/-!
# Records

A record is an object whose members are asked for by name, each once at most. A member
that is not asked for is skipped: it must be well formed, but it may be nested to any
depth, and its strings need not denote a text. In place of the object there may be the
array of the fields in order.
-/
namespace Polyglot.Value

def text? : Value → Option Text
  | string s => some s
  | _ => none

def optionalText? : Value → Option (Option Text)
  | null => some none
  | string s => some (some s)
  | _ => none

def texts? : Value → Option (List Text)
  | array vs => vs.mapM text?
  | _ => none

def textMember? (m : Text × Value) : Option (Text × Text) := m.2.text?.map fun t => (m.1, t)

def textMembers? : Value → Option (List (Text × Text))
  | object ms => (ms.mapM textMember?).bind fun _ => (sortMembers ms).mapM textMember?
  | _ => none

def field? (ms : List (Text × Value)) (name : Text) : Option (Option Value) :=
  match ms.filter (·.1 == name) with
  | [] => some none
  | [m] => some (some m.2)
  | _ => none

def required? {α : Type} (read : Value → Option α) (ms : List (Text × Value)) (name : Text) :
    Option α :=
  match field? ms name with
  | some (some v) => read v
  | _ => none

def withDefault? {α : Type} (default : α) (read : Value → Option α) (ms : List (Text × Value))
    (name : Text) : Option α :=
  match field? ms name with
  | some (some v) => read v
  | some none => some default
  | none => none

end Polyglot.Value

namespace Polyglot.Value

/-- What follows a string whose opening quote has been read. Four hexadecimal digits
are enough for an escape. -/
def skipString : Text → Option Text
  | [] => none
  | c :: r =>
    if c = '"' then some r
    else if c = '\\' then
      match r with
      | 'u' :: x :: y :: z :: w :: s => if (codeUnit? x y z w).isSome then skipString s else none
      | e :: s => if (unescape? e).isSome then skipString s else none
      | [] => none
    else if c.toNat < 0x20 then none
    else skipString r

def skipName (t : Text) : Option Text :=
  match skipGaps t with
  | '"' :: r =>
    match (skipString r).map skipGaps with
    | some (':' :: s) => some s
    | _ => none
  | _ => none

mutual

def skipValue : (fuel : Nat) → Text → Option Text
  | 0, _ => none
  | fuel + 1, t =>
    match skipGaps t with
    | [] => none
    | c :: r =>
      if c = '"' then skipString r
      else if c = '[' then
        match skipGaps r with
        | ']' :: s => some s
        | s => skipItems fuel s
      else if c = '{' then
        match skipGaps r with
        | '}' :: s => some s
        | s => skipMembers fuel s
      else (readAtom (c :: r)).map (·.2)

def skipItems : (fuel : Nat) → Text → Option Text
  | 0, _ => none
  | fuel + 1, t =>
    match (skipValue fuel t).map skipGaps with
    | some (']' :: s) => some s
    | some (',' :: s) => skipItems fuel s
    | _ => none

def skipMembers : (fuel : Nat) → Text → Option Text
  | 0, _ => none
  | fuel + 1, t =>
    match skipName t with
    | none => none
    | some r =>
      match (skipValue fuel r).map skipGaps with
      | some ('}' :: s) => some s
      | some (',' :: s) => skipMembers fuel s
      | _ => none

end

def readAsked (names : List Text) (fuel : Nat) (k t : Text) :
    Option (List (Text × Value) × Text) :=
  if names.contains k then (readValue fuel maxDepth t).map fun p => ([(k, p.1)], p.2)
  else (skipValue fuel t).map fun r => ([], r)

def readFields (names : List Text) : (fuel : Nat) → Text → Option (List (Text × Value) × Text)
  | 0, _ => none
  | fuel + 1, t =>
    match (readName t).bind fun p => readAsked names fuel p.1 p.2 with
    | none => none
    | some (ms, r) =>
      match skipGaps r with
      | '}' :: s => some (ms, s)
      | ',' :: s => (readFields names fuel s).map fun p => (ms ++ p.1, p.2)
      | _ => none

def readRecord (names : List Text) (fuel : Nat) (t : Text) : Option (Value × Text) :=
  match skipGaps t with
  | '{' :: r =>
    match skipGaps r with
    | '}' :: s => some (object [], s)
    | s => (readFields names fuel s).map fun p => (object p.1, p.2)
  | s => readValue fuel maxDepth s

def readRecords (names : List Text) : (fuel : Nat) → Text → Option (List Value × Text)
  | 0, _ => none
  | fuel + 1, t =>
    match readRecord names fuel t with
    | none => none
    | some (v, r) =>
      match skipGaps r with
      | ']' :: s => some ([v], s)
      | ',' :: s => (readRecords names fuel s).map fun p => (v :: p.1, p.2)
      | _ => none

def record? (names : List Text) (t : Text) : Option Value :=
  complete? (readRecord names (fuelFor t) t)

def records? (names : List Text) (t : Text) : Option (List Value) :=
  match skipGaps t with
  | '[' :: r =>
    match skipGaps r with
    | ']' :: s => complete? (some ([], s))
    | s => complete? (readRecords names (fuelFor t) s)
  | _ => none

end Polyglot.Value
