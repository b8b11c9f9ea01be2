import CueSheet.Decimal
import CueSheet.Directive.Basic
import CueSheet.Text

/-!
Reading a directive. The word behind the number sign decides how the rest of the line is cut up.
-/

namespace CueSheet.Directive

open Text

def isDirective (line : List Char) : Bool := (trimLeft line).head? == some '#'

/-- What stands before and after the first free-standing `with`. Behind a text, it needs a space on
either side. -/
def splitWith (s : List Char) : List Char × Option (List Char) :=
  let s := trim s
  let inside := match breakAt? " with ".toList s with
    | some (a, b) => (trim a, some (trim b))
    | none => (s, none)
  match "with".toList.isPrefixOf? s with
  | some r => if r.isEmpty || startsBlank r then ([], some (trim r)) else inside
  | none => inside

def serialSpec (s : List Char) : Except DeviceFault SerialSpec := do
  let fields := (pieces ',' s).map trim
  match fields with
  | port :: baud :: more =>
    if more.length > 3 then throw .fieldCount
    let port := unquote port
    if port.isEmpty then throw .emptyPort
    let some rate := Decimal.natural? Decimal.maxHalf baud | throw (.baud (String.ofList baud))
    let bits ← match more[1]? with
      | none => pure none
      | some raw => match Decimal.natural? Decimal.maxByte raw with
        | some n => pure (some n)
        | none => throw (.dataBits (String.ofList raw))
    return ⟨String.ofList port, rate, more[0]?.map String.ofList, bits, more[2]?.map String.ofList⟩
  | _ => throw .fieldCount

def property (pair : List Char) : Except DeviceFault (String × String) :=
  match cut? '=' pair with
  | none => .error (.property (String.ofList pair))
  | some (key, value) =>
    let key := trim key
    if isName key then .ok (String.ofList key, String.ofList (unquote (trim value)))
    else .error (.key (String.ofList key))

def deviceDecl (rest : List Char) : Except DeviceFault DeviceDecl := do
  let (name, rest) := splitWord rest
  let shown := String.ofList name
  if !isName name then throw (.name shown)
  let (positional, properties) := splitWith rest
  let serial ← match behind? '=' positional with
    | some s => some <$> serialSpec s
    | none =>
      if positional.isEmpty then pure none
      else throw (.positional shown (String.ofList positional))
  let properties ← match properties with
    | some list => (pieces ',' list).mapM fun p => property (trim p)
    | none => pure []
  return ⟨shown, serial, properties⟩

def rename (pair : List Char) : Except LoadFault (String × String) :=
  match words pair with
  | [old, ['a', 's'], new] =>
    if isName old && isName new then .ok (String.ofList old, String.ofList new)
    else .error (.pair (String.ofList (trim pair)))
  | _ => .error (.pair (String.ofList (trim pair)))

def loadDecl (rest : List Char) : Except LoadFault LoadDecl := do
  let some rest := behind? '"' rest | throw .unquoted
  let some (path, rest) := cut? '"' rest | throw .unterminated
  if path.isEmpty then throw .emptyPath
  let list := trim rest
  let list ← match behind? '(' list with
    | none => pure list
    | some inner => match before? ')' inner with
      | some inner => pure (trim inner)
      | none => throw .parenthesis
  let renames ← if list.isEmpty then pure [] else (pieces ',' list).mapM rename
  return ⟨String.ofList path, renames⟩

def seconds (rest : List Char) : Except DirectiveError Int :=
  match Decimal.integer? Decimal.maxSignedWord (trim rest) with
  | some n => .ok n
  | none => .error (.priority (String.ofList (trim rest)))

def read (line : List Char) : Except DirectiveError Directive :=
  match behind? '#' (trim line) with
  | none => .error (.unknown (String.ofList (trim line)))
  | some body =>
    let (word, rest) := splitWord body
    match String.ofList word with
    | "device" => ((deviceDecl rest).map .device).mapError .device
    | "load" => ((loadDecl rest).map .load).mapError .load
    | "priority" => (seconds rest).map .priority
    | other => .error (.unknown other)

end CueSheet.Directive
