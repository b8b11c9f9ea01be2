import CueSheet.Decimal

/-!
Programs. A device is known by the file that declares it and its place there. A body holds timed blocks,
commands and calls, with times in milliseconds and arguments that only `+` can join. A sheet is the symbol
table of one file: devices in the order of their declaration, procedures in the order of their names. A
program is the sheets by their number, the root first.
-/

namespace CueSheet

structure DeviceId where
  file : Nat
  index : Nat
deriving DecidableEq, Repr, Ord

abbrev Bind := List (DeviceId × DeviceId)

structure SerialSpec where
  port : String
  baud : Nat
  parity : Option String
  dataBits : Option Nat
  stopBits : Option String
deriving DecidableEq, Repr

/-- The kind `other` is for declarations that do not come from a program file. -/
inductive DeviceKind
  | system
  | serial
  | other (tag : String)
deriving DecidableEq, Repr

def DeviceKind.tag : DeviceKind → String
  | .system => "#"
  | .serial => "serial"
  | .other t => t

def DeviceKind.ofTag (t : String) : DeviceKind :=
  if t = "#" then .system else if t = "serial" then .serial else .other t

structure Device where
  id : DeviceId
  name : String
  kind : DeviceKind
  configuration : List (String × String)
  serial : Option SerialSpec
deriving DecidableEq, Repr

inductive Literal
  | number (x : Float)
  | text (s : String)
  | variable (name : String)

inductive Operator
  | add
  | sub
  | mul
  | div
deriving DecidableEq, Repr

def Operator.symbol : Operator → Char
  | .add => '+'
  | .sub => '-'
  | .mul => '*'
  | .div => '/'

inductive Expr
  | literal (l : Literal)
  | binary (op : Operator) (lhs rhs : Expr)

inductive Value
  | number (x : Float)
  | text (s : String)

def Value.display : Value → String
  | .number x => Decimal.plain x
  | .text s => s

def Value.number? : Value → Option Float
  | .number x => some x
  | .text _ => none

def Value.text? : Value → Option String
  | .number _ => none
  | .text s => some s

def Value.kind : Value → String
  | .number _ => "number"
  | .text _ => "string"

def Value.add : Value → Value → Value
  | .number x, .number y => .number (x + y)
  | a, b => .text (a.display ++ b.display)

inductive EvalError
  | variable (name : String)
  | operator (op : Operator)
deriving DecidableEq, Repr

def EvalError.message : EvalError → String
  | .variable name => s!"variable '{name}' is not supported; arguments must be literal"
  | .operator op => s!"operator '{op.symbol}' is not supported; only '+' can be evaluated"

/-- An operator is judged before its operands, and the left operand before the right one. -/
def Expr.eval : Expr → Except EvalError Value
  | .literal (.number x) => .ok (.number x)
  | .literal (.text s) => .ok (.text s)
  | .literal (.variable name) => .error (.variable name)
  | .binary .add lhs rhs => do
    let a ← lhs.eval
    let b ← rhs.eval
    return a.add b
  | .binary op _ _ => .error (.operator op)

structure ProcRef where
  file : Nat
  name : String
deriving DecidableEq, Repr

def ProcRef.display (r : ProcRef) : String := s!"{r.name}@{r.file}"

inductive EndSpec
  | at (time : Nat)
  | after (length : Nat)
deriving DecidableEq, Repr

structure TimeSpec where
  start : Option Nat
  stop : EndSpec
deriving DecidableEq, Repr

structure Entry where
  device : DeviceId
  args : List Expr
  time : Option TimeSpec

inductive Element
  | timed (entries : List Entry)
  | command (device : DeviceId) (args : List Expr)
  | call (name : String)

/-- A name is pending between its first mention and its body. -/
inductive Definition
  | pending
  | body (elements : List Element)
  | alias (origin : ProcRef) (bind : Bind)

structure Procedure where
  name : String
  definition : Definition

def Procedure.isDefined (p : Procedure) : Bool :=
  match p.definition with
  | .pending => false
  | _ => true

def Procedure.body (p : Procedure) : List Element :=
  match p.definition with
  | .body elements => elements
  | _ => []

def Procedure.origin? (p : Procedure) : Option ProcRef :=
  match p.definition with
  | .alias origin _ => some origin
  | _ => none

def Procedure.bind (p : Procedure) : Bind :=
  match p.definition with
  | .alias _ bind => bind
  | _ => []

structure Sheet where
  file : Nat
  path : String
  devices : List Device := []
  procedures : List Procedure := []

namespace Sheet

def device? (s : Sheet) (name : String) : Option Device := s.devices.find? (·.name = name)

def procedure? (s : Sheet) (name : String) : Option Procedure :=
  s.procedures.find? (·.name = name)

def isDefined (s : Sheet) (name : String) : Bool := (s.procedure? name).any (·.isDefined)

def place (p : Procedure) : List Procedure → List Procedure
  | [] => [p]
  | q :: r =>
    if p.name < q.name then p :: q :: r
    else if p.name = q.name then p :: r
    else q :: place p r

def put (s : Sheet) (p : Procedure) : Sheet := { s with procedures := place p s.procedures }

def mention (s : Sheet) (name : String) : Sheet :=
  if (s.procedure? name).isSome then s else s.put ⟨name, .pending⟩

def define? (s : Sheet) (name : String) (body : List Element) : Option Sheet :=
  if s.isDefined name then none else some (s.put ⟨name, .body body⟩)

def declare? (s : Sheet) (name : String) (kind : DeviceKind)
    (configuration : List (String × String)) (serial : Option SerialSpec) :
    Option (DeviceId × Sheet) :=
  if (s.device? name).isSome then none
  else
    let id := ⟨s.file, s.devices.length⟩
    some (id, { s with devices := s.devices ++ [⟨id, name, kind, configuration, serial⟩] })

def undefined? (s : Sheet) : Option String := (s.procedures.find? (!·.isDefined)).map (·.name)

theorem find?_place (p : Procedure) (name : String) (ps : List Procedure) :
    (place p ps).find? (·.name = name) =
      if p.name = name then some p else ps.find? (·.name = name) := by
  induction ps with
  | nil => by_cases h : p.name = name <;> simp [place, h]
  | cons q r ih =>
    rw [place]
    split
    · by_cases h : p.name = name <;> simp [h]
    · split
      · next hq => by_cases h : p.name = name <;> simp_all
      · next hq =>
        by_cases h : q.name = name
        · have hp : p.name ≠ name := fun hp => hq (hp.trans h.symm)
          simp [h, hp]
        · simp [h, ih]

theorem procedure?_put (s : Sheet) (p : Procedure) (name : String) :
    (s.put p).procedure? name = if p.name = name then some p else s.procedure? name :=
  find?_place p name s.procedures

theorem devices_mention (s : Sheet) (name : String) : (s.mention name).devices = s.devices := by
  unfold mention
  split <;> rfl

theorem procedure?_mention (s : Sheet) (name other : String) :
    (s.mention name).procedure? other =
      if name = other then some ((s.procedure? name).getD ⟨name, .pending⟩)
      else s.procedure? other := by
  unfold mention
  split
  · next h =>
    obtain ⟨p, hp⟩ := Option.isSome_iff_exists.1 h
    by_cases ho : name = other
    · subst ho
      simp [hp]
    · simp [ho]
  · next h =>
    have hn : s.procedure? name = none := by simpa using h
    simp [procedure?_put, hn]

theorem define?_eq_none_iff (s : Sheet) (name : String) (body : List Element) :
    s.define? name body = none ↔ s.isDefined name = true := by
  unfold define?
  split <;> simp_all

theorem declare?_eq_none_iff (s : Sheet) (name : String) (kind : DeviceKind)
    (configuration : List (String × String)) (serial : Option SerialSpec) :
    s.declare? name kind configuration serial = none ↔ (s.device? name).isSome = true := by
  unfold declare?
  split <;> simp_all

end Sheet

structure Program where
  sheets : List Sheet
  /-- In seconds; `-1` where the root sets none. -/
  window : Int := -1

namespace Program

def path (p : Program) (file : Nat) : String := (p.sheets[file]?.map (·.path)).getD "<unknown>"

def device? (p : Program) (id : DeviceId) : Option Device :=
  p.sheets[id.file]?.bind (·.devices[id.index]?)

def deviceName (p : Program) (id : DeviceId) : String :=
  match p.device? id with
  | some d => d.name
  | none => s!"#{id.file}:{id.index}"

def procedure? (p : Program) (r : ProcRef) : Option Procedure :=
  p.sheets[r.file]?.bind (·.procedure? r.name)

end Program

end CueSheet
