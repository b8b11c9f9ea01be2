import CueSheet.Decimal
import CueSheet.Program
import CueSheet.Serial.Config

/-!
The devices of a run, and the world as they see it: ports that take texts, a sink for printed lines, and a
clock. Everything that drives devices is written over a rig, so that the same code rehearses and performs. A
port of type `τ` is its own state: every call hands back the port as it is afterwards. `test` says whether the
arguments of a command suit a device, without doing anything.
-/

namespace CueSheet

abbrev IoResult := Except IoError Unit

structure Console (m : Type → Type) where
  print : String → m IoResult
  flush : m IoResult
  /-- The local time in a format; `none` if the format cannot be written. -/
  stamp : String → m (Option String)
  /-- The clock, in nanoseconds. -/
  now : m Nat
  /-- Does not return before so many nanoseconds have passed. -/
  sleep : Nat → m Unit

structure Rig (m : Type → Type) (τ : Type) extends Console m where
  /-- A closed port. Making it touches nothing. -/
  port : SerialConfig → τ
  openPort : τ → m (IoResult × τ)
  send : String → τ → m (IoResult × τ)
  closePort : τ → m (IoResult × τ)

structure Transport (τ : Type) where
  name : String
  config : SerialConfig
  port : τ
  isOpen : Bool := false

inductive Instance (τ : Type)
  | print (format : String)
  | wait
  | transport (t : Transport τ)

structure Workshop (τ : Type) where
  port : SerialConfig → τ
  timestampFormat : String := "%H:%M:%S%.3f"
  /-- Whether the events of a build are recorded. What they say is worked out only then. -/
  records : Bool := false

/-- The pause of a number of milliseconds, in nanoseconds. It is not negative, and its seconds fit a
word. -/
def pause? (ms : Float) : Option Nat :=
  match Decimal.binary (ms / 1000) with
  | .finite negative m e =>
    if negative && m != 0 then none
    else if m * Nat.pow 2 e.toNat < (Decimal.maxWord + 1) * Nat.pow 2 (-e).toNat then
      some (Decimal.scaled m e 1000000000)
    else none
  | _ => none

namespace Instance

variable {τ : Type}

def create (w : Workshop τ) (d : Device) : Except DeviceError (Instance τ) :=
  match d.kind with
  | .system =>
    match d.configuration with
    | (key, _) :: _ => .error (.unknownKey d.name key)
    | [] =>
      match d.name with
      | "Print" => .ok (.print w.timestampFormat)
      | "Wait" => .ok .wait
      | _ => .error (.unknownType d.name d.kind.tag)
  | .serial =>
    let port := (d.serial.map (·.port)).getD ""
    (SerialConfig.ofProperties d.name port d.configuration).map fun config =>
      .transport { name := d.name, config := config, port := w.port config }
  | .other tag => .error (.unknownType d.name tag)

def kind : Instance τ → String
  | .print _ => "Print"
  | .wait => "Wait"
  | .transport _ => "Transport"

def mismatch (name : String) (rule : ArgumentRule) (args : List Value) : DeviceError :=
  .arguments name rule (args.map Value.kind)

def test (name : String) (args : List Value) : Instance τ → Except DeviceError Unit
  | .print _ => if args.isEmpty then .error (mismatch name .some args) else .ok ()
  | .wait =>
    match args with
    | [.number ms] => if (pause? ms).isSome then .ok () else .error (mismatch name .pause args)
    | _ => .error (mismatch name .pause args)
  | .transport _ =>
    match args with
    | [.text _] => .ok ()
    | _ => .error (mismatch name .text args)

variable {m : Type → Type} [Monad m]

def printLine (rig : Rig m τ) (format : String) (args : List Value) : m IoResult := do
  match ← rig.stamp format with
  | none => return .error (.other "formatter error")
  | some stamp =>
    match ← rig.print (stamp ++ " " ++ " ".intercalate (args.map Value.display) ++ "\n") with
    | .error e => return .error e
    | .ok () => rig.flush

def execute (rig : Rig m τ) (name : String) (args : List Value) :
    Instance τ → m (Except DeviceError Unit × Instance τ)
  | .print format => do return ((← printLine rig format args).mapError (.io name), .print format)
  | .wait => do
    match pause? ((args.head?.bind Value.number?).getD 0) with
    | none => return (.error (mismatch name .pause args), .wait)
    | some ns => rig.sleep ns; return (.ok (), .wait)
  | .transport t => do
    if !t.isOpen then return (.error (.io name .transportClosed), .transport t)
    let (result, port) ← rig.send ((args.head?.bind Value.text?).getD "") t.port
    return (result.mapError (.io name), .transport { t with port := port })

def openPort (rig : Rig m τ) : Instance τ → m (Except DeviceError Unit × Instance τ)
  | .transport t => do
    if t.isOpen then return (.ok (), .transport t)
    let (result, port) ← rig.openPort t.port
    return (result.mapError (.io t.name),
      .transport { t with port := port, isOpen := result.toBool })
  | i => return (.ok (), i)

/-- Closes an open port. It counts as closed even if the call is refused. -/
def closePort (rig : Rig m τ) : Instance τ → m (Except DeviceError Unit × Instance τ)
  | .transport t => do
    if !t.isOpen then return (.ok (), .transport t)
    let (result, port) ← rig.closePort t.port
    return (result.mapError (.io t.name), .transport { t with port := port, isOpen := false })
  | i => return (.ok (), i)

end Instance

end CueSheet
