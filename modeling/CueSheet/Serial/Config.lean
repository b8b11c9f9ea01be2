import CueSheet.Decimal
import CueSheet.Device.Error

/-!
The settings of a serial line, read from the keys and values of a declaration. A later value for a key
replaces an earlier one.
-/

namespace CueSheet

inductive Parity
  | none
  | odd
  | even
  | mark
  | space
deriving DecidableEq, Repr

inductive StopBits
  | one
  | onePointFive
  | two
deriving DecidableEq, Repr

inductive Handshake
  | none
  | xonXoff
  | rts
  | rtsXonXoff
deriving DecidableEq, Repr

def lowercase (s : String) : String := String.ofList (s.toList.map Char.toLower)

def Parity.ofText? (s : String) : Option Parity :=
  match lowercase s with
  | "none" => some .none
  | "odd" => some .odd
  | "even" => some .even
  | "mark" => some .mark
  | "space" => some .space
  | _ => Option.none

def Parity.letter : Parity → Char
  | .none => 'N'
  | .odd => 'O'
  | .even => 'E'
  | .mark => 'M'
  | .space => 'S'

def StopBits.ofText? (s : String) : Option StopBits :=
  match lowercase s with
  | "1" | "one" => some .one
  | "1.5" | "onepointfive" => some .onePointFive
  | "2" | "two" => some .two
  | _ => none

def StopBits.text : StopBits → String
  | .one => "1"
  | .onePointFive => "1.5"
  | .two => "2"

def Handshake.ofText? (s : String) : Option Handshake :=
  match lowercase s with
  | "none" => some .none
  | "xonxoff" => some .xonXoff
  | "rts" | "requesttosend" => some .rts
  | "rtsxonxoff" | "requesttosendxonxoff" => some .rtsXonXoff
  | _ => Option.none

structure SerialConfig where
  port : String
  baud : Nat := 9600
  parity : Parity := .none
  dataBits : Nat := 8
  stopBits : StopBits := .one
  handshake : Handshake := .none
  /-- In milliseconds. -/
  writeTimeout : Option Nat := Option.none
  /-- Goes out behind every text. -/
  newLine : String := ""
deriving DecidableEq, Repr

namespace SerialConfig

def display (c : SerialConfig) : String :=
  s!"{c.port} {c.baud} {c.dataBits}{c.parity.letter}{c.stopBits.text}"

def unescape : List Char → List Char
  | '\\' :: 'n' :: r => '\n' :: unescape r
  | '\\' :: 'r' :: r => '\r' :: unescape r
  | '\\' :: 't' :: r => '\t' :: unescape r
  | '\\' :: '\\' :: r => '\\' :: unescape r
  | '\\' :: c :: r => '\\' :: c :: unescape r
  | c :: r => c :: unescape r
  | [] => []

def set (c : SerialConfig) (key value : String) : Except PropertyFault SerialConfig :=
  let invalid (e : PropertyRule) : Except PropertyFault SerialConfig := .error (.value e)
  match key with
  | "baud_rate" =>
    match (Decimal.natural? Decimal.maxHalf value.toList).filter (0 < ·) with
    | some n => .ok { c with baud := n }
    | none => invalid .positive
  | "parity" =>
    match Parity.ofText? value with
    | some x => .ok { c with parity := x }
    | none => invalid .parity
  | "data_bits" =>
    match (Decimal.natural? Decimal.maxByte value.toList).filter (fun n => 5 ≤ n && n ≤ 8) with
    | some n => .ok { c with dataBits := n }
    | none => invalid .dataBits
  | "stop_bits" =>
    match StopBits.ofText? value with
    | some x => .ok { c with stopBits := x }
    | none => invalid .stopBits
  | "handshake" =>
    match Handshake.ofText? value with
    | some x => .ok { c with handshake := x }
    | none => invalid .handshake
  | "write_timeout" =>
    match Decimal.natural? Decimal.maxWord value.toList with
    | some n => .ok { c with writeTimeout := if n = 0 then Option.none else some n }
    | none => invalid .timeout
  | "new_line" => .ok { c with newLine := String.ofList (unescape value.toList) }
  | _ => .error .key

def ofProperties (device port : String) (properties : List (String × String)) :
    Except DeviceError SerialConfig :=
  properties.foldlM
    (fun c (key, value) => (c.set key value).mapError (·.blame device key value)) { port := port }

end SerialConfig

end CueSheet
