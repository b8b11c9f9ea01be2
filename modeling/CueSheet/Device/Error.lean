import CueSheet.Files.Tree
import CueSheet.Program

/-!
What can go wrong with a device: in its declaration, with the arguments of a command, or while it is driven.
-/

namespace CueSheet

inductive IoError
  | file (e : FileError)
  | transportClosed
  | portClosed
  | other (text : String)
deriving DecidableEq, Repr

def IoError.message : IoError → String
  | .file e => e.message
  | .transportClosed => "transport is not open"
  | .portClosed => "port is not open"
  | .other text => text

inductive PropertyRule
  | positive
  | parity
  | dataBits
  | stopBits
  | handshake
  | timeout
deriving DecidableEq, Repr

def PropertyRule.describe : PropertyRule → String
  | .positive => "a positive integer"
  | .parity => "none, odd, even, mark or space"
  | .dataBits => "an integer from 5 to 8"
  | .stopBits => "1, 1.5 or 2"
  | .handshake => "none, xonxoff, rts or rtsxonxoff"
  | .timeout => "a non-negative integer (ms)"

inductive ArgumentRule
  | some
  | pause
  | text
deriving DecidableEq, Repr

def ArgumentRule.describe : ArgumentRule → String
  | .some => "at least one argument"
  | .pause => "one non-negative number of milliseconds"
  | .text => "one string"

inductive DeviceError
  | undeclared (device : String)
  | unknownType (device tag : String)
  | unknownKey (device key : String)
  | invalidValue (device key value : String) (rule : PropertyRule)
  | arguments (device : String) (rule : ArgumentRule) (kinds : List String)
  | io (device : String) (e : IoError)
deriving DecidableEq, Repr

def DeviceError.message : DeviceError → String
  | .undeclared device => s!"device '{device}' is not declared"
  | .unknownType device tag => s!"device '{device}': unknown device type '{tag}'"
  | .unknownKey device key => s!"device '{device}': unknown configuration key '{key}'"
  | .invalidValue device key value rule =>
    s!"device '{device}': {key} = '{value}' is invalid (expected {rule.describe})"
  | .arguments device rule kinds =>
    let found := if kinds.isEmpty then "no arguments" else "(" ++ ", ".intercalate kinds ++ ")"
    s!"device '{device}': expected {rule.describe}, got {found}"
  | .io device e => s!"device '{device}': {e.message}"

def DeviceError.cause? : DeviceError → Option String
  | .io _ e => Option.some e.message
  | _ => none

inductive PropertyFault
  | key
  | value (rule : PropertyRule)
deriving DecidableEq, Repr

def PropertyFault.blame (device key value : String) : PropertyFault → DeviceError
  | .key => .unknownKey device key
  | .value rule => .invalidValue device key value rule

end CueSheet
