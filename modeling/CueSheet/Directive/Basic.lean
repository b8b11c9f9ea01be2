import CueSheet.Program

/-!
Directives: lines that start with a number sign. They declare devices, load other files and set the
length of the priority window.
-/

namespace CueSheet

structure DeviceDecl where
  name : String
  serial : Option SerialSpec
  properties : List (String × String)
deriving DecidableEq, Repr

def DeviceDecl.configuration (d : DeviceDecl) : List (String × String) :=
  let positional := match d.serial with
    | none => []
    | some s =>
      [("baud_rate", toString s.baud)] ++
      (s.parity.map fun p => ("parity", p)).toList ++
      (s.dataBits.map fun n => ("data_bits", toString n)).toList ++
      (s.stopBits.map fun b => ("stop_bits", b)).toList
  positional ++ d.properties

structure LoadDecl where
  path : String
  /-- Pairs of an old name and the new name for it. -/
  renames : List (String × String)
deriving DecidableEq, Repr

inductive Directive
  | device (d : DeviceDecl)
  | load (d : LoadDecl)
  | priority (seconds : Int)
deriving DecidableEq, Repr

inductive DeviceFault
  | name (found : String)
  | positional (device found : String)
  | fieldCount
  | emptyPort
  | baud (found : String)
  | dataBits (found : String)
  | property (found : String)
  | key (found : String)
deriving DecidableEq, Repr

def DeviceFault.message : DeviceFault → String
  | .name found => s!"'{found}' is not a valid device name"
  | .positional device found => s!"expected '=' or 'with' after '{device}', found '{found}'"
  | .fieldCount => "expected '= <port>, <baud>[, <parity>[, <dataBits>[, <stopBits>]]]'"
  | .emptyPort => "port name is empty"
  | .baud found => s!"baud rate '{found}' is not an integer"
  | .dataBits found => s!"data bits '{found}' is not an integer"
  | .property found => s!"property '{found}' has no '='"
  | .key found => s!"property key '{found}' is not an identifier"

inductive LoadFault
  | unquoted
  | unterminated
  | emptyPath
  | parenthesis
  | pair (found : String)
deriving DecidableEq, Repr

def LoadFault.message : LoadFault → String
  | .unquoted => "path must be a double-quoted string"
  | .unterminated => "unterminated path string"
  | .emptyPath => "path is empty"
  | .parenthesis => "unbalanced parenthesis in substitution list"
  | .pair found => s!"expected '<old> as <new>', found '{found}'"

inductive DirectiveError
  | unknown (word : String)
  | device (fault : DeviceFault)
  | load (fault : LoadFault)
  | priority (found : String)
deriving DecidableEq, Repr

def DirectiveError.message : DirectiveError → String
  | .unknown word => s!"unknown directive '#{word}' (valid: #device, #load, #priority)"
  | .device fault => s!"malformed #device directive: {fault.message}"
  | .load fault => s!"malformed #load directive: {fault.message}"
  | .priority found => s!"malformed #priority directive: '{found}' is not an integer"

end CueSheet
