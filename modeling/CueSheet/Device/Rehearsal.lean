import CueSheet.Device.Instance
import CueSheet.Timestamp

/-!
A rehearsal: a rig that writes down every call instead of making it, and refuses the calls that it is told
to refuse. Its clock moves only when someone sleeps.
-/

namespace CueSheet

inductive PrintRefusal
  | write
  | flush
deriving DecidableEq, Repr

structure Refusals where
  opens : List String := []
  writes : List String := []
  closes : List String := []
  print : Option PrintRefusal := none

inductive PortCall
  | opening
  | writing
  | closing
deriving DecidableEq, Repr

def PortCall.refusal : PortCall → IoError
  | .opening => .other "open refused"
  | .writing => .other "write refused"
  | .closing => .other "close refused"

inductive RigEvent
  | opened (port : String)
  | wrote (port text : String)
  | closed (port : String)
  | refused (call : PortCall) (port : String)
  /-- All that was printed since the last flush. -/
  | printed (text : String)
deriving DecidableEq, Repr

structure Rehearsal where
  log : List RigEvent := []
  pending : String := ""
  clock : Nat := 0

namespace Rehearsal

def record (e : RigEvent) : StateM Rehearsal Unit := modify fun r => { r with log := r.log ++ [e] }

def attempt (refused : List String) (call : PortCall) (made : RigEvent) (c : SerialConfig) :
    StateM Rehearsal (IoResult × SerialConfig) := do
  if refused.contains c.port then
    record (.refused call c.port)
    return (.error call.refusal, c)
  else
    record made
    return (.ok (), c)

def rig (r : Refusals) : Rig (StateM Rehearsal) SerialConfig where
  print text := do
    if r.print = some .write then return .error (.other "sink refused")
    modify fun s => { s with pending := s.pending ++ text }
    return .ok ()
  flush := do
    record (.printed (← get).pending)
    modify fun s => { s with pending := "" }
    return if r.print = some .flush then .error (.other "flush refused") else .ok ()
  stamp := Timestamp.stamp fun _ => return ""
  now := return (← get).clock
  sleep ns := modify fun s => { s with clock := s.clock + ns }
  port c := c
  openPort c := attempt r.opens .opening (.opened c.port) c
  send text c := attempt r.writes .writing (.wrote c.port text) c
  closePort c := attempt r.closes .closing (.closed c.port) c

end Rehearsal

end CueSheet
