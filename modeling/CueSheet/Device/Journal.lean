import CueSheet.Device.Instance

/-!
A journal: a rig over a world of which nothing is known. Every call is written down with its answer, and
every answer may depend on all that was written before. A port gets a number when it is opened for the
first time, and keeps it.
-/

namespace CueSheet

structure Plug where
  config : SerialConfig
  number : Option Nat := none

inductive PortDeed
  | opened (answer : IoResult)
  | wrote (text : String) (answer : IoResult)
  | closed (answer : IoResult)

inductive Deed
  | port (number : Option Nat) (d : PortDeed)
  | printed (text : String) (answer : IoResult)
  | flushed (answer : IoResult)
  | stamped (format : String) (answer : Option String)
  | looked (ns : Nat)
  | slept (ns : Nat)

namespace Deed

def isOutput : Deed → Bool
  | .port _ (.wrote ..) | .printed .. | .flushed _ => true
  | _ => false

def port? (k : Nat) : Deed → Option PortDeed
  | .port number d => if number = some k then some d else none
  | _ => none

end Deed

abbrev Journal := List Deed

def Journal.deeds (j : Journal) (k : Nat) : List PortDeed := j.filterMap (Deed.port? k)

structure World where
  opens : Journal → Plug → IoResult
  takes : Journal → Plug → String → IoResult
  closes : Journal → Plug → IoResult
  prints : Journal → String → IoResult
  flushes : Journal → IoResult
  stamp : Journal → String → Option String
  clock : Journal → Nat

namespace World

variable (w : World)

def rig : Rig (StateM Journal) Plug where
  print text := do
    let answer := w.prints (← get) text
    modify (· ++ [.printed text answer])
    return answer
  flush := do
    let answer := w.flushes (← get)
    modify (· ++ [.flushed answer])
    return answer
  stamp format := do
    let answer := w.stamp (← get) format
    modify (· ++ [.stamped format answer])
    return answer
  now := do
    let ns := w.clock (← get)
    modify (· ++ [.looked ns])
    return ns
  sleep ns := modify (· ++ [.slept ns])
  port config := { config := config }
  openPort p := do
    let j ← get
    let p := { p with number := some (p.number.getD j.length) }
    let answer := w.opens j p
    set (j ++ [.port p.number (.opened answer)])
    return (answer, p)
  send text p := do
    let answer := w.takes (← get) p text
    modify (· ++ [.port p.number (.wrote text answer)])
    return (answer, p)
  closePort p := do
    let answer := w.closes (← get) p
    modify (· ++ [.port p.number (.closed answer)])
    return (answer, p)

end World

end CueSheet
