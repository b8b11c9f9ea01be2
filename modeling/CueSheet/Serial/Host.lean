import CueSheet.Serial.Port

/-!
A host: an operating system of which nothing is known. Every call of a serial port is written down with
its answer, and every answer may depend on all that was written before. The files that it opens are of
type `h`.
-/

namespace CueSheet

inductive HostCall (h : Type)
  | opened (path : String) (answer : Except IoError h)
  | wrote (file : h) (bytes : List UInt8) (answer : IoResult)
  | flushed (file : h) (answer : IoResult)
  | looked (ns : Nat)

namespace HostCall

variable {h : Type}

def refusal? : HostCall h → Option IoError
  | .opened _ (.error e) | .wrote _ _ (.error e) | .flushed _ (.error e) => some e
  | _ => none

def target? : HostCall h → Option h
  | .wrote file _ _ => some file
  | _ => none

def bytes : HostCall h → List UInt8
  | .wrote _ bytes _ => bytes
  | _ => []

end HostCall

structure Host (h : Type) where
  opens : List (HostCall h) → String → Except IoError h
  takes : List (HostCall h) → h → List UInt8 → IoResult
  flushes : List (HostCall h) → h → IoResult
  clock : List (HostCall h) → Nat

namespace Host

variable {h : Type} (w : Host h)

def files : FileCalls (StateM (List (HostCall h))) h where
  openFile path := do
    let answer := w.opens (← get) path
    modify (· ++ [.opened path answer])
    return answer
  write file bytes := do
    let answer := w.takes (← get) file bytes
    modify (· ++ [.wrote file bytes answer])
    return answer
  flush file := do
    let answer := w.flushes (← get) file
    modify (· ++ [.flushed file answer])
    return answer

def console : Console (StateM (List (HostCall h))) where
  print _ := return .ok ()
  flush := return .ok ()
  stamp _ := return none
  now := do
    let ns := w.clock (← get)
    modify (· ++ [.looked ns])
    return ns
  sleep _ := return ()

def rig : Rig (StateM (List (HostCall h))) (SerialPort h) := SerialPort.rig w.files w.console

variable (calls : List (HostCall h)) (file : h)

theorem openFile_run (path : String) : (w.files.openFile path).run calls =
    pure (w.opens calls path, calls ++ [.opened path (w.opens calls path)]) := rfl

theorem write_run (bytes : List UInt8) : (w.files.write file bytes).run calls =
    pure (w.takes calls file bytes, calls ++ [.wrote file bytes (w.takes calls file bytes)]) := rfl

theorem flush_run : (w.files.flush file).run calls =
    pure (w.flushes calls file, calls ++ [.flushed file (w.flushes calls file)]) := rfl

theorem now_run : w.console.now.run calls =
    pure (w.clock calls, calls ++ [.looked (w.clock calls)]) := rfl

end Host

end CueSheet
