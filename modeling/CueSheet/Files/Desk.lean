import CueSheet.Serial.Port
import CueSheet.Timestamp

/-!
A desk: a tree of files with the files that are open in it, what was printed, and a clock that moves only
when someone sleeps.
-/

namespace CueSheet

structure Desk where
  tree : FileTree
  here : Place
  /-- The place and the offset of every file that was ever opened. -/
  files : List (Place × Nat) := []
  printed : String := ""
  clock : Nat := 0

namespace Desk

def openFile (path : String) (d : Desk) : Except IoError Nat × Desk :=
  match (d.tree.find d.here path).bind fun p => (d.tree.writable p).map fun _ => p with
  | .error e => (.error (.file e), d)
  | .ok p => (.ok d.files.length, { d with files := d.files ++ [(p, 0)] })

def write (file : Nat) (bytes : List UInt8) (d : Desk) : IoResult × Desk :=
  match d.files[file]? with
  | none => (.error .portClosed, d)
  | some (p, offset) =>
    if d.tree.hasRoom p bytes then
      (.ok (), { d with
        tree := d.tree.overwrite p offset bytes
        files := d.files.set file (p, offset + bytes.length) })
    else (.error (.file .noSpace), d)

def fileCalls : FileCalls (StateM Desk) Nat where
  openFile path := fun d => d.openFile path
  write file bytes := fun d => d.write file bytes
  flush _ := return .ok ()

def console : Console (StateM Desk) where
  print text := fun d => (.ok (), { d with printed := d.printed ++ text })
  flush := return .ok ()
  stamp := Timestamp.stamp fun _ => return ""
  now := return (← get).clock
  sleep ns := modify fun d => { d with clock := d.clock + ns }

def rig : Rig (StateM Desk) (SerialPort Nat) := SerialPort.rig fileCalls console

end Desk

end CueSheet
