import CueSheet.Device.Instance

/-!
A serial port as a file that is opened for writing at the path of the port. The port keeps its own account of
whether it holds a file.
-/

namespace CueSheet

structure FileCalls (m : Type → Type) (h : Type) where
  openFile : String → m (Except IoError h)
  write : h → List UInt8 → m IoResult
  flush : h → m IoResult

structure SerialPort (h : Type) where
  config : SerialConfig
  file : Option h := none

namespace SerialPort

variable {m : Type → Type} [Monad m] {h : Type}

def openPort (os : FileCalls m h) (p : SerialPort h) : m (IoResult × SerialPort h) := do
  if p.file.isSome then return (.ok (), p)
  match ← os.openFile p.config.port with
  | .error e => return (.error e, p)
  | .ok f => return (.ok (), { p with file := some f })

def writeAll (os : FileCalls m h) (f : h) : List (List UInt8) → m IoResult
  | [] => os.flush f
  | b :: r => do
    match ← os.write f b with
    | .error e => return .error e
    | .ok () => writeAll os f r

/-- Writes the text and the end of line that the port is set to. A write that took longer than the
timeout counts as refused. -/
def send (os : FileCalls m h) (now : m Nat) (text : String) (p : SerialPort h) :
    m (IoResult × SerialPort h) := do
  match p.file with
  | none => return (.error .portClosed, p)
  | some f =>
    let started ← now
    match ← writeAll os f [text.toUTF8.toList, p.config.newLine.toUTF8.toList] with
    | .error e => return (.error e, p)
    | .ok () =>
      let finished ← now
      match p.config.writeTimeout with
      | some ms =>
        if finished - started > ms * 1000000 then
          return (.error (.other s!"write took longer than {ms} ms"), p)
        else return (.ok (), p)
      | none => return (.ok (), p)

def closePort (os : FileCalls m h) (p : SerialPort h) : m (IoResult × SerialPort h) := do
  match p.file with
  | none => return (.ok (), p)
  | some f => return (← os.flush f, { p with file := none })

def rig (os : FileCalls m h) (console : Console m) : Rig m (SerialPort h) where
  toConsole := console
  port config := { config := config }
  openPort := openPort os
  send := send os console.now
  closePort := closePort os

end SerialPort

end CueSheet
