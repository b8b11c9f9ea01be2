import CueSheet.CommandLine
import CueSheet.Serial.Port
import CueSheet.Timestamp
import Std.Time.Format

/-!
The command. It looks at the files that a run can need, and runs on real ports, the standard output and the
clock of the system.
-/

namespace CueSheet.Main

def pattern? (code : List Char) : Option (String × Nat × Char) :=
  match String.ofList code with
  | "H" => some ("H", 2, '0')
  | "k" => some ("H", 2, ' ')
  | "I" => some ("h", 2, '0')
  | "l" => some ("h", 2, ' ')
  | "M" => some ("m", 2, '0')
  | "S" => some ("s", 2, '0')
  | "f" => some ("n", 9, '0')
  | "d" => some ("d", 2, '0')
  | "e" => some ("d", 2, ' ')
  | "m" => some ("M", 2, '0')
  | "Y" => some ("u", 4, '0')
  | "y" => some ("uu", 2, '0')
  | "j" => some ("D", 3, '0')
  | "q" => some ("Q", 1, '0')
  | "T" | "X" => some ("HH:mm:ss", 0, ' ')
  | "R" => some ("HH:mm", 0, ' ')
  | "r" => some ("hh:mm:ss a", 0, ' ')
  | "D" | "x" => some ("MM/dd/uu", 0, ' ')
  | "F" => some ("uuuu-MM-dd", 0, ' ')
  | "a" => some ("EEE", 0, ' ')
  | "A" => some ("EEEE", 0, ' ')
  | "b" | "h" => some ("MMM", 0, ' ')
  | "B" => some ("MMMM", 0, ' ')
  | "p" | "P" => some ("a", 0, ' ')
  | ".f" | ".9f" => some (".SSSSSSSSS", 0, ' ')
  | ".6f" => some (".SSSSSS", 0, ' ')
  | ".3f" => some (".SSS", 0, ' ')
  | "9f" => some ("SSSSSSSSS", 0, ' ')
  | "6f" => some ("SSSSSS", 0, ' ')
  | "3f" => some ("SSS", 0, ' ')
  | "z" => some ("xx", 0, ' ')
  | ":z" => some ("xxx", 0, ' ')
  | _ => none

def padTo (width : Nat) (c : Char) (s : String) : String :=
  String.ofList (List.replicate (width - s.length) c) ++ s

def timeField (f : Timestamp.Field) : IO String := do
  match pattern? f.code with
  | none => return ""
  | some (pattern, width, pad) =>
    let text := (← Std.Time.DateTime.now).format pattern
    match f.padding with
    | some '-' => return text
    | some '_' => return padTo width ' ' text
    | some _ => return padTo width '0' text
    | none => return padTo width pad text

def ioError (e : IO.Error) : IoError :=
  match e with
  | .noFileOrDirectory .. => .file .notFound
  | .inappropriateType _ 20 _ => .file .notDirectory
  | .inappropriateType _ 21 _ => .file .isDirectory
  | .resourceExhausted _ 28 _ => .file .noSpace
  | e => .other e.toString

def attempt {α : Type} (x : IO α) : IO (Except IoError α) := do
  match ← x.toBaseIO with
  | .ok a => return .ok a
  | .error e => return .error (ioError e)

def fileCalls : FileCalls IO IO.FS.Handle where
  openFile path := attempt (IO.FS.Handle.mk path .readWrite)
  write file bytes := attempt (file.write ⟨bytes.toArray⟩)
  flush file := attempt file.flush

partial def spin (deadline : Nat) : IO Unit := do
  if (← IO.monoNanosNow) < deadline then spin deadline

def sleep (spinThreshold : Nat) (ns : Nat) : IO Unit := do
  let deadline := (← IO.monoNanosNow) + ns
  let ms := (ns - spinThreshold * 1000) / 1000000
  if 0 < ms then IO.sleep (UInt32.ofNat (min ms Decimal.maxHalf))
  spin deadline

def console (settings : Settings) : Console IO where
  print text := attempt do (← IO.getStdout).putStr text
  flush := attempt do (← IO.getStdout).flush
  stamp := Timestamp.stamp timeField
  now := IO.monoNanosNow
  sleep := sleep settings.spinThreshold

def look (p : Place) : IO (Option FileNode) := do
  match ← (IO.FS.readBinFile p.path).toBaseIO with
  | .ok bytes => return some (.file bytes.toList)
  | .error (.inappropriateType _ 21 _) => return some .directory
  | .error _ => return none

abbrev Nodes := List (Place × FileNode)

def explorePath (here : Place) (path : String) (nodes : Nodes) : IO (Place × Nodes) := do
  let mut nodes := nodes
  let mut p := if Path.isAbsolute path then [] else here
  for n in [1:here.length + 1] do
    if !nodes.any (·.1 = here.take n) then nodes := nodes ++ [(here.take n, .directory)]
  for name in Path.names path do
    if name = ".." then p := p.dropLast
    else if name != "" && name != "." then
      p := p ++ [name]
      if !nodes.any (·.1 = p) then
        match ← look p with
        | some n => nodes := nodes ++ [(p, n)]
        | none => return (p, nodes)
  return (p, nodes)

def targets (bytes : List UInt8) : List String :=
  (Text.lines 10 bytes).filterMap fun line =>
    match (FileTree.decode line).map fun s => Directive.read (Text.trim s.toList) with
    | .ok (.ok (.load d)) => some d.path
    | _ => none

/-- Looks at the places of `todo` and at all that is loaded from there. -/
partial def explore (todo : List (Place × String)) (seen : List Place) (nodes : Nodes) :
    IO Nodes := do
  match todo with
  | [] => return nodes
  | (here, path) :: r =>
    let (p, nodes) ← explorePath here path nodes
    if seen.contains p then explore r seen nodes
    else
      let more := match nodes.find? (·.1 = p) with
        | some (_, .file bytes) => (targets bytes).map (p.dropLast, ·)
        | _ => []
      explore (more ++ r) (p :: seen) nodes

def placeOf (path : String) : Place := (Path.names path).filter (· ≠ "")

end CueSheet.Main

open CueSheet

def main (args : List String) : IO UInt32 := do
  let here := Main.placeOf (← IO.currentDir).toString
  let paths := match Options.read {} args with
    | some o => o.settings.toList ++ o.files
    | none => []
  let nodes ← Main.explore (paths.map (here, ·)) [] []
  let rig (settings : Settings) := SerialPort.rig Main.fileCalls (Main.console settings)
  let verdict ← CommandLine.run rig Timestamp.isFormat ⟨nodes⟩ here args
  (← IO.getStderr).putStr verdict.errors
  return UInt32.ofNat verdict.exit
