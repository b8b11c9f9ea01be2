import CueSheet.Run

/-!
The command line: its options, and what a run with them prints and answers.
-/

namespace CueSheet

structure Options where
  settings : Option String := none
  dry : Bool := false
  files : List String := []
deriving DecidableEq, Repr

namespace Options

def setSettings (o : Options) (path : String) : Option Options :=
  if o.settings.isSome || path.isEmpty then none else some { o with settings := some path }

def setDry (o : Options) : Option Options := if o.dry then none else some { o with dry := true }

def addFile (o : Options) (path : String) : Option Options :=
  if path.isEmpty then none else some { o with files := o.files ++ [path] }

inductive Pending
  | nothing
  | settings

def letters (o : Options) : List Char → Option (Options × Pending)
  | [] => some (o, .nothing)
  | 'n' :: r => do letters (← o.setDry) r
  | 'c' :: r =>
    match r with
    | [] => some (o, .settings)
    | '=' :: path => (o.setSettings (String.ofList path)).map (·, .nothing)
    | path => (o.setSettings (String.ofList path)).map (·, .nothing)
  | _ => none

def word (o : Options) (w : List Char) : Option (Options × Pending) :=
  if w = "dry-run".toList then o.setDry.map (·, .nothing)
  else if w = "config".toList then some (o, .settings)
  else match "config=".toList.isPrefixOf? w with
    | some path => (o.setSettings (String.ofList path)).map (·, .nothing)
    | none => none

def argument (o : Options) (a : String) : Option (Options × Pending) :=
  match a.toList with
  | '-' :: '-' :: w => o.word w
  | '-' :: c :: r => o.letters (c :: r)
  | _ => (o.addFile a).map (·, .nothing)

def isValue (a : String) : Bool := a = "-" || a.toList.head? != some '-'

def read (o : Options) : List String → Option Options
  | [] => some o
  | "--" :: r => r.foldlM addFile o
  | a :: r =>
    match o.argument a with
    | none => none
    | some (o, .nothing) => o.read r
    | some (o, .settings) =>
      match r with
      | path :: r => if isValue path then do (← o.setSettings path).read r else none
      | [] => none

end Options

structure Verdict where
  exit : Nat
  errors : String := ""
deriving DecidableEq, Repr

namespace CommandLine

def usage : String :=
  "Usage: cadence [OPTIONS] [FILE]...\nNo file specified for the input.\n"

variable {τ : Type} {m : Type → Type} [Monad m]

def play (rig : Rig m τ) (tree : FileTree) (here : Place) (settings : Settings) (dry : Bool)
    (root : String) : m Verdict := do
  let workshop : Workshop τ :=
    { port := rig.port, timestampFormat := settings.timestampFormat, records := true }
  let stage : Stage τ := ⟨tree, here, settings, workshop⟩
  let (result, _) ← stage.run rig root dry {}
  match result with
  | .error (.plan .panic) => return ⟨101, PlanError.panic.message ++ "\n"⟩
  | .error e => return ⟨1, "Error: " ++ e.message ++ "\n"⟩
  | .ok _ => return ⟨0, ""⟩

def run (rig : Settings → Rig m τ) (isFormat : String → Bool) (tree : FileTree) (here : Place)
    (args : List String) : m Verdict := do
  match Options.read {} args with
  | none => return ⟨2, ""⟩
  | some o =>
    match o.files with
    | [root] =>
      match o.settings with
      | none => play (rig {}) tree here {} o.dry root
      | some path =>
        match Settings.load isFormat tree here path with
        | .error _ => return ⟨1, ""⟩
        | .ok settings => play (rig settings) tree here settings o.dry root
    | _ =>
      let _ ← (rig {}).print usage
      let _ ← (rig {}).flush
      return ⟨0, ""⟩

end CommandLine

end CueSheet
