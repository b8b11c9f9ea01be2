import CueSheet.Directive.Basic
import CueSheet.Directive.Reader
import CueSheet.Files.Tree
import CueSheet.Line.Fault
import CueSheet.Load.Pipe
import CueSheet.Program

/-!
Loading a program: the root file and every file that a `#load` leads to, each once. Files get their
numbers in the order of the first visit. `chain` is the list of the files that are still being read,
from the root to the one at hand; a file of the chain cannot be loaded again. All errors here end the run
before any device exists.
-/

namespace CueSheet

inductive LoadError
  | unreadable (path : String) (e : FileError)
  | directive (path : String) (line : Nat) (e : DirectiveError)
  | malformed (path : String) (e : SyntaxError)
  | readerStopped (path : String)
  | cycle (chain : List String)
  | duplicateDevice (path : String) (line : Nat) (device : String)
  | duplicateRename (path : String) (line : Nat) (name : String)
  | duplicateDefinition (path : String) (line : Nat) (procedure : String)
  | unknownDevice (path : String) (line : Nat) (device : String)
  | undefinedProcedure (path procedure : String)
  | priorityRange (path : String) (line : Nat) (seconds : Int)
  | missingEntry (path : String)
  | loadedEntry (path : String)
deriving DecidableEq, Repr

def LoadError.message : LoadError → String
  | .unreadable path e => s!"cannot read {path}: {e.message}"
  | .directive path line e => s!"{path}:{line}: {e.message}"
  | .malformed path e => s!"{path}: {e.message}"
  | .readerStopped path => s!"{path}: grammar thread stopped unexpectedly"
  | .cycle chain => "load cycle detected: " ++ " -> ".intercalate chain
  | .duplicateDevice path line device =>
    s!"{path}:{line}: device '{device}' is already declared in this file"
  | .duplicateRename path line name =>
    s!"{path}:{line}: '{name}' is substituted more than once in one #load"
  | .duplicateDefinition path line procedure =>
    s!"{path}:{line}: procedure '{procedure}' is already defined"
  | .unknownDevice path line device =>
    s!"{path}:{line}: substitution target '{device}' is not a device of this file"
  | .undefinedProcedure path procedure =>
    s!"{path}: procedure '{procedure}' is referenced but never defined"
  | .priorityRange path line seconds =>
    s!"{path}:{line}: high priority duration {seconds} is invalid (must be >= -1)"
  | .missingEntry path => s!"{path}: entry procedure 'Main' not found"
  | .loadedEntry path => s!"{path}: entry procedure 'Main' must be defined in this file, not loaded"

def LoadError.cause? : LoadError → Option String
  | .unreadable _ e => some e.message
  | .directive _ _ e => some e.message
  | .malformed _ e => some e.message
  | _ => none

structure Loader where
  tree : FileTree
  reader : LineReader := .standard
  lineBuffer : Nat := 64

structure Linker where
  places : List Place := []
  sheets : List (Option Sheet) := []
  window : Int := -1

namespace Linker

def declare (path : String) (line : Nat) (d : DeviceDecl) (s : Sheet) : Except LoadError Sheet :=
  let kind := if d.serial.isSome then .serial else .system
  match s.declare? d.name kind d.configuration d.serial with
  | some (_, s) => .ok s
  | none => .error (.duplicateDevice path line d.name)

def bind (path : String) (line : Nat) (target self : Sheet) :
    List String → List (String × String) → Except LoadError Bind
  | _, [] => .ok []
  | seen, (old, new) :: r =>
    if old ∈ seen then .error (.duplicateRename path line old)
    else match target.device? old with
      | none => bind path line target self (old :: seen) r
      | some d =>
        match self.device? new with
        | none => .error (.unknownDevice path line new)
        | some e => (bind path line target self (old :: seen) r).map ((d.id, e.id) :: ·)

def newName (renames : List (String × String)) (name : String) : String :=
  ((renames.find? (·.1 = name)).map (·.2)).getD name

def exports (target : Sheet) : List Procedure := target.procedures.filter (·.origin?.isNone)

def addAliases (path : String) (line : Nat) (file : Nat) (renames : List (String × String))
    (bind : Bind) : List Procedure → Sheet → Except LoadError Unit × Sheet
  | [], s => (.ok (), s)
  | p :: r, s =>
    let name := newName renames p.name
    if (s.procedure? name).isSome then (.error (.duplicateDefinition path line name), s)
    else addAliases path line file renames bind r (s.put ⟨name, .alias ⟨file, p.name⟩ bind⟩)

def link (path : String) (line : Nat) (target : Sheet) (renames : List (String × String))
    (self : Sheet) : Except LoadError Unit × Sheet :=
  match bind path line target self [] renames with
  | .error e => (.error e, self)
  | .ok pairs => addAliases path line target.file renames pairs (exports target) self

def setWindow (chain : List Nat) (path : String) (line : Nat) (seconds : Int) (st : Linker) :
    Except LoadError Linker :=
  if chain.length ≠ 1 then .ok st
  else if seconds < -1 then .error (.priorityRange path line seconds)
  else .ok { st with window := seconds }

end Linker

namespace Loader

abbrev Visit := Linker → Place → Except LoadError (Linker × Nat)

def fileAt (visit : Visit) (chain : List Nat) (st : Linker) (p : Place) :
    Except LoadError (Linker × Nat) :=
  match st.places.idxOf? p with
  | none => visit st p
  | some id =>
    if id ∈ chain then
      .error (.cycle (chain.filterMap (fun i => (st.places[i]?).map Place.path) ++ [p.path]))
    else .ok (st, id)

def load (L : Loader) (visit : Visit) (chain : List Nat) (here : Place) (line : Nat) (d : LoadDecl)
    (st : Linker) (self : Sheet) : Except LoadError (Linker × Sheet) := do
  let target := Path.join (Place.path here.dropLast) d.path
  let p ← (L.tree.canonical [] target).mapError (.unreadable target)
  let (st, id) ← fileAt visit chain st p
  match st.sheets[id]? with
  | some (some sheet) =>
    let (result, self) := Linker.link here.path line sheet d.renames self
    result.map fun _ => (st, self)
  | _ => throw (.readerStopped p.path)

def obey (L : Loader) (visit : Visit) (chain : List Nat) (here : Place) (line : Nat)
    (text : List Char) (st : Linker) (self : Sheet) : Except LoadError (Linker × Sheet) := do
  match ← (Directive.read text).mapError (.directive here.path line) with
  | .device d => return (st, ← Linker.declare here.path line d self)
  | .load d => L.load visit chain here line d st self
  | .priority seconds => return (← Linker.setWindow chain here.path line seconds st, self)

/-- Goes through the lines of a file. A directive waits for the lines before it; it is not read any
more once one of them was refused. -/
def readLines (L : Loader) (visit : Visit) (chain : List Nat) (here : Place) :
    List (Except FileError (List Char) × Nat) → Linker → Pipe → Except LoadError (Linker × Pipe)
  | [], st, pipe => .ok (st, pipe)
  | (.error e, _) :: _, _, _ => .error (.unreadable here.path e)
  | (.ok line, n) :: rest, st, pipe =>
    let text := Text.trim line
    if Directive.isDirective text then
      match pipe.pause? L.reader with
      | none => .error (.readerStopped here.path)
      | some pipe =>
        if !pipe.isHealthy then .ok (st, pipe)
        else do
          let (st, sheet) ← L.obey visit chain here n text st pipe.draft.sheet
          let pipe := { pipe with draft := { pipe.draft with sheet := sheet } }
          L.readLines visit chain here rest st (pipe.resume L.reader)
    else
      match pipe.feed? L.reader n text with
      | none => .error (.readerStopped here.path)
      | some pipe => L.readLines visit chain here rest st pipe

def finish (here : Place) (pipe : Pipe) : Except LoadError Sheet :=
  match pipe.finish? with
  | none => .error (.readerStopped here.path)
  | some (.error e) => .error (.malformed here.path e)
  | some (.ok ()) =>
    match pipe.draft.sheet.undefined? with
    | some name => .error (.undefinedProcedure here.path name)
    | none => .ok pipe.draft.sheet

def visit (L : Loader) : Nat → List Nat → Visit
  | 0, _, _, here => .error (.readerStopped here.path)
  | n + 1, chain, st, here => do
    let id := st.places.length
    let chain := chain ++ [id]
    let st := { st with places := st.places ++ [here], sheets := st.sheets ++ [none] }
    let (st, pipe) ← L.readLines (L.visit n chain) chain here ((L.tree.lines here).zipIdx 1) st
      (Pipe.start L.lineBuffer { file := id, path := here.path })
    let sheet ← finish here pipe
    return ({ st with sheets := st.sheets.set id (some sheet) }, id)

/-- The program whose root is at `root`, for one who stands at `here`. The places of a chain are
different nodes of the tree, so the allowance is never used up. -/
def program (L : Loader) (here : Place) (root : String) : Except LoadError Program := do
  let p ← (L.tree.canonical here root).mapError (.unreadable root)
  let (st, _) ← L.visit (L.tree.nodes.length + 1) [] {} p
  match st.sheets.mapM id with
  | some sheets => return ⟨sheets, st.window⟩
  | none => throw (.readerStopped root)

end Loader

def Program.entry (p : Program) : Except LoadError ProcRef :=
  match p.procedure? ⟨0, "Main"⟩ with
  | none => .error (.missingEntry (p.path 0))
  | some main =>
    if main.origin?.isSome then .error (.loadedEntry (p.path 0)) else .ok ⟨0, "Main"⟩

end CueSheet
