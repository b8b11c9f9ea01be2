import CueSheet.Decimal
import CueSheet.Program

/-!
Compiling. A cursor gives every entry of a timed block its span: an entry without a time sits at the
cursor, `at` moves the cursor, and the end of an entry is where the next one starts if it does not say
otherwise. The commands are put into the order of dispatch and checked, and a call of an alias becomes a
call of its origin.
-/

namespace CueSheet

structure Span where
  device : DeviceId
  start : Nat
  stop : Nat
deriving DecidableEq, Repr

structure Overlap where
  span : Span
  previousStop : Nat
deriving DecidableEq, Repr

namespace Span

def lastStop? (device : DeviceId) (seen : List Span) : Option Nat :=
  (seen.find? (·.device = device)).map (·.stop)

/-- Looks through the spans in order, `seen` being the earlier ones. Only the last span of a device
counts against the next one. -/
def overlapAfter? (seen : List Span) : List Span → Option Overlap
  | [] => none
  | s :: r =>
    match (lastStop? s.device seen).filter (s.start < ·) with
    | some previous => some ⟨s, previous⟩
    | none => overlapAfter? (s :: seen) r

def overlap? (spans : List Span) : Option Overlap := overlapAfter? [] spans

end Span

structure Command where
  device : DeviceId
  params : List Value
  start : Nat
  stop : Nat

def Command.span (c : Command) : Span := ⟨c.device, c.start, c.stop⟩

structure Timeline where
  commands : List Command
  duration : Nat

namespace Timeline

def lastStop (cs : List Command) : Nat := cs.foldl (fun t c => max t c.stop) 0

def ofCommands (cs : List Command) : Timeline := ⟨cs, lastStop cs⟩

def single (device : DeviceId) (params : List Value) : Timeline := ⟨[⟨device, params, 0, 0⟩], 0⟩

/-- The start, the end, and the cursor after an entry. Ends pass through `clamp`. -/
def advance (clamp : Nat → Nat) (cursor : Nat) : Option TimeSpec → Nat × Nat × Nat
  | none => (cursor, cursor, cursor)
  | some spec =>
    let start := spec.start.getD cursor
    let stop := match spec.stop with
      | .at t => t
      | .after length => clamp (start + length)
    (start, stop, stop)

def clampToWord (t : Nat) : Nat := min t Decimal.maxWord

def order (name : DeviceId → String) (a b : Command) : Ordering :=
  (compare a.start b.start).then
    ((compare (name a.device) (name b.device)).then (compare a.device b.device))

/-- In the order of dispatch; commands that agree in all of it stay as they were. -/
def sort (name : DeviceId → String) (cs : List Command) : List Command :=
  cs.mergeSort fun a b => (order name a b).isLE

end Timeline

structure Call where
  target : ProcRef
  bind : Bind

inductive Step
  | timeline (t : Timeline)
  | call (c : Call)

structure Compiled where
  procedures : List (ProcRef × List Step)

def Compiled.steps? (c : Compiled) (r : ProcRef) : Option (List Step) :=
  (c.procedures.find? (·.1 = r)).map (·.2)

inductive CompileFault
  | overlap (device : String) (o : Overlap)
  | range (device : String) (start stop : Nat)
  | argument (device : String) (e : EvalError)
  | unknown (name : String)

def CompileFault.message (procedure : String) : CompileFault → String
  | .overlap device o =>
    let start := o.span.start
    let stop := o.span.stop
    s!"procedure '{procedure}': device '{device}' command [{start}, {stop}] ms overlaps " ++
    s!"its previous command ending at {o.previousStop} ms"
  | .range device start stop =>
    s!"procedure '{procedure}': device '{device}' command starts at {start} ms " ++
    s!"but ends at {stop} ms"
  | .argument device e => s!"procedure '{procedure}': argument for device '{device}': {e.message}"
  | .unknown name => s!"procedure '{procedure}' invokes unknown procedure '{name}'"

structure CompileError where
  path : String
  procedure : String
  fault : CompileFault

def CompileError.message (e : CompileError) : String :=
  s!"{e.path}: {e.fault.message e.procedure}"

def CompileError.cause? (e : CompileError) : Option String :=
  match e.fault with
  | .argument _ e => some e.message
  | _ => none

namespace Program

def evaluate (p : Program) (device : DeviceId) (args : List Expr) :
    Except CompileFault (List Value) :=
  (args.mapM Expr.eval).mapError (.argument (p.deviceName device))

def commands (p : Program) (clamp : Nat → Nat) : Nat → List Entry → Except CompileFault (List Command)
  | _, [] => .ok []
  | cursor, e :: r =>
    let (start, stop, cursor) := Timeline.advance clamp cursor e.time
    match p.evaluate e.device e.args with
    | .error f => .error f
    | .ok params => (p.commands clamp cursor r).map (⟨e.device, params, start, stop⟩ :: ·)

def checkOrder (p : Program) (cs : List Command) : Except CompileFault Unit :=
  match cs.find? (fun c => c.stop < c.start) with
  | some c => .error (.range (p.deviceName c.device) c.start c.stop)
  | none =>
    match Span.overlap? (cs.map Command.span) with
    | some o => .error (.overlap (p.deviceName o.span.device) o)
    | none => .ok ()

def timelineWith (p : Program) (clamp : Nat → Nat) (entries : List Entry) :
    Except CompileFault Timeline := do
  let cs ← p.commands clamp 0 entries
  let cs := Timeline.sort p.deviceName cs
  p.checkOrder cs
  return Timeline.ofCommands cs

def timeline (p : Program) (entries : List Entry) : Except CompileFault Timeline :=
  p.timelineWith Timeline.clampToWord entries

def step (p : Program) (file : Nat) : Element → Except CompileFault Step
  | .timed entries => (p.timeline entries).map .timeline
  | .command device args =>
    (p.evaluate device args).map fun params => .timeline (Timeline.single device params)
  | .call name =>
    match p.procedure? ⟨file, name⟩ with
    | none => .error (.unknown name)
    | some callee =>
      match callee.definition with
      | .alias origin bind => .ok (.call ⟨origin, bind⟩)
      | _ => .ok (.call ⟨⟨file, name⟩, []⟩)

def blame (p : Program) (r : ProcRef) {α : Type} (x : Except CompileFault α) :
    Except CompileError α := x.mapError (⟨p.path r.file, r.name, ·⟩)

def compileProcedure (p : Program) (r : ProcRef) : Except CompileError (List Step) :=
  p.blame r <| match p.procedure? r with
    | none => .error (.unknown r.name)
    | some procedure => procedure.body.mapM (p.step r.file)

def ownProcedures (s : Sheet) : List ProcRef :=
  (s.procedures.filter fun q => q.isDefined && q.origin?.isNone).map (⟨s.file, ·.name⟩)

def compile (p : Program) : Except CompileError Compiled :=
  Compiled.mk <$> (p.sheets.flatMap ownProcedures).mapM fun r =>
    (p.compileProcedure r).map (r, ·)

end Program

end CueSheet
