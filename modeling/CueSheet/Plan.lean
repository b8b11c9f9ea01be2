import CueSheet.Registry
import CueSheet.Schedule

/-!
Planning: the calls of the entry procedure are followed, depth first and in the order of the bodies, and
what is left is one list of timelines over the devices that stand behind the substitutions.
-/

namespace CueSheet

structure PlannedTimeline where
  procedure : ProcRef
  timeline : Timeline

structure Plan where
  timelines : List PlannedTimeline

inductive PlanError
  | unknown (procedure : ProcRef)
  | recursion (cycle : List String)
  | overlap (procedure : ProcRef) (name : String) (o : Overlap)
  | device (e : DeviceError)
  /-- The counter of the total overflowed. The program stops here, the build does not return. -/
  | panic
deriving DecidableEq, Repr

def PlanError.message : PlanError → String
  | .unknown procedure => s!"procedure '{procedure.display}' is invoked but was never compiled"
  | .recursion cycle => "recursive procedure invocation: " ++ " -> ".intercalate cycle
  | .overlap procedure name o =>
    let start := o.span.start
    let stop := o.span.stop
    s!"procedure '{procedure.display}': after device substitution, '{name}' command " ++
    s!"[{start}, {stop}] ms overlaps its previous command ending at {o.previousStop} ms"
  | .device e => e.message
  | .panic => "attempt to add with overflow"

def PlanError.cause? : PlanError → Option String
  | .device e => e.cause?
  | _ => none

def addWord? (a b : Nat) : Option Nat := if a + b ≤ Decimal.maxWord then some (a + b) else none

namespace Plan

def commands (p : Plan) : List Command := p.timelines.flatMap (·.timeline.commands)

def commandCount (p : Plan) : Nat := p.commands.length

/-- The sum of the durations, in a counter of one word; there is none if the counter overflows. -/
def totalDuration (p : Plan) : Option Nat :=
  p.timelines.foldlM (fun total t => addWord? total t.timeline.duration) 0

def preflight {τ : Type} (p : Plan) (r : Registry τ) : Except DeviceError Unit :=
  p.commands.forM fun c => r.test c.device c.params

end Plan

structure Planning (τ : Type) where
  registry : Registry τ
  timelines : List PlannedTimeline := []

namespace Planning

variable {τ : Type}

abbrev Outcome (τ : Type) := Except PlanError Unit × Planning τ

def resolveAll (w : Workshop τ) (p : Program) (c : Chain) :
    List Command → Registry τ → Except DeviceError (List Command) × Registry τ
  | [], r => (.ok [], r)
  | x :: xs, r =>
    match r.resolve w p c x.device with
    | .error e => (.error e, r)
    | .ok (final, r) =>
      match resolveAll w p c xs r with
      | (.error e, r) => (.error e, r)
      | (.ok ys, r) => (.ok ({ x with device := final } :: ys), r)

/-- Adds a timeline. Where a substitution may be in force, the order of dispatch is restored; two devices
that became one may be in use at once. -/
def push (p : Program) (here : ProcRef) (depth : Nat) (cs : List Command) (duration : Nat)
    (st : Planning τ) : Outcome τ :=
  let cs := if 0 < depth then Timeline.sort p.deviceName cs else cs
  match Span.overlap? (cs.map Command.span) with
  | some o => (.error (.overlap here (p.deviceName o.span.device) o), st)
  | none => (.ok (), { st with timelines := st.timelines ++ [⟨here, ⟨cs, duration⟩⟩] })

def timeline (w : Workshop τ) (p : Program) (here : ProcRef) (c : Chain) (t : Timeline)
    (st : Planning τ) : Outcome τ :=
  match resolveAll w p c t.commands st.registry with
  | (.error e, r) => (.error (.device e), { st with registry := r })
  | (.ok cs, r) => push p here c.depth cs t.duration { st with registry := r }

def steps (w : Workshop τ) (p : Program) (here : ProcRef) (c : Chain)
    (visit : Chain → ProcRef → Planning τ → Outcome τ) : List Step → Planning τ → Outcome τ
  | [], st => (.ok (), st)
  | s :: r, st =>
    let (result, st) := match s with
      | .timeline t => timeline w p here c t st
      | .call call => visit (c.push call.bind) call.target st
    match result with
    | .error e => (.error e, st)
    | .ok () => steps w p here c visit r st

/-- Expands a procedure under the calls of `stack`, the outermost first. The procedures on the stack are
different and compiled, so an allowance of the number of compiled procedures is never used up. -/
def expand (w : Workshop τ) (p : Program) (compiled : Compiled) :
    Nat → List ProcRef → Chain → ProcRef → Planning τ → Outcome τ
  | n, stack, c, here, st =>
    if here ∈ stack then
      (.error (.recursion ((stack.dropWhile (· ≠ here)).map (·.name) ++ [here.name])), st)
    else match compiled.steps? here, n with
      | none, _ => (.error (.unknown here), st)
      | some _, 0 => (.error (.unknown here), st)
      | some body, n + 1 =>
        steps w p here c (expand w p compiled n (stack ++ [here])) body st

end Planning

def Planning.plan {τ : Type} (w : Workshop τ) (out : Outcome τ) : Except PlanError Plan × Registry τ :=
  let plan : Plan := ⟨out.2.timelines⟩
  match out.1 with
  | .error e => (.error e, out.2.registry)
  | .ok () =>
    if w.records && plan.totalDuration.isNone then (.error .panic, out.2.registry)
    else (.ok plan, out.2.registry)

def Plan.build {τ : Type} (w : Workshop τ) (p : Program) (compiled : Compiled) (entry : ProcRef)
    (r : Registry τ) : Except PlanError Plan × Registry τ :=
  Planning.plan w
    (Planning.expand w p compiled compiled.procedures.length [] {} entry { registry := r })

end CueSheet
