import CueSheet.Dispatch
import CueSheet.Load.Basic
import CueSheet.Settings.Basic

/-!
A whole run. Loading, compiling, planning and the test of all commands come first and touch no device;
then the devices are opened, the plan is dispatched, and the devices are closed again.
-/

namespace CueSheet

inductive RunError
  | load (path : String) (e : LoadError)
  | entry (e : LoadError)
  | compile (e : CompileError)
  | plan (e : PlanError)
  | preflight (e : DeviceError)
  | openDevices (e : DeviceError)

def RunError.message (e : RunError) : String :=
  let parts := match e with
    | .load path e => s!"Failed to load program: {path}" :: e.message :: e.cause?.toList
    | .entry e => e.message :: e.cause?.toList
    | .compile e => "Compilation failed" :: e.message :: e.cause?.toList
    | .plan e => "Cannot build execution plan" :: e.message :: e.cause?.toList
    | .preflight e => "Pre-flight device test failed" :: e.message :: e.cause?.toList
    | .openDevices e => "Cannot open devices" :: e.message :: e.cause?.toList
  ": ".intercalate parts

def maxWindow : Int := 2147483

def window? (seconds : Int) : Option Nat :=
  if 0 < seconds && seconds ≤ maxWindow then some seconds.toNat else none

structure Stage (τ : Type) where
  tree : FileTree
  /-- Where paths start that are not absolute. -/
  here : Place
  settings : Settings := {}
  workshop : Workshop τ

namespace Stage

variable {τ : Type}

def prepare (s : Stage τ) (path : String) (r : Registry τ) :
    Except RunError Plan × Registry τ :=
  let compiled : Except RunError (Program × ProcRef × Compiled) := do
    let loader : Loader := { tree := s.tree, lineBuffer := s.settings.lineBuffer }
    let program ← (loader.program s.here path).mapError (.load path)
    let entry ← program.entry.mapError .entry
    let compiled ← program.compile.mapError .compile
    return (program, entry, compiled)
  match compiled with
  | .error e => (.error e, r)
  | .ok (program, entry, compiled) =>
    match Plan.build s.workshop program compiled entry r with
    | (.error e, r) => (.error (.plan e), r)
    | (.ok plan, r) =>
      match plan.preflight r with
      | .error e => (.error (.preflight e), r)
      | .ok () => (.ok plan, r)

variable {m : Type → Type} [Monad m]

/-- Devices that were opened are closed again, also when a later one cannot be opened. -/
def perform (rig : Rig m τ) (plan : Plan) (r : Registry τ) :
    m (Except RunError Report × Registry τ) := do
  match ← r.openAll rig with
  | (.error e, r) =>
    let (_, r) ← r.closeAll rig
    return (.error (.openDevices e), r)
  | (.ok (), r) =>
    let (r, report) ← Dispatch.run rig plan r
    let (_, r) ← r.closeAll rig
    return (.ok report, r)

def run (rig : Rig m τ) (s : Stage τ) (path : String) (dry : Bool) (r : Registry τ) :
    m (Except RunError (Option Report) × Registry τ) := do
  match s.prepare path r with
  | (.error e, r) => return (.error e, r)
  | (.ok plan, r) =>
    if dry then return (.ok none, r)
    let (result, r) ← perform rig plan r
    return (result.map some, r)

end Stage

end CueSheet
