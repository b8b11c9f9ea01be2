import CueSheet.Device.Instance
import CueSheet.Program

/-!
Substitution and the instances of a run. Every call brings a frame of pairs; a device goes through the
frames from the innermost call outward. What is left after it has one instance, made when it is first
needed; the instances stand in the order of their devices.
-/

namespace CueSheet

namespace Bind

def apply (b : Bind) (d : DeviceId) : DeviceId := ((b.find? (·.1 = d)).map (·.2)).getD d

end Bind

/-- The frames of the calls in force, the innermost first. -/
structure Chain where
  frames : List Bind := []

namespace Chain

def push (c : Chain) (b : Bind) : Chain := ⟨b :: c.frames⟩

def pop (c : Chain) : Chain := ⟨c.frames.tail⟩

def depth (c : Chain) : Nat := c.frames.length

def resolve (c : Chain) (d : DeviceId) : DeviceId := c.frames.foldl (fun d b => Bind.apply b d) d

end Chain

structure Registered (τ : Type) where
  id : DeviceId
  name : String
  unit : Instance τ

structure Registry (τ : Type) where
  entries : List (Registered τ) := []
  /-- The devices in the order in which their instances were made. -/
  created : List DeviceId := []

namespace Registry

variable {τ : Type}

def entry? (r : Registry τ) (id : DeviceId) : Option (Registered τ) := r.entries.find? (·.id = id)

def place (e : Registered τ) : List (Registered τ) → List (Registered τ)
  | [] => [e]
  | f :: r => if (compare e.id f.id).isLT then e :: f :: r else f :: place e r

/-- The device behind `id`, with an instance. Where none can be made, nothing changes. -/
def resolve (w : Workshop τ) (p : Program) (c : Chain) (id : DeviceId) (r : Registry τ) :
    Except DeviceError (DeviceId × Registry τ) := do
  let final := c.resolve id
  if (r.entry? final).isSome then return (final, r)
  match p.device? final with
  | none => throw (.undeclared (p.deviceName final))
  | some d =>
    let i ← Instance.create w d
    return (final, ⟨place ⟨final, d.name, i⟩ r.entries, r.created ++ [final]⟩)

def unresolved (id : DeviceId) : DeviceError := .undeclared s!"#{id.file}:{id.index}"

def name (r : Registry τ) (id : DeviceId) : String :=
  ((r.entry? id).map (·.name)).getD "<unresolved>"

def test (r : Registry τ) (id : DeviceId) (args : List Value) : Except DeviceError Unit :=
  match r.entry? id with
  | none => .error (unresolved id)
  | some e => e.unit.test e.name args

def update (id : DeviceId) (i : Instance τ) (r : Registry τ) : Registry τ :=
  { r with entries := r.entries.map fun e => if e.id = id then { e with unit := i } else e }

variable {m : Type → Type} [Monad m]

def execute (rig : Rig m τ) (id : DeviceId) (args : List Value) (r : Registry τ) :
    m (Except DeviceError Unit × Registry τ) :=
  match r.entry? id with
  | none => return (.error (unresolved id), r)
  | some e => do
    let (result, i) ← e.unit.execute rig e.name args
    return (result, r.update id i)

def openEntries (rig : Rig m τ) :
    List (Registered τ) → m (Except DeviceError Unit × List (Registered τ))
  | [] => return (.ok (), [])
  | e :: r => do
    let (result, i) ← e.unit.openPort rig
    let e := { e with unit := i }
    match result with
    | .error x => return (.error x, e :: r)
    | .ok () =>
      let (result, r) ← openEntries rig r
      return (result, e :: r)

def openAll (rig : Rig m τ) (r : Registry τ) : m (Except DeviceError Unit × Registry τ) := do
  let (result, es) ← openEntries rig r.entries
  return (result, { r with entries := es })

def closeEntries (rig : Rig m τ) : List (Registered τ) → m (Nat × List (Registered τ))
  | [] => return (0, [])
  | e :: r => do
    let (result, i) ← e.unit.closePort rig
    let (failures, r) ← closeEntries rig r
    return ((if result.toBool then 0 else 1) + failures, { e with unit := i } :: r)

def closeAll (rig : Rig m τ) (r : Registry τ) : m (Nat × Registry τ) := do
  let (failures, es) ← closeEntries rig r.entries
  return (failures, { r with entries := es })

end Registry

end CueSheet
