import CueSheet.Plan

/-!
Dispatch: the timelines of a plan run one after another. Every command waits for its instant, counted from
the start of its timeline, and a timeline ends when its duration is over. A command that fails is counted
and the run goes on.
-/

namespace CueSheet

structure Report where
  timelines : Nat := 0
  commands : Nat := 0
  suppressed : Nat := 0
  /-- The longest time by which a command went out too late, in nanoseconds. -/
  lateness : Nat := 0
  /-- The length of the run, in nanoseconds. -/
  elapsed : Nat := 0
deriving DecidableEq, Repr

namespace Dispatch

variable {m : Type → Type} [Monad m] {τ : Type}

def nanos (ms : Nat) : Nat := 1000000 * ms

def waitUntil (rig : Rig m τ) (deadline : Nat) : m Unit := do
  let t ← rig.now
  if t < deadline then rig.sleep (deadline - t)

def commands (rig : Rig m τ) (started : Nat) :
    List Command → Registry τ → Report → m (Registry τ × Report)
  | [], r, report => return (r, report)
  | c :: cs, r, report => do
    let due := started + nanos c.start
    waitUntil rig due
    let t ← rig.now
    let (result, r) ← r.execute rig c.device c.params
    commands rig started cs r { report with
      commands := report.commands + 1
      suppressed := report.suppressed + if result.toBool then 0 else 1
      lateness := max report.lateness (t - due) }

def timeline (rig : Rig m τ) (t : Timeline) (r : Registry τ) (report : Report) :
    m (Registry τ × Report) := do
  let started ← rig.now
  let (r, report) ← commands rig started t.commands r report
  waitUntil rig (started + nanos t.duration)
  return (r, { report with timelines := report.timelines + 1 })

def timelines (rig : Rig m τ) :
    List PlannedTimeline → Registry τ → Report → m (Registry τ × Report)
  | [], r, report => return (r, report)
  | t :: ts, r, report => do
    let (r, report) ← timeline rig t.timeline r report
    timelines rig ts r report

def run (rig : Rig m τ) (p : Plan) (r : Registry τ) : m (Registry τ × Report) := do
  let started ← rig.now
  let (r, report) ← timelines rig p.timelines r {}
  let t ← rig.now
  return (r, { report with elapsed := t - started })

end Dispatch

end CueSheet
