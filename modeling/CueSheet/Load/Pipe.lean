import CueSheet.Draft

/-!
The line between the one who reads a file and the one who reads its grammar. Lines wait in a bounded
queue; a pause waits there too, and once the reader has taken it, all earlier lines are in the draft and
nothing touches the draft until the reader is told to go on.
-/

namespace CueSheet

/-- Reads one line into a draft. `none` is the end of the reader itself. -/
abbrev LineReader := Nat → List Char → Draft → Option Reading

def LineReader.standard : LineReader := fun n text d => some (d.read n text)

def LineReader.endingAt (last : List Char) (r : LineReader) : LineReader := fun n text d =>
  if text = last then none else r n text d

inductive Message
  | line (number : Nat) (text : List Char)
  | pause
deriving DecidableEq

inductive Worker
  | running
  | parked
  | gone
deriving DecidableEq

structure Pipe where
  capacity : Nat
  draft : Draft
  queue : List Message := []
  worker : Worker := .running
  failure : Option SyntaxError := none

namespace Pipe

def start (capacity : Nat) (sheet : Sheet) : Pipe :=
  { capacity := max capacity 1, draft := ⟨sheet, none⟩ }

/-- The reader takes the next message. Behind a refused line it only empties the queue. -/
def work (r : LineReader) (p : Pipe) : Pipe :=
  match p.worker, p.queue with
  | .running, .pause :: q => { p with queue := q, worker := .parked }
  | .running, .line n text :: q =>
    if p.failure.isSome then { p with queue := q }
    else match r n text p.draft with
      | none => { p with queue := q, worker := .gone }
      | some reading => { p with queue := q, draft := reading.draft, failure := reading.refusal }
  | _, _ => p

def settle (r : LineReader) (p : Pipe) : Pipe := p.queue.length.repeat (work r) p

def send? (m : Message) (p : Pipe) : Option Pipe :=
  if p.worker = .gone || p.queue.length ≥ p.capacity then none
  else some { p with queue := p.queue ++ [m] }

def feed? (r : LineReader) (n : Nat) (text : List Char) (p : Pipe) : Option Pipe :=
  (p.send? (.line n text)).map (settle r)

def pause? (r : LineReader) (p : Pipe) : Option Pipe :=
  ((p.send? .pause).map (settle r)).filter (·.worker = .parked)

def isHealthy (p : Pipe) : Bool := p.failure.isNone

def resume (r : LineReader) (p : Pipe) : Pipe :=
  if p.worker = .parked then settle r { p with worker := .running } else p

def finish? (p : Pipe) : Option (Except SyntaxError Unit) :=
  if p.worker = .gone then none
  else match p.failure with
    | some e => some (.error e)
    | none => some p.draft.finish

end Pipe

end CueSheet
