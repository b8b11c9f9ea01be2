import CueSheet.Load.Basic

/-!
A load as two parties see it who work at their own pace: the loader, who goes through the lines of a
file, and the reader of its grammar. Between them is a queue of bounded length. A pause is granted, and
later given back, only when both are there for it; everything else one of them does alone.
-/

namespace CueSheet

abbrev FileLine := Except FileError (List Char) × Nat

/-- Where the loader stands. A pause that was granted is given back before the loader goes on, also
when it goes on to stop. -/
inductive Position
  | reading (rest : List FileLine)
  | asking (line : List Char) (number : Nat) (rest : List FileLine)
  | granted (healthy : Bool) (line : List Char) (number : Nat) (rest : List FileLine)
  | releasing (next : Position)
  | closed
  | returned (outcome : Except LoadError (Linker × Sheet))

namespace Position

def isAsking : Position → Bool
  | .asking .. => true
  | _ => false

def holdsPause : Position → Bool
  | .granted .. | .releasing _ => true
  | _ => false

def isClosed : Position → Bool
  | .closed | .returned _ => true
  | _ => false

end Position

inductive Attention
  | waiting
  | holding (m : Message)
  | parked
  | ended (verdict : Except SyntaxError Unit)
  | gone

def Attention.isThere : Attention → Bool
  | .waiting | .holding _ | .parked => true
  | .ended _ | .gone => false

structure Exchange where
  position : Position
  linker : Linker
  draft : Draft
  queue : List Message := []
  reader : Attention := .waiting
  failure : Option SyntaxError := none

def Loader.deliver (here : Place) (verdict : Except SyntaxError Unit) (sheet : Sheet) :
    Except LoadError Sheet :=
  match verdict with
  | .error e => .error (.malformed here.path e)
  | .ok () =>
    match sheet.undefined? with
    | some name => .error (.undefinedProcedure here.path name)
    | none => .ok sheet

namespace Exchange

def verdict (s : Exchange) : Except SyntaxError Unit :=
  match s.failure with
  | some e => .error e
  | none => s.draft.finish

section Steps

variable (L : Loader) (visit : Loader.Visit) (chain : List Nat) (here : Place)

def hasRoom (s : Exchange) : Prop := s.queue.length < max L.lineBuffer 1

inductive LoaderStep (s : Exchange) : Exchange → Prop
  | fail {e n rest} : s.position = .reading ((.error e, n) :: rest) →
    LoaderStep s { s with position := .returned (.error (.unreadable here.path e)) }
  | feed {line n rest} : s.position = .reading ((.ok line, n) :: rest) →
    Directive.isDirective (Text.trim line) = false → s.reader.isThere = true → s.hasRoom L →
    LoaderStep s { s with
      position := .reading rest, queue := s.queue ++ [.line n (Text.trim line)] }
  | ask {line n rest} : s.position = .reading ((.ok line, n) :: rest) →
    Directive.isDirective (Text.trim line) = true → s.reader.isThere = true → s.hasRoom L →
    LoaderStep s { s with position := .asking line n rest, queue := s.queue ++ [.pause] }
  | stop {line n rest} : s.position = .reading ((.ok line, n) :: rest) → s.reader.isThere = false →
    LoaderStep s { s with position := .returned (.error (.readerStopped here.path)) }
  | refuse {line n rest} : s.position = .granted false line n rest →
    LoaderStep s { s with position := .releasing .closed }
  | obey {line n rest st sheet} : s.position = .granted true line n rest →
    L.obey visit chain here n (Text.trim line) s.linker s.draft.sheet = .ok (st, sheet) →
    LoaderStep s { s with
      position := .releasing (.reading rest), linker := st, draft := { s.draft with sheet := sheet } }
  | reject {line n rest e} : s.position = .granted true line n rest →
    L.obey visit chain here n (Text.trim line) s.linker s.draft.sheet = .error e →
    LoaderStep s { s with position := .releasing (.returned (.error e)) }
  | abandon {next} : s.position = .releasing next → s.reader.isThere = false →
    LoaderStep s { s with position := next }
  | close : s.position = .reading [] → LoaderStep s { s with position := .closed }
  | join {verdict} : s.position = .closed → s.reader = .ended verdict →
    LoaderStep s { s with
      position := .returned ((Loader.deliver here verdict s.draft.sheet).map (s.linker, ·)) }
  | lose : s.position = .closed → s.reader = .gone →
    LoaderStep s { s with position := .returned (.error (.readerStopped here.path)) }

/-- Behind a refused line the reader only empties the queue, so that the loader is never held up. -/
inductive ReaderStep (s : Exchange) : Exchange → Prop
  | take {m rest} : s.reader = .waiting → s.queue = m :: rest →
    ReaderStep s { s with reader := .holding m, queue := rest }
  | read {n text reading} : s.reader = .holding (.line n text) → s.failure = none →
    L.reader n text s.draft = some reading →
    ReaderStep s { s with reader := .waiting, draft := reading.draft, failure := reading.refusal }
  | skip {n text e} : s.reader = .holding (.line n text) → s.failure = some e →
    ReaderStep s { s with reader := .waiting }
  | collapse {n text} : s.reader = .holding (.line n text) → s.failure = none →
    L.reader n text s.draft = none → ReaderStep s { s with reader := .gone }
  | unheard : s.reader = .holding .pause → s.position.isAsking = false →
    ReaderStep s { s with reader := .waiting }
  | finish : s.reader = .waiting → s.queue = [] → s.position.isClosed = true →
    ReaderStep s { s with reader := .ended s.verdict }

inductive Meeting (s : Exchange) : Exchange → Prop
  | acknowledge {line n rest} : s.position = .asking line n rest → s.reader = .holding .pause →
    Meeting s { s with position := .granted s.failure.isNone line n rest, reader := .parked }
  | resume {next} : s.position = .releasing next → s.reader = .parked →
    Meeting s { s with position := next, reader := .waiting }

def Step (s t : Exchange) : Prop :=
  s.LoaderStep L visit chain here t ∨ s.ReaderStep L t ∨ s.Meeting t

end Steps

def start (L : Loader) (st : Linker) (d : Draft) (here : Place) : Exchange :=
  { position := .reading ((L.tree.lines here).zipIdx 1), linker := st, draft := d }

end Exchange

end CueSheet
