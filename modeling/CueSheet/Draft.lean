import CueSheet.Line.Statement
import CueSheet.Program

/-!
A file while it is read: its symbol table so far, and the block that is open. A line is read or refused;
a refused line changes nothing, except that a closing brace loses the procedure that it cannot define.
-/

namespace CueSheet

structure OpenTimeline where
  line : Nat
  entries : List Entry

structure OpenProcedure where
  name : String
  line : Nat
  body : List Element
  timeline : Option OpenTimeline

structure Draft where
  sheet : Sheet
  block : Option OpenProcedure := none

structure Reading where
  draft : Draft
  refusal : Option SyntaxError

namespace Draft

def accepted (d : Draft) : Reading := ⟨d, none⟩

def refused (d : Draft) (e : SyntaxError) : Reading := ⟨d, some e⟩

def malformed (d : Draft) (line : Nat) (f : Fault) : Reading := d.refused (.malformed line f)

def close (d : Draft) (line : Nat) : Reading :=
  match d.block with
  | none => d.malformed line .strayClosing
  | some b =>
    match b.timeline with
    | some t =>
      accepted { d with block := some { b with
        body := b.body ++ [.timed t.entries], timeline := none } }
    | none =>
      match d.sheet.define? b.name b.body with
      | some sheet => accepted ⟨sheet, none⟩
      | none => refused { d with block := none } (.duplicate line b.name)

def openProcedure (d : Draft) (line : Nat) (name : String) : Reading :=
  if d.block.isSome then d.malformed line .nestedProcedure
  else if (d.sheet.device? name).isSome then d.malformed line (.deviceName name)
  else if d.sheet.isDefined name then d.refused (.duplicate line name)
  else accepted { d with block := some ⟨name, line, [], none⟩ }

def forward (d : Draft) (line : Nat) (name : String) : Reading :=
  if d.block.isSome then d.malformed line .nestedForward
  else accepted { d with sheet := d.sheet.mention name }

def openTimeline (d : Draft) (line : Nat) : Reading :=
  match d.block with
  | none => d.malformed line .strayTimeline
  | some b =>
    match b.timeline with
    | some _ => d.malformed line .nestedTimeline
    | none => accepted { d with block := some { b with timeline := some ⟨line, []⟩ } }

/-- A statement names a device before it names a procedure. -/
def perform (d : Draft) (line : Nat) (b : OpenProcedure) (s : Line.Statement) : Reading :=
  match d.sheet.device? s.name, b.timeline with
  | some device, some t =>
    accepted { d with block := some { b with
      timeline := some { t with entries := t.entries ++ [⟨device.id, s.args, s.time⟩] } } }
  | some device, none =>
    if s.time.isSome then d.malformed line .timeOutsideTimeline
    else accepted { d with block := some { b with
      body := b.body ++ [.command device.id s.args] } }
  | none, some _ => d.malformed line (.notADevice s.name)
  | none, none =>
    if !s.args.isEmpty || s.time.isSome then d.malformed line (.procedureArguments s.name)
    else accepted { sheet := d.sheet.mention s.name,
                    block := some { b with body := b.body ++ [.call s.name] } }

def statement (d : Draft) (line : Nat) (ts : List Token) : Reading :=
  match d.block with
  | none => d.malformed line .strayStatement
  | some b =>
    match Line.statement ts with
    | .error f => d.malformed line f
    | .ok s => d.perform line b s

def readTokens (d : Draft) (line : Nat) (ts : List Token) : Reading :=
  match Line.Kind.of ts with
  | .blank => d.accepted
  | .closing => d.close line
  | .procedure name => d.openProcedure line name
  | .forward name => d.forward line name
  | .timeline => d.openTimeline line
  | .badHeader kw => d.malformed line (.header kw)
  | .other ts => d.statement line ts

def read (d : Draft) (line : Nat) (text : List Char) : Reading :=
  match Token.scan text with
  | .error e => d.malformed line (.lex e)
  | .ok ts => d.readTokens line ts

def finish (d : Draft) : Except SyntaxError Unit :=
  match d.block with
  | none => .ok ()
  | some b =>
    match b.timeline with
    | some t => .error (.unclosed t.line .timeline)
    | none => .error (.unclosed b.line .body)

end Draft

end CueSheet
