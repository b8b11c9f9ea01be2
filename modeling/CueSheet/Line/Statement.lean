import CueSheet.Line.Expression
import CueSheet.Program

/-!
The kinds of line, told apart by their tokens, and the statement that all other lines have to be.
-/

namespace CueSheet.Line

structure Statement where
  name : String
  args : List Expr
  time : Option TimeSpec

def milliseconds (ts : List Token) : Except Fault (Nat × List Token) :=
  match ts with
  | .number n :: r =>
    if n.fraction.isSome then unexpected .milliseconds ts
    else
      let t := Decimal.ofDigits n.whole
      if t ≤ Decimal.maxWord then .ok (t, r) else .error (.timeRange n.spelling)
  | ts => unexpected .milliseconds ts

def timeAfter? (kw : String) (ts : List Token) : Except Fault (Option Nat × List Token) :=
  match ts with
  | .name s :: r =>
    if s = kw then do
      let (t, r) ← milliseconds r
      return (some t, r)
    else .ok (none, ts)
  | ts => .ok (none, ts)

def stop? (ts : List Token) : Except Fault (Option EndSpec × List Token) := do
  match ← timeAfter? "for" ts with
  | (some t, r) => return (some (.after t), r)
  | (none, ts) =>
    let (t, r) ← timeAfter? "to" ts
    return (t.map .at, r)

def time? (ts : List Token) : Except Fault (Option TimeSpec × List Token) := do
  let (start, r) ← timeAfter? "at" ts
  match start, ← stop? r with
  | start, (some stop, r) => return (some ⟨start, stop⟩, r)
  | some _, (none, r) => unexpected .stop r
  | none, (none, r) => return (none, r)

def statement (ts : List Token) : Except Fault Statement := do
  match ts with
  | .name name :: r =>
    let (args, r) ← match r with
      | .symbol .lparen :: r => arguments r
      | r => .ok ([], r)
    let (time, r) ← time? r
    match r with
    | [] => return ⟨name, args, time⟩
    | r => unexpected .endOfLine r
  | ts => unexpected .name ts

inductive Kind
  | blank
  | closing
  | procedure (name : String)
  | forward (name : String)
  | timeline
  | badHeader (kw : Keyword)
  | other (ts : List Token)

def Kind.of : List Token → Kind
  | [] => .blank
  | [.symbol .rbrace] => .closing
  | [.name "proc", .name n, .symbol .lbrace] => .procedure n
  | [.name "proc", .name n, .symbol .semicolon] => .forward n
  | [.name "timeline", .symbol .lbrace] => .timeline
  | .name "proc" :: _ => .badHeader .proc
  | .name "timeline" :: _ => .badHeader .timeline
  | ts => .other ts

end CueSheet.Line
