import CueSheet.Line.Fault
import CueSheet.Program

/-!
Reading an expression. Sums are made of products and products of atoms, and both associate to the left:

    sum     := product (("+" | "-") product)*
    product := atom (("*" | "/") atom)*
    atom    := number | "-" number | text | name | "(" sum ")"
-/

namespace CueSheet.Line

def unexpected {α : Type} (wanted : Expected) (ts : List Token) : Except Fault α :=
  .error (.unexpected wanted ts.head?)

def additive? : Token → Option Operator
  | .symbol .plus => some .add
  | .symbol .minus => some .sub
  | _ => none

def multiplicative? : Token → Option Operator
  | .symbol .star => some .mul
  | .symbol .slash => some .div
  | _ => none

inductive Part
  | sum
  | moreSum (lhs : Expr)
  | product
  | moreProduct (lhs : Expr)
  | atom

def part : Nat → Part → List Token → Except Fault (Expr × List Token)
  | 0, _, ts => unexpected .expression ts
  | n + 1, .sum, ts => do
    let (e, r) ← part n .product ts
    part n (.moreSum e) r
  | n + 1, .product, ts => do
    let (e, r) ← part n .atom ts
    part n (.moreProduct e) r
  | n + 1, .moreSum lhs, ts =>
    match ts.head?.bind additive? with
    | none => .ok (lhs, ts)
    | some op => do
      let (rhs, r) ← part n .product ts.tail
      part n (.moreSum (.binary op lhs rhs)) r
  | n + 1, .moreProduct lhs, ts =>
    match ts.head?.bind multiplicative? with
    | none => .ok (lhs, ts)
    | some op => do
      let (rhs, r) ← part n .atom ts.tail
      part n (.moreProduct (.binary op lhs rhs)) r
  | n + 1, .atom, ts =>
    match ts with
    | .number x :: r => .ok (.literal (.number x.value), r)
    | .text s :: r => .ok (.literal (.text s), r)
    | .name s :: r => .ok (.literal (.variable s), r)
    | .symbol .minus :: .number x :: r => .ok (.literal (.number (-x.value)), r)
    | .symbol .minus :: r => unexpected .numberAfterMinus r
    | .symbol .lparen :: r => do
      let (e, r) ← part n .sum r
      match r with
      | .symbol .rparen :: r => .ok (e, r)
      | r => unexpected .closing r
    | ts => unexpected .expression ts

/-- Three calls for each token and three more are never used up. -/
def expression (ts : List Token) : Except Fault (Expr × List Token) :=
  part (3 * ts.length + 3) .sum ts

def moreArguments : Nat → List Token → Except Fault (List Expr × List Token)
  | 0, ts => unexpected .commaOrClosing ts
  | n + 1, ts => do
    let (e, r) ← expression ts
    match r with
    | .symbol .comma :: r => do
      let (es, r) ← moreArguments n r
      return (e :: es, r)
    | .symbol .rparen :: r => return ([e], r)
    | r => unexpected .commaOrClosing r

def arguments (ts : List Token) : Except Fault (List Expr × List Token) :=
  match ts with
  | .symbol .rparen :: r => .ok ([], r)
  | ts => moreArguments (ts.length + 1) ts

end CueSheet.Line
