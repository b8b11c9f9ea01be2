import CueSheet.Line.Statement
import CueSheet.Program
import CueSheet.Text
import CueSheet.Token.Lexer

/-!
Procedures written as the lines of a program file. A text is quoted and escaped, a number stands in
decimal with a minus sign before it where it is negative, and an expression has the parentheses that
it needs or all that it can have.
-/

namespace CueSheet

def Decimal.isNegative (x : Float) : Bool :=
  match binary x with
  | .finite negative _ _ => negative
  | _ => false

def Decimal.magnitude (x : Float) : Float := if isNegative x then -x else x

namespace Token

def escape : Char → List Char
  | '\n' => ['\\', 'n']
  | '\r' => ['\\', 'r']
  | '\t' => ['\\', 't']
  | '"' => ['\\', '"']
  | '\\' => ['\\', '\\']
  | c => [c]

def spelling : Token → List Char
  | .name s => s.toList
  | .number n => n.spelling.toList
  | .text s => '"' :: (s.toList.flatMap escape ++ ['"'])
  | .symbol s => [s.char]

def line (ts : List Token) : List Char := [' '].intercalate (ts.map spelling)

end Token

namespace Numeral

def ofNat (n : Nat) : Numeral := ⟨(toString n).toList, none⟩

def ofDouble (x : Float) : Numeral :=
  let text := (Decimal.plain x).toList
  match Text.cut? '.' text with
  | some (whole, fraction) => ⟨whole, some fraction⟩
  | none => ⟨text, none⟩

end Numeral

/-- The parentheses around an operation: where they are needed, or always. -/
inductive Bracketing
  | minimal
  | full
deriving DecidableEq, Repr

inductive Rank
  | sum
  | product
  | atom
deriving DecidableEq, Repr

namespace Rank

def next : Rank → Rank
  | .sum => .product
  | _ => .atom

def admits : Rank → Rank → Bool
  | .sum, _ => true
  | .product, r => r != .sum
  | .atom, r => r == .atom

end Rank

namespace Operator

def sign : Operator → Symbol
  | .add => .plus
  | .sub => .minus
  | .mul => .star
  | .div => .slash

def rank : Operator → Rank
  | .add | .sub => .sum
  | .mul | .div => .product

end Operator

def Literal.tokens : Literal → List Token
  | .number x =>
    let size := Token.number (.ofDouble (Decimal.magnitude x))
    if Decimal.isNegative x then [.symbol .minus, size] else [size]
  | .text s => [.text s]
  | .variable name => [.name name]

namespace Expr

def enclosed (ts : List Token) : List Token := .symbol .lparen :: (ts ++ [.symbol .rparen])

def tokens (b : Bracketing) : Rank → Expr → List Token
  | _, .literal l => l.tokens
  | r, .binary op lhs rhs =>
    let ts := lhs.tokens b op.rank ++ .symbol op.sign :: rhs.tokens b op.rank.next
    if b = .minimal && r.admits op.rank then ts else enclosed ts

def rowTokens (b : Bracketing) (args : List Expr) : List Token :=
  [.symbol .comma].intercalate (args.map (tokens b .sum))

def listTokens (b : Bracketing) (args : List Expr) : List Token :=
  if args.isEmpty then [] else enclosed (rowTokens b args)

end Expr

def EndSpec.tokens : EndSpec → List Token
  | .at time => [.name "to", .number (.ofNat time)]
  | .after length => [.name "for", .number (.ofNat length)]

def TimeSpec.tokens (t : TimeSpec) : List Token :=
  match t.start with
  | none => t.stop.tokens
  | some start => .name "at" :: .number (.ofNat start) :: t.stop.tokens

def Line.Statement.tokens (b : Bracketing) (s : Line.Statement) : List Token :=
  .name s.name :: (Expr.listTokens b s.args ++ (s.time.map TimeSpec.tokens).getD [])

def Sheet.nameOf (s : Sheet) (id : DeviceId) : String :=
  ((s.devices.find? (·.id = id)).map (·.name)).getD ""

def Element.tokenLines (b : Bracketing) (s : Sheet) : Element → List (List Token)
  | .timed entries =>
    [.name "timeline", .symbol .lbrace] ::
      (entries.map (fun e => Line.Statement.tokens b ⟨s.nameOf e.device, e.args, e.time⟩) ++
        [[.symbol .rbrace]])
  | .command device args => [Line.Statement.tokens b ⟨s.nameOf device, args, none⟩]
  | .call name => [Line.Statement.tokens b ⟨name, [], none⟩]

structure Listing where
  name : String
  body : List Element

def Listing.tokenLines (b : Bracketing) (s : Sheet) (p : Listing) : List (List Token) :=
  [.name "proc", .name p.name, .symbol .lbrace] ::
    (p.body.flatMap (Element.tokenLines b s) ++ [[.symbol .rbrace]])

def Sheet.write (b : Bracketing) (s : Sheet) (ps : List Listing) : List (List Char) :=
  (ps.flatMap (Listing.tokenLines b s)).map Token.line

end CueSheet
