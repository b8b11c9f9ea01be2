import CueSheet.Decimal

/-!
The tokens of a program line, and how messages speak of them.
-/

namespace CueSheet

inductive Symbol
  | lparen
  | rparen
  | lbrace
  | rbrace
  | comma
  | semicolon
  | plus
  | minus
  | star
  | slash
deriving DecidableEq, Repr

def Symbol.char : Symbol → Char
  | .lparen => '('
  | .rparen => ')'
  | .lbrace => '\x7b'
  | .rbrace => '\x7d'
  | .comma => ','
  | .semicolon => ';'
  | .plus => '+'
  | .minus => '-'
  | .star => '*'
  | .slash => '/'

def Symbol.ofChar? : Char → Option Symbol
  | '(' => some .lparen
  | ')' => some .rparen
  | '\x7b' => some .lbrace
  | '\x7d' => some .rbrace
  | ',' => some .comma
  | ';' => some .semicolon
  | '+' => some .plus
  | '-' => some .minus
  | '*' => some .star
  | '/' => some .slash
  | _ => none

structure Numeral where
  whole : List Char
  /-- The digits behind the point, where there is a point. -/
  fraction : Option (List Char)
deriving DecidableEq, Repr

def Numeral.spelling (n : Numeral) : String :=
  match n.fraction with
  | none => String.ofList n.whole
  | some f => String.ofList (n.whole ++ '.' :: f)

def Numeral.value (n : Numeral) : Float := Decimal.value n.whole (n.fraction.getD [])

inductive Token
  | name (s : String)
  | number (n : Numeral)
  | text (s : String)
  | symbol (s : Symbol)
deriving DecidableEq, Repr

def Token.describe : Token → String
  | .name s => s!"'{s}'"
  | .number n => s!"number {n.spelling}"
  | .text s => s!"string \"{s}\""
  | .symbol s => s!"'{s.char}'"

end CueSheet
