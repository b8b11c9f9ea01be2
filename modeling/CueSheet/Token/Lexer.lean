import CueSheet.Text
import CueSheet.Token.Basic

/-!
Reading the tokens of a line: the first token, then the rest. Two slashes outside a text end the line.
-/

namespace CueSheet

inductive LexError
  | unknownEscape (c : Char)
  | unterminated
  | unexpected (c : Char)
deriving DecidableEq, Repr

def LexError.message : LexError → String
  | .unknownEscape c => s!"unknown escape '\\{c}'"
  | .unterminated => "unterminated string literal"
  | .unexpected c => s!"unexpected character '{c}'"

namespace Token

def escape? : Char → Option Char
  | 'n' => some '\n'
  | 'r' => some '\r'
  | 't' => some '\t'
  | '"' => some '"'
  | '\\' => some '\\'
  | _ => none

def quoted : List Char → Except LexError (List Char × List Char)
  | [] => .error .unterminated
  | '"' :: r => .ok ([], r)
  | ['\\'] => .error .unterminated
  | '\\' :: e :: r =>
    match escape? e with
    | none => .error (.unknownEscape e)
    | some c => (quoted r).map fun (t, r) => (c :: t, r)
  | c :: r => (quoted r).map fun (t, r) => (c :: t, r)

def numeral (s : List Char) : Numeral × List Char :=
  let whole := s.takeWhile Char.isDigit
  match s.dropWhile Char.isDigit with
  | '.' :: r => (⟨whole, some (r.takeWhile Char.isDigit)⟩, r.dropWhile Char.isDigit)
  | r => (⟨whole, none⟩, r)

def first? (s : List Char) : Except LexError (Option (Token × List Char)) :=
  match Text.trimLeft s with
  | [] => .ok none
  | '/' :: '/' :: _ => .ok none
  | '"' :: r => (quoted r).map fun (t, r) => some (.text (String.ofList t), r)
  | c :: r =>
    match Symbol.ofChar? c with
    | some sym => .ok (some (.symbol sym, r))
    | none =>
      if c.isDigit then
        let (n, r) := numeral (c :: r)
        .ok (some (.number n, r))
      else if Text.startsName c then
        .ok (some (.name (String.ofList (c :: r.takeWhile Text.continuesName)),
          r.dropWhile Text.continuesName))
      else .error (.unexpected c)

def scanUpTo : Nat → List Char → Except LexError (List Token)
  | 0, _ => .ok []
  | n + 1, s =>
    match first? s with
    | .error e => .error e
    | .ok none => .ok []
    | .ok (some (t, r)) => (scanUpTo n r).map (t :: ·)

def scan (s : List Char) : Except LexError (List Token) := scanUpTo s.length s

end Token

end CueSheet
