import CueSheet.Token.Lexer

/-!
What can be wrong with a line of a program file.
-/

namespace CueSheet

inductive Expected
  | name
  | endOfLine
  | commaOrClosing
  | stop
  | milliseconds
  | numberAfterMinus
  | closing
  | expression
deriving DecidableEq, Repr

def Expected.describe : Expected → String
  | .name => "a name"
  | .endOfLine => "end of line"
  | .commaOrClosing => "',' or ')'"
  | .stop => "'for' or 'to' after the start time"
  | .milliseconds => "a non-negative integer time in milliseconds"
  | .numberAfterMinus => "a number after unary '-'"
  | .closing => "')'"
  | .expression => "an expression"

inductive Keyword
  | proc
  | timeline
deriving DecidableEq, Repr

def Keyword.word : Keyword → String
  | .proc => "proc"
  | .timeline => "timeline"

inductive Fault
  | lex (e : LexError)
  | unexpected (wanted : Expected) (found : Option Token)
  | timeRange (spelling : String)
  | strayClosing
  | nestedProcedure
  | nestedForward
  | nestedTimeline
  | strayTimeline
  | strayStatement
  | header (kw : Keyword)
  | deviceName (name : String)
  | timeOutsideTimeline
  | notADevice (name : String)
  | procedureArguments (name : String)
deriving DecidableEq, Repr

def Fault.message : Fault → String
  | .lex e => e.message
  | .unexpected wanted found =>
    let thing := match found with
      | some t => t.describe
      | none => "end of line"
    s!"expected {wanted.describe}, found {thing}"
  | .timeRange spelling => s!"time {spelling} is out of range"
  | .strayClosing => "'\x7d' without an open block"
  | .nestedProcedure => "procedures cannot be nested"
  | .nestedForward => "forward declarations belong at top level"
  | .nestedTimeline => "timeline blocks cannot be nested"
  | .strayTimeline => "timeline block outside of a procedure body"
  | .strayStatement => "statement outside of a procedure body"
  | .header kw => s!"malformed '{kw.word}' header"
  | .deviceName name => s!"'{name}' is a device, not a procedure"
  | .timeOutsideTimeline => "timed entries belong inside a 'timeline' block"
  | .notADevice name => s!"timeline entries must target a device; '{name}' is not one"
  | .procedureArguments name =>
    s!"'{name}' is not a device; procedures take no arguments or times"

inductive Block
  | timeline
  | body
deriving DecidableEq, Repr

def Block.describe : Block → String
  | .timeline => "timeline block"
  | .body => "procedure body"

inductive SyntaxError
  | malformed (line : Nat) (fault : Fault)
  | duplicate (line : Nat) (procedure : String)
  | unclosed (line : Nat) (block : Block)
deriving DecidableEq, Repr

def SyntaxError.message : SyntaxError → String
  | .malformed line fault => s!"line {line}: {fault.message}"
  | .duplicate line procedure => s!"line {line}: procedure '{procedure}' is already defined"
  | .unclosed line block => s!"{block.describe} opened on line {line} is never closed"

end CueSheet
