/-!
Timestamp formats: a text in which `%` and a letter stand for a field of the local time. A padding mark
may stand before a field that is a single number.
-/

namespace CueSheet.Timestamp

structure Field where
  padding : Option Char
  code : List Char
deriving DecidableEq, Repr

inductive Item
  | char (c : Char)
  | field (f : Field)
deriving DecidableEq, Repr

def numbers : List Char := "CGHIMSUVWYdefgjklmqsuwy".toList

def others : List Char := "ABDFPRTXZabchprvxz+".toList

def compounds : List (List Char) :=
  ["#z", ":z", "::z", ":::z", ".f", ".3f", ".6f", ".9f", "3f", "6f", "9f"].map String.toList

def isPadding (c : Char) : Bool := c == '-' || c == '0' || c == '_'

def field? : List Char → Option (Item × List Char)
  | [] => none
  | c :: r =>
    if c = '%' then some (.char '%', r)
    else if c = 'n' then some (.char '\n', r)
    else if c = 't' then some (.char '\t', r)
    else if numbers.contains c || others.contains c then some (.field ⟨none, [c]⟩, r)
    else if isPadding c then
      match r with
      | d :: r => if numbers.contains d then some (.field ⟨some c, [d]⟩, r) else none
      | [] => none
    else
      (compounds.find? (·.isPrefixOf (c :: r))).map fun code =>
        (.field ⟨none, code⟩, (c :: r).drop code.length)

def itemsUpTo? : Nat → List Char → Option (List Item)
  | 0, _ => some []
  | _, [] => some []
  | n + 1, '%' :: r => do
    let (i, r) ← field? r
    let is ← itemsUpTo? n r
    return i :: is
  | n + 1, c :: r => (itemsUpTo? n r).map (.char c :: ·)

def items? (format : String) : Option (List Item) :=
  itemsUpTo? format.length format.toList

def isFormat (format : String) : Bool := (items? format).isSome

/-- A zone of any spelling can be read, but not written. -/
def Item.isWritable : Item → Bool
  | .char _ => true
  | .field f => f.code != ['#', 'z']

def render {m : Type → Type} [Monad m] (field : Field → m String) : List Item → m String
  | [] => pure ""
  | .char c :: r => do return String.singleton c ++ (← render field r)
  | .field f :: r => do
    let t ← field f
    return t ++ (← render field r)

def stamp {m : Type → Type} [Monad m] (field : Field → m String) (format : String) :
    m (Option String) :=
  match (items? format).filter (·.all Item.isWritable) with
  | none => return none
  | some items => some <$> render field items

end CueSheet.Timestamp
