/-!
Numbers and their texts. Whole numbers are written with ASCII digits. A double is taken apart into a sign,
a natural number and a power of two; of the decimals in its rounding interval, `shortest` finds one with the
fewest digits, and of those the nearest, a tie going up. Its text is positional, without a trailing `.0`.
-/

namespace CueSheet.Decimal

def digit (c : Char) : Nat := c.toNat - '0'.toNat

def ofDigits (s : List Char) : Nat := s.foldl (fun n c => 10 * n + digit c) 0

def digits? (s : List Char) : Option Nat :=
  if s.isEmpty || !s.all Char.isDigit then none else some (ofDigits s)

def natural? (max : Nat) (s : List Char) : Option Nat :=
  let body := match s with
    | '+' :: r => r
    | s => s
  (digits? body).filter (· ≤ max)

def integer? (max : Nat) : List Char → Option Int
  | '-' :: r => ((digits? r).filter (· ≤ max + 1)).map fun n => -(n : Int)
  | s => (natural? max s).map Int.ofNat

def maxByte : Nat := 0xFF

def maxHalf : Nat := 0xFFFFFFFF

def maxWord : Nat := 0xFFFFFFFFFFFFFFFF

def maxSignedHalf : Nat := 0x7FFFFFFF

def maxSignedWord : Nat := 0x7FFFFFFFFFFFFFFF

inductive Binary
  | notANumber
  | infinite (negative : Bool)
  | finite (negative : Bool) (mantissa : Nat) (exponent : Int)
deriving DecidableEq, Repr

def leastExponent : Int := -1074

def hiddenBit : Nat := 0x10000000000000

def binary (x : Float) : Binary :=
  let b := x.toBits.toNat
  let negative := b / 0x8000000000000000 == 1
  let e : Nat := b / hiddenBit % 0x800
  let f := b % hiddenBit
  if e = 2047 then if f = 0 then .infinite negative else .notANumber
  else if e = 0 then .finite negative f leastExponent
  else .finite negative (hiddenBit + f) ((e : Int) - 1075)

/-- The natural number nearest to `num / den`, a half going to the even neighbour. -/
def roundHalfEven (num den : Nat) : Nat :=
  let q := num / den
  let r := num % den
  if 2 * r < den || (2 * r == den && q % 2 == 0) then q else q + 1

def scaled (mantissa : Nat) (exponent : Int) (scale : Nat) : Nat :=
  roundHalfEven (mantissa * Nat.pow 2 exponent.toNat * scale) (Nat.pow 2 (-exponent).toNat)

structure Interval where
  low : Nat
  value : Nat
  high : Nat
  den : Nat
  closed : Bool

/-- The reals that round to `m * 2 ^ e`. Below a power of two the neighbour is half as far away. -/
def Interval.of (m : Nat) (e : Int) : Interval :=
  let gap := if m = hiddenBit && e != leastExponent then 1 else 2
  let up := Nat.pow 2 (e - 2).toNat
  ⟨(4 * m - gap) * up, 4 * m * up, (4 * m + 2) * up, Nat.pow 2 (2 - e).toNat, m % 2 == 0⟩

def Interval.contains (i : Interval) (n d : Nat) : Bool :=
  if i.closed then i.low * d ≤ n * i.den && n * i.den ≤ i.high * d
  else i.low * d < n * i.den && n * i.den < i.high * d

def leadingExponent (num den : Nat) : Int :=
  let guess := ((num.log2 : Int) - den.log2) * 30103 / 100000
  let reaches (e : Int) : Bool := den * Nat.pow 10 e.toNat ≤ num * Nat.pow 10 (-e).toNat
  if reaches (guess + 1) then guess + 1 else if reaches guess then guess else guess - 1

def Interval.onGrid? (i : Interval) (k : Int) : Option Nat :=
  let num := i.value * Nat.pow 10 (-k).toNat
  let den := i.den * Nat.pow 10 k.toNat
  let q := num / den
  let hit (n : Nat) : Bool := i.contains (n * Nat.pow 10 k.toNat) (Nat.pow 10 (-k).toNat)
  let up := 2 * (num % den) ≥ den
  match hit q, hit (q + 1) with
  | true, true => some (if up then q + 1 else q)
  | true, false => some q
  | false, true => some (q + 1)
  | false, false => none

def Interval.search (i : Interval) : Nat → Int → Nat × Int
  | 0, k => (i.value * Nat.pow 10 (-k).toNat / (i.den * Nat.pow 10 k.toNat), k)
  | n + 1, k =>
    match i.onGrid? k with
    | some d => (d, k)
    | none => i.search n (k - 1)

/-- A pair `(d, k)` stands for `d * 10 ^ k`. The first grid is coarser than the value, which may lie just
below a power of ten. -/
def shortest (m : Nat) (e : Int) : Nat × Int :=
  let i := Interval.of m e
  i.search 18 (leadingExponent i.value i.den + 1)

def positional (d : Nat) (k : Int) : String :=
  let ds := (toString d).toList
  if 0 ≤ k then String.ofList (ds ++ List.replicate k.toNat '0')
  else
    let places := (-k).toNat
    let padded := List.replicate (places + 1 - ds.length) '0' ++ ds
    let whole := padded.take (padded.length - places)
    let fraction := padded.drop (padded.length - places)
    String.ofList (whole ++ '.' :: fraction)

def plain (x : Float) : String :=
  match binary x with
  | .notANumber => "NaN"
  | .infinite negative => if negative then "-inf" else "inf"
  | .finite negative m e =>
    let size := if m = 0 then "0" else let (d, k) := shortest m e; positional d k
    if negative then "-" ++ size else size

def value (digits fraction : List Char) : Float :=
  Float.ofScientific (ofDigits (digits ++ fraction)) true fraction.length

end CueSheet.Decimal
