/-!
Texts as lists of characters: the blank ones and what is cut off because of them, names, and cutting at
a separator. Names and messages become strings where they are stored.
-/

namespace CueSheet.Text

/-- The characters with the property White_Space. -/
def isBlank (c : Char) : Bool :=
  let n := c.val.toNat
  (9 ≤ n && n ≤ 13) || n == 0x20 || n == 0x85 || n == 0xA0 || n == 0x1680 ||
  (0x2000 ≤ n && n ≤ 0x200A) || n == 0x2028 || n == 0x2029 || n == 0x202F || n == 0x205F ||
  n == 0x3000

def trimLeft (s : List Char) : List Char := s.dropWhile isBlank

theorem trimLeft_blanks {a : List Char} (ha : ∀ c ∈ a, isBlank c = true) (s : List Char) :
    trimLeft (a ++ s) = trimLeft s := List.dropWhile_append_of_pos ha

theorem trimLeft_cons {c : Char} (hc : isBlank c = false) (s : List Char) :
    trimLeft (c :: s) = c :: s := List.dropWhile_cons_of_neg (by simp [hc])

def trimRight (s : List Char) : List Char := (s.reverse.dropWhile isBlank).reverse

def trim (s : List Char) : List Char := trimRight (trimLeft s)

def startsBlank : List Char → Bool
  | [] => false
  | c :: _ => isBlank c

def words : List Char → List (List Char)
  | [] => []
  | c :: r =>
    if isBlank c then words r
    else if r.isEmpty || startsBlank r then [c] :: words r
    else match words r with
      | [] => [[c]]
      | w :: ws => (c :: w) :: ws

def splitWord (s : List Char) : List Char × List Char :=
  let s := trimLeft s
  (s.takeWhile (!isBlank ·), trim (s.dropWhile (!isBlank ·)))

def startsName (c : Char) : Bool := c.isAlpha || c == '_'

def continuesName (c : Char) : Bool := c.isAlphanum || c == '_'

def isName : List Char → Bool
  | [] => false
  | c :: r => startsName c && r.all continuesName

variable {α : Type} [DecidableEq α]

def pieces (sep : α) : List α → List (List α)
  | [] => [[]]
  | c :: r =>
    if c = sep then [] :: pieces sep r
    else match pieces sep r with
      | [] => [[c]]
      | p :: ps => (c :: p) :: ps

theorem pieces_ne_nil (sep : α) (s : List α) : pieces sep s ≠ [] := by
  cases s with
  | nil => simp [pieces]
  | cons c r =>
    rw [pieces]
    split
    · simp
    · split <;> simp

def cut? (sep : α) : List α → Option (List α × List α)
  | [] => none
  | c :: r => if c = sep then some ([], r) else (cut? sep r).map fun (a, b) => (c :: a, b)

theorem cut?_eq_some_iff {sep : α} {s a b : List α} :
    cut? sep s = some (a, b) ↔ s = a ++ sep :: b ∧ sep ∉ a := by
  induction s generalizing a with
  | nil => simp [cut?]
  | cons c r ih =>
    by_cases h : c = sep
    · cases a <;> grind [cut?]
    · cases a with
      | nil => simp [cut?, h]
      | cons d a =>
        simp only [cut?, h, if_false, Option.map_eq_some_iff, Prod.exists, Prod.mk.injEq,
          List.cons.injEq]
        grind

def breakAt? (mark : List α) : List α → Option (List α × List α)
  | [] => if mark.isEmpty then some ([], []) else none
  | c :: r =>
    match mark.isPrefixOf? (c :: r) with
    | some rest => some ([], rest)
    | none => (breakAt? mark r).map fun (a, b) => (c :: a, b)

def behind? (c : α) : List α → Option (List α)
  | [] => none
  | d :: r => if d = c then some r else none

theorem behind?_eq_some_iff {c : α} {s r : List α} : behind? c s = some r ↔ s = c :: r := by
  cases s <;> grind [behind?]

def before? (c : α) (s : List α) : Option (List α) := (behind? c s.reverse).map List.reverse

theorem before?_eq_some_iff {c : α} {s r : List α} : before? c s = some r ↔ s = r ++ [c] := by
  simp only [before?, Option.map_eq_some_iff, behind?_eq_some_iff]
  constructor
  · rintro ⟨t, h, rfl⟩
    rw [← List.reverse_reverse s, h, List.reverse_cons]
  · intro h
    exact ⟨r.reverse, by simp [h], List.reverse_reverse r⟩

def unquote (s : List Char) : List Char := ((behind? '"' s).bind (before? '"')).getD s

def lines (mark : α) : List α → List (List α)
  | [] => []
  | c :: r =>
    if c = mark then [] :: lines mark r
    else match lines mark r with
      | [] => [[c]]
      | l :: ls => (c :: l) :: ls

end CueSheet.Text
