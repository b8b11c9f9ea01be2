import CueSheet.Proofs.Load.Frozen

/-!
Braces. Every header opens a block and every brace closes one, whatever directives stand between the
lines; the lines that open and close blocks are a sequence of brackets, and which openings are still
without their closing can be told from the brackets alone.
-/

namespace CueSheet

inductive Bracket
  | opening (block : Block) (line : Nat)
  | closing
deriving DecidableEq

/-- Every opening has its closing, and every closing its opening. -/
inductive Balanced : List Bracket → Prop
  | nil : Balanced []
  | pair {inner rest : List Bracket} (block : Block) (line : Nat) : Balanced inner → Balanced rest →
    Balanced (.opening block line :: (inner ++ .closing :: rest))

inductive Leaves : List Bracket → List (Block × Nat) → Prop
  | balanced {bs : List Bracket} : Balanced bs → Leaves bs []
  | opening {bs rest : List Bracket} {opened : List (Block × Nat)} {block : Block} {line : Nat} :
    Leaves bs opened → Balanced rest →
    Leaves (bs ++ .opening block line :: rest) (opened ++ [(block, line)])

def Bracket.pending (stack : List (Block × Nat)) : List Bracket → List (Block × Nat)
  | [] => stack
  | .opening block line :: r => pending ((block, line) :: stack) r
  | .closing :: r => pending stack.tail r

section Brackets

variable {bs bs' : List Bracket} {opened opened' : List (Block × Nat)}

theorem Balanced.single (block : Block) (line : Nat) (h : Balanced bs) :
    Balanced (.opening block line :: (bs ++ [.closing])) := .pair block line h .nil

theorem Balanced.append (h : Balanced bs) (h' : Balanced bs') : Balanced (bs ++ bs') := by
  induction h with
  | nil => exact h'
  | @pair inner rest block line hinner _ _ ih =>
    rw [List.cons_append, List.append_assoc, List.cons_append]
    exact .pair block line hinner ih

theorem Balanced.pending (h : Balanced bs) (stack : List (Block × Nat)) (rest : List Bracket) :
    Bracket.pending stack (bs ++ rest) = Bracket.pending stack rest := by
  induction h generalizing stack rest with
  | nil => rfl
  | pair block line _ _ ihinner ihrest =>
    rw [List.cons_append, List.append_assoc, Bracket.pending, ihinner, List.cons_append,
      Bracket.pending, List.tail_cons, ihrest]

theorem Leaves.pending (h : Leaves bs opened) (rest : List Bracket) :
    Bracket.pending [] (bs ++ rest) = Bracket.pending opened.reverse rest := by
  induction h generalizing rest with
  | balanced h => exact h.pending [] rest
  | opening _ hrest ih =>
    rw [List.append_assoc, ih, List.cons_append, Bracket.pending, hrest.pending, List.reverse_append]
    rfl

theorem Leaves.unique (h : Leaves bs opened) (h' : Leaves bs opened') : opened' = opened := by
  have hstack : opened.reverse = opened'.reverse := (h.pending []).symm.trans (h'.pending [])
  rw [← List.reverse_reverse opened', ← hstack, List.reverse_reverse]

theorem Leaves.balanced_iff (h : Leaves bs opened) : Balanced bs ↔ opened = [] := by
  constructor
  · intro hbs
    exact Leaves.unique (.balanced hbs) h
  · rintro rfl
    generalize hopened : ([] : List (Block × Nat)) = opened at h
    cases h with
    | balanced hbs => exact hbs
    | opening _ _ => simp at hopened

end Brackets

namespace Line

def bracket? (line : Nat) : List Token → Option Bracket
  | [.name "proc", .name _, .symbol .lbrace] => some (.opening .body line)
  | [.name "timeline", .symbol .lbrace] => some (.opening .timeline line)
  | [.symbol .rbrace] => some .closing
  | _ => none

theorem Says.bracket? {ts : List Token} {s : Statement} (h : Says ts s) (line : Nat) :
    Line.bracket? line ts = none := by
  have hstatement := h.statement
  unfold Line.bracket?
  split
  · exact absurd rfl (h.not_header .proc)
  · exact absurd rfl (h.not_header .timeline)
  · cases hstatement
  · rfl

end Line

namespace Draft

def Operation.bracket? : Operation → Option Bracket
  | .read line text =>
    match Token.scan text with
    | .ok ts => Line.bracket? line ts
    | .error _ => none
  | _ => none

def brackets (ops : List Operation) : List Bracket := ops.filterMap Operation.bracket?

def Operation.Accepted (d : Draft) : Operation → Prop
  | .read line text => (d.read line text).refusal = none
  | _ => True

def Accepts (d : Draft) : List Operation → Prop
  | [] => True
  | op :: ops => op.Accepted d ∧ (op.apply d).Accepts ops

instance Operation.decidableAccepted (d : Draft) : (op : Operation) → Decidable (op.Accepted d)
  | .read line text => inferInstanceAs (Decidable ((d.read line text).refusal = none))
  | .finish | .declare .. | .link .. => .isTrue trivial

instance decidableAccepts : (d : Draft) → (ops : List Operation) → Decidable (d.Accepts ops)
  | _, [] => .isTrue trivial
  | d, op :: ops =>
    have := decidableAccepts (op.apply d) ops
    inferInstanceAs (Decidable (op.Accepted d ∧ (op.apply d).Accepts ops))

section Runs

variable {d : Draft} {ops ops' : List Operation} {op : Operation}

theorem accepts_append_iff :
    d.Accepts (ops ++ ops') ↔ d.Accepts ops ∧ (d.after ops).Accepts ops' := by
  induction ops generalizing d with
  | nil => exact (and_iff_right trivial).symm
  | cons op ops ih => rw [List.cons_append, Accepts, Accepts, ih, and_assoc]; rfl

theorem accepts_snoc_iff :
    d.Accepts (ops ++ [op]) ↔ d.Accepts ops ∧ op.Accepted (d.after ops) := by
  rw [accepts_append_iff, Accepts, Accepts, and_true]

theorem after_snoc (d : Draft) (ops : List Operation) (op : Operation) :
    d.after (ops ++ [op]) = op.apply (d.after ops) := after_append d ops [op]

theorem brackets_append (ops ops' : List Operation) :
    brackets (ops ++ ops') = brackets ops ++ brackets ops' := List.filterMap_append ..

theorem brackets_cons_some {b : Bracket} (h : op.bracket? = some b) :
    brackets (op :: ops) = b :: brackets ops := List.filterMap_cons_some h

theorem brackets_snoc_none (h : op.bracket? = none) : brackets (ops ++ [op]) = brackets ops := by
  rw [brackets_append, brackets, brackets, List.filterMap_cons_none h, List.filterMap_nil,
    List.append_nil]

end Runs

theorem bracket?_read {n : Nat} {text : List Char} {ts : List Token} (h : Token.scan text = .ok ts) :
    (Operation.read n text).bracket? = Line.bracket? n ts := by
  simp only [Operation.bracket?, h]

end Draft

end CueSheet
