import CueSheet.Program
import CueSheet.Proofs.Basic

/-!
The value of an expression, told from its tree. It has one if and only if it adds literals, and the first
node in the way of that, an operator in front of its operands, is the error. Its text is made of its
texts and of the sums between them, each of as much of the tree as has no text in it.
-/

namespace CueSheet

def Literal.isNumber : Literal → Bool
  | .number _ => true
  | _ => false

namespace Expr

def operators : Expr → List Operator
  | .literal _ => []
  | .binary op lhs rhs => op :: (lhs.operators ++ rhs.operators)

def leaves : Expr → List Literal
  | .literal l => [l]
  | .binary _ lhs rhs => lhs.leaves ++ rhs.leaves

/-- Every node with the nodes that it stands under. An operator comes in front of its operands, the left
operand in front of the right one. -/
def placed (above : List Expr) : Expr → List (List Expr × Expr)
  | .literal l => [(above, .literal l)]
  | .binary op lhs rhs => (above, .binary op lhs rhs) ::
      (lhs.placed (.binary op lhs rhs :: above) ++ rhs.placed (.binary op lhs rhs :: above))

def nodes (e : Expr) : List Expr := (e.placed []).map (·.2)

def fault? : Expr → Option EvalError
  | .literal (.variable name) => some (.variable name)
  | .literal _ => none
  | .binary .add _ _ => none
  | .binary op _ _ => some (.operator op)

structure IsSum (e : Expr) : Prop where
  operators : ∀ op ∈ e.operators, op = .add
  literals : ∀ name, .variable name ∉ e.leaves

def isNumeric (e : Expr) : Bool := e.leaves.all Literal.isNumber

def sum : Expr → Float
  | .literal (.number x) => x
  | .literal _ => 0
  | .binary _ lhs rhs => lhs.sum + rhs.sum

/-- A text, or nothing but numbers, and not within a larger part with nothing but numbers. -/
def isPart : List Expr × Expr → Bool
  | (_, .literal (.text _)) => true
  | (above, e) => e.isNumeric && !above.any isNumeric

def parts (e : Expr) : List Expr := ((e.placed []).filter isPart).map (·.2)

def partText : Expr → String
  | .literal (.text s) => s
  | e => Decimal.plain e.sum

def text (e : Expr) : String := String.join (e.parts.map partText)

variable {e lhs rhs : Expr} {op : Operator} {above : List Expr}

section Nodes

theorem map_placed (e : Expr) (above : List Expr) : (e.placed above).map (·.2) = e.nodes := by
  induction e generalizing above with
  | literal l => rfl
  | binary op lhs rhs ihl ihr =>
    simp only [nodes, placed, List.map_cons, List.map_append]
    rw [ihl, ihr, ihl, ihr]

theorem nodes_binary (op : Operator) (lhs rhs : Expr) :
    (binary op lhs rhs).nodes = .binary op lhs rhs :: (lhs.nodes ++ rhs.nodes) := by
  rw [nodes, placed, List.map_cons, List.map_append, map_placed, map_placed]

theorem isSum_literal_iff {l : Literal} : (literal l).IsSum ↔ ∀ name, .variable name ≠ l := by
  constructor
  · intro h name hl
    exact h.literals name (List.mem_singleton.2 hl)
  · intro h
    exact ⟨fun op hop => absurd hop List.not_mem_nil, fun name hl => h name (List.mem_singleton.1 hl)⟩

theorem isSum_binary_iff : (binary op lhs rhs).IsSum ↔ op = .add ∧ lhs.IsSum ∧ rhs.IsSum := by
  constructor
  · intro h
    obtain ⟨hop, hboth⟩ := List.forall_mem_cons.1 h.operators
    obtain ⟨hl, hr⟩ := List.forall_mem_append.1 hboth
    have hliterals := h.literals
    simp only [leaves, List.mem_append, not_or] at hliterals
    exact ⟨hop, ⟨hl, fun name => (hliterals name).1⟩, ⟨hr, fun name => (hliterals name).2⟩⟩
  · intro h
    refine ⟨List.forall_mem_cons.2 ⟨h.1, ?_⟩, fun name => ?_⟩
    · exact List.forall_mem_append.2 ⟨h.2.1.operators, h.2.2.operators⟩
    · simp only [leaves, List.mem_append, not_or]
      exact ⟨h.2.1.literals name, h.2.2.literals name⟩

theorem eval_binary_add (lhs rhs : Expr) : (binary .add lhs rhs).eval =
    lhs.eval >>= fun a => rhs.eval >>= fun b => .ok (a.add b) := rfl

theorem eval_eq_error_iff (e : Expr) (x : EvalError) :
    e.eval = .error x ↔ e.nodes.findSome? fault? = some x := by
  induction e generalizing x with
  | literal l => cases l <;> simp [eval, nodes, placed, fault?]
  | binary op lhs rhs ihl ihr =>
    rw [nodes_binary, List.findSome?_cons, List.findSome?_append]
    cases op with
    | add =>
      rw [eval_binary_add]
      simp only [fault?]
      cases hl : lhs.eval with
      | error y =>
        rw [(ihl y).1 hl]
        simp [bind, Except.bind]
      | ok a =>
        have hnone : lhs.nodes.findSome? fault? = none := by
          rw [Option.eq_none_iff_forall_ne_some]
          intro y hy
          rw [(ihl y).2 hy] at hl
          cases hl
        rw [hnone, Option.none_or, ← ihr]
        simp [Result.bind_eq_error_iff]
    | _ => simp [eval, fault?]

end Nodes

section Parts

theorem isNumeric_binary (op : Operator) (lhs rhs : Expr) :
    (binary op lhs rhs).isNumeric = (lhs.isNumeric && rhs.isNumeric) := List.all_append

theorem filter_placed_within (he : e.isNumeric = true) (h : above.any isNumeric = true) :
    (e.placed above).filter isPart = [] := by
  induction e generalizing above with
  | literal l =>
    cases l with
    | number x => simp [placed, isPart, h]
    | _ => cases he
  | binary op lhs rhs ihl ihr =>
    rw [isNumeric_binary, Bool.and_eq_true] at he
    have hunder : (binary op lhs rhs :: above).any isNumeric = true := by simp [h]
    rw [placed, List.filter_cons, List.filter_append, ihl he.1 hunder, ihr he.2 hunder]
    simp [isPart, h]

theorem filter_placed_numeric (he : e.isNumeric = true) (h : above.any isNumeric = false) :
    (e.placed above).filter isPart = [(above, e)] := by
  cases e with
  | literal l =>
    cases l with
    | number x => simp [placed, isPart, he, h]
    | _ => cases he
  | binary op lhs rhs =>
    have hunder : (binary op lhs rhs :: above).any isNumeric = true := by simp [he]
    have hboth := he
    rw [isNumeric_binary, Bool.and_eq_true] at hboth
    rw [placed, List.filter_cons, List.filter_append, filter_placed_within hboth.1 hunder,
      filter_placed_within hboth.2 hunder]
    simp [isPart, he, h]

theorem filter_placed_binary (he : (binary op lhs rhs).isNumeric = false) :
    ((binary op lhs rhs).placed above).filter isPart =
      (lhs.placed (.binary op lhs rhs :: above)).filter isPart ++
        (rhs.placed (.binary op lhs rhs :: above)).filter isPart := by
  rw [placed, List.filter_cons, List.filter_append]
  simp [isPart, he]

/-- What a part is does not hang on what stands above, if that has a text in it. -/
theorem map_filter_placed (e : Expr) (h : above.any isNumeric = false) :
    ((e.placed above).filter isPart).map (·.2) = e.parts := by
  induction e generalizing above with
  | literal l =>
    cases l with
    | number x => rw [parts, filter_placed_numeric rfl h, filter_placed_numeric rfl rfl]; rfl
    | _ => rfl
  | binary op lhs rhs ihl ihr =>
    cases he : (binary op lhs rhs).isNumeric with
    | true => rw [parts, filter_placed_numeric he h, filter_placed_numeric he rfl]; rfl
    | false =>
      have hunder : ∀ above, above.any isNumeric = false →
          (binary op lhs rhs :: above).any isNumeric = false := by
        intro above h
        simp [he, h]
      rw [parts, filter_placed_binary he, filter_placed_binary he, List.map_append, List.map_append,
        ihl (hunder above h), ihr (hunder above h), ihl (hunder [] rfl), ihr (hunder [] rfl)]

theorem parts_of_isNumeric (he : e.isNumeric = true) : e.parts = [e] := by
  rw [parts, filter_placed_numeric he rfl]
  rfl

theorem parts_binary (he : (binary op lhs rhs).isNumeric = false) :
    (binary op lhs rhs).parts = lhs.parts ++ rhs.parts := by
  have hunder : [binary op lhs rhs].any isNumeric = false := by simp [he]
  rw [parts, filter_placed_binary he, List.map_append, map_filter_placed lhs hunder,
    map_filter_placed rhs hunder]

theorem text_of_isNumeric (he : e.isNumeric = true) : e.text = Decimal.plain e.sum := by
  have hpart : e.partText = Decimal.plain e.sum := by
    cases e with
    | literal l =>
      cases l with
      | number x => rfl
      | _ => cases he
    | binary op lhs rhs => rfl
  rw [text, parts_of_isNumeric he, List.map_singleton, hpart]
  simp

theorem text_literal (s : String) : (literal (.text s)).text = s := by
  simp [text, parts, placed, List.filter_singleton, isPart, partText]

theorem text_binary (he : (binary op lhs rhs).isNumeric = false) :
    (binary op lhs rhs).text = lhs.text ++ rhs.text := by
  rw [text, parts_binary he, List.map_append, String.join_append, text, text]

end Parts

section Value

def value (e : Expr) : Value := if e.isNumeric then .number e.sum else .text e.text

theorem display_value (e : Expr) : e.value.display = e.text := by
  rw [value]
  split
  · next he => exact (text_of_isNumeric he).symm
  · rfl

theorem value_add (lhs rhs : Expr) : lhs.value.add rhs.value = (binary .add lhs rhs).value := by
  cases he : (binary .add lhs rhs).isNumeric with
  | true =>
    have hboth := he
    rw [isNumeric_binary, Bool.and_eq_true] at hboth
    simp only [value, he, hboth.1, hboth.2, if_true]
    rfl
  | false =>
    have htext : lhs.value.add rhs.value = .text (lhs.value.display ++ rhs.value.display) := by
      rw [isNumeric_binary, Bool.and_eq_false_iff] at he
      rcases he with hl | hr
      · simp [value, hl, Value.add]
      · cases hv : lhs.value with
        | number x => simp [value, hr, Value.add]
        | text s => simp [Value.add]
    rw [htext, display_value, display_value, value, he, ← text_binary he]
    rfl

theorem eval_eq_ok_iff (e : Expr) (v : Value) : e.eval = .ok v ↔ e.IsSum ∧ v = e.value := by
  induction e generalizing v with
  | literal l =>
    rw [isSum_literal_iff]
    cases l with
    | number x => simp [eval, value, isNumeric, leaves, Literal.isNumber, sum, eq_comm]
    | text s => simp [eval, value, isNumeric, leaves, Literal.isNumber, text_literal, eq_comm]
    | _ => simp [eval]
  | binary op lhs rhs ihl ihr =>
    rw [isSum_binary_iff]
    cases op with
    | add =>
      simp only [eval_binary_add, Result.bind_eq_ok_iff, ihl, ihr, Except.ok.injEq]
      constructor
      · intro h
        obtain ⟨a, ⟨hl, ha⟩, b, ⟨hr, hb⟩, hv⟩ := h
        rw [ha, hb, value_add] at hv
        exact ⟨⟨trivial, hl, hr⟩, hv.symm⟩
      · intro h
        obtain ⟨⟨-, hl, hr⟩, hv⟩ := h
        exact ⟨_, ⟨hl, rfl⟩, _, ⟨hr, rfl⟩, (value_add lhs rhs).trans hv.symm⟩
    | _ => simp [eval]

/-- An expression has a value if and only if it adds literals, and else the error of the first node, an
operator before its operands and the left one before the right one, that has a fault of its own. The value
is a number if and only if there are only numbers in the tree, and then it is their sum in the shape of
the tree; else it is the text of the parts, one behind the other. -/
theorem eval_of_tree (e : Expr) :
    ((∃ v, e.eval = .ok v) ↔ (∀ op ∈ e.operators, op = .add) ∧ ∀ name, .variable name ∉ e.leaves) ∧
      (∀ x, e.eval = .error x ↔ ∃ before n after, e.nodes = before ++ n :: after ∧
        n.fault? = some x ∧ ∀ b ∈ before, b.fault? = none) ∧
      (∀ v, e.eval = .ok v →
        ((∃ x, v = .number x) ↔ ∀ l ∈ e.leaves, l.isNumber = true) ∧
          (∀ x, v = .number x → x = e.sum) ∧
          ∀ s, v = .text s → s = String.join (e.parts.map partText)) := by
  refine ⟨?_, fun x => ?_, fun v hv => ?_⟩
  · constructor
    · intro h
      obtain ⟨v, hv⟩ := h
      have hsum := ((eval_eq_ok_iff e v).1 hv).1
      exact ⟨hsum.operators, hsum.literals⟩
    · intro h
      exact ⟨e.value, (eval_eq_ok_iff e e.value).2 ⟨⟨h.1, h.2⟩, rfl⟩⟩
  · rw [eval_eq_error_iff, List.findSome?_eq_some_iff]
  · obtain ⟨-, hvalue⟩ := (eval_eq_ok_iff e v).1 hv
    have hnumeric : e.isNumeric = true ↔ ∀ l ∈ e.leaves, l.isNumber = true := List.all_eq_true
    rw [hvalue, value, ← hnumeric]
    cases he : e.isNumeric with
    | true => simp
    | false => simp [text]

/-- Two numbers in front of a text are added up, and behind it they are not. -/
example : ((binary .add (.binary .add (.binary .add (.literal (.number 1)) (.literal (.number 2)))
    (.literal (.text "ms"))) (.literal (.number 4))).eval).map Value.display = .ok "3ms4" := by
  decide +kernel

end Value

end Expr

end CueSheet
