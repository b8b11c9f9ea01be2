import CueSheet.Proofs.Basic
import CueSheet.Proofs.Source.Doubles
import CueSheet.Proofs.Source.Grammar

/-!
The reader of expressions against their grammar. What it takes from the front of the tokens derives the
tree that it returns, and no operator follows; where that is so, it does not fail. Every tree whose
numbers are numbers can be written and is read back.
-/

namespace CueSheet

namespace Line

section Sound

variable {n : Nat} {ts r us : List Token} {e : Expr}

def Accepts : Part → Expr → List Token → List Token → Prop
  | .atom, e, us, _ => Derives .atom e us
  | .product, e, us, r => Derives .product e us ∧ Stops multiplicative? r
  | .sum, e, us, r => Derives .sum e us ∧ Stops multiplicative? r ∧ Stops additive? r
  | .moreProduct lhs, e, us, r => ∀ vs, Derives .product lhs vs →
    Derives .product e (vs ++ us) ∧ Stops multiplicative? r
  | .moreSum lhs, e, us, r => ∀ vs, Derives .sum lhs vs → Stops multiplicative? (us ++ r) →
    Derives .sum e (vs ++ us) ∧ Stops multiplicative? r ∧ Stops additive? r

theorem eq_cons_of_operator {find? : Token → Option Operator} {op : Operator}
    (h : ts.head?.bind find? = some op) : ∃ t r, ts = t :: r ∧ find? t = some op := by
  cases ts with
  | nil => cases h
  | cons t r => exact ⟨t, r, rfl, h⟩

theorem part_accepts {p : Part} (h : part n p ts = .ok (e, r)) :
    ∃ us, ts = us ++ r ∧ Accepts p e us r := by
  induction n generalizing p ts e r with
  | zero => cases h
  | succ n ih =>
    cases p with
    | sum =>
      rw [part, Result.bind_eq_ok_iff] at h
      obtain ⟨⟨lhs, s⟩, hproduct, hmore⟩ := h
      obtain ⟨us, rfl, hus, hstop⟩ := ih hproduct
      obtain ⟨vs, rfl, hvs⟩ := ih hmore
      exact ⟨us ++ vs, (List.append_assoc ..).symm, hvs us (.term hus) hstop⟩
    | product =>
      rw [part, Result.bind_eq_ok_iff] at h
      obtain ⟨⟨lhs, s⟩, hatom, hmore⟩ := h
      obtain ⟨us, rfl, hus⟩ := ih hatom
      obtain ⟨vs, rfl, hvs⟩ := ih hmore
      exact ⟨us ++ vs, (List.append_assoc ..).symm, hvs us (.factor hus)⟩
    | moreSum lhs =>
      rw [part] at h
      split at h
      · next hnone =>
        cases h
        exact ⟨[], rfl, fun vs hvs hstop => ⟨by rwa [List.append_nil], hstop, hnone⟩⟩
      · next op hop =>
        obtain ⟨t, ts', rfl, ht⟩ := eq_cons_of_operator hop
        rw [Result.bind_eq_ok_iff] at h
        obtain ⟨⟨rhs, s⟩, hproduct, hmore⟩ := h
        obtain ⟨us, hts, hus, hstop⟩ := ih hproduct
        obtain ⟨ws, rfl, hws⟩ := ih hmore
        refine ⟨t :: us ++ ws, by rw [List.tail_cons] at hts; simp [hts], fun vs hvs _ => ?_⟩
        have h := hws (vs ++ t :: us) (.plus hvs ht hus) hstop
        rwa [List.append_assoc] at h
    | moreProduct lhs =>
      rw [part] at h
      split at h
      · next hnone =>
        cases h
        exact ⟨[], rfl, fun vs hvs => ⟨by rwa [List.append_nil], hnone⟩⟩
      · next op hop =>
        obtain ⟨t, ts', rfl, ht⟩ := eq_cons_of_operator hop
        rw [Result.bind_eq_ok_iff] at h
        obtain ⟨⟨rhs, s⟩, hatom, hmore⟩ := h
        obtain ⟨us, hts, hus⟩ := ih hatom
        obtain ⟨ws, rfl, hws⟩ := ih hmore
        refine ⟨t :: us ++ ws, by rw [List.tail_cons] at hts; simp [hts], fun vs hvs => ?_⟩
        have h := hws (vs ++ t :: us) (.times hvs ht hus)
        rwa [List.append_assoc] at h
    | atom =>
      unfold part at h
      split at h
      · cases h
        exact ⟨[_], rfl, .number _⟩
      · cases h
        exact ⟨[_], rfl, .text _⟩
      · cases h
        exact ⟨[_], rfl, .word _⟩
      · cases h
        exact ⟨[_, _], rfl, .negative _⟩
      · cases h
      · rw [Result.bind_eq_ok_iff] at h
        obtain ⟨⟨e', s⟩, hsum, hclose⟩ := h
        obtain ⟨us, rfl, hus, -⟩ := ih hsum
        dsimp only at hclose
        split at hclose
        · cases hclose
          exact ⟨Expr.enclosed us, by simp [Expr.enclosed], .enclosed hus⟩
        · cases hclose
      · cases h

theorem expression_eq_ok_iff :
    expression ts = .ok (e, r) ↔
      ∃ us, ts = us ++ r ∧ Derives .sum e us ∧ Stops multiplicative? r ∧ Stops additive? r := by
  constructor
  · exact part_accepts
  · rintro ⟨us, rfl, hus, hm, ha⟩
    exact hus.expression hm ha

end Sound

section Arguments

variable {n : Nat} {ts r : List Token} {es : List Expr} {uss : List (List Token)}

def row (uss : List (List Token)) : List Token := [Token.symbol .comma].intercalate uss

theorem row_singleton (us : List Token) : row [us] = us := List.intercalate_singleton

theorem row_cons_cons (us vs : List Token) (uss : List (List Token)) :
    row (us :: vs :: uss) = us ++ .symbol .comma :: row (vs :: uss) := by
  rw [row, List.intercalate_cons_cons, List.append_assoc]
  rfl

theorem length_le_row (h : List.Forall₂ (Derives .sum) es uss) : es.length ≤ (row uss).length := by
  induction h with
  | nil => exact Nat.zero_le _
  | @cons e us es uss he hes ih =>
    have hpos := he.length_pos
    cases hes with
    | nil =>
      rw [row_singleton]
      exact hpos
    | cons he' hes =>
      rw [row_cons_cons, List.length_append]
      simp only [List.length_cons] at ih ⊢
      omega

theorem moreArguments_row (h : List.Forall₂ (Derives .sum) es uss) (hne : es ≠ [])
    (hn : es.length ≤ n) : moreArguments n (row uss ++ .symbol .rparen :: r) = .ok (es, r) := by
  induction h generalizing n with
  | nil => exact absurd rfl hne
  | @cons e us es uss he hes ih =>
    obtain ⟨n, rfl⟩ : ∃ k, n = k + 1 := ⟨n - 1, by rw [List.length_cons] at hn; omega⟩
    cases hes with
    | nil =>
      have hfirst := he.expression (r := .symbol .rparen :: r) rfl rfl
      rw [row_singleton, moreArguments, hfirst]
      rfl
    | @cons e' us' es uss he' hes =>
      have hfirst := he.expression
        (r := .symbol .comma :: (row (us' :: uss) ++ .symbol .rparen :: r)) rfl rfl
      have hmore := ih (List.cons_ne_nil _ _) (Nat.le_of_succ_le_succ hn)
      rw [row_cons_cons, List.append_assoc, List.cons_append, moreArguments, hfirst]
      simp only [bind, Except.bind, hmore]
      rfl

theorem moreArguments_eq_ok (h : moreArguments n ts = .ok (es, r)) :
    ∃ uss, List.Forall₂ (Derives .sum) es uss ∧ uss ≠ [] ∧
      ts = row uss ++ .symbol .rparen :: r := by
  induction n generalizing ts es with
  | zero => cases h
  | succ n ih =>
    rw [moreArguments, Result.bind_eq_ok_iff] at h
    obtain ⟨⟨e, s⟩, hfirst, hmore⟩ := h
    obtain ⟨us, rfl, hus, -⟩ := expression_eq_ok_iff.1 hfirst
    dsimp only at hmore
    split at hmore
    · next s' =>
      obtain ⟨⟨es', r'⟩, hrest, he⟩ := Result.bind_eq_ok_iff.1 hmore
      cases he
      obtain ⟨uss, huss, hne, rfl⟩ := ih hrest
      obtain ⟨vs, uss, rfl⟩ := List.exists_cons_of_ne_nil hne
      refine ⟨us :: vs :: uss, .cons hus huss, List.cons_ne_nil _ _, ?_⟩
      rw [row_cons_cons, List.append_assoc, List.cons_append]
    · cases hmore
      exact ⟨[us], .cons hus .nil, List.cons_ne_nil _ _, by rw [row_singleton]⟩
    · cases hmore

theorem expression_rparen (r : List Token) :
    expression (.symbol .rparen :: r) = unexpected .expression (.symbol .rparen :: r) := rfl

theorem arguments_row (h : List.Forall₂ (Derives .sum) es uss) :
    arguments (row uss ++ .symbol .rparen :: r) = .ok (es, r) := by
  cases h with
  | nil => rfl
  | @cons e us es uss he hes =>
    have hes := List.Forall₂.cons he hes
    have hlength := length_le_row hes
    -- each argument has a token, so the allowance is not used up
    have hmore := moreArguments_row (r := r) hes (List.cons_ne_nil _ _)
      (n := (row (us :: uss) ++ .symbol .rparen :: r).length + 1)
      (by rw [List.length_append]; omega)
    unfold arguments
    split
    · next heq =>
      -- the first argument would begin with the parenthesis that closes the list
      rw [heq, moreArguments, expression_rparen] at hmore
      cases hmore
    · exact hmore

theorem arguments_eq_ok_iff :
    arguments ts = .ok (es, r) ↔
      ∃ uss, List.Forall₂ (Derives .sum) es uss ∧ ts = row uss ++ .symbol .rparen :: r := by
  constructor
  · intro h
    unfold arguments at h
    split at h
    · cases h
      exact ⟨[], .nil, rfl⟩
    · obtain ⟨uss, huss, -, rfl⟩ := moreArguments_eq_ok h
      exact ⟨uss, huss, rfl⟩
  · rintro ⟨uss, huss, rfl⟩
    exact arguments_row huss

end Arguments

section Rendering

variable {e : Expr}

def hasSign (x : Float) : Bool :=
  match Decimal.binary x with
  | .finite negative _ _ => negative
  | .infinite negative => negative
  | .notANumber => false

def inFull : Literal → List Token
  | .number x =>
    let size := Token.number (.inFull x)
    if hasSign x then [.symbol .minus, size] else [size]
  | l => l.tokens

/-- Tokens can stand for the literal. -/
def Denotable : Literal → Prop
  | .number x => Decimal.binary x ≠ .notANumber
  | _ => True

theorem derives_inFull {l : Literal} (h : Denotable l) : Derives .atom (.literal l) (inFull l) := by
  cases l with
  | text s => exact .text s
  | «variable» name => exact .word name
  | number x =>
    have hnumber : Decimal.binary x ≠ .notANumber := h
    cases hx : Decimal.binary x with
    | notANumber => exact absurd hx hnumber
    | infinite negative =>
      simp only [inFull, hasSign, hx]
      cases negative with
      | false => exact .of_value (Numeral.value_inFull_infinite hx)
      | true => exact .of_neg_value (Numeral.neg_value_inFull_infinite hx)
    | finite negative m k =>
      simp only [inFull, hasSign, hx]
      cases negative with
      | false => exact .of_value (Numeral.value_inFull hx)
      | true => exact .of_neg_value (Numeral.neg_value_inFull hx)

theorem Derives.denotable {r : Rank} {us : List Token} (h : Derives r e us) :
    ∀ l ∈ literals e, Denotable l := by
  induction h with
  | number n => exact List.forall_mem_singleton.2 n.value_ne_notANumber
  | negative n => exact List.forall_mem_singleton.2 (Decimal.binary_neg_ne n.value_ne_notANumber)
  | text _ => exact List.forall_mem_singleton.2 trivial
  | word _ => exact List.forall_mem_singleton.2 trivial
  | enclosed _ ih => exact ih
  | factor _ ih => exact ih
  | term _ ih => exact ih
  | times _ _ _ ihl ihr => exact List.forall_mem_append.2 ⟨ihl, ihr⟩
  | plus _ _ _ ihl ihr => exact List.forall_mem_append.2 ⟨ihl, ihr⟩

theorem expression_render {b : Bracketing} {spell : Literal → List Token}
    (h : ∀ l ∈ literals e, Derives .atom (.literal l) (spell l)) :
    expression (render spell b .sum e) = .ok (e, []) := by
  have hread := (derives_render (b := b) h .sum).expression (r := []) rfl rfl
  rwa [List.append_nil] at hread

/-- Expressions and arguments are read just where the tokens derive them, up to a token that no operator
is. A tree is read back from any tokens that are written for it, and each has some unless a number in it
is none. -/
theorem reads_grammar :
    (∀ ts e r, expression ts = .ok (e, r) ↔
      ∃ us, ts = us ++ r ∧ Derives .sum e us ∧ Stops multiplicative? r ∧ Stops additive? r) ∧
    (∀ ts es r, arguments ts = .ok (es, r) ↔
      ∃ uss, List.Forall₂ (Derives .sum) es uss ∧ ts = row uss ++ .symbol .rparen :: r) ∧
    (∀ e spell b, (∀ l ∈ literals e, Derives .atom (.literal l) (spell l)) →
      expression (render spell b .sum e) = .ok (e, [])) ∧
    (∀ e b, (∀ l ∈ literals e, Denotable l) → expression (render inFull b .sum e) = .ok (e, [])) ∧
    ∀ ts e r, expression ts = .ok (e, r) → ∀ l ∈ literals e, Denotable l := by
  refine ⟨fun ts e r => expression_eq_ok_iff, fun ts es r => arguments_eq_ok_iff,
    fun e spell b h => expression_render h, fun e b h => ?_, fun ts e r h => ?_⟩
  · exact expression_render fun l hl => derives_inFull (h l hl)
  · obtain ⟨us, -, hus, -⟩ := expression_eq_ok_iff.1 h
    exact hus.denotable

def leftNested : Expr :=
  .binary .mul (.binary .div (.binary .sub (.literal (.variable "a")) (.literal (.number (-0.1))))
    (.literal (.text "b"))) (.literal (.number 2))

theorem reads_grammar_leftNested :
    (∀ l ∈ literals leftNested, Denotable l) ∧
      expression (render inFull .minimal .sum leftNested) = .ok (leftNested, []) := by
  have h : ∀ l ∈ literals leftNested, Denotable l := by
    refine List.forall_mem_cons.2 ⟨trivial, List.forall_mem_cons.2 ⟨?_, ?_⟩⟩
    · show Decimal.binary (-0.1) ≠ .notANumber
      decide +kernel
    · refine List.forall_mem_cons.2 ⟨trivial, List.forall_mem_singleton.2 ?_⟩
      show Decimal.binary 2 ≠ .notANumber
      decide +kernel
  exact ⟨h, reads_grammar.2.2.2.1 leftNested .minimal h⟩

end Rendering

end Line

end CueSheet
