import CueSheet.Proofs.Source.Number

/-!
The grammar of expressions as a relation between trees and tokens, in which operations associate to
the left and have their rank. Tokens that derive a tree are read as that tree, up to what follows
them; what is written for a tree derives it.
-/

namespace CueSheet

namespace Line

/-- The tokens that an expression of a rank is made of. -/
inductive Derives : Rank → Expr → List Token → Prop
  | number (n : Numeral) : Derives .atom (.literal (.number n.value)) [.number n]
  | negative (n : Numeral) :
    Derives .atom (.literal (.number (-n.value))) [.symbol .minus, .number n]
  | text (s : String) : Derives .atom (.literal (.text s)) [.text s]
  | word (name : String) : Derives .atom (.literal (.variable name)) [.name name]
  | enclosed {e : Expr} {ts : List Token} : Derives .sum e ts → Derives .atom e (Expr.enclosed ts)
  | factor {e : Expr} {ts : List Token} : Derives .atom e ts → Derives .product e ts
  | times {lhs rhs : Expr} {ts us : List Token} {t : Token} {op : Operator} :
    Derives .product lhs ts → multiplicative? t = some op → Derives .atom rhs us →
    Derives .product (.binary op lhs rhs) (ts ++ t :: us)
  | term {e : Expr} {ts : List Token} : Derives .product e ts → Derives .sum e ts
  | plus {lhs rhs : Expr} {ts us : List Token} {t : Token} {op : Operator} :
    Derives .sum lhs ts → additive? t = some op → Derives .product rhs us →
    Derives .sum (.binary op lhs rhs) (ts ++ t :: us)

section Reading

theorem Derives.length_pos {r : Rank} {e : Expr} {ts : List Token} (h : Derives r e ts) :
    0 < ts.length := by
  induction h with
  | number _ => exact Nat.zero_lt_one
  | negative _ => exact Nat.zero_lt_two
  | text _ => exact Nat.zero_lt_one
  | word _ => exact Nat.zero_lt_one
  | enclosed _ _ => exact Nat.succ_pos _
  | factor _ ih => exact ih
  | term _ ih => exact ih
  | times _ _ _ _ _ => exact List.length_pos_of_mem (List.mem_append_right _ List.mem_cons_self)
  | plus _ _ _ _ _ => exact List.length_pos_of_mem (List.mem_append_right _ List.mem_cons_self)

def Stops (find? : Token → Option Operator) (ts : List Token) : Prop := ts.head?.bind find? = none

theorem not_multiplicative {t : Token} {op : Operator} (h : additive? t = some op) (ts : List Token) :
    Stops multiplicative? (t :: ts) := by
  unfold additive? at h
  split at h <;> first | rfl | cases h

theorem part_moreSum_stop {n : Nat} {e : Expr} {ts : List Token} (h : Stops additive? ts) :
    part (n + 1) (.moreSum e) ts = .ok (e, ts) := by
  have h : ts.head?.bind additive? = none := h
  rw [part, h]

theorem part_moreProduct_stop {n : Nat} {e : Expr} {ts : List Token}
    (h : Stops multiplicative? ts) : part (n + 1) (.moreProduct e) ts = .ok (e, ts) := by
  have h : ts.head?.bind multiplicative? = none := h
  rw [part, h]

/-- What it is to be read with a rank: an atom at once, the others up to the point where the reader
would go on with another operand. Each operand takes one from the allowance. -/
def Reads : Rank → Expr → List Token → Prop
  | .atom, e, ts => ∀ n r, 3 * ts.length ≤ n → part n .atom (ts ++ r) = .ok (e, r)
  | .product, e, ts => ∀ n r, 3 * ts.length + 1 ≤ n →
    ∃ m, n ≤ m + ts.length ∧ part n .product (ts ++ r) = part m (.moreProduct e) r
  | .sum, e, ts => ∀ n r, 3 * ts.length + 2 ≤ n → Stops multiplicative? r →
    ∃ m, n ≤ m + ts.length ∧ part n .sum (ts ++ r) = part m (.moreSum e) r

theorem reads_product_stop {n : Nat} {e : Expr} {ts r : List Token} (h : Reads .product e ts)
    (hpos : 0 < ts.length) (hn : 3 * ts.length + 1 ≤ n) (hr : Stops multiplicative? r) :
    part n .product (ts ++ r) = .ok (e, r) := by
  obtain ⟨m, hm, hpart⟩ := h n r hn
  obtain ⟨m, rfl⟩ : ∃ k, m = k + 1 := ⟨m - 1, by omega⟩
  rw [hpart, part_moreProduct_stop hr]

theorem reads_sum_stop {n : Nat} {e : Expr} {ts r : List Token} (h : Reads .sum e ts)
    (hpos : 0 < ts.length) (hn : 3 * ts.length + 2 ≤ n) (hm : Stops multiplicative? r)
    (ha : Stops additive? r) : part n .sum (ts ++ r) = .ok (e, r) := by
  obtain ⟨m, hm, hpart⟩ := h n r hn hm
  obtain ⟨m, rfl⟩ : ∃ k, m = k + 1 := ⟨m - 1, by omega⟩
  rw [hpart, part_moreSum_stop ha]

theorem Derives.reads {r : Rank} {e : Expr} {ts : List Token} (h : Derives r e ts) :
    Reads r e ts := by
  induction h with
  | number x =>
    intro n r hn
    obtain ⟨n, rfl⟩ : ∃ k, n = k + 1 := ⟨n - 1, by simp at hn; omega⟩
    rfl
  | negative x =>
    intro n r hn
    obtain ⟨n, rfl⟩ : ∃ k, n = k + 1 := ⟨n - 1, by simp at hn; omega⟩
    rfl
  | text s =>
    intro n r hn
    obtain ⟨n, rfl⟩ : ∃ k, n = k + 1 := ⟨n - 1, by simp at hn; omega⟩
    rfl
  | word name =>
    intro n r hn
    obtain ⟨n, rfl⟩ : ∃ k, n = k + 1 := ⟨n - 1, by simp at hn; omega⟩
    rfl
  | @enclosed e ts h ih =>
    intro n r hn
    have hpos := h.length_pos
    simp only [Expr.enclosed, List.length_cons, List.length_append, List.length_nil] at hn
    obtain ⟨n, rfl⟩ : ∃ k, n = k + 1 := ⟨n - 1, by omega⟩
    have hsum : part n .sum (ts ++ .symbol .rparen :: r) = .ok (e, .symbol .rparen :: r) :=
      reads_sum_stop ih hpos (by omega) rfl rfl
    rw [Expr.enclosed, List.cons_append, List.append_assoc, List.singleton_append, part, hsum]
    rfl
  | @factor e ts h ih =>
    intro n r hn
    have hpos := h.length_pos
    obtain ⟨n, rfl⟩ : ∃ k, n = k + 1 := ⟨n - 1, by omega⟩
    refine ⟨n, by omega, ?_⟩
    rw [part, ih n r (by omega)]
    rfl
  | @times lhs rhs ts us t op hl ht hr ihl ihr =>
    intro n r hn
    have hposl := hl.length_pos
    have hposr := hr.length_pos
    simp only [List.length_append, List.length_cons] at hn ⊢
    -- the reader has the left operand and stands before the operator
    obtain ⟨m, hm, hpart⟩ := ihl n (t :: us ++ r) (by omega)
    obtain ⟨m, rfl⟩ : ∃ k, m = k + 1 := ⟨m - 1, by omega⟩
    refine ⟨m, by omega, ?_⟩
    rw [List.append_assoc, hpart, part, List.cons_append, List.head?_cons, Option.bind_some, ht]
    dsimp only
    rw [List.tail_cons, ihr m r (by omega)]
    rfl
  | @term e ts h ih =>
    intro n r hn hr
    have hpos := h.length_pos
    obtain ⟨n, rfl⟩ : ∃ k, n = k + 1 := ⟨n - 1, by omega⟩
    refine ⟨n, by omega, ?_⟩
    rw [part, reads_product_stop ih hpos (by omega) hr]
    rfl
  | @plus lhs rhs ts us t op hl ht hr ihl ihr =>
    intro n r hn hstop
    have hposl := hl.length_pos
    have hposr := hr.length_pos
    simp only [List.length_append, List.length_cons] at hn ⊢
    obtain ⟨m, hm, hpart⟩ := ihl n (t :: us ++ r) (by omega) (not_multiplicative ht _)
    obtain ⟨m, rfl⟩ : ∃ k, m = k + 1 := ⟨m - 1, by omega⟩
    refine ⟨m, by omega, ?_⟩
    rw [List.append_assoc, hpart, part, List.cons_append, List.head?_cons, Option.bind_some, ht]
    dsimp only
    rw [List.tail_cons, reads_product_stop ihr hposr (by omega) hstop]
    rfl

theorem Derives.expression {e : Expr} {ts r : List Token} (h : Derives .sum e ts)
    (hm : Stops multiplicative? r) (ha : Stops additive? r) :
    Line.expression (ts ++ r) = .ok (e, r) := by
  refine reads_sum_stop h.reads h.length_pos ?_ hm ha
  rw [List.length_append]
  omega

end Reading

section Writing

variable {b : Bracketing} {e : Expr} {ts : List Token}

def Writable : Expr → Prop
  | .literal (.number x) => Decimal.Readable x
  | .literal (.text _) => True
  | .literal (.variable name) => Text.isName name.toList = true
  | .binary _ lhs rhs => Writable lhs ∧ Writable rhs

theorem Derives.of_atom (h : Derives .atom e ts) (r : Rank) : Derives r e ts := by
  cases r with
  | sum => exact .term (.factor h)
  | product => exact .factor h
  | atom => exact h

theorem Derives.to_sum {r : Rank} (h : Derives r e ts) : Derives .sum e ts := by
  cases r with
  | sum => exact h
  | product => exact .term h
  | atom => exact h.of_atom .sum

theorem Derives.admitted {r r' : Rank} (h : Derives r' e ts) (hr : r.admits r' = true) :
    Derives r e ts := by
  cases r with
  | sum => exact h.to_sum
  | product =>
    cases r' with
    | sum => cases hr
    | product => exact h
    | atom => exact h.of_atom .product
  | atom =>
    cases r' with
    | sum => cases hr
    | product => cases hr
    | atom => exact h

theorem Derives.operation {op : Operator} {lhs rhs : Expr} {us : List Token}
    (hl : Derives op.rank lhs ts) (hr : Derives op.rank.next rhs us) :
    Derives op.rank (.binary op lhs rhs) (ts ++ .symbol op.sign :: us) := by
  cases op with
  | add => exact .plus hl rfl hr
  | sub => exact .plus hl rfl hr
  | mul => exact .times hl rfl hr
  | div => exact .times hl rfl hr

theorem Derives.of_value {n : Numeral} {x : Float} (h : n.value = x) :
    Derives .atom (.literal (.number x)) [.number n] := by
  subst h
  exact .number n

theorem Derives.of_neg_value {n : Numeral} {x : Float} (h : -n.value = x) :
    Derives .atom (.literal (.number x)) [.symbol .minus, .number n] := by
  subst h
  exact .negative n

theorem derives_literal {l : Literal} (h : Writable (.literal l)) :
    Derives .atom (.literal l) l.tokens := by
  cases l with
  | number x =>
    have hx : Decimal.Readable x := h
    obtain ⟨negative, m, e, hfinite⟩ := hx.finite
    have hsign := Decimal.eq_magnitude hfinite
    rw [Literal.tokens]
    split
    · next hneg =>
      rw [if_pos hneg, ← hx.back] at hsign
      exact .of_neg_value hsign.symm
    · next hneg =>
      rw [if_neg hneg, ← hx.back] at hsign
      exact .of_value hsign.symm
  | text s => exact .text s
  | «variable» name => exact .word name

def render (spell : Literal → List Token) (b : Bracketing) : Rank → Expr → List Token
  | _, .literal l => spell l
  | r, .binary op lhs rhs =>
    let ts := render spell b op.rank lhs ++ .symbol op.sign :: render spell b op.rank.next rhs
    if b = .minimal && r.admits op.rank then ts else Expr.enclosed ts

theorem tokens_eq_render (e : Expr) (r : Rank) : e.tokens b r = render Literal.tokens b r e := by
  induction e generalizing r with
  | literal l => rfl
  | binary op lhs rhs ihl ihr => rw [Expr.tokens, render, ihl, ihr]

def literals : Expr → List Literal
  | .literal l => [l]
  | .binary _ lhs rhs => literals lhs ++ literals rhs

/-- What is written for an expression derives it, whichever parentheses it has and however its literals
are written. -/
theorem derives_render {spell : Literal → List Token}
    (h : ∀ l ∈ literals e, Derives .atom (.literal l) (spell l)) (r : Rank) :
    Derives r e (render spell b r e) := by
  induction e generalizing r with
  | literal l => exact (h l (List.mem_singleton_self l)).of_atom r
  | binary op lhs rhs ihl ihr =>
    obtain ⟨hl, hr⟩ := List.forall_mem_append.1 h
    have hop := Derives.operation (ihl hl op.rank) (ihr hr op.rank.next)
    rw [render]
    split
    · next hfree =>
      rw [Bool.and_eq_true] at hfree
      exact hop.admitted hfree.2
    · exact (Derives.enclosed hop.to_sum).of_atom r

theorem Writable.literal (h : Writable e) : ∀ l ∈ literals e, Writable (.literal l) := by
  induction e with
  | literal l => exact List.forall_mem_singleton.2 h
  | binary op lhs rhs ihl ihr => exact List.forall_mem_append.2 ⟨ihl h.1, ihr h.2⟩

theorem derives_tokens (h : Writable e) (r : Rank) : Derives r e (e.tokens b r) := by
  rw [tokens_eq_render]
  exact derives_render (fun l hl => derives_literal (h.literal l hl)) r

theorem spellable_enclosed (h : ∀ t ∈ ts, t.Spellable) : ∀ t ∈ Expr.enclosed ts, t.Spellable := by
  refine List.forall_mem_cons.2 ⟨trivial, List.forall_mem_append.2 ⟨h, ?_⟩⟩
  exact List.forall_mem_singleton.2 trivial

theorem spellable_literal {l : Literal} (h : Writable (.literal l)) :
    ∀ t ∈ l.tokens, t.Spellable := by
  cases l with
  | number x =>
    have hx : Decimal.Readable x := h
    obtain ⟨negative, m, e, hfinite⟩ := hx.finite
    have hsize := Numeral.spellable_ofDouble (Decimal.binary_magnitude hfinite)
    rw [Literal.tokens]
    split
    · exact List.forall_mem_cons.2 ⟨trivial, List.forall_mem_singleton.2 hsize⟩
    · exact List.forall_mem_singleton.2 hsize
  | text s => exact List.forall_mem_singleton.2 trivial
  | «variable» name => exact List.forall_mem_singleton.2 h

theorem spellable_expr (h : Writable e) (r : Rank) : ∀ t ∈ e.tokens b r, t.Spellable := by
  induction e generalizing r with
  | literal l => exact spellable_literal h
  | binary op lhs rhs ihl ihr =>
    obtain ⟨hl, hr⟩ := h
    have hsign : (Token.symbol op.sign).Spellable := trivial
    have hop := List.forall_mem_append.2
      ⟨ihl hl op.rank, List.forall_mem_cons.2 ⟨hsign, ihr hr op.rank.next⟩⟩
    rw [Expr.tokens]
    split
    · exact hop
    · exact spellable_enclosed hop

end Writing

end Line

end CueSheet
