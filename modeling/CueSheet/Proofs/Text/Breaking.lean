import CueSheet.Text
import Mathlib.Data.List.Basic
import Mathlib.Data.List.Infix

/-!
Where a text is broken at a mark, and into how many pieces it is cut.
-/

namespace CueSheet.Text

variable {α : Type} [DecidableEq α] {mark s a b : List α} {sep c : α}

theorem eq_of_breakAt? (h : breakAt? mark s = some (a, b)) : s = a ++ (mark ++ b) := by
  induction s generalizing a with
  | nil =>
    rw [breakAt?] at h
    split_ifs at h with hmark
    cases h
    rw [List.isEmpty_iff.1 hmark]
    rfl
  | cons d s ih =>
    rw [breakAt?] at h
    split at h
    · next rest hrest =>
      cases h
      exact (List.isPrefixOf?_eq_some_iff_append_eq.1 hrest).symm
    · obtain ⟨⟨x, y⟩, hbreak, hx⟩ := Option.map_eq_some_iff.1 h
      cases hx
      rw [ih hbreak]
      rfl

theorem breakAt?_eq_none_iff : breakAt? mark s = none ↔ ¬ mark <:+: s := by
  induction s with
  | nil => simp [breakAt?]
  | cons d s ih =>
    rw [breakAt?, List.infix_cons_iff, not_or, ← ih]
    cases hprefix : mark.isPrefixOf? (d :: s) with
    | some rest =>
      have happend := List.isPrefixOf?_eq_some_iff_append_eq.1 hprefix
      simp [← happend]
    | none =>
      have hnot : ¬ mark <+: d :: s := by
        rintro ⟨rest, hrest⟩
        rw [List.isPrefixOf?_eq_some_iff_append_eq.2 hrest] at hprefix
        cases hprefix
      simp [hnot]

theorem breakAt?_mark (hmark : mark ≠ []) (s : List α) : breakAt? mark (mark ++ s) = some ([], s) := by
  cases mark with
  | nil => exact absurd rfl hmark
  | cons d mark =>
    have hprefix : (d :: mark).isPrefixOf? (d :: (mark ++ s)) = some s :=
      List.isPrefixOf?_eq_some_iff_append_eq.2 rfl
    rw [List.cons_append, breakAt?, hprefix]

theorem isPrefixOf?_append_cons (hc : c ∉ mark) (s t : List α) :
    mark.isPrefixOf? (s ++ c :: t) = (mark.isPrefixOf? s).map (· ++ c :: t) := by
  induction mark generalizing s with
  | nil => rfl
  | cons d mark ih =>
    obtain ⟨hd, hmark⟩ : c ≠ d ∧ c ∉ mark := by simpa using hc
    cases s with
    | nil => simp [List.isPrefixOf?, Ne.symm hd]
    | cons e s =>
      simp only [List.cons_append, List.isPrefixOf?]
      split
      · exact ih hmark s
      · rfl

theorem breakAt?_append_cons (hc : c ∉ mark) (hmark : mark ≠ []) (s t : List α) :
    breakAt? mark (s ++ c :: t) = match breakAt? mark s with
      | some (a, b) => some (a, b ++ c :: t)
      | none => (breakAt? mark t).map fun p => (s ++ c :: p.1, p.2) := by
  induction s with
  | nil =>
    cases mark with
    | nil => exact absurd rfl hmark
    | cons e mark =>
      have hcross := isPrefixOf?_append_cons hc [] t
      rw [List.nil_append] at hcross ⊢
      rw [breakAt?, breakAt?, hcross]
      rfl
  | cons d s ih =>
    have hcross := isPrefixOf?_append_cons hc (d :: s) t
    rw [List.cons_append] at hcross ⊢
    rw [breakAt?, breakAt?, hcross, ih]
    cases mark.isPrefixOf? (d :: s) with
    | some rest => rfl
    | none =>
      cases breakAt? mark s with
      | some parts => rfl
      | none => simp [Function.comp_def]

theorem breakAt?_append_of_forall (hs : ∀ c ∈ s, c ∉ mark) (hmark : mark ≠ []) (t : List α) :
    breakAt? mark (s ++ t) = (breakAt? mark t).map fun p => (s ++ p.1, p.2) := by
  induction s with
  | nil => simp
  | cons d s ih =>
    obtain ⟨hd, hs⟩ := List.forall_mem_cons.1 hs
    have hempty : breakAt? mark [] = none := if_neg (by simpa using hmark)
    have hcons := breakAt?_append_cons hd hmark [] (s ++ t)
    rw [hempty] at hcons
    rw [List.cons_append, ← List.nil_append (d :: (s ++ t)), hcons, ih hs, Option.map_map]
    rfl

theorem length_pieces (sep : α) (s : List α) : (pieces sep s).length = s.count sep + 1 := by
  induction s with
  | nil => rfl
  | cons d s ih =>
    rw [pieces]
    split
    · next h => rw [h, List.length_cons, ih, List.count_cons_self]
    · next h =>
      rw [List.count_cons_of_ne h, ← ih]
      cases hp : pieces sep s with
      | nil => exact absurd hp (pieces_ne_nil sep s)
      | cons p ps => rfl

theorem head?_pieces (sep : α) (s : List α) :
    (pieces sep s).head? = some (s.takeWhile (· ≠ sep)) := by
  induction s with
  | nil => rfl
  | cons d s ih =>
    rw [pieces]
    split
    · next h => simp [h]
    · next h =>
      cases hp : pieces sep s with
      | nil => exact absurd hp (pieces_ne_nil sep s)
      | cons p ps =>
        rw [hp] at ih
        simp [h, Option.some.inj ih]

end CueSheet.Text
