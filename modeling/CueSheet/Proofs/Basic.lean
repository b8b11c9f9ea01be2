import Mathlib.Data.List.Chain
import Mathlib.Data.List.Forall2
import Mathlib.Logic.Relation

/-!
How a result that may be an error was reached: each combinator, read backwards. And graphs, as relations
from a node to the nodes behind it: a node from which every way comes to an end lies on no cycle.
-/

namespace CueSheet.Result

variable {ε ε' α β : Type}

theorem bind_eq_ok_iff {x : Except ε α} {f : α → Except ε β} {b : β} :
    (x >>= f) = .ok b ↔ ∃ a, x = .ok a ∧ f a = .ok b := by
  cases x <;> simp [bind, Except.bind]

theorem bind_eq_error_iff {x : Except ε α} {f : α → Except ε β} {e : ε} :
    (x >>= f) = .error e ↔ x = .error e ∨ ∃ a, x = .ok a ∧ f a = .error e := by
  cases x <;> simp [bind, Except.bind]

theorem map_eq_ok_iff {x : Except ε α} {f : α → β} {b : β} :
    x.map f = .ok b ↔ ∃ a, x = .ok a ∧ f a = b := by
  cases x <;> simp [Except.map]

theorem map_eq_error_iff {x : Except ε α} {f : α → β} {e : ε} :
    x.map f = .error e ↔ x = .error e := by
  cases x <;> simp [Except.map]

theorem mapError_eq_ok_iff {x : Except ε α} {f : ε → ε'} {a : α} :
    x.mapError f = .ok a ↔ x = .ok a := by
  cases x <;> simp [Except.mapError]

theorem mapError_eq_error_iff {x : Except ε α} {f : ε → ε'} {e : ε'} :
    x.mapError f = .error e ↔ ∃ e', x = .error e' ∧ f e' = e := by
  cases x <;> simp [Except.mapError]

theorem mapError_ok_or_error (x : Except ε Unit) (f : ε → ε') :
    x.mapError f = .ok () ∨ ∃ e, x.mapError f = .error (f e) := by
  cases x with
  | ok _ => exact .inl rfl
  | error e => exact .inr ⟨e, rfl⟩

theorem mapM_eq_ok_iff {f : α → Except ε β} {l : List α} {l' : List β} :
    l.mapM f = .ok l' ↔ List.Forall₂ (fun a b => f a = .ok b) l l' := by
  induction l generalizing l' with
  | nil => cases l' <;> simp [pure, Except.pure]
  | cons a l ih =>
    simp only [List.mapM_cons, bind_eq_ok_iff, pure, Except.pure, Except.ok.injEq,
      List.forall₂_cons_left_iff, ih]
    constructor
    · rintro ⟨b, hb, bs, hbs, rfl⟩
      exact ⟨b, bs, hb, hbs, rfl⟩
    · rintro ⟨b, bs, hb, hbs, rfl⟩
      exact ⟨b, hb, bs, hbs, rfl⟩

theorem mapM_of_forall₂ {R : α → α → Prop} {f : α → Except ε β} {l l' : List α} {bs : List β}
    (h : l.mapM f = .ok bs) (hl : List.Forall₂ R l l')
    (hread : ∀ a a' b, R a a' → b ∈ bs → f a = .ok b → f a' = .ok b) : l'.mapM f = .ok bs := by
  rw [mapM_eq_ok_iff] at h ⊢
  induction h generalizing l' with
  | nil =>
    cases hl
    exact .nil
  | cons ha _ ih =>
    cases hl with
    | cons hR hrest =>
      exact .cons (hread _ _ _ hR List.mem_cons_self ha)
        (ih hrest fun a a' b hR hb => hread a a' b hR (List.mem_cons_of_mem _ hb))

theorem exists_of_mem_right {R : α → β → Prop} {l : List α} {l' : List β} {b : β}
    (h : List.Forall₂ R l l') (hb : b ∈ l') : ∃ a ∈ l, R a b := by
  induction h with
  | nil => simp at hb
  | cons hr _ ih =>
    rcases List.mem_cons.1 hb with rfl | hb
    · exact ⟨_, List.mem_cons_self, hr⟩
    · obtain ⟨a, ha, hr⟩ := ih hb
      exact ⟨a, List.mem_cons_of_mem _ ha, hr⟩

theorem exists_forall₂_iff {R : α → β → Prop} {l : List α} :
    (∃ l', List.Forall₂ R l l') ↔ ∀ a ∈ l, ∃ b, R a b := by
  induction l with
  | nil => simp
  | cons a l ih =>
    rw [List.forall_mem_cons, ← ih]
    constructor
    · rintro ⟨_, h⟩
      cases h with
      | cons ha hl => exact ⟨⟨_, ha⟩, _, hl⟩
    · rintro ⟨⟨b, ha⟩, l', hl⟩
      exact ⟨b :: l', .cons ha hl⟩

/-- The error of the first element that fails. -/
theorem mapM_eq_error {f : α → Except ε β} {l : List α} {e : ε} (h : l.mapM f = .error e) :
    ∃ before a after, l = before ++ a :: after ∧ (∀ x ∈ before, ∃ b, f x = .ok b) ∧
      f a = .error e := by
  induction l with
  | nil => simp [pure, Except.pure] at h
  | cons a l ih =>
    rw [List.mapM_cons, bind_eq_error_iff] at h
    rcases h with h | ⟨b, hb, h⟩
    · exact ⟨[], a, l, rfl, by simp, h⟩
    · rcases bind_eq_error_iff.1 h with h | ⟨bs, -, h⟩
      · obtain ⟨before, c, after, rfl, hbefore, hc⟩ := ih h
        exact ⟨a :: before, c, after, rfl, List.forall_mem_cons.2 ⟨⟨b, hb⟩, hbefore⟩, hc⟩
      · simp [pure, Except.pure] at h

theorem exists_of_mapM_eq_error {f : α → Except ε β} {l : List α} {e : ε}
    (h : l.mapM f = .error e) : ∃ a ∈ l, f a = .error e := by
  obtain ⟨before, a, after, rfl, -, ha⟩ := mapM_eq_error h
  exact ⟨a, by simp, ha⟩

theorem exists_of_foldlM_eq_error {f : β → α → Except ε β} {l : List α} {b : β} {e : ε}
    (h : l.foldlM f b = .error e) : ∃ b' a, f b' a = .error e := by
  induction l generalizing b with
  | nil => simp [pure, Except.pure] at h
  | cons a l ih =>
    rw [List.foldlM_cons] at h
    rcases bind_eq_error_iff.1 h with h | ⟨b', -, h⟩
    · exact ⟨b, a, h⟩
    · exact ih h

end CueSheet.Result

namespace CueSheet

variable {α : Type} {r : α → α → Prop} {a b : α}

theorem not_transGen_of_acc (h : Acc (fun b a => r a b) a) : ¬ Relation.TransGen r a a := by
  induction h with
  | intro a _ ih =>
    intro hcycle
    obtain ⟨b, hab, hba⟩ := Relation.TransGen.head'_iff.1 hcycle
    exact ih b hab (Relation.TransGen.tail' hba hab)

theorem acc_of_reflTransGen (h : Relation.ReflTransGen r a b) (ha : Acc (fun b a => r a b) a) :
    Acc (fun b a => r a b) b := by
  induction h with
  | refl => exact ha
  | tail _ hstep ih => exact ih.inv hstep

theorem isChain_concat {l : List α} (h : l.IsChain r) (hlast : l.getLast? = some a) (hab : r a b) :
    (l ++ [b]).IsChain r := by
  refine List.isChain_append.2 ⟨h, .singleton b, fun c hc d hd => ?_⟩
  obtain rfl : a = c := Option.some.inj (hlast.symm.trans hc)
  obtain rfl : b = d := Option.some.inj hd
  exact hab

theorem pairwise_transGen {l : List α} (h : l.IsChain r) : l.Pairwise (Relation.TransGen r) := by
  rw [← List.isChain_iff_pairwise]
  exact h.imp fun _ _ hab => .single hab

end CueSheet
