import CueSheet.Schedule
import Mathlib.Data.List.Forall2

/-!
The order of dispatch. It is total and transitive, so sorting by it puts any commands into order,
and commands that it cannot tell apart stay as they were. A list is fixed by its order together
with the order within each tie; so to sort twice is to sort once, as long as the second order ties
only what the first one ties.
-/

namespace CueSheet

def Command.Precedes (name : DeviceId → String) (a b : Command) : Prop :=
  a.start < b.start ∨ a.start = b.start ∧
    (name a.device < name b.device ∨ name a.device = name b.device ∧
      (a.device.file < b.device.file ∨
        a.device.file = b.device.file ∧ a.device.index ≤ b.device.index))

namespace Timeline

section StableSort

variable {α : Type} {r s : α → α → Bool}

def ties (r : α → α → Bool) (a : α) (l : List α) : List α := l.filter fun b => r a b && r b a

theorem mem_ties {a b : α} {l : List α} :
    b ∈ ties r a l ↔ b ∈ l ∧ r a b = true ∧ r b a = true := by
  simp [ties]

theorem ties_mergeSort (trans : ∀ a b c, r a b = true → r b c = true → r a c = true)
    (total : ∀ a b, (r a b || r b a) = true) (a : α) (l : List α) :
    ties r a (l.mergeSort r) = ties r a l := by
  have hp : (ties r a l).Pairwise fun b c => r b c = true := by
    apply List.pairwise_of_forall_mem_list
    intro b hb c hc
    exact trans b a c (mem_ties.1 hb).2.2 (mem_ties.1 hc).2.1
  have hs : (ties r a l).Sublist (l.mergeSort r) :=
    List.sublist_mergeSort trans total hp List.filter_sublist
  have hf := hs.filter fun b => r a b && r b a
  have he : (ties r a l).filter (fun b => r a b && r b a) = ties r a l := by
    simp [ties, List.filter_filter]
  rw [he] at hf
  exact (hf.eq_of_length (((List.mergeSort_perm l r).filter _).length_eq.symm)).symm

theorem eq_of_ties (refl : ∀ a, r a a = true) {l₁ l₂ : List α}
    (h₁ : l₁.Pairwise fun a b => r a b = true) (h₂ : l₂.Pairwise fun a b => r a b = true)
    (hp : l₁.Perm l₂) (ht : ∀ a ∈ l₁, ties r a l₁ = ties r a l₂) : l₁ = l₂ := by
  induction l₁ generalizing l₂ with
  | nil => exact hp.nil_eq
  | cons x t₁ ih =>
    cases l₂ with
    | nil => exact absurd hp.length_eq (by simp)
    | cons y t₂ =>
      have hxy : r x y = true ∧ r y x = true := by
        constructor
        · rcases List.mem_cons.1 (hp.symm.subset List.mem_cons_self) with rfl | hy
          · exact refl _
          · exact List.rel_of_pairwise_cons h₁ hy
        · rcases List.mem_cons.1 (hp.subset List.mem_cons_self) with rfl | hx
          · exact refl _
          · exact List.rel_of_pairwise_cons h₂ hx
      have hx := ht x List.mem_cons_self
      simp only [ties, List.filter_cons, refl, hxy.1, hxy.2, Bool.and_self, if_true,
        List.cons.injEq] at hx
      obtain ⟨rfl, -⟩ := hx
      have hp' : t₁.Perm t₂ := hp.cons_inv
      congr 1
      apply ih h₁.of_cons h₂.of_cons hp'
      intro a ha
      have hta := ht a (List.mem_cons_of_mem _ ha)
      simp only [ties, List.filter_cons] at hta ⊢
      split at hta
      · exact (List.cons.inj hta).2
      · exact hta

theorem mergeSort_mergeSort
    (hr : ∀ a b c, r a b = true → r b c = true → r a c = true)
    (hr' : ∀ a b, (r a b || r b a) = true)
    (hs : ∀ a b c, s a b = true → s b c = true → s a c = true)
    (hs' : ∀ a b, (s a b || s b a) = true) {l : List α}
    (h : ∀ a ∈ l, ∀ b ∈ l, s a b = true → s b a = true → r a b = true) :
    (l.mergeSort r).mergeSort s = l.mergeSort s := by
  have hp := ((List.mergeSort_perm (l.mergeSort r) s).trans (List.mergeSort_perm l r))
  apply eq_of_ties (r := s) (fun a => by simpa using hs' a a)
    (List.pairwise_mergeSort hs hs' _) (List.pairwise_mergeSort hs hs' _)
    (hp.trans (List.mergeSort_perm l s).symm)
  intro a ha
  have hal : a ∈ l := hp.subset ha
  rw [ties_mergeSort hs hs', ties_mergeSort hs hs']
  -- a tie of `s` lies within a tie of `r`, and that one is as in `l`
  have hin : ∀ l' : List α, l' ⊆ l → ties s a l' = ties s a (ties r a l') := by
    intro l' hl
    simp only [ties, List.filter_filter]
    apply List.filter_congr
    intro b hb
    have hab := h a hal b (hl hb)
    have hba := h b (hl hb) a hal
    by_cases h1 : s a b = true <;> by_cases h2 : s b a = true <;> simp_all
  rw [hin _ (List.mergeSort_perm l r).subset, ties_mergeSort hr hr', ← hin l (List.Subset.refl l)]

theorem filter_mergeSort (trans : ∀ a b c, r a b = true → r b c = true → r a c = true)
    (total : ∀ a b, (r a b || r b a) = true) (q : α → Bool) (l : List α) :
    (l.mergeSort r).filter q = (l.filter q).mergeSort r := by
  have hcomm : ∀ (a : α) (l : List α), ties r a (l.filter q) = (ties r a l).filter q := by
    intro a l
    simp only [ties, List.filter_filter, Bool.and_comm]
  apply eq_of_ties (r := r) (fun a => by simpa using total a a)
    ((List.pairwise_mergeSort trans total l).sublist List.filter_sublist)
    (List.pairwise_mergeSort trans total _)
    (((List.mergeSort_perm l r).filter q).trans (List.mergeSort_perm _ r).symm)
  intro a _
  rw [ties_mergeSort trans total, hcomm, hcomm, ties_mergeSort trans total]

/-- What ties stays in the order it was in. -/
theorem pairwise_mergeSort_ties {R : α → α → Prop}
    (trans : ∀ a b c, r a b = true → r b c = true → r a c = true)
    (total : ∀ a b, (r a b || r b a) = true) {l : List α} (hl : l.Pairwise R) :
    (l.mergeSort r).Pairwise fun a b => r a b = true ∧ (r b a = true → R a b) := by
  rw [List.pairwise_iff_forall_sublist]
  intro a b hab
  have hr : r a b = true :=
    List.rel_of_pairwise_cons ((List.pairwise_mergeSort trans total l).sublist hab)
      List.mem_cons_self
  refine ⟨hr, fun hba => ?_⟩
  have haa : r a a = true := by simpa using total a a
  have hties : [a, b].Sublist (ties r a l) := by
    rw [← ties_mergeSort trans total]
    simpa [ties, haa, hr, hba] using hab.filter fun c => r a c && r c a
  exact List.rel_of_pairwise_cons (hl.sublist (hties.trans List.filter_sublist))
    List.mem_cons_self

theorem forall₂_mergeSort {β : Type} {t : β → β → Bool} {R : α → β → Prop}
    (hrt : ∀ a b x y, R a x → R b y → r a b = t x y) {l : List α} {m : List β}
    (h : List.Forall₂ R l m) : List.Forall₂ R (l.mergeSort r) (m.mergeSort t) := by
  obtain ⟨hlength, hzip⟩ := List.forall₂_iff_zip.1 h
  let u (x y : α × β) : Bool := r x.1 y.1
  have hl : ((l.zip m).mergeSort u).map Prod.fst = l.mergeSort r := by
    rw [List.map_mergeSort (s := r) fun _ _ _ _ => rfl, List.map_fst_zip (Nat.le_of_eq hlength)]
  have hm : ((l.zip m).mergeSort u).map Prod.snd = m.mergeSort t := by
    rw [List.map_mergeSort (s := t) fun x hx y hy => hrt _ _ _ _ (hzip hx) (hzip hy),
      List.map_snd_zip (Nat.le_of_eq hlength.symm)]
  rw [← hl, ← hm, List.forall₂_map_left_iff, List.forall₂_map_right_iff, List.forall₂_same]
  exact fun x hx => hzip ((List.mergeSort_perm _ u).subset hx)

end StableSort

variable {name : DeviceId → String}

theorem compare_text_eq_lt (a b : String) : compare a b = .lt ↔ a < b := by
  change compareOfLessAndEq a b = .lt ↔ a < b
  simp only [compareOfLessAndEq]
  split
  · simp_all
  · split <;> simp_all

theorem order_isLE_iff (a b : Command) :
    (order name a b).isLE = true ↔ a.Precedes name b := by
  obtain ⟨⟨fa, ia⟩, pa, sa, ta⟩ := a
  obtain ⟨⟨fb, ib⟩, pb, sb, tb⟩ := b
  have hd : (compare (⟨fa, ia⟩ : DeviceId) ⟨fb, ib⟩).isLE = true ↔
      fa < fb ∨ fa = fb ∧ ia ≤ ib := by
    change ((compare fa fb).then ((compare ia ib).then .eq)).isLE = true ↔ _
    simp only [Ordering.then_eq, Ordering.isLE_then_iff_or, Nat.compare_eq_lt, Nat.compare_eq_eq,
      Nat.isLE_compare]
  simp only [order, Command.Precedes, Ordering.isLE_then_iff_or, Nat.compare_eq_lt,
    compare_text_eq_lt, Std.compare_eq_iff_eq, hd]

end Timeline

namespace Command.Precedes

variable {name : DeviceId → String} {a b c : Command}

theorem trans (hab : a.Precedes name b) (hbc : b.Precedes name c) : a.Precedes name c := by
  simp only [Precedes] at *
  rcases hab with h | ⟨h, hab⟩
  · left; omega
  rcases hbc with h' | ⟨h', hbc⟩
  · left; omega
  refine Or.inr ⟨h.trans h', ?_⟩
  rcases hab with h | ⟨h, hab⟩
  · rcases hbc with h' | ⟨h', -⟩
    · exact Or.inl (String.lt_trans h h')
    · exact Or.inl (h' ▸ h)
  · rcases hbc with h' | ⟨h', hbc⟩
    · exact Or.inl (h ▸ h')
    · exact Or.inr ⟨h.trans h', by omega⟩

theorem total (name : DeviceId → String) (a b : Command) :
    a.Precedes name b ∨ b.Precedes name a := by
  simp only [Precedes]
  rcases Nat.lt_trichotomy a.start b.start with h | h | h
  · exact Or.inl (Or.inl h)
  · rcases Std.lt_trichotomy (name a.device) (name b.device) with hn | hn | hn
    · exact Or.inl (Or.inr ⟨h, Or.inl hn⟩)
    · by_cases hd : a.device.file < b.device.file ∨
          a.device.file = b.device.file ∧ a.device.index ≤ b.device.index
      · exact Or.inl (Or.inr ⟨h, Or.inr ⟨hn, hd⟩⟩)
      · exact Or.inr (Or.inr ⟨h.symm, Or.inr ⟨hn.symm, by omega⟩⟩)
    · exact Or.inr (Or.inr ⟨h.symm, Or.inl hn⟩)
  · exact Or.inr (Or.inl h)

theorem start_le (h : a.Precedes name b) : a.start ≤ b.start := by
  simp only [Precedes] at h
  omega

theorem device_eq (hab : a.Precedes name b) (hba : b.Precedes name a) : a.device = b.device := by
  have hs : a.start = b.start := Nat.le_antisymm hab.start_le hba.start_le
  obtain ⟨⟨fa, ia⟩, pa, sa, ta⟩ := a
  obtain ⟨⟨fb, ib⟩, pb, sb, tb⟩ := b
  simp only [Precedes, DeviceId.mk.injEq] at hab hba hs ⊢
  rcases hab with h | ⟨-, h | ⟨hn, hab⟩⟩
  · omega
  · rcases hba with h' | ⟨-, h' | ⟨h', -⟩⟩
    · omega
    · exact absurd h' (String.lt_asymm h)
    · exact absurd (h' ▸ h) (String.lt_irrefl _)
  · rcases hba with h' | ⟨-, h' | ⟨-, hba⟩⟩
    · omega
    · exact absurd (hn ▸ h') (String.lt_irrefl _)
    · omega

theorem of_device_eq (hd : a.device = b.device) (hs : a.start ≤ b.start) : a.Precedes name b := by
  simp only [Precedes]
  rw [hd]
  rcases Nat.lt_or_eq_of_le hs with h | h
  · exact Or.inl h
  · exact Or.inr ⟨h, Or.inr ⟨rfl, Or.inr ⟨rfl, Nat.le_refl _⟩⟩⟩

end Command.Precedes

namespace Timeline

variable {name : DeviceId → String}

theorem order_trans (a b c : Command) (hab : (order name a b).isLE = true)
    (hbc : (order name b c).isLE = true) : (order name a c).isLE = true := by
  rw [order_isLE_iff] at *
  exact hab.trans hbc

theorem order_total (a b : Command) :
    ((order name a b).isLE || (order name b a).isLE) = true := by
  simp only [Bool.or_eq_true, order_isLE_iff]
  exact Command.Precedes.total name a b

theorem sort_perm (cs : List Command) : (sort name cs).Perm cs := List.mergeSort_perm cs _

theorem pairwise_sort (cs : List Command) : (sort name cs).Pairwise (Command.Precedes name) :=
  (List.pairwise_mergeSort order_trans order_total cs).imp fun h => (order_isLE_iff _ _).1 h

theorem sort_of_pairwise {cs : List Command} (h : cs.Pairwise (Command.Precedes name)) :
    sort name cs = cs :=
  List.mergeSort_of_pairwise (h.imp fun h => (order_isLE_iff _ _).2 h)

theorem filter_sort {cs : List Command} {q : Command → Bool}
    (h : (cs.filter q).Pairwise (Command.Precedes name)) :
    (sort name cs).filter q = cs.filter q :=
  calc (sort name cs).filter q = sort name (cs.filter q) :=
        filter_mergeSort order_trans order_total q cs
    _ = cs.filter q := sort_of_pairwise h

end Timeline

end CueSheet
