import CueSheet.Schedule
import Mathlib.Data.List.Chain

/-!
What the search for an overlap finds. It compares a span only with the last one of its device, and
stops at the first that starts too early; where no span is reversed the ends of a device can only grow,
so that this one comparison stands for all of them.
-/

namespace CueSheet.Span

def Apart (a b : Span) : Prop := a.device = b.device → a.stop ≤ b.start

/-- Among the spans of one device, none starts before the one in front of it has ended. -/
def Successive (l : List Span) : Prop :=
  ∀ d, (l.filter (·.device = d)).IsChain fun a b => a.stop ≤ b.start

def Receding (seen : List Span) : Prop :=
  seen.Pairwise fun a b => a.device = b.device → b.stop ≤ a.stop

theorem lastStop?_cons (d : DeviceId) (s : Span) (seen : List Span) :
    lastStop? d (s :: seen) = if s.device = d then some s.stop else lastStop? d seen := by
  by_cases h : s.device = d <;> simp [lastStop?, h]

theorem exists_of_lastStop? {d : DeviceId} {t : Nat} {seen : List Span}
    (h : lastStop? d seen = some t) :
    ∃ later s earlier, seen = later ++ s :: earlier ∧ (∀ x ∈ later, x.device ≠ d) ∧
      s.device = d ∧ s.stop = t := by
  obtain ⟨s, hs, rfl⟩ := Option.map_eq_some_iff.1 h
  obtain ⟨hd, later, earlier, hseen, hlater⟩ := List.find?_eq_some_iff_append.1 hs
  exact ⟨later, s, earlier, hseen, by simpa using hlater, by simpa using hd, rfl⟩

theorem lastStop?_filter_eq_none_iff {seen : List Span} (h : Receding seen) (d : DeviceId)
    (start : Nat) :
    (lastStop? d seen).filter (start < ·) = none ↔ ∀ s ∈ seen, s.device = d → s.stop ≤ start := by
  induction seen with
  | nil => simp [lastStop?]
  | cons x r ih =>
    obtain ⟨hx, hr⟩ := List.pairwise_cons.1 h
    rw [lastStop?_cons, List.forall_mem_cons]
    by_cases hd : x.device = d
    · rw [if_pos hd]
      constructor
      · intro hf
        have hle : x.stop ≤ start := by simpa using hf
        exact ⟨fun _ => hle, fun s hs he => Nat.le_trans (hx s hs (hd.trans he.symm)) hle⟩
      · intro hf
        simpa using hf.1 hd
    · rw [if_neg hd, ih hr]
      exact ⟨fun hf => ⟨fun he => absurd he hd, hf⟩, And.right⟩

theorem overlapAfter?_cons (seen : List Span) (s : Span) (r : List Span) :
    overlapAfter? seen (s :: r) = none ↔
      (lastStop? s.device seen).filter (s.start < ·) = none ∧
        overlapAfter? (s :: seen) r = none := by
  rw [overlapAfter?]
  split
  · next t ht => simp [ht]
  · next hn => simp [hn]

theorem overlapAfter?_eq_none_iff {seen l : List Span} (hseen : Receding seen)
    (hl : ∀ s ∈ l, s.start ≤ s.stop) :
    overlapAfter? seen l = none ↔ (∀ s ∈ seen, ∀ x ∈ l, Apart s x) ∧ l.Pairwise Apart := by
  induction l generalizing seen with
  | nil => simp [overlapAfter?]
  | cons x r ih =>
    obtain ⟨hx, hr⟩ := List.forall_mem_cons.1 hl
    rw [overlapAfter?_cons, lastStop?_filter_eq_none_iff hseen]
    -- once `x` waits for all of `seen`, its own end lies behind theirs
    have hnext (hf : ∀ s ∈ seen, s.device = x.device → s.stop ≤ x.start) : Receding (x :: seen) :=
      List.pairwise_cons.2 ⟨fun s hs he => Nat.le_trans (hf s hs he.symm) hx, hseen⟩
    constructor
    · rintro ⟨hf, hn⟩
      obtain ⟨h1, h2⟩ := (ih (hnext hf) hr).1 hn
      obtain ⟨hxr, hsr⟩ := List.forall_mem_cons.1 h1
      exact ⟨fun s hs => List.forall_mem_cons.2 ⟨hf s hs, hsr s hs⟩,
        List.pairwise_cons.2 ⟨hxr, h2⟩⟩
    · rintro ⟨h1, h2⟩
      have hf : ∀ s ∈ seen, s.device = x.device → s.stop ≤ x.start :=
        fun s hs => h1 s hs x List.mem_cons_self
      obtain ⟨hxr, hp⟩ := List.pairwise_cons.1 h2
      refine ⟨hf, (ih (hnext hf) hr).2 ⟨List.forall_mem_cons.2 ⟨hxr, ?_⟩, hp⟩⟩
      exact fun s hs y hy => h1 s hs y (List.mem_cons_of_mem _ hy)

/-- The last span of a device stands for all of its earlier ones. -/
theorem overlap?_eq_none_iff {l : List Span} (hl : ∀ s ∈ l, s.start ≤ s.stop) :
    overlap? l = none ↔ l.Pairwise Apart := by
  rw [overlap?, overlapAfter?_eq_none_iff List.Pairwise.nil hl]
  simp

theorem overlapAfter?_eq_some {seen l : List Span} {o : Overlap}
    (h : overlapAfter? seen l = some o) :
    o.span.start < o.previousStop ∧ ∃ before after, l = before ++ o.span :: after ∧
      overlapAfter? seen before = none ∧
      lastStop? o.span.device (before.reverse ++ seen) = some o.previousStop := by
  induction l generalizing seen with
  | nil => simp [overlapAfter?] at h
  | cons x r ih =>
    rw [overlapAfter?] at h
    split at h
    · next t ht =>
      obtain rfl := Option.some.inj h
      obtain ⟨hs, hlt⟩ := Option.filter_eq_some_iff.1 ht
      exact ⟨by simpa using hlt, [], r, rfl, rfl, by simpa using hs⟩
    · next hn =>
      obtain ⟨hlt, before, after, rfl, hnone, hs⟩ := ih h
      refine ⟨hlt, x :: before, after, rfl, ?_, by simpa using hs⟩
      exact (overlapAfter?_cons seen x before).2 ⟨hn, hnone⟩

theorem overlap?_eq_some {l : List Span} {o : Overlap} (h : overlap? l = some o) :
    ∃ before a between after, l = (before ++ a :: between) ++ o.span :: after ∧
      overlap? (before ++ a :: between) = none ∧ a.device = o.span.device ∧
      (∀ x ∈ between, x.device ≠ o.span.device) ∧ a.stop = o.previousStop ∧
      o.span.start < o.previousStop := by
  obtain ⟨hlt, earlier, after, hl, hnone, hs⟩ := overlapAfter?_eq_some h
  rw [List.append_nil] at hs
  obtain ⟨later, a, before, hsplit, hlater, hd, hstop⟩ := exists_of_lastStop? hs
  obtain rfl : earlier = before.reverse ++ a :: later.reverse := by
    rw [← List.reverse_reverse earlier, hsplit]
    simp
  exact ⟨before.reverse, a, later.reverse, after, hl, hnone, hd, by simpa using hlater, hstop, hlt⟩

theorem exists_of_overlap?_eq_some {l : List Span} {o : Overlap} (h : overlap? l = some o) :
    ∃ a, a.device = o.span.device ∧ o.span.start < a.stop ∧ [a, o.span].Sublist l := by
  obtain ⟨before, a, between, after, hl, -, hd, -, hstop, hlt⟩ := overlap?_eq_some h
  refine ⟨a, hd, hstop ▸ hlt, ?_⟩
  have ha : [a].Sublist (before ++ a :: between) := List.singleton_sublist.2 (by simp)
  rw [hl]
  exact ha.append (List.singleton_sublist.2 List.mem_cons_self)

section Successive

variable {l seen : List Span} {s : Span}

theorem Successive.left_of_append {l' : List Span} (h : Successive (l ++ l')) : Successive l := by
  intro d
  have hd := h d
  rw [List.filter_append] at hd
  exact hd.left_of_append

theorem successive_concat_iff : Successive (l ++ [s]) ↔
    Successive l ∧ ∀ p ∈ (l.filter (·.device = s.device)).getLast?, p.stop ≤ s.start := by
  constructor
  · intro h
    have hd := h s.device
    rw [List.filter_append, List.isChain_append] at hd
    exact ⟨h.left_of_append, fun p hp => hd.2.2 p hp s (by simp)⟩
  · intro h d
    rw [List.filter_append, List.isChain_append]
    by_cases hd : s.device = d
    · subst d
      refine ⟨h.1 s.device, by simp, fun p hp x hx => ?_⟩
      have hsx : s = x := by simpa using hx
      rw [← hsx]
      exact h.2 p hp
    · simpa [hd] using h.1 d

/-- The last end that is remembered for a device is the end of its last span. -/
theorem lastStop?_filter_eq_none_iff_last :
    (lastStop? s.device seen).filter (s.start < ·) = none ↔
      ∀ p ∈ (seen.reverse.filter (·.device = s.device)).getLast?, p.stop ≤ s.start := by
  rw [List.getLast?_filter, List.reverse_reverse, lastStop?]
  cases seen.find? (·.device = s.device) with
  | none => simp
  | some p => simp

theorem overlapAfter?_eq_none_iff_successive (hseen : Successive seen.reverse) :
    overlapAfter? seen l = none ↔ Successive (seen.reverse ++ l) := by
  induction l generalizing seen with
  | nil => simpa [overlapAfter?] using hseen
  | cons x r ih =>
    have hsplit : seen.reverse ++ x :: r = (x :: seen).reverse ++ r := by simp
    have hconcat : Successive (x :: seen).reverse ↔
        (lastStop? x.device seen).filter (x.start < ·) = none := by
      rw [List.reverse_cons, successive_concat_iff, lastStop?_filter_eq_none_iff_last]
      exact and_iff_right hseen
    rw [overlapAfter?_cons, hsplit, ← hconcat]
    constructor
    · intro h
      exact (ih h.1).1 h.2
    · intro h
      exact ⟨h.left_of_append, (ih h.left_of_append).2 h⟩

theorem overlap?_eq_none_iff_successive : overlap? l = none ↔ Successive l :=
  overlapAfter?_eq_none_iff_successive fun _ => .nil

theorem overlapAfter?_append (seen l l' : List Span) :
    overlapAfter? seen (l ++ l') =
      (overlapAfter? seen l).or (overlapAfter? (l.reverse ++ seen) l') := by
  induction l generalizing seen with
  | nil => rfl
  | cons x r ih =>
    rw [List.cons_append, overlapAfter?, overlapAfter?]
    split
    · rfl
    · rw [ih, List.reverse_cons, List.append_assoc, List.singleton_append]

/-- The search finds nothing if and only if the spans of each device succeed one another; otherwise it
finds the first span that starts before the end of the one in front of it on its device, with that end.
Where no span is reversed, to succeed one another is to be apart from all earlier ones. -/
theorem decides_conflict (l : List Span) :
    (overlap? l = none ↔ Successive l) ∧
      (∀ o, overlap? l = some o ↔ ∃ before p after, l = before ++ o.span :: after ∧
        Successive before ∧ (before.filter (·.device = o.span.device)).getLast? = some p ∧
        p.stop = o.previousStop ∧ o.span.start < p.stop) ∧
      ((∀ s ∈ l, s.start ≤ s.stop) → (overlap? l = none ↔ l.Pairwise Apart)) := by
  refine ⟨overlap?_eq_none_iff_successive, fun o => ⟨fun h => ?_, fun h => ?_⟩, overlap?_eq_none_iff⟩
  · obtain ⟨hlt, before, after, hl, hnone, hlast⟩ := overlapAfter?_eq_some h
    rw [List.append_nil, lastStop?, ← List.getLast?_filter] at hlast
    obtain ⟨p, hp, hstop⟩ := Option.map_eq_some_iff.1 hlast
    exact ⟨before, p, after, hl, overlap?_eq_none_iff_successive.1 hnone, hp, hstop, hstop ▸ hlt⟩
  · obtain ⟨before, p, after, hl, hbefore, hp, hstop, hlt⟩ := h
    have hnone : overlapAfter? [] before = none := overlap?_eq_none_iff_successive.2 hbefore
    have hlast : lastStop? o.span.device before.reverse = some p.stop := by
      rw [lastStop?, ← List.getLast?_filter, hp]
      rfl
    have hlate : (some p.stop).filter (o.span.start < ·) = some o.previousStop := by simp [← hstop, hlt]
    rw [overlap?, hl, overlapAfter?_append, hnone, Option.none_or, List.append_nil, overlapAfter?, hlast,
      hlate]

end Successive

def interleaved : List Span :=
  [⟨⟨0, 0⟩, 0, 5⟩, ⟨⟨0, 1⟩, 0, 9⟩, ⟨⟨0, 0⟩, 5, 7⟩, ⟨⟨0, 0⟩, 7, 7⟩, ⟨⟨0, 1⟩, 9, 12⟩]

theorem decides_conflict_interleaved :
    (∀ s ∈ interleaved, s.start ≤ s.stop) ∧ overlap? interleaved = none ∧ interleaved.Pairwise Apart :=
  ⟨by decide, by decide, ((decides_conflict interleaved).2.2 (by decide)).1 (by decide)⟩

/-- Behind a reversed span the last end says nothing about the ones before. -/
example :
    let l : List Span := [⟨⟨0, 0⟩, 0, 10⟩, ⟨⟨0, 0⟩, 10, 2⟩, ⟨⟨0, 0⟩, 5, 6⟩]
    overlap? l = none ∧ ¬ l.Pairwise Apart :=
  ⟨by decide, by simp [Apart]⟩

end CueSheet.Span
