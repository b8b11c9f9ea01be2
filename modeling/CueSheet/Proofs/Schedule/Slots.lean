import CueSheet.Proofs.Schedule.Timeline
import Mathlib.Data.List.Pairwise

/-!
What a block says before anything is evaluated. The cursor gives every entry a slot, that is its place
in the block and its span. Slots have a strict order, in which they go out: by start, by device, and in
the order of the block where these agree. The commands of a block are its slots, in either order, with
arguments that have values.
-/

namespace CueSheet

/-- An entry with its span, and the number of entries before it. -/
structure Slot where
  entry : Entry
  place : Nat
  start : Nat
  stop : Nat

inductive Entry.Takes (cursor : Nat) (e : Entry) : Nat → Nat → Prop
  | point : e.time = none → Takes cursor e cursor cursor
  | upTo {start : Option Nat} {stop : Nat} : e.time = some ⟨start, .at stop⟩ →
    Takes cursor e (start.getD cursor) stop
  | lasting {start : Option Nat} {length : Nat} : e.time = some ⟨start, .after length⟩ →
    Takes cursor e (start.getD cursor) (min (start.getD cursor + length) Decimal.maxWord)

inductive Slots : Nat → Nat → List Entry → List Slot → Prop
  | nil {cursor place : Nat} : Slots cursor place [] []
  | cons {cursor place start stop : Nat} {e : Entry} {es : List Entry} {ss : List Slot} :
    e.Takes cursor start stop → Slots stop (place + 1) es ss →
    Slots cursor place (e :: es) (⟨e, place, start, stop⟩ :: ss)

namespace Slot

variable (s : Slot)

def device : DeviceId := s.entry.device

def span : Span := ⟨s.device, s.start, s.stop⟩

def bare : Command := ⟨s.device, [], s.start, s.stop⟩

def Evaluates : Prop := ∀ arg ∈ s.entry.args, ∃ v, arg.eval = .ok v

def Fails (e : EvalError) : Prop :=
  ∃ before arg after, s.entry.args = before ++ arg :: after ∧
    (∀ x ∈ before, ∃ v, x.eval = .ok v) ∧ arg.eval = .error e

def Before (name : DeviceId → String) (a b : Slot) : Prop :=
  a.start < b.start ∨ a.start = b.start ∧
    (name a.device < name b.device ∨ name a.device = name b.device ∧
      (a.device.file < b.device.file ∨ a.device.file = b.device.file ∧
        (a.device.index < b.device.index ∨ a.device.index = b.device.index ∧ a.place < b.place)))

def Apart (a b : Slot) : Prop := a.device = b.device → a.stop ≤ b.start

structure Issued (c : Command) : Prop where
  span : c.span = s.span
  params : List.Forall₂ (fun arg v => arg.eval = .ok v) s.entry.args c.params

variable {name : DeviceId → String} {a b : Slot}

theorem Issued.eq {s : Slot} {c : Command} (h : s.Issued c) :
    c = ⟨s.device, c.params, s.start, s.stop⟩ := by
  obtain ⟨hd, hstart, hstop⟩ := Span.mk.inj h.span
  rw [← hd, ← hstart, ← hstop]

theorem exists_issued_iff {s : Slot} : (∃ c, s.Issued c) ↔ s.Evaluates := by
  rw [Evaluates, ← Result.exists_forall₂_iff]
  constructor
  · intro ⟨c, hc⟩
    exact ⟨c.params, hc.params⟩
  · intro ⟨params, hparams⟩
    exact ⟨⟨s.device, params, s.start, s.stop⟩, rfl, hparams⟩

theorem before_asymm (hab : a.Before name b) : ¬ b.Before name a := by
  intro hba
  simp only [Before] at hab hba
  rcases hab with hab | ⟨hs, hab⟩
  · omega
  rcases hba with hba | ⟨-, hba⟩
  · omega
  rcases hab with hab | ⟨hn, hab⟩
  · rcases hba with hba | ⟨hn, -⟩
    · exact String.lt_asymm hab hba
    · exact String.lt_irrefl _ (hn ▸ hab)
  · rcases hba with hba | ⟨-, hba⟩
    · exact String.lt_irrefl _ (hn ▸ hba)
    · omega

theorem before_of_precedes (hab : a.bare.Precedes name b.bare)
    (hplace : b.bare.Precedes name a.bare → a.place < b.place) : a.Before name b := by
  have hkey := hab
  simp only [Command.Precedes, bare] at hkey
  rcases hkey with hs | ⟨hs, hn | ⟨hn, hf | ⟨hf, hi⟩⟩⟩
  · exact .inl hs
  · exact .inr ⟨hs, .inl hn⟩
  · exact .inr ⟨hs, .inr ⟨hn, .inl hf⟩⟩
  · refine .inr ⟨hs, .inr ⟨hn, .inr ⟨hf, ?_⟩⟩⟩
    apply (Nat.lt_or_eq_of_le hi).imp_right
    intro hi
    have hd : b.device = a.device := by
      calc b.device = ⟨b.device.file, b.device.index⟩ := rfl
        _ = a.device := by rw [← hf, ← hi]
    exact ⟨hi, hplace (.of_device_eq hd (Nat.le_of_eq hs.symm))⟩

end Slot

theorem Entry.takes_iff {cursor start stop : Nat} {e : Entry} :
    e.Takes cursor start stop ↔
      Timeline.advance Timeline.clampToWord cursor e.time = (start, stop, stop) := by
  constructor
  · intro h
    cases h with
    | point he => rw [he]; rfl
    | upTo he => rw [he]; rfl
    | lasting he => rw [he]; rfl
  · intro h
    cases ht : e.time with
    | none =>
      rw [ht] at h
      cases h
      exact .point ht
    | some spec =>
      obtain ⟨at?, stop?⟩ := spec
      rw [ht] at h
      cases stop? with
      | «at» t => cases h; exact .upTo ht
      | after length => cases h; exact .lasting ht

theorem Entry.exists_takes (cursor : Nat) (e : Entry) : ∃ start stop, e.Takes cursor start stop :=
  ⟨_, _, Entry.takes_iff.2 (Prod.ext rfl (Prod.ext rfl (Timeline.advance_cursor _ _ _)))⟩

namespace Slots

variable {p : Program} {cursor place : Nat} {es : List Entry} {ss : List Slot}

theorem exists_slots (cursor place : Nat) (es : List Entry) : ∃ ss, Slots cursor place es ss := by
  induction es generalizing cursor place with
  | nil => exact ⟨[], .nil⟩
  | cons e es ih =>
    obtain ⟨start, stop, he⟩ := e.exists_takes cursor
    obtain ⟨ss, hss⟩ := ih stop (place + 1)
    exact ⟨_, .cons he hss⟩

theorem unique {ss' : List Slot} (h : Slots cursor place es ss) (h' : Slots cursor place es ss') :
    ss = ss' := by
  induction h generalizing ss' with
  | nil => cases h'; rfl
  | cons he _ ih =>
    cases h' with
    | cons he' h' =>
      have hspan := (Entry.takes_iff.1 he).symm.trans (Entry.takes_iff.1 he')
      obtain ⟨rfl, hstop⟩ := Prod.mk.inj hspan
      obtain ⟨rfl, -⟩ := Prod.mk.inj hstop
      rw [ih h']

theorem le_place (h : Slots cursor place es ss) : ∀ s ∈ ss, place ≤ s.place := by
  induction h with
  | nil => simp
  | cons _ _ ih =>
    refine List.forall_mem_cons.2 ⟨Nat.le_refl _, fun s hs => ?_⟩
    have hle := ih s hs
    omega

theorem pairwise_place (h : Slots cursor place es ss) :
    ss.Pairwise fun a b => a.place < b.place := by
  induction h with
  | nil => exact .nil
  | cons _ hss ih => exact List.pairwise_cons.2 ⟨hss.le_place, ih⟩

theorem commands_eq_ok_iff (h : Slots cursor place es ss) {cs : List Command} :
    p.commands Timeline.clampToWord cursor es = .ok cs ↔ List.Forall₂ Slot.Issued ss cs := by
  induction h generalizing cs with
  | nil => cases cs <;> simp [Program.commands]
  | @cons cursor place start stop e es ss he _ ih =>
    rw [Program.commands_cons_eq_ok_iff, Entry.takes_iff.1 he, List.forall₂_cons_left_iff]
    constructor
    · rintro ⟨params, ds, hparams, hds, rfl⟩
      exact ⟨_, ds, ⟨rfl, Result.mapM_eq_ok_iff.1 hparams⟩, ih.1 hds, rfl⟩
    · rintro ⟨c, ds, hc, hds, rfl⟩
      exact ⟨c.params, ds, Result.mapM_eq_ok_iff.2 hc.params, ih.2 hds, congrArg (· :: ds) hc.eq⟩

theorem exists_commands_iff (h : Slots cursor place es ss) :
    (∃ cs, p.commands Timeline.clampToWord cursor es = .ok cs) ↔ ∀ s ∈ ss, s.Evaluates := by
  simp only [h.commands_eq_ok_iff, Result.exists_forall₂_iff, Slot.exists_issued_iff]

theorem commands_eq_error (h : Slots cursor place es ss) {f : CompileFault}
    (hf : p.commands Timeline.clampToWord cursor es = .error f) :
    ∃ before s after e, ss = before ++ s :: after ∧ (∀ x ∈ before, x.Evaluates) ∧ s.Fails e ∧
      f = .argument (p.deviceName s.device) e := by
  induction h with
  | nil => simp [Program.commands] at hf
  | @cons cursor place start stop e es ss he _ ih =>
    simp only [Program.commands, Entry.takes_iff.1 he] at hf
    split at hf
    · next f' hf' =>
      obtain ⟨error, herror, rfl⟩ := Result.mapError_eq_error_iff.1 hf'
      obtain rfl := Except.error.inj hf
      exact ⟨[], _, ss, error, rfl, by simp, Result.mapM_eq_error herror, rfl⟩
    · next params hparams =>
      have hhead : Slot.Evaluates ⟨e, place, start, stop⟩ := by
        rw [Slot.Evaluates, ← Result.exists_forall₂_iff]
        exact ⟨params, Result.mapM_eq_ok_iff.1 (Program.evaluate_eq_ok_iff.1 hparams)⟩
      obtain ⟨before, s, after, error, rfl, hbefore, hs, hf⟩ := ih (Result.map_eq_error_iff.1 hf)
      exact ⟨_ :: before, s, after, error, rfl, List.forall_mem_cons.2 ⟨hhead, hbefore⟩, hs, hf⟩

section Order

variable {name : DeviceId → String} {order : List Slot}

/-- `order` holds the slots in the order in which they go out. -/
structure Dispatched (name : DeviceId → String) (slots order : List Slot) : Prop where
  perm : order.Perm slots
  before : order.Pairwise (Slot.Before name)

theorem Dispatched.unique {order' : List Slot} (h : Dispatched name ss order)
    (h' : Dispatched name ss order') : order = order' :=
  (h.perm.trans h'.perm.symm).eq_of_pairwise
    (fun _ _ _ _ hab hba => absurd hba (Slot.before_asymm hab)) h.before h'.before

theorem exists_dispatched (name : DeviceId → String) (h : Slots cursor place es ss) :
    ∃ order, Dispatched name ss order ∧ ∀ cs, List.Forall₂ Slot.Issued ss cs →
      List.Forall₂ Slot.Issued order (Timeline.sort name cs) := by
  let r (a b : Slot) : Bool := (Timeline.order name a.bare b.bare).isLE
  refine ⟨ss.mergeSort r, ⟨List.mergeSort_perm ss r, ?_⟩, fun cs hcs => ?_⟩
  · have hties := Timeline.pairwise_mergeSort_ties (r := r)
      (fun a b c => Timeline.order_trans a.bare b.bare c.bare)
      (fun a b => Timeline.order_total a.bare b.bare) h.pairwise_place
    refine hties.imp fun hab => ?_
    simp only [r, Timeline.order_isLE_iff] at hab
    exact Slot.before_of_precedes hab.1 hab.2
  · refine Timeline.forall₂_mergeSort (fun a b x y hx hy => ?_) hcs
    rw [hx.eq, hy.eq]
    rfl

theorem Dispatched.issued (h : Dispatched name ss order) (hs : Slots cursor place es ss)
    {cs : List Command} (hcs : List.Forall₂ Slot.Issued ss cs) :
    List.Forall₂ Slot.Issued order (Timeline.sort name cs) := by
  obtain ⟨order', h', hissued⟩ := hs.exists_dispatched name
  rw [h.unique h']
  exact hissued cs hcs

/-- What holds of neighbours and of all others in the order holds of any two slots. -/
theorem pairwise_apart_iff (h : order.Pairwise (Slot.Before name)) :
    order.Pairwise Slot.Apart ↔
      ∀ a ∈ order, ∀ b ∈ order, a.device = b.device → a.Before name b → a.stop ≤ b.start := by
  constructor
  · intro hapart
    have hearlier : order.Pairwise fun a b => a.Before name b → a.Apart b := by
      apply hapart.imp
      intro a b hab _
      exact hab
    have hlater : order.Pairwise fun a b => b.Before name a → b.Apart a := by
      apply h.imp
      intro a b hab hba
      exact absurd hba (Slot.before_asymm hab)
    have hall : ∀ a ∈ order, ∀ b ∈ order, a.Before name b → a.Apart b :=
      hearlier.forall_of_forall_of_flip (fun a _ haa => absurd haa (Slot.before_asymm haa)) hlater
    exact fun a ha b hb hd hbefore => hall a ha b hb hbefore hd
  · intro hall
    exact h.imp_of_mem fun ha hb hbefore hd => hall _ ha _ hb hd hbefore

end Order

end Slots

end CueSheet
