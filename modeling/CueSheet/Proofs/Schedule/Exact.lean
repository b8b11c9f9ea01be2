import CueSheet.Proofs.Schedule.Slots

/-!
What becomes of a block, whatever it holds. It compiles if and only if every argument has a value, no
slot is reversed, and on each device a slot ends before a later one starts; the timeline holds the slots
in the order in which they go out. Where it does not compile, the first of these three that fails is
blamed, at the first slot where it fails.
-/

namespace CueSheet

namespace Slots

structure Sound (name : DeviceId → String) (slots : List Slot) : Prop where
  evaluates : ∀ s ∈ slots, s.Evaluates
  forward : ∀ s ∈ slots, s.start ≤ s.stop
  apart : ∀ a ∈ slots, ∀ b ∈ slots, a.device = b.device → a.Before name b → a.stop ≤ b.start

structure Filled (slots order : List Slot) (t : Timeline) : Prop where
  commands : List.Forall₂ Slot.Issued order t.commands
  duration : slots = [] ∧ t.duration = 0 ∨
    (∃ s ∈ slots, s.stop = t.duration) ∧ ∀ s ∈ slots, s.stop ≤ t.duration

/-- Why a block does not compile. -/
inductive Blamed (name : DeviceId → String) (slots order : List Slot) : CompileFault → Prop
  | argument {before after : List Slot} {s : Slot} {e : EvalError} : slots = before ++ s :: after →
    (∀ x ∈ before, x.Evaluates) → s.Fails e → Blamed name slots order (.argument (name s.device) e)
  | range {before after : List Slot} {s : Slot} : (∀ x ∈ slots, x.Evaluates) →
    order = before ++ s :: after → (∀ x ∈ before, x.start ≤ x.stop) → s.stop < s.start →
    Blamed name slots order (.range (name s.device) s.start s.stop)
  | overlap {before between after : List Slot} {a s : Slot} : (∀ x ∈ slots, x.Evaluates) →
    (∀ x ∈ slots, x.start ≤ x.stop) → order = (before ++ a :: between) ++ s :: after →
    (before ++ a :: between).Pairwise Slot.Apart → a.device = s.device →
    (∀ x ∈ between, x.device ≠ s.device) → s.start < a.stop →
    Blamed name slots order (.overlap (name s.device) ⟨s.span, a.stop⟩)

variable {p : Program} {slots order : List Slot} {cs : List Command}

theorem map_span (h : List.Forall₂ Slot.Issued order cs) :
    order.map Slot.span = cs.map Command.span := by
  rw [← List.forall₂_eq_eq_eq, List.forall₂_map_left_iff, List.forall₂_map_right_iff]
  exact h.imp fun _ _ hc => hc.span.symm

theorem forall_span_iff {P : Span → Prop} (h : order.map Slot.span = cs.map Command.span) :
    (∀ c ∈ cs, P c.span) ↔ ∀ s ∈ order, P s.span := by
  rw [← List.forall_mem_map (f := Command.span), ← List.forall_mem_map (f := Slot.span), h]

theorem pairwise_span_iff {R : Span → Span → Prop} (h : order.map Slot.span = cs.map Command.span) :
    (cs.Pairwise fun a b => R a.span b.span) ↔ order.Pairwise fun a b => R a.span b.span := by
  rw [← List.pairwise_map (f := Command.span), ← List.pairwise_map (f := Slot.span), h]

theorem forward_and_apart_iff {cursor place : Nat} {es : List Entry}
    (hs : Slots cursor place es slots) (h : Dispatched p.deviceName slots order)
    (hcs : List.Forall₂ Slot.Issued slots cs) :
    (∀ c ∈ cs, c.start ≤ c.stop) ∧ (Timeline.sort p.deviceName cs).Pairwise Command.Apart ↔
      (∀ s ∈ slots, s.start ≤ s.stop) ∧ ∀ a ∈ slots, ∀ b ∈ slots, a.device = b.device →
        a.Before p.deviceName b → a.stop ≤ b.start := by
  have hforward : (∀ c ∈ cs, c.start ≤ c.stop) ↔ ∀ s ∈ slots, s.start ≤ s.stop :=
    forall_span_iff (P := fun s => s.start ≤ s.stop) (map_span hcs)
  have hapart : (Timeline.sort p.deviceName cs).Pairwise Command.Apart ↔ order.Pairwise Slot.Apart :=
    pairwise_span_iff (R := Span.Apart) (map_span (h.issued hs hcs))
  rw [hforward, hapart, pairwise_apart_iff h.before]
  simp only [h.perm.mem_iff]

theorem latest (hcs : List.Forall₂ Slot.Issued slots cs) :
    slots = [] ∧ Timeline.lastStop cs = 0 ∨
      (∃ s ∈ slots, s.stop = Timeline.lastStop cs) ∧ ∀ s ∈ slots, s.stop ≤ Timeline.lastStop cs := by
  have hspan := map_span hcs
  apply (Timeline.latest_ofCommands cs).imp
  · intro ⟨hnil, hzero⟩
    rw [hnil] at hspan
    exact ⟨List.map_eq_nil_iff.1 hspan, hzero⟩
  · intro ⟨⟨c, hc, hstop⟩, hle⟩
    have hmem : c.span ∈ slots.map Slot.span := hspan ▸ List.mem_map_of_mem hc
    obtain ⟨s, hs, hsc⟩ := List.mem_map.1 hmem
    refine ⟨⟨s, hs, (congrArg Span.stop hsc).trans hstop⟩, ?_⟩
    exact (forall_span_iff (P := fun s => s.stop ≤ Timeline.lastStop cs) hspan).1 hle

theorem blamed_of_checkOrder {f : CompileFault} (hperm : order.Perm slots)
    (hall : ∀ s ∈ slots, s.Evaluates) (hcs : List.Forall₂ Slot.Issued order cs)
    (h : p.checkOrder cs = .error f) : Blamed p.deviceName slots order f := by
  have hspan := map_span hcs
  rcases Program.checkOrder_eq_error h with
    ⟨before, c, after, rfl, hbefore, hlt, rfl⟩ | ⟨hforward, o, ho, rfl⟩
  · rw [List.map_append, List.map_cons] at hspan
    obtain ⟨xs, ys, rfl, hxs, hys⟩ := List.map_eq_append_iff.1 hspan
    obtain ⟨s, zs, rfl, hs, -⟩ := List.map_eq_cons_iff.1 hys
    obtain ⟨hd, hstart, hstop⟩ := Span.mk.inj hs
    rw [← hd, ← hstart, ← hstop]
    rw [← hstart, ← hstop] at hlt
    refine .range hall rfl ?_ hlt
    exact (forall_span_iff (P := fun s => s.start ≤ s.stop) hxs).1 hbefore
  · rw [← hspan] at ho
    have hforward : ∀ s ∈ order, s.start ≤ s.stop :=
      (forall_span_iff (P := fun s => s.start ≤ s.stop) hspan).1 hforward
    obtain ⟨span, previous⟩ := o
    obtain ⟨_, _, _, after, hl, hnone, hd, hbetween, rfl, hlt⟩ := Span.overlap?_eq_some ho
    obtain ⟨earlier, later, rfl, hearlier, hlater⟩ := List.map_eq_append_iff.1 hl
    obtain ⟨s, rest, rfl, rfl, -⟩ := List.map_eq_cons_iff.1 hlater
    obtain ⟨before, upTo, rfl, rfl, hupTo⟩ := List.map_eq_append_iff.1 hearlier
    obtain ⟨a, between, rfl, rfl, rfl⟩ := List.map_eq_cons_iff.1 hupTo
    rw [← hearlier] at hnone
    have hgood : ∀ x ∈ (before ++ a :: between).map Slot.span, x.start ≤ x.stop :=
      List.forall_mem_map.2 fun x hx => hforward x (List.mem_append_left _ hx)
    have hapart : ((before ++ a :: between).map Slot.span).Pairwise Span.Apart :=
      (Span.overlap?_eq_none_iff hgood).1 hnone
    have hseparate : (before ++ a :: between).Pairwise Slot.Apart := by
      rw [List.pairwise_map] at hapart
      exact hapart
    have hothers : ∀ x ∈ between, x.device ≠ s.device :=
      fun x hx => hbetween x.span (List.mem_map_of_mem hx)
    exact .overlap hall (fun x hx => hforward x (hperm.symm.subset hx)) rfl
      hseparate hd hothers hlt

end Slots

namespace Program

variable {p : Program} {es : List Entry} {slots order : List Slot}

theorem exists_timeline_iff (hslots : Slots 0 0 es slots)
    (horder : Slots.Dispatched p.deviceName slots order) :
    (∃ t, p.timeline es = .ok t) ↔ Slots.Sound p.deviceName slots := by
  constructor
  · intro ⟨t, ht⟩
    obtain ⟨cs, hcs, -, hforward, hapart⟩ := timeline_eq_ok_iff.1 ht
    obtain ⟨hforward, hapart⟩ := (Slots.forward_and_apart_iff hslots horder
      (hslots.commands_eq_ok_iff.1 hcs)).1 ⟨hforward, hapart⟩
    exact ⟨hslots.exists_commands_iff.1 ⟨cs, hcs⟩, hforward, hapart⟩
  · intro h
    obtain ⟨cs, hcs⟩ := hslots.exists_commands_iff.2 h.evaluates
    obtain ⟨hforward, hapart⟩ := (Slots.forward_and_apart_iff hslots horder
      (hslots.commands_eq_ok_iff.1 hcs)).2 ⟨h.forward, h.apart⟩
    exact ⟨_, timeline_eq_ok_iff.2 ⟨cs, hcs, rfl, hforward, hapart⟩⟩

theorem filled_of_timeline (hslots : Slots 0 0 es slots)
    (horder : Slots.Dispatched p.deviceName slots order) {t : Timeline}
    (h : p.timeline es = .ok t) : Slots.Filled slots order t := by
  obtain ⟨cs, hcs, rfl, -⟩ := timeline_eq_ok_iff.1 h
  have hissued := hslots.commands_eq_ok_iff.1 hcs
  refine ⟨horder.issued hslots hissued, ?_⟩
  rw [Timeline.ofCommands, Timeline.lastStop_perm (Timeline.sort_perm cs)]
  exact Slots.latest hissued

theorem blamed_of_timeline (hslots : Slots 0 0 es slots)
    (horder : Slots.Dispatched p.deviceName slots order) {f : CompileFault}
    (h : p.timeline es = .error f) : Slots.Blamed p.deviceName slots order f := by
  rcases timeline_eq_error h with h | ⟨cs, hcs, h⟩
  · obtain ⟨before, s, after, e, hsplit, hall, hfails, rfl⟩ := hslots.commands_eq_error h
    exact .argument hsplit hall hfails
  · have hall := hslots.exists_commands_iff.1 ⟨cs, hcs⟩
    have hissued := horder.issued hslots (hslots.commands_eq_ok_iff.1 hcs)
    exact Slots.blamed_of_checkOrder horder.perm hall hissued h

/-- The verdict on a block is that on its slots, which there is exactly one way to lay and one way to
put in order. -/
theorem timeline_exact (p : Program) (r : ProcRef) (es : List Entry) :
    ∃ slots order, (∀ ss, Slots 0 0 es ss ↔ ss = slots) ∧
      (∀ os, Slots.Dispatched p.deviceName slots os ↔ os = order) ∧
      ((∃ t, p.blame r (p.timeline es) = .ok t) ↔ Slots.Sound p.deviceName slots) ∧
      (∀ t, p.blame r (p.timeline es) = .ok t → Slots.Filled slots order t) ∧
      ∀ e, p.blame r (p.timeline es) = .error e → e.path = p.path r.file ∧ e.procedure = r.name ∧
        Slots.Blamed p.deviceName slots order e.fault := by
  obtain ⟨slots, hslots⟩ := Slots.exists_slots 0 0 es
  obtain ⟨order, horder, -⟩ := hslots.exists_dispatched p.deviceName
  have hok : ∀ t, p.blame r (p.timeline es) = .ok t ↔ p.timeline es = .ok t :=
    fun t => Result.mapError_eq_ok_iff
  simp only [hok]
  refine ⟨slots, order, fun ss => ?_, fun os => ?_, exists_timeline_iff hslots horder,
    fun t => filled_of_timeline hslots horder, fun e he => ?_⟩
  · exact ⟨fun h => h.unique hslots, fun h => h ▸ hslots⟩
  · exact ⟨fun h => h.unique horder, fun h => h ▸ horder⟩
  · obtain ⟨f, hf, rfl⟩ := Result.mapError_eq_error_iff.1 he
    exact ⟨rfl, rfl, blamed_of_timeline hslots horder hf⟩

end Program

end CueSheet
