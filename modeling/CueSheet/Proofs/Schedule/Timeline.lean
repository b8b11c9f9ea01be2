import CueSheet.Proofs.Basic
import CueSheet.Proofs.Schedule.Order
import CueSheet.Proofs.Schedule.Overlap
import CueSheet.Schedule

/-!
What a timed block becomes. A block that compiles becomes its commands in the order of dispatch;
none of them is reversed, and those of one device wait for each other. This is what `Timeline.Safe`
says, and what a plan has to keep when it puts other devices in.
-/

namespace CueSheet

def Command.Apart (a b : Command) : Prop := a.device = b.device → a.stop ≤ b.start

/-- A timeline that can go out as it stands. -/
structure Timeline.Safe (name : DeviceId → String) (t : Timeline) : Prop where
  forward : ∀ c ∈ t.commands, c.start ≤ c.stop
  ordered : t.commands.Pairwise (Command.Precedes name)
  apart : t.commands.Pairwise Command.Apart
  latest : t.commands = [] ∧ t.duration = 0 ∨
    (∃ c ∈ t.commands, c.stop = t.duration) ∧ ∀ c ∈ t.commands, c.stop ≤ t.duration

theorem overlap?_commands_eq_none_iff {cs : List Command} (h : ∀ c ∈ cs, c.start ≤ c.stop) :
    Span.overlap? (cs.map Command.span) = none ↔ cs.Pairwise Command.Apart := by
  have hs : ∀ s ∈ cs.map Command.span, s.start ≤ s.stop := by
    intro s hs
    obtain ⟨c, hc, rfl⟩ := List.mem_map.1 hs
    exact h c hc
  rw [Span.overlap?_eq_none_iff hs, List.pairwise_map]
  rfl

namespace Timeline

theorem advance_cursor (clamp : Nat → Nat) (cursor : Nat) (time : Option TimeSpec) :
    (advance clamp cursor time).2.2 = (advance clamp cursor time).2.1 := by
  cases time <;> rfl

theorem lastStop_cons (c : Command) (cs : List Command) :
    lastStop (c :: cs) = max c.stop (lastStop cs) := by
  have h : ∀ (cs : List Command) (t : Nat),
      cs.foldl (fun t c => max t c.stop) t = max t (lastStop cs) := by
    intro cs
    induction cs with
    | nil => intro t; simp [lastStop]
    | cons d r ih =>
      intro t
      rw [lastStop, List.foldl_cons, List.foldl_cons, ih, ih (max 0 d.stop)]
      omega
  rw [lastStop, List.foldl_cons, h]
  omega

theorem lastStop_perm {cs ds : List Command} (h : cs.Perm ds) : lastStop cs = lastStop ds := by
  induction h with
  | nil => rfl
  | cons c _ ih => rw [lastStop_cons, lastStop_cons, ih]
  | swap c d r => simp only [lastStop_cons]; omega
  | trans _ _ ih₁ ih₂ => exact ih₁.trans ih₂

theorem stop_le_lastStop {c : Command} {cs : List Command} (h : c ∈ cs) :
    c.stop ≤ lastStop cs := by
  induction cs with
  | nil => simp at h
  | cons d r ih =>
    rw [lastStop_cons]
    rcases List.mem_cons.1 h with rfl | h
    · omega
    · have := ih h
      omega

theorem exists_stop_eq_lastStop {cs : List Command} (h : cs ≠ []) :
    ∃ c ∈ cs, c.stop = lastStop cs := by
  induction cs with
  | nil => exact absurd rfl h
  | cons d r ih =>
    rw [lastStop_cons]
    by_cases hr : r = []
    · exact ⟨d, List.mem_cons_self, by simp [hr, lastStop]⟩
    · obtain ⟨c, hc, hs⟩ := ih hr
      by_cases hd : lastStop r ≤ d.stop
      · exact ⟨d, List.mem_cons_self, by omega⟩
      · exact ⟨c, List.mem_cons_of_mem _ hc, by omega⟩

theorem latest_ofCommands (cs : List Command) :
    cs = [] ∧ lastStop cs = 0 ∨
      (∃ c ∈ cs, c.stop = lastStop cs) ∧ ∀ c ∈ cs, c.stop ≤ lastStop cs := by
  by_cases h : cs = []
  · exact Or.inl ⟨h, by rw [h]; rfl⟩
  · exact Or.inr ⟨exists_stop_eq_lastStop h, fun _ hc => stop_le_lastStop hc⟩

theorem safe_single (name : DeviceId → String) (d : DeviceId) (params : List Value) :
    (single d params).Safe name :=
  ⟨by simp [single], by simp [single], by simp [single],
    Or.inr ⟨⟨_, List.mem_cons_self, rfl⟩, by simp [single]⟩⟩

end Timeline

namespace Program

variable {p : Program}

theorem checkOrder_eq_ok_iff {cs : List Command} :
    p.checkOrder cs = .ok () ↔ (∀ c ∈ cs, c.start ≤ c.stop) ∧ cs.Pairwise Command.Apart := by
  simp only [checkOrder]
  split
  · next c hc =>
    have hm := List.mem_of_find?_eq_some hc
    have hlt : c.stop < c.start := by simpa using List.find?_some hc
    simp only [reduceCtorEq, false_iff, not_and]
    exact fun h => absurd (h c hm) (by omega)
  · next hn =>
    have hf : ∀ c ∈ cs, c.start ≤ c.stop := by simpa using hn
    rw [← overlap?_commands_eq_none_iff hf]
    split
    · next o ho => simp [ho]
    · next ho => simpa [ho] using hf

theorem checkOrder_eq_error {cs : List Command} {f : CompileFault}
    (h : p.checkOrder cs = .error f) :
    (∃ before c after, cs = before ++ c :: after ∧ (∀ x ∈ before, x.start ≤ x.stop) ∧
      c.stop < c.start ∧ f = .range (p.deviceName c.device) c.start c.stop) ∨
    (∀ c ∈ cs, c.start ≤ c.stop) ∧ ∃ o, Span.overlap? (cs.map Command.span) = some o ∧
      f = .overlap (p.deviceName o.span.device) o := by
  simp only [checkOrder] at h
  split at h
  · next c hc =>
    obtain ⟨hlt, before, after, rfl, hbefore⟩ := List.find?_eq_some_iff_append.1 hc
    obtain rfl := Except.error.inj h
    exact .inl ⟨before, c, after, rfl, by simpa using hbefore, by simpa using hlt, rfl⟩
  · next hn =>
    have hforward : ∀ c ∈ cs, c.start ≤ c.stop := by simpa using hn
    split at h
    · next o ho => exact .inr ⟨hforward, o, ho, (Except.error.inj h).symm⟩
    · cases h

theorem evaluate_eq_ok_iff {d : DeviceId} {args : List Expr} {params : List Value} :
    p.evaluate d args = .ok params ↔ args.mapM Expr.eval = .ok params :=
  Result.mapError_eq_ok_iff

theorem commands_cons_eq_ok_iff {clamp : Nat → Nat} {cursor : Nat} {e : Entry} {r : List Entry}
    {cs : List Command} :
    p.commands clamp cursor (e :: r) = .ok cs ↔
      ∃ params ds, e.args.mapM Expr.eval = .ok params ∧
        p.commands clamp (Timeline.advance clamp cursor e.time).2.2 r = .ok ds ∧
        cs = ⟨e.device, params, (Timeline.advance clamp cursor e.time).1,
          (Timeline.advance clamp cursor e.time).2.1⟩ :: ds := by
  simp only [commands, ← evaluate_eq_ok_iff (p := p) (d := e.device)]
  cases p.evaluate e.device e.args with
  | error f => simp
  | ok params =>
    simp only [Result.map_eq_ok_iff, Except.ok.injEq]
    constructor
    · rintro ⟨ds, hds, rfl⟩
      exact ⟨params, ds, rfl, hds, rfl⟩
    · rintro ⟨_, ds, rfl, hds, rfl⟩
      exact ⟨ds, hds, rfl⟩

theorem devices_commands {clamp : Nat → Nat} {cursor : Nat} {es : List Entry} {cs : List Command}
    (h : p.commands clamp cursor es = .ok cs) : cs.map (·.device) = es.map (·.device) := by
  induction es generalizing cursor cs with
  | nil =>
    obtain rfl : [] = cs := by simpa [commands] using h
    rfl
  | cons e r ih =>
    obtain ⟨params, ds, -, hds, rfl⟩ := commands_cons_eq_ok_iff.1 h
    rw [List.map_cons, List.map_cons, ih hds]

theorem timeline_eq_ok_iff {es : List Entry} {t : Timeline} :
    p.timeline es = .ok t ↔ ∃ cs, p.commands Timeline.clampToWord 0 es = .ok cs ∧
      t = Timeline.ofCommands (Timeline.sort p.deviceName cs) ∧ (∀ c ∈ cs, c.start ≤ c.stop) ∧
      (Timeline.sort p.deviceName cs).Pairwise Command.Apart := by
  have hf : ∀ cs : List Command, (∀ c ∈ Timeline.sort p.deviceName cs, c.start ≤ c.stop) ↔
      ∀ c ∈ cs, c.start ≤ c.stop := by
    intro cs
    exact forall_congr' fun c => by rw [(Timeline.sort_perm cs).mem_iff]
  simp only [timeline, timelineWith, Result.bind_eq_ok_iff, pure, Except.pure, Except.ok.injEq]
  constructor
  · rintro ⟨cs, hcs, ⟨⟩, ho, rfl⟩
    obtain ⟨h1, h2⟩ := checkOrder_eq_ok_iff.1 ho
    exact ⟨cs, hcs, rfl, (hf cs).1 h1, h2⟩
  · rintro ⟨cs, hcs, rfl, h1, h2⟩
    exact ⟨cs, hcs, (), checkOrder_eq_ok_iff.2 ⟨(hf cs).2 h1, h2⟩, rfl⟩

theorem timeline_eq_error {es : List Entry} {f : CompileFault} (h : p.timeline es = .error f) :
    p.commands Timeline.clampToWord 0 es = .error f ∨
      ∃ cs, p.commands Timeline.clampToWord 0 es = .ok cs ∧
        p.checkOrder (Timeline.sort p.deviceName cs) = .error f := by
  apply (Result.bind_eq_error_iff.1 h).imp_right
  rintro ⟨cs, hcs, h⟩
  refine ⟨cs, hcs, ?_⟩
  rcases Result.bind_eq_error_iff.1 h with h | ⟨_, -, h⟩
  · exact h
  · cases h

theorem device_mem_of_timeline {es : List Entry} {t : Timeline} (h : p.timeline es = .ok t)
    {x : Command} (hx : x ∈ t.commands) : x.device ∈ es.map (·.device) := by
  obtain ⟨cs, hcs, rfl, -⟩ := timeline_eq_ok_iff.1 h
  rw [← devices_commands hcs]
  exact List.mem_map_of_mem ((Timeline.sort_perm cs).subset hx)

theorem safe_timeline {es : List Entry} {t : Timeline} (h : p.timeline es = .ok t) :
    t.Safe p.deviceName := by
  obtain ⟨cs, -, rfl, hf, ha⟩ := timeline_eq_ok_iff.1 h
  exact ⟨fun c hc => hf c ((Timeline.sort_perm cs).subset hc), Timeline.pairwise_sort cs, ha,
    Timeline.latest_ofCommands _⟩

end Program

end CueSheet
