import CueSheet.Dispatch

/-!
A dispatch taken apart into turns, one for each command: the registry and the world at the moment when
the command goes out. What every call of the rig keeps, the dispatch keeps, and it holds at every turn.
-/

namespace CueSheet

variable {σ τ : Type}

structure Turn (σ τ : Type) where
  command : Command
  registry : Registry τ
  world : σ

namespace Turn

variable (rig : Rig (StateM σ) τ)

def outcome (t : Turn σ τ) : (Except DeviceError Unit × Registry τ) × σ :=
  (t.registry.execute rig t.command.device t.command.params).run t.world

def isRefused (t : Turn σ τ) : Bool := !(t.outcome rig).1.1.toBool

end Turn

namespace Dispatch

section Turns

variable (rig : Rig (StateM σ) τ)

def await (due : Nat) : StateM σ Nat := do
  waitUntil rig due
  rig.now

def turn (started : Nat) (c : Command) (r : Registry τ) (s : σ) : Turn σ τ :=
  ⟨c, r, ((await rig (started + nanos c.start)).run s).2⟩

def turns (started : Nat) : List Command → Registry τ → σ → List (Turn σ τ)
  | [], _, _ => []
  | c :: cs, r, s =>
    let o := (turn rig started c r s).outcome rig
    turn rig started c r s :: turns started cs o.1.2 o.2

def timelineTurns (t : Timeline) (r : Registry τ) (s : σ) : List (Turn σ τ) :=
  turns rig (rig.now.run s).1 t.commands r (rig.now.run s).2

def timelinesTurns : List PlannedTimeline → Registry τ → σ → List (Turn σ τ)
  | [], _, _ => []
  | t :: ts, r, s =>
    let next := (timeline rig t.timeline r {}).run s
    timelineTurns rig t.timeline r s ++ timelinesTurns ts next.1.1 next.2

def planTurns (p : Plan) (r : Registry τ) (s : σ) : List (Turn σ τ) :=
  timelinesTurns rig p.timelines r (rig.now.run s).2

end Turns

variable {rig : Rig (StateM σ) τ}

def counted (report : Report) (due now : Nat) (result : Except DeviceError Unit) : Report :=
  { report with
    commands := report.commands + 1
    suppressed := report.suppressed + if result.toBool then 0 else 1
    lateness := max report.lateness (now - due) }

theorem waitUntil_run (due : Nat) (s : σ) :
    ((waitUntil rig due).run s).2 =
      let y := rig.now.run s
      if y.1 < due then ((rig.sleep (due - y.1)).run y.2).2 else y.2 := by
  have hrun : (waitUntil rig due).run s =
      (if (rig.now.run s).1 < due then rig.sleep (due - (rig.now.run s).1)
        else pure ()).run (rig.now.run s).2 := rfl
  rw [hrun]
  dsimp only
  split <;> rfl

theorem commands_cons (started : Nat) (c : Command) (cs : List Command) (r : Registry τ)
    (report : Report) (s : σ) :
    (commands rig started (c :: cs) r report).run s =
      let due := started + nanos c.start
      let o := (turn rig started c r s).outcome rig
      (commands rig started cs o.1.2
        (counted report due ((await rig due).run s).1 o.1.1)).run o.2 := rfl

theorem timeline_run (t : Timeline) (r : Registry τ) (report : Report) (s : σ) :
    (timeline rig t r report).run s =
      let started := (rig.now.run s).1
      let y := (commands rig started t.commands r report).run (rig.now.run s).2
      ((y.1.1, { y.1.2 with timelines := y.1.2.timelines + 1 }),
        ((waitUntil rig (started + nanos t.duration)).run y.2).2) := rfl

theorem timelines_cons (t : PlannedTimeline) (ts : List PlannedTimeline) (r : Registry τ)
    (report : Report) (s : σ) :
    (timelines rig (t :: ts) r report).run s =
      let next := (timeline rig t.timeline r report).run s
      (timelines rig ts next.1.1 next.1.2).run next.2 := rfl

theorem run_run (p : Plan) (r : Registry τ) (s : σ) :
    (run rig p r).run s =
      let y := (timelines rig p.timelines r {}).run (rig.now.run s).2
      ((y.1.1, { y.1.2 with elapsed := (rig.now.run y.2).1 - (rig.now.run s).1 }),
        (rig.now.run y.2).2) := rfl

section Report

variable (rig)

theorem commands_report (started : Nat) (cs : List Command) (r : Registry τ) (s : σ)
    (report report' : Report) :
    ((commands rig started cs r report).run s).1.1 =
        ((commands rig started cs r report').run s).1.1 ∧
      ((commands rig started cs r report).run s).2 =
        ((commands rig started cs r report').run s).2 := by
  induction cs generalizing r s report report' with
  | nil => exact ⟨rfl, rfl⟩
  | cons c cs ih =>
    rw [commands_cons, commands_cons]
    exact ih _ _ _ _

theorem timeline_report (t : Timeline) (r : Registry τ) (s : σ) (report report' : Report) :
    ((timeline rig t r report).run s).1.1 = ((timeline rig t r report').run s).1.1 ∧
      ((timeline rig t r report).run s).2 = ((timeline rig t r report').run s).2 := by
  obtain ⟨hregistry, hworld⟩ :=
    commands_report rig (rig.now.run s).1 t.commands r (rig.now.run s).2 report report'
  rw [timeline_run, timeline_run]
  refine ⟨hregistry, ?_⟩
  dsimp only
  rw [hworld]

theorem commands_suppressed (started : Nat) (cs : List Command) (r : Registry τ) (s : σ)
    (report : Report) :
    ((commands rig started cs r report).run s).1.2.suppressed =
      report.suppressed + (turns rig started cs r s).countP (·.isRefused rig) := by
  induction cs generalizing r s report with
  | nil => rfl
  | cons c cs ih =>
    rw [commands_cons]
    dsimp only
    rw [ih, turns, List.countP_cons, Turn.isRefused, counted]
    cases ((turn rig started c r s).outcome rig).1.1 with
    | ok _ => simp [Except.toBool]
    | error e =>
      simp [Except.toBool]
      omega

theorem timelines_suppressed (ts : List PlannedTimeline) (r : Registry τ) (s : σ)
    (report : Report) :
    ((timelines rig ts r report).run s).1.2.suppressed =
      report.suppressed + (timelinesTurns rig ts r s).countP (·.isRefused rig) := by
  induction ts generalizing r s report with
  | nil => rfl
  | cons t ts ih =>
    have hown : ((timeline rig t.timeline r report).run s).1.2.suppressed =
        report.suppressed + (timelineTurns rig t.timeline r s).countP (·.isRefused rig) := by
      rw [timeline_run]
      exact commands_suppressed rig _ t.timeline.commands r _ report
    obtain ⟨hregistry, hworld⟩ := timeline_report rig t.timeline r s report {}
    rw [timelines_cons]
    dsimp only
    rw [ih, hown, hregistry, hworld, timelinesTurns, List.countP_append]
    omega

theorem run_suppressed (p : Plan) (r : Registry τ) (s : σ) :
    ((run rig p r).run s).1.2.suppressed = (planTurns rig p r s).countP (·.isRefused rig) := by
  rw [run_run]
  dsimp only
  rw [timelines_suppressed, planTurns]
  exact Nat.zero_add _

end Report

section Commands

variable (rig)

theorem turns_command (started : Nat) (cs : List Command) (r : Registry τ) (s : σ) :
    (turns rig started cs r s).map (·.command) = cs := by
  induction cs generalizing r s with
  | nil => rfl
  | cons c cs ih => rw [turns, List.map_cons, ih, turn]

theorem planTurns_command (p : Plan) (r : Registry τ) (s : σ) :
    (planTurns rig p r s).map (·.command) = p.commands := by
  have hts : ∀ (ts : List PlannedTimeline) (r : Registry τ) (s : σ),
      (timelinesTurns rig ts r s).map (·.command) = ts.flatMap (·.timeline.commands) := by
    intro ts
    induction ts with
    | nil => exact fun _ _ => rfl
    | cons t ts ih =>
      intro r s
      rw [timelinesTurns, List.map_append, timelineTurns, turns_command, ih, List.flatMap_cons]
  exact hts p.timelines r _

end Commands

section Registry

variable (rig)

def registryAfter (r : Registry τ) : List (Turn σ τ) → Registry τ
  | [] => r
  | t :: ts => registryAfter (t.outcome rig).1.2 ts

theorem registryAfter_append (r : Registry τ) (ts ts' : List (Turn σ τ)) :
    registryAfter rig r (ts ++ ts') = registryAfter rig (registryAfter rig r ts) ts' := by
  induction ts generalizing r with
  | nil => rfl
  | cons t ts ih => exact ih _

theorem commands_registry (started : Nat) (cs : List Command) (r : Registry τ) (s : σ)
    (report : Report) :
    ((commands rig started cs r report).run s).1.1 =
      registryAfter rig r (turns rig started cs r s) := by
  induction cs generalizing r s report with
  | nil => rfl
  | cons c cs ih =>
    rw [commands_cons]
    exact ih _ _ _

theorem timelines_registry (ts : List PlannedTimeline) (r : Registry τ) (s : σ)
    (report : Report) :
    ((timelines rig ts r report).run s).1.1 =
      registryAfter rig r (timelinesTurns rig ts r s) := by
  induction ts generalizing r s report with
  | nil => rfl
  | cons t ts ih =>
    have hown : ((timeline rig t.timeline r {}).run s).1.1 =
        registryAfter rig r (timelineTurns rig t.timeline r s) :=
      commands_registry rig _ t.timeline.commands r _ {}
    obtain ⟨hregistry, hworld⟩ := timeline_report rig t.timeline r s report {}
    rw [timelines_cons]
    dsimp only
    rw [ih, hregistry, hworld, timelinesTurns, registryAfter_append, ← hown]

theorem run_registry (p : Plan) (r : Registry τ) (s : σ) :
    ((run rig p r).run s).1.1 = registryAfter rig r (planTurns rig p r s) :=
  timelines_registry rig p.timelines r _ {}

end Registry

structure Keeps (rig : Rig (StateM σ) τ) (cs : List Command) (P : Registry τ → σ → Prop) :
    Prop where
  now : ∀ r s, P r s → P r (rig.now.run s).2
  sleep : ∀ ns r s, P r s → P r ((rig.sleep ns).run s).2
  execute : ∀ c ∈ cs, ∀ r s, P r s →
    let o := (r.execute rig c.device c.params).run s
    P o.1.2 o.2

section Keeps

variable {P : Registry τ → σ → Prop} {cs : List Command} {r : Registry τ} {s : σ}

theorem Keeps.waitUntil (h : Keeps rig cs P) (due : Nat) (hP : P r s) :
    P r ((waitUntil rig due).run s).2 := by
  have hnow := h.now r s hP
  rw [waitUntil_run]
  by_cases hlt : (rig.now.run s).1 < due
  · rw [if_pos hlt]
    exact h.sleep _ r _ hnow
  · rw [if_neg hlt]
    exact hnow

theorem Keeps.await (h : Keeps rig cs P) (due : Nat) (hP : P r s) :
    P r ((await rig due).run s).2 := h.now r _ (h.waitUntil due hP)

theorem Keeps.commands (h : Keeps rig cs P) {started : Nat} {own : List Command}
    (hown : ∀ c ∈ own, c ∈ cs) (report : Report) (hP : P r s) :
    let y := (commands rig started own r report).run s
    P y.1.1 y.2 := by
  induction own generalizing r s report with
  | nil => exact hP
  | cons c rest ih =>
    obtain ⟨hc, hrest⟩ := List.forall_mem_cons.1 hown
    rw [commands_cons]
    exact ih hrest _ (h.execute c hc r _ (h.await _ hP))

theorem Keeps.timeline (h : Keeps rig cs P) {t : Timeline} (ht : ∀ c ∈ t.commands, c ∈ cs)
    (report : Report) (hP : P r s) :
    let y := (timeline rig t r report).run s
    P y.1.1 y.2 :=
  h.waitUntil _ (h.commands ht report (h.now r s hP))

theorem Keeps.timelines (h : Keeps rig cs P) {ts : List PlannedTimeline}
    (hts : ∀ t ∈ ts, ∀ c ∈ t.timeline.commands, c ∈ cs) (report : Report) (hP : P r s) :
    let y := (timelines rig ts r report).run s
    P y.1.1 y.2 := by
  induction ts generalizing r s report with
  | nil => exact hP
  | cons t ts ih =>
    obtain ⟨ht, hrest⟩ := List.forall_mem_cons.1 hts
    rw [timelines_cons]
    exact ih hrest _ (h.timeline ht report hP)

theorem Keeps.run {p : Plan} (h : Keeps rig p.commands P) (hP : P r s) :
    let y := (run rig p r).run s
    P y.1.1 y.2 := by
  have hts : ∀ t ∈ p.timelines, ∀ c ∈ t.timeline.commands, c ∈ p.commands :=
    fun t ht c hc => List.mem_flatMap.2 ⟨t, ht, hc⟩
  exact h.now _ _ (h.timelines hts {} (h.now r s hP))

theorem Keeps.turns (h : Keeps rig cs P) {started : Nat} {own : List Command}
    (hown : ∀ c ∈ own, c ∈ cs) (hP : P r s) :
    ∀ t ∈ turns rig started own r s, P t.registry t.world := by
  induction own generalizing r s with
  | nil => exact fun t ht => absurd ht List.not_mem_nil
  | cons c rest ih =>
    obtain ⟨hc, hrest⟩ := List.forall_mem_cons.1 hown
    have hready := h.await (started + nanos c.start) hP
    exact List.forall_mem_cons.2 ⟨hready, ih hrest (h.execute c hc r _ hready)⟩

theorem Keeps.planTurns {p : Plan} (h : Keeps rig p.commands P) (hP : P r s) :
    ∀ t ∈ planTurns rig p r s, P t.registry t.world := by
  have hts : ∀ ts : List PlannedTimeline, (∀ t ∈ ts, ∀ c ∈ t.timeline.commands, c ∈ p.commands) →
      ∀ r s, P r s → ∀ t ∈ timelinesTurns rig ts r s, P t.registry t.world := by
    intro ts
    induction ts with
    | nil => exact fun _ _ _ _ t ht => absurd ht List.not_mem_nil
    | cons t ts ih =>
      intro hown r s hP
      obtain ⟨ht, hrest⟩ := List.forall_mem_cons.1 hown
      exact List.forall_mem_append.2 ⟨h.turns ht (h.now r s hP),
        ih hrest _ _ (h.timeline ht {} hP)⟩
  exact hts p.timelines (fun t ht c hc => List.mem_flatMap.2 ⟨t, ht, hc⟩) r _ (h.now r s hP)

end Keeps

end Dispatch

end CueSheet
