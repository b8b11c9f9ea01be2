import CueSheet.Proofs.Run.Course
import Mathlib

/-!
When things happen in a dispatch. The clock may run on at every look at it and in every call, as long as
it does not go back and a sleep is not shorter than asked for. Then no command goes out before it is
due, and a timeline begins when the one before it is over.
-/

namespace CueSheet

variable {σ τ : Type}

/-- `time` says how late it is. No call of a command turns it back, the clock shows an instant within
the look at it, and a sleep takes at least as long as it should. -/
structure Rig.Timed (rig : Rig (StateM σ) τ) (time : σ → Nat) : Prop where
  now : ∀ s, time s ≤ (rig.now.run s).1 ∧ (rig.now.run s).1 ≤ time (rig.now.run s).2
  sleep : ∀ ns s, time s + ns ≤ time ((rig.sleep ns).run s).2
  print : ∀ text s, time s ≤ time ((rig.print text).run s).2
  flush : ∀ s, time s ≤ time (rig.flush.run s).2
  stamp : ∀ format s, time s ≤ time ((rig.stamp format).run s).2
  send : ∀ text p s, time s ≤ time ((rig.send text p).run s).2

namespace Dispatch

/-- A command that went out: when it was due, and what the clock said last before. -/
structure Cue (σ τ : Type) extends Turn σ τ where
  due : Nat
  instant : Nat

def Cue.delay (c : Cue σ τ) : Nat := c.instant - c.due

structure Session (σ τ : Type) where
  timeline : Timeline
  started : Nat
  cues : List (Cue σ τ)

section Relations

variable (rig : Rig (StateM σ) τ)

inductive Paced : Registry τ → σ → List (Cue σ τ) → Registry τ → σ → Prop
  | rest {r : Registry τ} {s s' : σ} : Idle rig s s' → Paced r s [] r s'
  | cue {s s₀ s' : σ} {c : Cue σ τ} {cs : List (Cue σ τ)} {r' : Registry τ} : Idle rig s s₀ →
    rig.now.run s₀ = (c.instant, c.world) →
    Paced (c.outcome rig).1.2 (c.outcome rig).2 cs r' s' → Paced c.registry s (c :: cs) r' s'

/-- The sessions take place one after another, each from a look at the clock on. -/
inductive Held : Registry τ → σ → List (Session σ τ) → Registry τ → σ → Prop
  | rest {r : Registry τ} {s s' : σ} : Idle rig s s' → Held r s [] r s'
  | session {r r₁ r' : Registry τ} {s s₀ s₁ s₂ s' : σ} {x : Session σ τ} {xs : List (Session σ τ)} :
    Idle rig s s₀ → rig.now.run s₀ = (x.started, s₁) → Paced rig r s₁ x.cues r₁ s₂ →
    Held r₁ s₂ xs r' s' → Held r s (x :: xs) r' s'

variable {rig} {r r' : Registry τ} {s s' s'' : σ} {xs : List (Session σ τ)}

theorem Held.after (h : Held rig r s' xs r' s'') (hidle : Idle rig s s') : Held rig r s xs r' s'' := by
  cases h with
  | rest h' => exact .rest (hidle.trans h')
  | session h' hstart hpaced hrest => exact .session (hidle.trans h') hstart hpaced hrest

theorem Held.until (h : Held rig r s xs r' s') (hidle : Idle rig s' s'') :
    Held rig r s xs r' s'' := by
  induction h with
  | rest h' => exact .rest (h'.trans hidle)
  | session h' hstart hpaced _ ih => exact .session h' hstart hpaced (ih hidle)

end Relations

section Time

variable {rig : Rig (StateM σ) τ} {time : σ → Nat} {s s' : σ}

theorem time_le_idle (h : rig.Timed time) (hidle : Idle rig s s') : time s ≤ time s' := by
  induction hidle with
  | rest => exact Nat.le_refl _
  | look _ ih =>
    obtain ⟨hbefore, hafter⟩ := h.now _
    exact ih.trans (hbefore.trans hafter)
  | sleep ns _ ih => exact ih.trans (Nat.le_of_add_right_le (h.sleep ns _))

theorem time_le_printLine (h : rig.Timed time) (format : String) (args : List Value) (s : σ) :
    time s ≤ time ((Instance.printLine rig format args).run s).2 :=
  Instance.printLine_keeps (R := fun s s' => time s ≤ time s') Nat.le_trans h.stamp h.print h.flush
    format args s

theorem time_le_execute (h : rig.Timed time) (name : String) (args : List Value) (i : Instance τ)
    (s : σ) : time s ≤ time ((i.execute rig name args).run s).2 := by
  cases i with
  | print format => exact time_le_printLine h format args s
  | wait =>
    cases hns : pause? ((args.head?.bind Value.number?).getD 0) with
    | none =>
      simp only [Instance.execute, hns]
      exact Nat.le_refl _
    | some ns =>
      simp only [Instance.execute, hns]
      exact Nat.le_of_add_right_le (h.sleep ns s)
  | transport t =>
    cases hopen : t.isOpen with
    | false =>
      rw [Instance.execute_closed hopen]
    | true =>
      rw [Instance.execute_transport hopen]
      exact h.send _ t.port s

theorem time_le_outcome (h : rig.Timed time) (t : Turn σ τ) : time t.world ≤ time (t.outcome rig).2 := by
  rw [Turn.outcome]
  cases he : t.registry.entry? t.command.device with
  | none =>
    simp only [Registry.execute, he]
    exact Nat.le_refl _
  | some e =>
    rw [Registry.execute_run he]
    exact time_le_execute h e.name t.command.params e.unit t.world

/-- Nobody waits less than he should, however long ago the clock was looked at. -/
theorem due_le_waitUntil (h : rig.Timed time) (due : Nat) (s : σ) :
    due ≤ time ((waitUntil rig due).run s).2 := by
  obtain ⟨-, hlook⟩ := h.now s
  rw [waitUntil_run]
  by_cases hlt : (rig.now.run s).1 < due
  · rw [if_pos hlt]
    have hsleep := h.sleep (due - (rig.now.run s).1) (rig.now.run s).2
    omega
  · rw [if_neg hlt]
    exact (Nat.le_of_not_lt hlt).trans hlook

theorem due_le_await (h : rig.Timed time) (due : Nat) (s : σ) : due ≤ ((await rig due).run s).1 :=
  (due_le_waitUntil h due s).trans (h.now _).1

variable {r r' : Registry τ} {cs : List (Cue σ τ)}

theorem Paced.time_le (h : rig.Timed time) (hpaced : Paced rig r s cs r' s') :
    time s ≤ time s' ∧ ∀ c ∈ cs, time (c.outcome rig).2 ≤ time s' := by
  induction hpaced with
  | rest hidle => exact ⟨time_le_idle h hidle, by simp⟩
  | @cue s s₀ s' c cs r' hidle hlook _ ih =>
    obtain ⟨hrest, hcues⟩ := ih
    obtain ⟨hbefore, hafter⟩ := h.now s₀
    rw [hlook] at hafter
    have hstart : time s ≤ time c.world := (time_le_idle h hidle).trans (hbefore.trans (hlook ▸ hafter))
    exact ⟨hstart.trans ((time_le_outcome h c.toTurn).trans hrest),
      List.forall_mem_cons.2 ⟨hrest, hcues⟩⟩

end Time

section Run

structure Cue.Timely (time : σ → Nat) (started : Nat) (c : Cue σ τ) : Prop where
  due : c.due = started + nanos c.command.start
  notEarly : c.due ≤ c.instant
  before : c.instant ≤ time c.world

structure Session.Punctual (time : σ → Nat) (x : Session σ τ) : Prop where
  commands : x.cues.map (·.command) = x.timeline.commands
  timely : ∀ c ∈ x.cues, c.Timely time x.started

/-- `x'` begins when `x` has lasted its duration and all that its commands do is over. -/
structure Session.Precedes (rig : Rig (StateM σ) τ) (time : σ → Nat) (x x' : Session σ τ) :
    Prop where
  duration : x.started + nanos x.timeline.duration ≤ x'.started
  cues : ∀ c ∈ x.cues, time (c.outcome rig).2 ≤ x'.started

variable {rig : Rig (StateM σ) τ} {time : σ → Nat}

theorem exists_cues (h : rig.Timed time) (started : Nat) (cs : List Command) (r : Registry τ) (s : σ)
    (report : Report) :
    let y := (commands rig started cs r report).run s
    ∃ cues, Paced rig r s cues y.1.1 y.2 ∧ cues.map (·.command) = cs ∧
      (∀ c ∈ cues, c.Timely time started) ∧
      y.1.2.lateness = (cues.map Cue.delay).foldl max report.lateness := by
  induction cs generalizing r s report with
  | nil => exact ⟨[], .rest (.rest s), rfl, by simp, rfl⟩
  | cons c cs ih =>
    let due := started + nanos c.start
    let first : Cue σ τ :=
      { turn rig started c r s with due := due, instant := ((await rig due).run s).1 }
    rw [commands_cons]
    obtain ⟨cues, hpaced, hcommands, htimely, hlateness⟩ := ih (first.outcome rig).1.2
      (first.outcome rig).2 (counted report due first.instant (first.outcome rig).1.1)
    have hfirst : first.Timely time started := ⟨rfl, due_le_await h due s, (h.now _).2⟩
    refine ⟨first :: cues, .cue (idle_waitUntil due s) rfl hpaced, ?_,
      List.forall_mem_cons.2 ⟨hfirst, htimely⟩, hlateness⟩
    rw [List.map_cons, hcommands]
    rfl

theorem exists_sessions (h : rig.Timed time) (ts : List PlannedTimeline) (r : Registry τ) (s : σ)
    (report : Report) :
    let y := (timelines rig ts r report).run s
    ∃ xs, Held rig r s xs y.1.1 y.2 ∧ xs.map (·.timeline) = ts.map (·.timeline) ∧
      (∀ x ∈ xs, x.Punctual time ∧ time s ≤ x.started) ∧ xs.Pairwise (Session.Precedes rig time) ∧
      time s + nanos (ts.map (·.timeline.duration)).sum ≤ time y.2 ∧
      y.1.2.lateness = ((xs.flatMap (·.cues)).map Cue.delay).foldl max report.lateness := by
  induction ts generalizing r s report with
  | nil => exact ⟨[], .rest (.rest s), rfl, by simp, .nil, Nat.le_refl _, rfl⟩
  | cons t ts ih =>
    rw [timelines_cons, timeline_run]
    dsimp only
    obtain ⟨cues, hpaced, hcommands, htimely, hlateness⟩ := exists_cues h (rig.now.run s).1
      t.timeline.commands r (rig.now.run s).2 report
    generalize (commands rig (rig.now.run s).1 t.timeline.commands r report).run (rig.now.run s).2 = y
      at hpaced hlateness ⊢
    have hheld := due_le_waitUntil h ((rig.now.run s).1 + nanos t.timeline.duration) y.2
    have hidle : Idle rig y.2
        ((waitUntil rig ((rig.now.run s).1 + nanos t.timeline.duration)).run y.2).2 :=
      idle_waitUntil _ y.2
    generalize ((waitUntil rig ((rig.now.run s).1 + nanos t.timeline.duration)).run y.2).2 = s'
      at hidle hheld ⊢
    obtain ⟨xs, hrest, htimelines, hxs, hpairs, hsum, hmax⟩ :=
      ih y.1.1 s' { y.1.2 with timelines := y.1.2.timelines + 1 }
    obtain ⟨hstart, -⟩ := h.now s
    have hcues : ∀ c ∈ cues, time (c.outcome rig).2 ≤ time s' := fun c hc =>
      ((hpaced.time_le h).2 c hc).trans (time_le_idle h hidle)
    refine ⟨⟨t.timeline, (rig.now.run s).1, cues⟩ :: xs,
      .session (.rest s) rfl hpaced (hrest.after hidle), ?_, ?_, ?_, ?_, ?_⟩
    · rw [List.map_cons, List.map_cons, htimelines]
    · refine List.forall_mem_cons.2 ⟨⟨⟨hcommands, htimely⟩, hstart⟩, fun x hx => ⟨(hxs x hx).1, ?_⟩⟩
      have hlater := (hxs x hx).2
      omega
    · refine List.pairwise_cons.2 ⟨fun x hx => ⟨?_, fun c hc => ?_⟩, hpairs⟩
      · exact hheld.trans (hxs x hx).2
      · exact (hcues c hc).trans (hxs x hx).2
    · simp only [List.map_cons, List.sum_cons, nanos, Nat.mul_add] at hheld hsum ⊢
      omega
    · rw [hmax, List.flatMap_cons, List.map_append, List.foldl_append, ← hlateness]

/-- Whatever the clock shows and however long the calls take: no command goes out before it is due, a
timeline begins when the one before it is over, and the run lasts at least as long as all timelines
together. The lateness of the report is the longest delay, so without any all commands were on time. -/
theorem run_punctual (h : rig.Timed time) (p : Plan) (r : Registry τ) (s : σ) :
    let y := (run rig p r).run s
    ∃ xs, Held rig r s xs y.1.1 y.2 ∧ xs.map (·.timeline) = p.timelines.map (·.timeline) ∧
      (∀ x ∈ xs, x.Punctual time) ∧ xs.Pairwise (Session.Precedes rig time) ∧
      time s + nanos (p.timelines.map (·.timeline.duration)).sum ≤ time y.2 ∧
      nanos (p.timelines.map (·.timeline.duration)).sum ≤ y.1.2.elapsed ∧
      y.1.2.lateness = ((xs.flatMap (·.cues)).map Cue.delay).max?.getD 0 ∧
      (y.1.2.lateness = 0 → ∀ x ∈ xs, ∀ c ∈ x.cues, c.instant = c.due) := by
  obtain ⟨hstart, hlook⟩ := h.now s
  rw [run_run]
  dsimp only
  obtain ⟨xs, hheld, htimelines, hxs, hpairs, hsum, hmax⟩ :=
    exists_sessions h p.timelines r (rig.now.run s).2 {}
  generalize (timelines rig p.timelines r {}).run (rig.now.run s).2 = y at hheld hsum hmax ⊢
  obtain ⟨hend, hover⟩ := h.now y.2
  rw [List.foldl_max, Nat.zero_max] at hmax
  refine ⟨xs, (hheld.after (Idle.rest s).look).until (Idle.rest y.2).look, htimelines,
    fun x hx => (hxs x hx).1, hpairs, by omega, by omega, hmax, fun hzero x hx c hc => ?_⟩
  have hdelay : c.delay ≤ y.1.2.lateness := by
    rw [hmax]
    exact List.le_max?_getD_of_mem (List.mem_map_of_mem (List.mem_flatMap.2 ⟨x, hx, hc⟩))
  have hearly := ((hxs x hx).1.timely c hc).notEarly
  rw [hzero, Cue.delay] at hdelay
  omega

def length : Deed → Nat
  | .port _ (.wrote ..) => nanos 30
  | .slept ns => ns
  | _ => 0

def slowPorts : World where
  opens _ _ := .ok ()
  takes _ _ _ := .ok ()
  closes _ _ := .ok ()
  prints _ _ := .ok ()
  flushes _ := .ok ()
  stamp _ _ := some ""
  clock j := (j.map length).sum

theorem timed_slowPorts : slowPorts.rig.Timed slowPorts.clock := by
  have hlonger : ∀ (j : Journal) (d : Deed),
      slowPorts.clock j + length d = slowPorts.clock (j ++ [d]) := by
    simp [slowPorts]
  constructor
  · exact fun j => ⟨Nat.le_refl _, (hlonger j (.looked _)).le⟩
  · exact fun ns j => (hlonger j (.slept ns)).le
  · exact fun text j => (hlonger j (.printed text _)).le
  · exact fun j => (hlonger j (.flushed _)).le
  · exact fun f j => (hlonger j (.stamped f _)).le
  · exact fun text p j => Nat.le_of_add_right_le (hlonger j (.port p.number (.wrote text _))).le

def dueWhileBusy : Plan :=
  ⟨[⟨⟨0, "Main"⟩, ⟨[⟨⟨0, 0⟩, [.text "on"], 0, 10⟩, ⟨⟨0, 0⟩, [.text "off"], 10, 20⟩], 20⟩⟩,
    ⟨⟨0, "Main"⟩, ⟨[⟨⟨0, 0⟩, [.text "on"], 5, 10⟩], 10⟩⟩]⟩

theorem run_punctual_dueWhileBusy :
    let r : Registry Plug := { entries := [⟨⟨0, 0⟩, "Lamp",
      .transport ⟨"Lamp", { port := "tty" }, ⟨{ port := "tty" }, some 0⟩, true⟩⟩] }
    let y := (run slowPorts.rig dueWhileBusy r).run []
    y.1.2.lateness = nanos 20 ∧ y.1.2.elapsed = nanos 95 ∧ nanos 30 ≤ y.1.2.elapsed ∧
      ∃ xs, Held slowPorts.rig r [] xs y.1.1 y.2 ∧ (∀ x ∈ xs, x.Punctual slowPorts.clock) ∧
        xs.Pairwise (Session.Precedes slowPorts.rig slowPorts.clock) ∧
        ((xs.flatMap (·.cues)).map Cue.delay).max?.getD 0 = nanos 20 := by
  intro r y
  obtain ⟨xs, hheld, -, hxs, hpairs, -, hsum, hmax, -⟩ := run_punctual timed_slowPorts dueWhileBusy r []
  have hlateness : y.1.2.lateness = nanos 20 := by decide +kernel
  have helapsed : y.1.2.elapsed = nanos 95 := by decide +kernel
  exact ⟨hlateness, helapsed, hsum, xs, hheld, hxs, hpairs, hmax.symm.trans hlateness⟩

end Run

end Dispatch

end CueSheet
