import CueSheet.Proofs.Load.Times
import CueSheet.Proofs.Plan.Safety

/-!
How long a plan lasts. Of a loaded program each timeline ends within a word, but there is no bound to
how many timelines a plan has. The counter of the total is one word as well: there is a total, and it is
exact, as long as the sum of all durations fits. A build that is recorded goes through the counter and
does not outlive it.
-/

namespace CueSheet

def Plan.duration (p : Plan) : Nat := (p.timelines.map (·.timeline.duration)).sum

namespace Timeline

variable {cursor : Nat} {time : Option TimeSpec}

theorem advance_le (hcursor : cursor ≤ Decimal.maxWord) (htime : ∀ t, time = some t → t.Fits) :
    (advance clampToWord cursor time).2.1 ≤ Decimal.maxWord ∧
      (advance clampToWord cursor time).2.2 ≤ Decimal.maxWord := by
  cases time with
  | none => exact ⟨hcursor, hcursor⟩
  | some spec =>
    obtain ⟨start, stop⟩ := spec
    cases stop with
    | «at» t => exact ⟨(htime _ rfl).stop, (htime _ rfl).stop⟩
    | after length => exact ⟨Nat.min_le_right _ _, Nat.min_le_right _ _⟩

end Timeline

namespace Program

variable {p : Program}

theorem stop_le_of_commands {cursor : Nat} {es : List Entry} {cs : List Command}
    (hcursor : cursor ≤ Decimal.maxWord) (hes : ∀ e ∈ es, e.Fits)
    (h : p.commands Timeline.clampToWord cursor es = .ok cs) : ∀ c ∈ cs, c.stop ≤ Decimal.maxWord := by
  induction es generalizing cursor cs with
  | nil =>
    cases h
    exact List.forall_mem_nil _
  | cons e es ih =>
    obtain ⟨he, hes⟩ := List.forall_mem_cons.1 hes
    obtain ⟨params, ds, -, hds, rfl⟩ := commands_cons_eq_ok_iff.1 h
    obtain ⟨hstop, hnext⟩ := Timeline.advance_le hcursor he
    exact List.forall_mem_cons.2 ⟨hstop, ih hnext hes hds⟩

theorem duration_le_of_timeline {es : List Entry} {t : Timeline} (hes : ∀ e ∈ es, e.Fits)
    (h : p.timeline es = .ok t) : t.duration ≤ Decimal.maxWord := by
  obtain ⟨cs, hcs, rfl, -⟩ := timeline_eq_ok_iff.1 h
  have hstops := stop_le_of_commands (Nat.zero_le _) hes hcs
  rw [Timeline.ofCommands, Timeline.lastStop_perm (Timeline.sort_perm cs)]
  rcases Timeline.latest_ofCommands cs with ⟨-, hzero⟩ | ⟨⟨c, hc, hstop⟩, -⟩
  · rw [hzero]
    exact Nat.zero_le _
  · rw [← hstop]
    exact hstops c hc

theorem duration_le_of_steps? {c : Compiled} (hfits : ∀ i s, p.Holds i s → s.Fits)
    (hc : p.compile = .ok c) {r : ProcRef} {body : List Step} {t : Timeline}
    (hb : c.steps? r = some body) (ht : .timeline t ∈ body) : t.duration ≤ Decimal.maxWord := by
  obtain ⟨q, hq, hsource⟩ := exists_source hc hb
  obtain ⟨s, hs, hfind⟩ := procedure?_eq_some_iff.1 hq
  obtain ⟨e, he, hstep⟩ := Result.exists_of_mem_right hsource ht
  rcases step_eq_timeline hstep with ⟨es, rfl, ht⟩ | ⟨d, args, params, -, rfl⟩
  · exact duration_le_of_timeline (hfits _ s hs _ q hfind _ he es rfl) ht
  · exact Nat.zero_le _

end Program

namespace Plan

/-- A sum of words never decreases, so the counter overflows at some timeline if and only if the sum of
all of them is too large. -/
theorem foldlM_addWord? {ts : List PlannedTimeline} {n : Nat} (hn : n ≤ Decimal.maxWord) :
    ts.foldlM (fun total t => addWord? total t.timeline.duration) n =
      if n + (ts.map (·.timeline.duration)).sum ≤ Decimal.maxWord then
        some (n + (ts.map (·.timeline.duration)).sum) else none := by
  induction ts generalizing n with
  | nil => simp [hn]
  | cons t ts ih =>
    rw [List.foldlM_cons, List.map_cons, List.sum_cons, ← Nat.add_assoc]
    by_cases hfits : n + t.timeline.duration ≤ Decimal.maxWord
    · rw [addWord?, if_pos hfits, Option.bind_eq_bind, Option.bind_some, ih hfits]
    · rw [addWord?, if_neg hfits, Option.bind_eq_bind, Option.bind_none, if_neg (by omega)]

theorem totalDuration_eq_some_iff {plan : Plan} {n : Nat} :
    plan.totalDuration = some n ↔ n = plan.duration ∧ plan.duration < 2 ^ 64 := by
  have hword : plan.duration ≤ Decimal.maxWord ↔ plan.duration < 2 ^ 64 := Nat.lt_succ_iff.symm
  rw [totalDuration, foldlM_addWord? (Nat.zero_le _), Nat.zero_add, ← hword, duration]
  split
  · next hfits => simp [hfits, eq_comm]
  · next hover => simp [hover]

theorem totalDuration_isSome_iff {plan : Plan} :
    plan.totalDuration.isSome = true ↔ plan.duration < 2 ^ 64 := by
  simp only [Option.isSome_iff_exists, totalDuration_eq_some_iff, exists_eq_left]

theorem forall_prefix_iff (plan : Plan) :
    (∀ n, Plan.duration ⟨plan.timelines.take n⟩ < 2 ^ 64) ↔ plan.duration < 2 ^ 64 := by
  constructor
  · intro h
    simpa [duration] using h plan.timelines.length
  · intro h n
    have hsum : plan.duration = Plan.duration ⟨plan.timelines.take n⟩ +
        Plan.duration ⟨plan.timelines.drop n⟩ := by
      rw [duration, duration, duration, ← List.sum_append, ← List.map_append, List.take_append_drop]
    omega

end Plan

namespace Planning

variable {τ : Type} {p : Program} {compiled : Compiled}

theorem resolveAll_recorded (w : Workshop τ) (b : Bool) (c : Chain) (cs : List Command)
    (r : Registry τ) : resolveAll { w with records := b } p c cs r = resolveAll w p c cs r := by
  induction cs generalizing r with
  | nil => rfl
  | cons x xs ih =>
    simp only [resolveAll, ih]
    rfl

theorem steps_recorded (w : Workshop τ) (b : Bool) (here : ProcRef) (c : Chain)
    {visit visit' : Chain → ProcRef → Planning τ → Outcome τ} (hvisit : visit' = visit)
    (body : List Step) (st : Planning τ) :
    steps { w with records := b } p here c visit' body st = steps w p here c visit body st := by
  subst hvisit
  induction body generalizing st with
  | nil => rfl
  | cons s body ih =>
    cases s with
    | timeline t => simp only [steps, timeline, resolveAll_recorded, ih]
    | call k => simp only [steps, ih]

theorem expand_recorded (w : Workshop τ) (b : Bool) (n : Nat) (stack : List ProcRef) :
    expand { w with records := b } p compiled n stack = expand w p compiled n stack := by
  induction n using Nat.strongRecOn generalizing stack with
  | ind n ih =>
    funext c here st
    rw [expand.eq_def, expand.eq_def]
    dsimp only
    split
    · rfl
    · split
      · rfl
      · rfl
      · next body m _ =>
        exact steps_recorded w b here c (ih m (Nat.lt_succ_self m) _) body st

end Planning

theorem Plan.build_recorded {τ : Type} {w : Workshop τ} {p : Program} {c : Compiled} {entry : ProcRef}
    {r r' : Registry τ} {plan : Plan} (h : Plan.build w p c entry r = (.ok plan, r')) :
    Plan.build { w with records := true } p c entry r =
      (if plan.duration < 2 ^ 64 then .ok plan else .error .panic, r') := by
  obtain ⟨hout, -⟩ := Planning.plan_eq_ok_iff.1 h
  rw [Plan.build, Planning.expand_recorded, hout]
  by_cases hfits : plan.duration < 2 ^ 64
  · rw [if_pos hfits]
    exact Planning.plan_eq_ok_iff.2 ⟨rfl, fun _ => Plan.totalDuration_isSome_iff.2 hfits⟩
  · rw [if_neg hfits]
    have hnone : plan.totalDuration = none := by
      simpa using mt Plan.totalDuration_isSome_iff.1 hfits
    exact Planning.plan_eq_error_iff.2 ⟨rfl, .inr ⟨rfl, rfl, rfl, hnone⟩⟩

namespace Loader

variable {L : Loader} {place : Place} {root : String} {p : Program} {c : Compiled} {entry : ProcRef}
  {τ : Type} {w : Workshop τ} {r r' : Registry τ} {plan : Plan}

/-- Of a loaded program every timeline that is planned ends within a word. If the sum of their durations
does so too, it is the total; otherwise the counter overflows on the way and there is no total. A build
of the same program that is recorded ends accordingly: with the same plan, or in the overflow. -/
theorem total_duration (hL : L.reader = .standard) (h : L.program place root = .ok p)
    (hc : p.compile = .ok c) (hb : Plan.build w p c entry r = (.ok plan, r')) :
    (∀ t ∈ plan.timelines, t.timeline.duration < 2 ^ 64) ∧
      (∀ n, plan.totalDuration = some n ↔ n = plan.duration ∧ plan.duration < 2 ^ 64) ∧
      ((∀ n, Plan.duration ⟨plan.timelines.take n⟩ < 2 ^ 64) ↔ plan.duration < 2 ^ 64) ∧
      Plan.build { w with records := true } p c entry r =
        (if plan.duration < 2 ^ 64 then .ok plan else .error .panic, r') := by
  refine ⟨?_, fun n => Plan.totalDuration_eq_some_iff, plan.forall_prefix_iff,
    Plan.build_recorded hb⟩
  obtain ⟨body, os, hbody, hinlining, hos, -⟩ := Plan.build_ok hb
  rw [hos, List.forall_mem_map]
  intro o ho
  obtain ⟨_, hsource, ht⟩ := hinlining.source_mem hbody (List.Subset.refl _) o ho
  have hle := Program.duration_le_of_steps? (fun i s hs => fits_of_program hL h hs) hc hsource ht
  exact Nat.lt_of_le_of_lt hle (by decide)

/-- A timeline that lasts as long as a word can tell, and one more. -/
def overlong : Loader where
  tree := ⟨[(["a"], .file ("#device Print\nproc Main \x7b\n" ++
    "timeline \x7b\nPrint(\"x\") for 18446744073709551615\n\x7d\n" ++
    "timeline \x7b\nPrint(\"y\") for 1\n\x7d\n\x7d").toUTF8.toList)]⟩

theorem overlong_main : ∃ p c plan r', overlong.program [] "a" = .ok p ∧ p.compile = .ok c ∧
    Plan.build (τ := Unit) ⟨fun _ => (), "", false⟩ p c ⟨0, "Main"⟩ {} = (.ok plan, r') ∧
    plan.duration = 2 ^ 64 := by
  have hrun : (do
      let p : Program ← (overlong.program [] "a").mapError fun _ => ()
      let c ← p.compile.mapError fun _ => ()
      let plan ← (Plan.build (τ := Unit) ⟨fun _ => (), "", false⟩ p c ⟨0, "Main"⟩ {}).1.mapError
        fun _ => ()
      return plan.timelines.map (·.timeline.duration)) = Except.ok [18446744073709551615, 1] := by
    cbv
  simp only [Result.bind_eq_ok_iff, Result.mapError_eq_ok_iff, pure, Except.pure,
    Except.ok.injEq] at hrun
  obtain ⟨p, hp, c, hc, plan, hplan, hdurations⟩ := hrun
  refine ⟨p, c, plan, _, hp, hc, Prod.ext hplan rfl, ?_⟩
  rw [Plan.duration, hdurations]
  rfl

theorem total_duration_overlong : ∃ p c plan r', overlong.program [] "a" = .ok p ∧
    p.compile = .ok c ∧
    Plan.build (τ := Unit) ⟨fun _ => (), "", false⟩ p c ⟨0, "Main"⟩ {} = (.ok plan, r') ∧
    plan.duration = 2 ^ 64 ∧ plan.totalDuration = none ∧
    Plan.build (τ := Unit) ⟨fun _ => (), "", true⟩ p c ⟨0, "Main"⟩ {} = (.error .panic, r') := by
  obtain ⟨p, c, plan, r', hp, hc, hb, hduration⟩ := overlong_main
  obtain ⟨-, htotal, -, hrecorded⟩ := total_duration rfl hp hc hb
  have hover : ¬ plan.duration < 2 ^ 64 := by omega
  rw [if_neg hover] at hrecorded
  refine ⟨p, c, plan, r', hp, hc, hb, hduration, ?_, hrecorded⟩
  exact Option.eq_none_iff_forall_ne_some.2 fun n hn => hover ((htotal n).1 hn).2

theorem total_not_always_exact : ¬ ∀ (L : Loader) (place : Place) (root : String) (p : Program)
    (c : Compiled) (entry : ProcRef) (w : Workshop Unit) (r r' : Registry Unit) (plan : Plan),
    L.reader = .standard → L.program place root = .ok p → p.compile = .ok c →
    Plan.build w p c entry r = (.ok plan, r') → plan.totalDuration = some plan.duration := by
  intro h
  obtain ⟨p, c, plan, r', hp, hc, hb, hduration⟩ := overlong_main
  have hexact := h overlong [] "a" p c _ _ _ r' plan rfl hp hc hb
  have hfits := (Plan.totalDuration_eq_some_iff.1 hexact).2
  omega

end Loader

end CueSheet
