import CueSheet.Plan
import CueSheet.Proofs.Basic
import CueSheet.Proofs.Schedule.Order
import Mathlib

/-!
A plan as the inlining of its entry. The inlining is defined on the compiled bodies alone, with no
stack, no chain to push to and no registry: a timeline stands for itself, and a call for the
inlining of its target with one more bind in front. The planner's walk yields one planned timeline
for each occurrence of the inlining, in order.
-/

namespace CueSheet

/-- Where a device leads through the binds of the calls in force, the innermost first. -/
def Bind.through : List Bind → DeviceId → DeviceId
  | [], d => d
  | b :: outer, d => through outer (Bind.apply b d)

def Command.rename (f : DeviceId → DeviceId) (c : Command) : Command :=
  { c with device := f c.device }

/-- A timeline of a compiled body, at one place of the call tree. -/
structure Occurrence where
  here : ProcRef
  binds : List Bind
  source : Timeline

inductive Inlining (c : Compiled) : List Bind → ProcRef → List Step → List Occurrence → Prop
  | nil {bs : List Bind} {here : ProcRef} : Inlining c bs here [] []
  | timeline {bs : List Bind} {here : ProcRef} {rest : List Step} {os : List Occurrence}
      (t : Timeline) : Inlining c bs here rest os →
      Inlining c bs here (.timeline t :: rest) (⟨here, bs, t⟩ :: os)
  | call {bs : List Bind} {here : ProcRef} {body rest : List Step} {inner os : List Occurrence}
      (k : Call) : c.steps? k.target = some body →
      Inlining c (k.bind :: bs) k.target body inner → Inlining c bs here rest os →
      Inlining c bs here (.call k :: rest) (inner ++ os)

theorem Inlining.unique {c : Compiled} {bs : List Bind} {here : ProcRef} {body : List Step}
    {os os' : List Occurrence} (h : Inlining c bs here body os) (h' : Inlining c bs here body os') :
    os = os' := by
  induction h generalizing os' with
  | nil => cases h'; rfl
  | timeline t _ ih =>
    cases h' with
    | timeline _ h' => rw [ih h']
  | call k hk _ _ ihi ih =>
    cases h' with
    | call _ hk' hi' h' =>
      rw [hk] at hk'
      cases hk'
      rw [ihi hi', ih h']

/-- What becomes of an occurrence: its commands, each for the device that the binds lead to. -/
structure Occurrence.Carried (o : Occurrence) (t : PlannedTimeline) : Prop where
  procedure : t.procedure = o.here
  duration : t.timeline.duration = o.source.duration
  commands : t.timeline.commands.Perm
    (o.source.commands.map (Command.rename (Bind.through o.binds)))

namespace Occurrence

variable (p : Program) (o : Occurrence)

def renamed : List Command := o.source.commands.map (Command.rename (Bind.through o.binds))

def planned : PlannedTimeline :=
  ⟨o.here, ⟨if 0 < o.binds.length then Timeline.sort p.deviceName o.renamed else o.renamed,
    o.source.duration⟩⟩

def overlap? : Option Overlap := Span.overlap? ((o.planned p).timeline.commands.map Command.span)

variable {p o}

theorem carried_planned : o.Carried (o.planned p) := by
  refine ⟨rfl, rfl, ?_⟩
  simp only [planned]
  split
  · exact Timeline.sort_perm _
  · exact List.Perm.refl _

end Occurrence

theorem Chain.resolve_eq (c : Chain) (d : DeviceId) : c.resolve d = Bind.through c.frames d := by
  obtain ⟨bs⟩ := c
  induction bs generalizing d with
  | nil => rfl
  | cons b bs ih => exact ih (Bind.apply b d)

namespace Registry

variable {τ : Type} {w : Workshop τ} {p : Program} {c : Chain} {d final : DeviceId}

theorem resolve_eq_ok {r r' : Registry τ} (h : r.resolve w p c d = .ok (final, r')) :
    final = c.resolve d := by
  simp only [resolve] at h
  simp only [bind, Except.bind, pure, Except.pure] at h
  split at h
  · cases h; rfl
  · split at h
    · cases h
    · split at h
      · cases h
      · cases h; rfl

end Registry

namespace Planning

variable {τ : Type} {w : Workshop τ} {p : Program} {compiled : Compiled}

theorem resolveAll_eq_ok {c : Chain} {cs ds : List Command} {r r' : Registry τ}
    (h : resolveAll w p c cs r = (.ok ds, r')) :
    ds = cs.map (Command.rename (Bind.through c.frames)) := by
  induction cs generalizing ds r r' with
  | nil =>
    obtain ⟨rfl, -⟩ : [] = ds ∧ r = r' := by simpa [resolveAll] using h
    rfl
  | cons x xs ih =>
    rw [resolveAll] at h
    split at h
    · simp at h
    · next final r₁ hr =>
      split at h
      · simp at h
      · next ys r₂ hys =>
        obtain ⟨rfl, -⟩ : { x with device := final } :: ys = ds ∧ r₂ = r' := by simpa using h
        rw [Registry.resolve_eq_ok hr, Chain.resolve_eq, ih hys]
        rfl

variable {st st' : Planning τ}

theorem timeline_of_resolveAll {here : ProcRef} {c : Chain} {t : Timeline} {cs : List Command}
    {r : Registry τ} (h : resolveAll w p c t.commands st.registry = (.ok cs, r)) :
    timeline w p here c t st =
      match Occurrence.overlap? p ⟨here, c.frames, t⟩ with
      | some o => (.error (.overlap here (p.deviceName o.span.device) o), { st with registry := r })
      | none => (.ok (), ⟨r, st.timelines ++ [Occurrence.planned p ⟨here, c.frames, t⟩]⟩) := by
  obtain rfl := resolveAll_eq_ok h
  simp only [timeline]
  rw [h]
  rfl

theorem timeline_ok {here : ProcRef} {c : Chain} {t : Timeline}
    (h : timeline w p here c t st = (.ok (), st')) :
    st'.timelines = st.timelines ++ [Occurrence.planned p ⟨here, c.frames, t⟩] ∧
      Occurrence.overlap? p ⟨here, c.frames, t⟩ = none := by
  rcases hr : resolveAll w p c t.commands st.registry with ⟨_ | cs, r⟩
  · simp [timeline, hr] at h
  · rw [timeline_of_resolveAll hr] at h
    split at h
    · simp at h
    · next ho =>
      cases h
      exact ⟨rfl, ho⟩

def Adds (p : Program) (compiled : Compiled) (bs : List Bind) (here : ProcRef) (body : List Step)
    (st st' : Planning τ) : Prop :=
  ∃ os, Inlining compiled bs here body os ∧
    st'.timelines = st.timelines ++ os.map (Occurrence.planned p) ∧ ∀ o ∈ os, o.overlap? p = none

theorem steps_ok {here : ProcRef} {c : Chain} {visit : Chain → ProcRef → Planning τ → Outcome τ}
    (hv : ∀ c r (st st' : Planning τ), visit c r st = (.ok (), st') →
      ∃ body, compiled.steps? r = some body ∧ Adds p compiled c.frames r body st st')
    {body : List Step} (h : steps w p here c visit body st = (.ok (), st')) :
    Adds p compiled c.frames here body st st' := by
  induction body generalizing st with
  | nil =>
    obtain rfl : st = st' := by simpa [steps] using h
    exact ⟨[], .nil, by simp, by simp⟩
  | cons s rest ih =>
    cases s with
    | timeline t =>
      simp only [steps] at h
      split at h
      · simp at h
      · next hok =>
        obtain ⟨ht, hc⟩ := timeline_ok (Prod.ext hok rfl)
        obtain ⟨os, hi, hos, ho⟩ := ih h
        refine ⟨_, .timeline t hi, ?_, List.forall_mem_cons.2 ⟨hc, ho⟩⟩
        rw [hos, ht, List.append_assoc]
        rfl
    | call k =>
      simp only [steps] at h
      split at h
      · simp at h
      · next hok =>
        obtain ⟨body, hb, is, hin, his, hio⟩ := hv _ _ _ _ (Prod.ext hok rfl)
        obtain ⟨os, hi, hos, ho⟩ := ih h
        refine ⟨_, .call k hb hin hi, ?_, List.forall_mem_append.2 ⟨hio, ho⟩⟩
        rw [hos, his, List.append_assoc, List.map_append]

/-- All that the expansion of a procedure can do. -/
theorem expand_cases {n : Nat} {stack : List ProcRef} {c : Chain} {here : ProcRef}
    {result : Except PlanError Unit} (h : expand w p compiled n stack c here st = (result, st')) :
    (here ∈ stack ∧ st' = st ∧ result =
      .error (.recursion ((stack.dropWhile (· ≠ here)).map (·.name) ++ [here.name]))) ∨
    (here ∉ stack ∧ (compiled.steps? here = none ∨ n = 0) ∧ st' = st ∧
      result = .error (.unknown here)) ∨
    ∃ body m, here ∉ stack ∧ compiled.steps? here = some body ∧ n = m + 1 ∧
      steps w p here c (expand w p compiled m (stack ++ [here])) body st = (result, st') := by
  rw [expand.eq_def] at h
  dsimp only at h
  split at h
  · next hs =>
    obtain ⟨rfl, rfl⟩ := Prod.mk.inj h
    exact Or.inl ⟨hs, rfl, rfl⟩
  · next hs =>
    right
    split at h
    · next hb =>
      obtain ⟨rfl, rfl⟩ := Prod.mk.inj h
      exact Or.inl ⟨hs, Or.inl hb, rfl, rfl⟩
    · obtain ⟨rfl, rfl⟩ := Prod.mk.inj h
      exact Or.inl ⟨hs, Or.inr rfl, rfl, rfl⟩
    · next body m hb => exact Or.inr ⟨body, m, hs, hb, rfl, h⟩

theorem expand_ok {n : Nat} {stack : List ProcRef} {c : Chain} {here : ProcRef}
    (h : expand w p compiled n stack c here st = (.ok (), st')) :
    ∃ body, compiled.steps? here = some body ∧ Adds p compiled c.frames here body st st' := by
  induction n using Nat.strongRecOn generalizing stack c here st st' with
  | ind n ih =>
    rcases expand_cases h with ⟨-, -, he⟩ | ⟨-, -, -, he⟩ | ⟨body, m, -, hb, rfl, hsteps⟩
    · cases he
    · cases he
    · exact ⟨body, hb, steps_ok (fun c r st st' => ih m (Nat.lt_succ_self m)) hsteps⟩

end Planning

@[simp]
theorem Planning.plan_snd {τ : Type} (w : Workshop τ) (out : Outcome τ) :
    (Planning.plan w out).2 = out.2.registry := by
  simp only [Planning.plan]
  split
  · rfl
  · split <;> rfl

theorem Planning.plan_eq_ok_iff {τ : Type} {w : Workshop τ} {out : Outcome τ} {plan : Plan}
    {r : Registry τ} : Planning.plan w out = (.ok plan, r) ↔
      out = (.ok (), ⟨r, plan.timelines⟩) ∧ (w.records = true → plan.totalDuration.isSome = true) := by
  obtain ⟨result, r', ts⟩ := out
  obtain ⟨ts'⟩ := plan
  cases result with
  | error e => simp [Planning.plan]
  | ok _ =>
    simp only [Planning.plan]
    split
    · next hover =>
      simp only [Bool.and_eq_true, Option.isNone_iff_eq_none] at hover
      constructor
      · intro h
        cases h
      · intro ⟨he, htotal⟩
        cases he
        simp [hover] at htotal
    · next hfits =>
      simp only [Bool.and_eq_true, Option.isNone_iff_eq_none, not_and] at hfits
      constructor
      · intro h
        cases h
        exact ⟨rfl, fun hw => Option.isSome_iff_ne_none.2 (hfits hw)⟩
      · intro ⟨he, _⟩
        cases he
        rfl

/-- A build is refused in its expansion, or it is recorded and its total has no value. -/
theorem Planning.plan_eq_error_iff {τ : Type} {w : Workshop τ} {out : Outcome τ} {e : PlanError}
    {r : Registry τ} : Planning.plan w out = (.error e, r) ↔
      out.2.registry = r ∧ (out.1 = .error e ∨ out.1 = .ok () ∧ e = .panic ∧ w.records = true ∧
        Plan.totalDuration ⟨out.2.timelines⟩ = none) := by
  obtain ⟨result, r', ts⟩ := out
  cases result with
  | error e' => simp [Planning.plan, and_comm]
  | ok _ =>
    simp only [Planning.plan]
    split
    · next hover =>
      simp only [Bool.and_eq_true, Option.isNone_iff_eq_none] at hover
      simp [hover, eq_comm, and_comm]
    · next hfits =>
      simp only [Bool.and_eq_true, Option.isNone_iff_eq_none, not_and] at hfits
      simp only [Prod.mk.injEq, reduceCtorEq, false_and, false_or, true_and, false_iff, not_and]
      exact fun _ _ hw => hfits hw

theorem Plan.build_ok {τ : Type} {w : Workshop τ} {p : Program} {compiled : Compiled}
    {entry : ProcRef} {r r' : Registry τ} {plan : Plan}
    (h : Plan.build w p compiled entry r = (.ok plan, r')) :
    ∃ body os, compiled.steps? entry = some body ∧ Inlining compiled [] entry body os ∧
      plan.timelines = os.map (Occurrence.planned p) ∧ ∀ o ∈ os, o.overlap? p = none := by
  obtain ⟨hok, -⟩ := Planning.plan_eq_ok_iff.1 h
  obtain ⟨body, hb, os, hi, hos, ho⟩ := Planning.expand_ok hok
  exact ⟨body, os, hb, hi, by simpa using hos, ho⟩

/-- A plan is the inlining of its entry: one timeline for each occurrence, in order, with the
commands of the occurrence and no others. -/
theorem Plan.build_inlines {τ : Type} {w : Workshop τ} {p : Program} {compiled : Compiled}
    {entry : ProcRef} {r r' : Registry τ} {plan : Plan}
    (h : Plan.build w p compiled entry r = (.ok plan, r')) :
    ∃ body os, compiled.steps? entry = some body ∧ Inlining compiled [] entry body os ∧
      (∀ os', Inlining compiled [] entry body os' → os' = os) ∧
      List.Forall₂ Occurrence.Carried os plan.timelines := by
  obtain ⟨body, os, hb, hi, hos, -⟩ := Plan.build_ok h
  refine ⟨body, os, hb, hi, fun os' h' => h'.unique hi, ?_⟩
  rw [hos, List.forall₂_map_right_iff, List.forall₂_same]
  exact fun o _ => Occurrence.carried_planned

/-- Two devices at once in the second file. The first file has one device to put in, for one of the
two or for both. -/
def oneForTwo : Program where
  sheets := [
    { file := 0
      path := "a"
      devices := [⟨⟨0, 0⟩, "Print", .system, [], none⟩]
      procedures := [
        ⟨"Clash", .body [.call "Merged"]⟩,
        ⟨"Main", .body [.call "Solo", .command ⟨0, 0⟩ []]⟩,
        ⟨"Merged", .alias ⟨1, "Both"⟩ [(⟨1, 0⟩, ⟨0, 0⟩), (⟨1, 1⟩, ⟨0, 0⟩)]⟩,
        ⟨"Solo", .alias ⟨1, "Both"⟩ [(⟨1, 0⟩, ⟨0, 0⟩)]⟩] },
    { file := 1
      path := "b"
      devices := [⟨⟨1, 0⟩, "Print", .system, [], none⟩, ⟨⟨1, 1⟩, "Wait", .system, [], none⟩]
      procedures := [
        ⟨"Both", .body [.timed [
          ⟨⟨1, 1⟩, [], some ⟨none, .after 5⟩⟩, ⟨⟨1, 0⟩, [], some ⟨some 0, .at 3⟩⟩]]⟩] }]

theorem oneForTwo_main : ∃ (c : Compiled) (plan : Plan) (r' : Registry Unit), oneForTwo.compile = .ok c ∧
    Plan.build ⟨fun _ => (), "", false⟩ oneForTwo c ⟨0, "Main"⟩ {} = (.ok plan, r') ∧
    plan.timelines.map (fun t => (t.procedure, t.timeline.commands.map Command.span)) =
      [(⟨1, "Both"⟩, [⟨⟨0, 0⟩, 0, 3⟩, ⟨⟨1, 1⟩, 0, 5⟩]), (⟨0, "Main"⟩, [⟨⟨0, 0⟩, 0, 0⟩])] := by
  have hrun : (do
      let c ← oneForTwo.compile.mapError fun _ => ()
      let plan ← (Plan.build ⟨fun _ => (), "", false⟩ oneForTwo c ⟨0, "Main"⟩ {}).1.mapError fun _ => ()
      return plan.timelines.map fun t => (t.procedure, t.timeline.commands.map Command.span)) =
      Except.ok
        [(⟨1, "Both"⟩, [⟨⟨0, 0⟩, 0, 3⟩, ⟨⟨1, 1⟩, 0, 5⟩]), (⟨0, "Main"⟩, [⟨⟨0, 0⟩, 0, 0⟩])] := by
    cbv
  obtain ⟨c, hc, hrun⟩ := Result.bind_eq_ok_iff.1 hrun
  obtain ⟨plan, hplan, hrun⟩ := Result.bind_eq_ok_iff.1 hrun
  rw [Result.mapError_eq_ok_iff] at hc hplan
  exact ⟨c, plan, _, hc, Prod.ext hplan rfl, Except.ok.inj hrun⟩

theorem Plan.build_inlines_oneForTwo : ∃ (c : Compiled) (plan : Plan) (r' : Registry Unit)
    (body : List Step) (os : List Occurrence),
    Plan.build ⟨fun _ => (), "", false⟩ oneForTwo c ⟨0, "Main"⟩ {} = (.ok plan, r') ∧
    plan.timelines.map (·.procedure) = [⟨1, "Both"⟩, ⟨0, "Main"⟩] ∧
    c.steps? ⟨0, "Main"⟩ = some body ∧ Inlining c [] ⟨0, "Main"⟩ body os ∧
    List.Forall₂ Occurrence.Carried os plan.timelines := by
  obtain ⟨c, plan, r', -, hb, hspans⟩ := oneForTwo_main
  obtain ⟨body, os, hbody, hi, -, hcarried⟩ := Plan.build_inlines hb
  refine ⟨c, plan, r', body, os, hb, ?_, hbody, hi, hcarried⟩
  have hfst := congrArg (List.map Prod.fst) hspans
  rw [List.map_map] at hfst
  exact hfst

end CueSheet
