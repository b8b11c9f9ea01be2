import CueSheet.Proofs.Plan.Inlining
import CueSheet.Proofs.Schedule.Compiled
import Mathlib.Data.List.Perm.Subperm

/-!
Where a refused plan was refused. Each step of the walk is a call from one body to the next;
`Reaches` lists the calls in force on the way. A refusal names a procedure that the walk reaches
and has its cause right there. The allowance of the walk is no cause: the procedures on a way are
different and compiled.
-/

namespace CueSheet

/-- The walk from `entry` comes to a procedure, with the procedures on its way and their binds. -/
inductive Reaches (c : Compiled) (entry : ProcRef) : List ProcRef → List Bind → ProcRef → Prop
  | entry : Reaches c entry [] [] entry
  | call {stack : List ProcRef} {bs : List Bind} {here : ProcRef} {body : List Step} {k : Call} :
      Reaches c entry stack bs here → here ∉ stack → c.steps? here = some body →
      .call k ∈ body → Reaches c entry (stack ++ [here]) (k.bind :: bs) k.target

section Reaches

variable {c : Compiled} {entry here : ProcRef} {stack : List ProcRef} {bs : List Bind}

theorem Reaches.nodup (h : Reaches c entry stack bs here) : stack.Nodup := by
  induction h with
  | entry => exact List.nodup_nil
  | call _ hn _ _ ih => exact List.nodup_append.2 ⟨ih, by simp, by
      rintro a ha b hb rfl
      exact hn (List.mem_singleton.1 hb ▸ ha)⟩

theorem Reaches.stack_subset (h : Reaches c entry stack bs here) :
    stack ⊆ c.procedures.map (·.1) := by
  induction h with
  | entry => exact List.nil_subset _
  | call _ _ hb _ ih =>
    apply List.append_subset.2
    exact ⟨ih, by simpa using Compiled.steps?_isSome_iff.1 (Option.isSome_of_eq_some hb)⟩

theorem Reaches.length_lt {body : List Step} (h : Reaches c entry stack bs here)
    (hn : here ∉ stack) (hb : c.steps? here = some body) :
    stack.length < c.procedures.length := by
  have hs : (here :: stack).Nodup := List.nodup_cons.2 ⟨hn, h.nodup⟩
  have hk : here ∈ c.procedures.map (·.1) :=
    Compiled.steps?_isSome_iff.1 (Option.isSome_of_eq_some hb)
  have hle := (List.subperm_of_subset hs (List.cons_subset.2 ⟨hk, h.stack_subset⟩)).length_le
  rw [List.length_cons, List.length_map] at hle
  omega

theorem Reaches.steps?_eq_none (h : Reaches c entry stack bs here) (hn : here ∉ stack)
    (hlength : c.procedures.length ≤ stack.length) : c.steps? here = none := by
  by_contra hne
  obtain ⟨body, hbody⟩ := Option.ne_none_iff_exists'.1 hne
  have hlt := h.length_lt hn hbody
  omega

end Reaches

inductive Refusal {τ : Type} (w : Workshop τ) (p : Program) (c : Compiled) (stack : List ProcRef)
    (bs : List Bind) (here : ProcRef) : PlanError → Prop
  | recursion : here ∈ stack → Refusal w p c stack bs here
      (.recursion ((stack.dropWhile (· ≠ here)).map (·.name) ++ [here.name]))
  | unknown : c.steps? here = none → Refusal w p c stack bs here (.unknown here)
  | device {body : List Step} {t : Timeline} {x : Command} {r : Registry τ} {e : DeviceError} :
      c.steps? here = some body → .timeline t ∈ body → x ∈ t.commands →
      r.resolve w p ⟨bs⟩ x.device = .error e → Refusal w p c stack bs here (.device e)
  | overlap {body : List Step} {t : Timeline} {o : Overlap} :
      c.steps? here = some body → .timeline t ∈ body →
      Occurrence.overlap? p ⟨here, bs, t⟩ = some o →
      Refusal w p c stack bs here (.overlap here (p.deviceName o.span.device) o)

namespace Planning

variable {τ : Type} {w : Workshop τ} {p : Program} {compiled : Compiled} {entry : ProcRef}
  {stack : List ProcRef}

theorem resolveAll_refused {c : Chain} {cs : List Command} {r r' : Registry τ} {e : DeviceError}
    (h : resolveAll w p c cs r = (.error e, r')) : ∃ before x after ds, cs = before ++ x :: after ∧
      resolveAll w p c before r = (.ok ds, r') ∧ r'.resolve w p c x.device = .error e := by
  induction cs generalizing r with
  | nil => simp [resolveAll] at h
  | cons x xs ih =>
    cases hx : r.resolve w p c x.device with
    | error e' =>
      rw [resolveAll, hx] at h
      cases h
      exact ⟨[], x, xs, [], rfl, rfl, hx⟩
    | ok y =>
      obtain ⟨final, r₁⟩ := y
      rw [resolveAll, hx] at h
      rcases hxs : resolveAll w p c xs r₁ with ⟨e' | ys, r₂⟩ <;> simp only [hxs] at h
      · cases h
        obtain ⟨before, z, after, ds, rfl, hds, hz⟩ := ih hxs
        refine ⟨x :: before, z, after, { x with device := final } :: ds, rfl, ?_, hz⟩
        simp only [resolveAll, hx, hds]
      · cases h

variable {st st' : Planning τ} {e : PlanError}

theorem timeline_error {here : ProcRef} {c : Chain} {t : Timeline} {body : List Step}
    (hb : compiled.steps? here = some body) (ht : .timeline t ∈ body)
    (h : timeline w p here c t st = (.error e, st')) :
    Refusal w p compiled stack c.frames here e := by
  rcases hr : resolveAll w p c t.commands st.registry with ⟨e' | cs, r⟩
  · obtain ⟨_, x, _, _, hsplit, -, hx'⟩ := resolveAll_refused hr
    have hx : x ∈ t.commands := by simp [hsplit]
    have he : PlanError.device e' = e := by
      simp only [timeline, hr, Prod.mk.injEq, Except.error.injEq] at h
      exact h.1
    exact he ▸ .device hb ht hx hx'
  · rw [timeline_of_resolveAll hr] at h
    split at h
    · next o ho =>
      cases h
      exact .overlap hb ht ho
    · simp at h

def Refused (w : Workshop τ) (p : Program) (compiled : Compiled) (entry : ProcRef) (e : PlanError) :
    Prop :=
  ∃ stack bs here, Reaches compiled entry stack bs here ∧ Refusal w p compiled stack bs here e

theorem steps_error {here : ProcRef} {c : Chain} {visit : Chain → ProcRef → Planning τ → Outcome τ}
    {body rest : List Step} (hb : compiled.steps? here = some body) (hrest : rest ⊆ body)
    (hr : Reaches compiled entry stack c.frames here)
    (hv : ∀ (k : Call) (st st' : Planning τ), .call k ∈ body →
      visit (c.push k.bind) k.target st = (.error e, st') → Refused w p compiled entry e)
    (h : steps w p here c visit rest st = (.error e, st')) : Refused w p compiled entry e := by
  induction rest generalizing st with
  | nil => simp [steps] at h
  | cons s rest ih =>
    obtain ⟨hs, hsub⟩ := List.cons_subset.1 hrest
    cases s with
    | timeline t =>
      simp only [steps] at h
      split at h
      · next e' he =>
        cases h
        exact ⟨stack, c.frames, here, hr, timeline_error hb hs (Prod.ext he rfl)⟩
      · exact ih hsub h
    | call k =>
      simp only [steps] at h
      split at h
      · next e' he =>
        cases h
        exact hv k _ _ hs (Prod.ext he rfl)
      · exact ih hsub h

theorem expand_error {n : Nat} {c : Chain} {here : ProcRef}
    (hr : Reaches compiled entry stack c.frames here)
    (hn : compiled.procedures.length ≤ n + stack.length)
    (h : expand w p compiled n stack c here st = (.error e, st')) :
    Refused w p compiled entry e := by
  induction n using Nat.strongRecOn generalizing stack c here st st' with
  | ind n ih =>
    rcases expand_cases h with ⟨hs, -, he⟩ | ⟨hs, hb, -, he⟩ | ⟨body, m, hs, hb, rfl, hsteps⟩
    · cases he
      exact ⟨stack, c.frames, here, hr, .recursion hs⟩
    · cases he
      refine ⟨stack, c.frames, here, hr, .unknown ?_⟩
      rcases hb with hb | rfl
      · exact hb
      · exact hr.steps?_eq_none hs (by omega)
    · refine steps_error hb (List.Subset.refl _) hr (fun k st st' hk => ?_) hsteps
      apply ih m (Nat.lt_succ_self m) (hr.call hs hb hk)
      rw [List.length_append, List.length_singleton]
      omega

end Planning

/-- Besides a refusal of the walk, only the counter of a recorded total ends a build. -/
theorem Plan.build_error {τ : Type} {w : Workshop τ} {p : Program} {compiled : Compiled}
    {entry : ProcRef} {r r' : Registry τ} {e : PlanError}
    (h : Plan.build w p compiled entry r = (.error e, r')) :
    Planning.Refused w p compiled entry e ∨ e = .panic ∧ w.records = true := by
  obtain ⟨-, herror | ⟨-, rfl, hw, -⟩⟩ := Planning.plan_eq_error_iff.1 h
  · exact .inl (Planning.expand_error (c := {}) .entry (Nat.le_refl _) (Prod.ext herror rfl))
  · exact .inr ⟨rfl, hw⟩

end CueSheet
