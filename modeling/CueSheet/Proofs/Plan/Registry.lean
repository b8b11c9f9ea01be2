import CueSheet.Proofs.Plan.Inlining

/-!
What planning does to the registry. It only ever resolves devices, so whatever that keeps holds of the
registry of every plan. In particular each device has one instance, and nothing was done with it yet.
-/

namespace CueSheet

namespace Planning

section Keeps

variable {τ : Type} {w : Workshop τ} {p : Program} {P : Registry τ → Prop}

def Keeps (w : Workshop τ) (p : Program) (P : Registry τ → Prop) : Prop :=
  ∀ c id r y, Registry.resolve w p c id r = .ok y → P r → P y.2

theorem keeps_resolveAll (h : Keeps w p P) (c : Chain) (cs : List Command) {r : Registry τ}
    (hr : P r) : P (resolveAll w p c cs r).2 := by
  induction cs generalizing r with
  | nil => exact hr
  | cons x xs ih =>
    rw [resolveAll]
    split
    · exact hr
    · next final r₁ hres =>
      have hr₁ : P r₁ := h c x.device r _ hres hr
      have hrest := ih hr₁
      split <;> next heq =>
        rw [heq] at hrest
        exact hrest

theorem push_registry (here : ProcRef) (depth : Nat) (cs : List Command) (duration : Nat)
    (st : Planning τ) : (push p here depth cs duration st).2.registry = st.registry := by
  simp only [push]
  split <;> rfl

theorem keeps_timeline (h : Keeps w p P) (here : ProcRef) (c : Chain) (t : Timeline)
    {st : Planning τ} (hst : P st.registry) : P (timeline w p here c t st).2.registry := by
  have hall := keeps_resolveAll h c t.commands hst
  simp only [timeline]
  split <;> next heq =>
    rw [heq] at hall
    first
    | exact hall
    | rw [push_registry]
      exact hall

theorem keeps_steps (h : Keeps w p P) (here : ProcRef) (c : Chain)
    {visit : Chain → ProcRef → Planning τ → Outcome τ}
    (hvisit : ∀ c here st, P st.registry → P (visit c here st).2.registry) (body : List Step)
    {st : Planning τ} (hst : P st.registry) : P (steps w p here c visit body st).2.registry := by
  induction body generalizing st with
  | nil => exact hst
  | cons s rest ih =>
    cases s with
    | timeline t =>
      have hone := keeps_timeline h here c t hst
      simp only [steps]
      split
      · exact hone
      · exact ih hone
    | call call =>
      have hone := hvisit (c.push call.bind) call.target st hst
      simp only [steps]
      split
      · exact hone
      · exact ih hone

theorem keeps_expand (h : Keeps w p P) (compiled : Compiled) (n : Nat) (stack : List ProcRef)
    (c : Chain) (here : ProcRef) (st : Planning τ) (hst : P st.registry) :
    P (expand w p compiled n stack c here st).2.registry := by
  induction n using Nat.strongRecOn generalizing stack c here st with
  | ind n ih =>
    rcases expand_cases (Prod.eta (expand w p compiled n stack c here st)).symm with
      ⟨-, hsame, -⟩ | ⟨-, -, hsame, -⟩ | ⟨body, m, -, -, rfl, hsteps⟩
    · rwa [hsame]
    · rwa [hsame]
    · have hbody := keeps_steps h here c (ih m (Nat.lt_succ_self m) (stack ++ [here])) body hst
      rwa [hsteps] at hbody

end Keeps

end Planning

theorem Plan.keeps_build {τ : Type} {w : Workshop τ} {p : Program} {P : Registry τ → Prop}
    (h : Planning.Keeps w p P) (compiled : Compiled) (entry : ProcRef) {r : Registry τ} (hr : P r) :
    P (Plan.build w p compiled entry r).2 := by
  rw [Plan.build, Planning.plan_snd]
  exact Planning.keeps_expand h compiled _ [] {} entry { registry := r } hr

namespace Registry

variable {τ : Type}

theorem place_perm (e : Registered τ) (es : List (Registered τ)) : (place e es).Perm (e :: es) := by
  induction es with
  | nil => exact .refl _
  | cons f r ih =>
    rw [place]
    split
    · exact .refl _
    · exact (ih.cons f).trans (.swap e f r)

theorem resolve_cases {w : Workshop τ} {p : Program} {c : Chain} {id : DeviceId} {r : Registry τ}
    {y : DeviceId × Registry τ} (h : r.resolve w p c id = .ok y) :
    (r.entry? (c.resolve id)).isSome = true ∧ y = (c.resolve id, r) ∨
      ∃ d i, r.entry? (c.resolve id) = none ∧
      p.device? (c.resolve id) = some d ∧ Instance.create w d = .ok i ∧
      y = (c.resolve id, ⟨place ⟨c.resolve id, d.name, i⟩ r.entries, r.created ++ [c.resolve id]⟩) := by
  simp only [resolve, bind, Except.bind, pure, Except.pure] at h
  split at h
  · next hsome =>
    cases h
    exact .inl ⟨hsome, rfl⟩
  · next hnone =>
    split at h
    · cases h
    · next d hd =>
      split at h
      · cases h
      · next i hi =>
        cases h
        exact .inr ⟨d, i, by simpa using hnone, hd, hi, rfl⟩

/-- Each device has one instance, and nothing was done with it yet: every port is as it was made. -/
structure Fresh (make : SerialConfig → τ) (r : Registry τ) : Prop where
  distinct : (r.entries.map (·.id)).Nodup
  untouched : ∀ e ∈ r.entries, ∀ t, e.unit = .transport t → t.isOpen = false ∧ t.port = make t.config

theorem fresh_empty (make : SerialConfig → τ) : Fresh make {} := ⟨.nil, by simp⟩

theorem untouched_create {w : Workshop τ} {d : Device} {i : Instance τ} (h : Instance.create w d = .ok i)
    {t : Transport τ} (ht : i = .transport t) : t.isOpen = false ∧ t.port = w.port t.config := by
  subst ht
  simp only [Instance.create] at h
  split at h
  · split at h
    · cases h
    · split at h <;> cases h
  · obtain ⟨config, -, he⟩ := Result.map_eq_ok_iff.1 h
    cases he
    exact ⟨rfl, rfl⟩
  · cases h

theorem fresh_resolve (w : Workshop τ) (p : Program) : Planning.Keeps w p (Fresh w.port) := by
  intro c id r y h hr
  rcases resolve_cases h with ⟨-, rfl⟩ | ⟨d, i, hnone, -, hi, rfl⟩
  · exact hr
  · have hperm := place_perm ⟨c.resolve id, d.name, i⟩ r.entries
    constructor
    · refine ((hperm.map (·.id)).nodup_iff).2 (List.nodup_cons.2 ⟨fun hm => ?_, hr.distinct⟩)
      obtain ⟨e, he, hid⟩ := List.mem_map.1 hm
      have hfree := List.find?_eq_none.1 hnone e he
      simp [hid] at hfree
    · intro e he t ht
      rcases List.mem_cons.1 (hperm.mem_iff.1 he) with rfl | he
      · exact untouched_create hi ht
      · exact hr.untouched e he t ht

theorem fresh_build (w : Workshop τ) (p : Program) (compiled : Compiled) (entry : ProcRef)
    {r : Registry τ} (hr : r.Fresh w.port) : (Plan.build w p compiled entry r).2.Fresh w.port :=
  Plan.keeps_build (fresh_resolve w p) compiled entry hr

end Registry

end CueSheet
