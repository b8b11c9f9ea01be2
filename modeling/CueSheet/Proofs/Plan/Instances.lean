import CueSheet.Proofs.Plan.Recursion
import CueSheet.Proofs.Plan.Registry

/-!
Which instances a plan has. The walk asks for the device of every command that it comes to; the first
time a device is asked for its instance is made, and later uses find it. So the instances are those of
the devices that are driven, and they were made in the order of the walk, which is not the order in which
the commands go out.
-/

namespace CueSheet

def Occurrence.uses (os : List Occurrence) : List DeviceId :=
  os.flatMap fun o => o.renamed.map (·.device)

namespace Registry

variable {τ : Type}

structure Supplied (w : Workshop τ) (p : Program) (us : List DeviceId) (r : Registry τ) : Prop where
  created : r.created = us.eraseDups
  entries : (r.entries.map (·.id)).Perm r.created
  made : ∀ e ∈ r.entries, ∃ d, p.device? e.id = some d ∧ e.name = d.name ∧
    Instance.create w d = .ok e.unit

variable {w : Workshop τ} {p : Program} {us : List DeviceId} {id : DeviceId} {r : Registry τ}

theorem entry?_isSome_iff : (r.entry? id).isSome = true ↔ id ∈ r.entries.map (·.id) := by
  simp [Registry.entry?]

theorem supplied_empty : Supplied w p [] ({} : Registry τ) := ⟨rfl, .nil, List.forall_mem_nil _⟩

theorem Supplied.entry?_isSome_iff (h : r.Supplied w p us) :
    (r.entry? id).isSome = true ↔ id ∈ us := by
  rw [Registry.entry?_isSome_iff, h.entries.mem_iff, h.created, List.mem_eraseDups]

theorem eraseDups_concat (us : List DeviceId) (id : DeviceId) :
    (us ++ [id]).eraseDups = if id ∈ us then us.eraseDups else us.eraseDups ++ [id] := by
  rw [List.eraseDups_append]
  by_cases h : id ∈ us <;> simp [h, List.removeAll, List.eraseDups_cons]

theorem Supplied.resolve {c : Chain} {y : DeviceId × Registry τ} (h : r.Supplied w p us)
    (hy : r.resolve w p c id = .ok y) : y.2.Supplied w p (us ++ [c.resolve id]) := by
  rcases resolve_cases hy with ⟨hsome, rfl⟩ | ⟨d, i, hnone, hd, hi, rfl⟩
  · refine ⟨?_, h.entries, h.made⟩
    rw [eraseDups_concat, if_pos (h.entry?_isSome_iff.1 hsome), h.created]
  · have hnew : c.resolve id ∉ us := by
      rw [← h.entry?_isSome_iff, hnone]
      simp
    have hperm := place_perm ⟨c.resolve id, d.name, i⟩ r.entries
    refine ⟨?_, ?_, fun e he => ?_⟩
    · rw [eraseDups_concat, if_neg hnew, h.created]
    · calc (place ⟨c.resolve id, d.name, i⟩ r.entries).map (·.id)
          |>.Perm (c.resolve id :: r.entries.map (·.id)) := hperm.map _
        _ |>.Perm (c.resolve id :: r.created) := h.entries.cons _
        _ |>.Perm (r.created ++ [c.resolve id]) := (List.perm_append_singleton _ _).symm
    · rcases List.mem_cons.1 (hperm.mem_iff.1 he) with rfl | he
      · exact ⟨d, hd, rfl, hi⟩
      · exact h.made e he

end Registry

namespace Planning

variable {τ : Type} {w : Workshop τ} {p : Program} {compiled : Compiled} {us : List DeviceId}
  {st st' : Planning τ}

theorem supplied_resolveAll {c : Chain} {cs ds : List Command} {r r' : Registry τ}
    (h : resolveAll w p c cs r = (.ok ds, r')) (hr : r.Supplied w p us) :
    r'.Supplied w p (us ++ ds.map (·.device)) := by
  induction cs generalizing us r ds with
  | nil =>
    cases h
    simpa using hr
  | cons x xs ih =>
    cases hx : r.resolve w p c x.device with
    | error e =>
      rw [resolveAll, hx] at h
      cases h
    | ok y =>
      obtain ⟨final, r₁⟩ := y
      have hone : r₁.Supplied w p (us ++ [c.resolve x.device]) := hr.resolve hx
      rw [← Registry.resolve_eq_ok hx] at hone
      rw [resolveAll, hx] at h
      rcases hxs : resolveAll w p c xs r₁ with ⟨e | ys, r₂⟩ <;> simp only [hxs] at h
      · cases h
      · cases h
        have hall := ih hxs hone
        rwa [List.append_assoc] at hall

theorem supplied_timeline {here : ProcRef} {c : Chain} {t : Timeline}
    (h : timeline w p here c t st = (.ok (), st')) (hst : st.registry.Supplied w p us) :
    st'.registry.Supplied w p (us ++ Occurrence.uses [⟨here, c.frames, t⟩]) := by
  rcases hr : resolveAll w p c t.commands st.registry with ⟨_ | cs, r⟩
  · simp [timeline, hr] at h
  · have hall := supplied_resolveAll hr hst
    obtain rfl := resolveAll_eq_ok hr
    rw [timeline_of_resolveAll hr] at h
    split at h
    · simp at h
    · cases h
      simpa [Occurrence.uses, Occurrence.renamed] using hall

def Task.Inlines (compiled : Compiled) (bs : List Bind) : Task → List Occurrence → Prop
  | .enter here, os => ∃ body, compiled.steps? here = some body ∧ Inlining compiled bs here body os
  | .perform here rest, os => Inlining compiled bs here rest os

theorem Runs.supplied {stack : List ProcRef} {c : Chain} {task : Task} {out : Outcome τ}
    (h : Runs w p compiled stack c task st out) (hok : out.1 = .ok ())
    (hst : st.registry.Supplied w p us) : ∃ os, task.Inlines compiled c.frames os ∧
      out.2.registry.Supplied w p (us ++ Occurrence.uses os) := by
  induction h generalizing us with
  | recursion _ | unknown _ _ | refused _ | failed _ _ => cases hok
  | body _ hb _ ih =>
    obtain ⟨os, hos, hout⟩ := ih hok hst
    exact ⟨os, ⟨_, hb, hos⟩, hout⟩
  | done => exact ⟨[], .nil, by simpa [Occurrence.uses] using hst⟩
  | timeline ht _ ih =>
    obtain ⟨os, hos, hout⟩ := ih hok (supplied_timeline ht hst)
    refine ⟨_, .timeline _ hos, ?_⟩
    rwa [List.append_assoc, Occurrence.uses, Occurrence.uses, ← List.flatMap_append] at hout
  | call _ _ ihk ih =>
    obtain ⟨is, ⟨body, hb, his⟩, hcall⟩ := ihk rfl hst
    obtain ⟨os, hos, hout⟩ := ih hok hcall
    refine ⟨_, .call _ hb his hos, ?_⟩
    rwa [List.append_assoc, Occurrence.uses, Occurrence.uses, ← List.flatMap_append] at hout

def Denied (w : Workshop τ) (p : Program) (compiled : Compiled) (entry : ProcRef) (r : Registry τ)
    (e : DeviceError) : Prop :=
  ∃ stack bs here body t x, Reaches compiled entry stack bs here ∧
    compiled.steps? here = some body ∧ .timeline t ∈ body ∧ x ∈ t.commands ∧
    r.resolve w p ⟨bs⟩ x.device = .error e

def Task.Reached (compiled : Compiled) (entry : ProcRef) (stack : List ProcRef) (bs : List Bind) :
    Task → Prop
  | .enter here => Reaches compiled entry stack bs here
  | .perform here rest => ∃ before body, stack = before ++ [here] ∧ here ∉ before ∧
    Reaches compiled entry before bs here ∧ compiled.steps? here = some body ∧ rest ⊆ body

theorem Runs.denied {entry : ProcRef} {stack : List ProcRef} {c : Chain} {task : Task}
    {out : Outcome τ} {e : DeviceError} (h : Runs w p compiled stack c task st out)
    (hr : task.Reached compiled entry stack c.frames) (he : out.1 = .error (.device e)) :
    Denied w p compiled entry out.2.registry e := by
  induction h with
  | recursion _ | unknown _ _ | done => cases he
  | body hn hb _ ih => exact ih ⟨_, _, rfl, hn, hr, hb, List.Subset.refl _⟩ he
  | timeline _ _ ih | call _ _ _ ih =>
    obtain ⟨before, body, hstack, hn, hreaches, hb, hrest⟩ := hr
    exact ih ⟨before, body, hstack, hn, hreaches, hb, (List.cons_subset.1 hrest).2⟩ he
  | failed _ ih =>
    obtain ⟨before, body, rfl, hn, hreaches, hb, hrest⟩ := hr
    exact ih (hreaches.call hn hb (List.cons_subset.1 hrest).1) he
  | @refused _ c here st _ t _ _ ht =>
    cases he
    obtain ⟨before, body, -, -, hreaches, hb, hrest⟩ := hr
    rcases hall : resolveAll w p c t.commands st.registry with ⟨_ | cs, r⟩
    · obtain ⟨_, x, _, _, hsplit, -, hx⟩ := resolveAll_refused hall
      simp only [Planning.timeline, hall] at ht
      cases ht
      exact ⟨before, c.frames, here, body, t, x, hreaches, hb, (List.cons_subset.1 hrest).1,
        by simp [hsplit], hx⟩
    · rw [timeline_of_resolveAll hall] at ht
      split at ht <;> cases ht

end Planning

variable {τ : Type} {w : Workshop τ} {p : Program} {compiled : Compiled} {entry : ProcRef}

theorem Occurrence.mem_uses_iff {os : List Occurrence} {id : DeviceId} :
    id ∈ uses os ↔ ∃ x ∈ os.flatMap (fun o => (o.planned p).timeline.commands), x.device = id := by
  have hperm (o : Occurrence) : (o.planned p).timeline.commands.Perm o.renamed :=
    carried_planned.commands
  simp only [uses, List.mem_flatMap, List.mem_map]
  constructor
  · rintro ⟨o, ho, x, hx, hid⟩
    exact ⟨x, ⟨o, ho, (hperm o).mem_iff.2 hx⟩, hid⟩
  · rintro ⟨x, ⟨o, ho, hx⟩, hid⟩
    exact ⟨o, ho, x, (hperm o).mem_iff.1 hx, hid⟩

theorem Plan.runs_of_build {r : Registry τ} {built : Except PlanError Plan × Registry τ}
    (h : Plan.build w p compiled entry r = built) : ∃ out : Planning.Outcome τ,
      Planning.Runs w p compiled [] {} (.enter entry) { registry := r } out ∧
      Planning.plan w out = built :=
  ⟨_, Planning.runs_expand .entry (Nat.le_refl _), h⟩

theorem Plan.supplied_of_build {plan : Plan} {r : Registry τ}
    (h : Plan.build w p compiled entry {} = (.ok plan, r)) :
    ∃ body os, compiled.steps? entry = some body ∧ Inlining compiled [] entry body os ∧
      plan.timelines = os.map (Occurrence.planned p) ∧
      r.Supplied w p (Occurrence.uses os) := by
  obtain ⟨body, os, hb, hos, htimelines, -⟩ := Plan.build_ok h
  obtain ⟨out, hruns, hout⟩ := Plan.runs_of_build h
  obtain ⟨rfl, -⟩ := Planning.plan_eq_ok_iff.1 hout
  obtain ⟨os', ⟨body', hb', hos'⟩, hr⟩ := hruns.supplied rfl Registry.supplied_empty
  obtain rfl := Option.some.inj (hb.symm.trans hb')
  obtain rfl := hos.unique hos'
  exact ⟨body, os, hb, hos, htimelines, hr⟩

/-- A plan that began with no instance has one for each device of its commands and for no other. Each
was made once, of the device declared under its number, and in the order in which the walk first came to
them. A device that cannot have an instance leaves the registry as it was, and so does a build that ends
with it. -/
theorem Plan.build_instances (w : Workshop τ) (p : Program) (compiled : Compiled) (entry : ProcRef) :
    (∀ plan r, Plan.build w p compiled entry {} = (.ok plan, r) →
      ∃ body os, compiled.steps? entry = some body ∧ Inlining compiled [] entry body os ∧
        r.created = (Occurrence.uses os).eraseDups ∧ r.created.Nodup ∧
        (r.entries.map (·.id)).Perm r.created ∧
        (∀ id, (r.entry? id).isSome = true ↔ ∃ x ∈ plan.commands, x.device = id) ∧
        ∀ e ∈ r.entries, ∃ d, p.device? e.id = some d ∧ e.name = d.name ∧
          Instance.create w d = .ok e.unit) ∧
    (∀ c cs e r r', Planning.resolveAll w p c cs r = (.error e, r') →
      ∃ before x after ds, cs = before ++ x :: after ∧
        Planning.resolveAll w p c before r = (.ok ds, r') ∧ r'.resolve w p c x.device = .error e) ∧
    ∀ e r r', Plan.build w p compiled entry r = (.error (.device e), r') →
      Planning.Denied w p compiled entry r' e := by
  refine ⟨fun plan r h => ?_, fun c cs e r r' h => Planning.resolveAll_refused h, fun e r r' h => ?_⟩
  · obtain ⟨body, os, hb, hos, htimelines, hr⟩ := Plan.supplied_of_build h
    have hfresh : r.Fresh w.port := by
      have hbuilt := Registry.fresh_build w p compiled entry (Registry.fresh_empty w.port)
      rwa [h] at hbuilt
    refine ⟨body, os, hb, hos, hr.created, hr.entries.nodup_iff.1 hfresh.distinct, hr.entries,
      fun id => ?_, hr.made⟩
    have hcommands : plan.commands = os.flatMap fun o => (o.planned p).timeline.commands := by
      rw [Plan.commands, htimelines, List.flatMap_map]
    rw [hr.entry?_isSome_iff, hcommands, Occurrence.mem_uses_iff]
  · obtain ⟨out, hruns, hout⟩ := Plan.runs_of_build h
    obtain ⟨rfl, herror | ⟨-, he, -⟩⟩ := Planning.plan_eq_error_iff.1 hout
    · exact hruns.denied .entry herror
    · cases he

def swappedDevices : Program where
  sheets := [
    { file := 0
      path := "a"
      devices := [⟨⟨0, 0⟩, "Print", .system, [], none⟩, ⟨⟨0, 1⟩, "Wait", .system, [], none⟩]
      procedures := [
        ⟨"Both", .alias ⟨1, "Both"⟩ [(⟨1, 0⟩, ⟨0, 1⟩), (⟨1, 1⟩, ⟨0, 0⟩)]⟩,
        ⟨"Main", .body [.call "Both", .command ⟨0, 1⟩ []]⟩] },
    { file := 1
      path := "b"
      devices := [⟨⟨1, 0⟩, "Print", .system, [], none⟩, ⟨⟨1, 1⟩, "Wait", .system, [], none⟩]
      procedures := [⟨"Both", .body [.timed [⟨⟨1, 1⟩, [], none⟩, ⟨⟨1, 0⟩, [], none⟩]]⟩] }]

theorem Plan.build_instances_swappedDevices : ∃ (c : Compiled) (plan : Plan) (r : Registry Unit)
    (body : List Step) (os : List Occurrence), swappedDevices.compile = .ok c ∧
    Plan.build ⟨fun _ => (), "", false⟩ swappedDevices c ⟨0, "Main"⟩ {} = (.ok plan, r) ∧
    plan.commands.map (·.device) = [⟨0, 0⟩, ⟨0, 1⟩, ⟨0, 1⟩] ∧ r.created = [⟨0, 1⟩, ⟨0, 0⟩] ∧
    Inlining c [] ⟨0, "Main"⟩ body os ∧ r.created = (Occurrence.uses os).eraseDups ∧
    (r.entry? ⟨1, 0⟩).isSome = false ∧ r.created.Nodup := by
  have hrun : (do
      let c ← swappedDevices.compile.mapError fun _ => ()
      let (result, r) := Plan.build (τ := Unit) ⟨fun _ => (), "", false⟩ swappedDevices c ⟨0, "Main"⟩ {}
      let plan ← result.mapError fun _ => ()
      return (plan.commands.map (·.device), r.created)) =
      Except.ok ([⟨0, 0⟩, ⟨0, 1⟩, ⟨0, 1⟩], [⟨0, 1⟩, ⟨0, 0⟩]) := by
    cbv
  obtain ⟨c, hc, hrun⟩ := Result.bind_eq_ok_iff.1 hrun
  obtain ⟨plan, hplan, hrun⟩ := Result.bind_eq_ok_iff.1 hrun
  rw [Result.mapError_eq_ok_iff] at hc hplan
  obtain ⟨hdevices, hcreated⟩ := Prod.mk.inj (Except.ok.inj hrun)
  have hbuild : Plan.build (τ := Unit) ⟨fun _ => (), "", false⟩ swappedDevices c ⟨0, "Main"⟩ {} =
      (.ok plan, (Plan.build (τ := Unit) ⟨fun _ => (), "", false⟩ swappedDevices c ⟨0, "Main"⟩ {}).2) :=
    Prod.ext hplan rfl
  obtain ⟨body, os, -, hos, huses, hdistinct, -, hentry, -⟩ :=
    (Plan.build_instances ⟨fun _ => (), "", false⟩ swappedDevices c ⟨0, "Main"⟩).1 plan _ hbuild
  refine ⟨c, plan, _, body, os, hc, hbuild, hdevices, hcreated, hos, huses, ?_, hdistinct⟩
  rw [Bool.eq_false_iff, ne_eq, hentry]
  rintro ⟨x, hx, hid⟩
  have hmem : (⟨1, 0⟩ : DeviceId) ∈ plan.commands.map (·.device) := List.mem_map.2 ⟨x, hx, hid⟩
  rw [hdevices] at hmem
  simp at hmem

end CueSheet
