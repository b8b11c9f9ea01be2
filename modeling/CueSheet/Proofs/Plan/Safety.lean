import CueSheet.Proofs.Plan.Inlining
import CueSheet.Proofs.Schedule.Compiled

/-!
Every timeline of a plan is safe. The compiler makes timelines safe for the devices of the source;
substitution keeps their spans and the duration, sorting restores the order, and the search for
overlaps speaks for the new devices. Where no call is in force nothing was renamed, and the order
stands already.
-/

namespace CueSheet

theorem Inlining.source_mem {c : Compiled} {bs : List Bind} {here : ProcRef}
    {body whole : List Step} {os : List Occurrence} (h : Inlining c bs here body os)
    (hw : c.steps? here = some whole) (hs : body ⊆ whole) :
    ∀ o ∈ os, ∃ body, c.steps? o.here = some body ∧ .timeline o.source ∈ body := by
  induction h generalizing whole with
  | nil => simp
  | timeline t _ ih =>
    obtain ⟨ht, hs⟩ := List.cons_subset.1 hs
    exact List.forall_mem_cons.2 ⟨⟨whole, hw, ht⟩, ih hw hs⟩
  | call k hk _ _ ihi ih =>
    have hs := (List.cons_subset.1 hs).2
    exact List.forall_mem_append.2 ⟨ihi hk (List.Subset.refl _), ih hw hs⟩

namespace Occurrence

variable {p : Program} {o : Occurrence}

theorem mem_renamed {x : Command} :
    x ∈ o.renamed ↔ ∃ c ∈ o.source.commands, c.rename (Bind.through o.binds) = x :=
  List.mem_map

theorem renamed_of_binds_nil (h : o.binds = []) : o.renamed = o.source.commands := by
  have hid : Command.rename (Bind.through []) = id := rfl
  rw [renamed, h, hid, List.map_id]

/-- With the order of the source kept, it makes no difference whether the walk sorts or not. -/
theorem planned_commands (h : o.source.Safe p.deviceName) :
    (o.planned p).timeline.commands = Timeline.sort p.deviceName o.renamed := by
  simp only [planned]
  split
  · rfl
  · next hl =>
    have hn : o.binds = [] := by simpa using hl
    have ho : o.renamed.Pairwise (Command.Precedes p.deviceName) :=
      renamed_of_binds_nil hn ▸ h.ordered
    exact (Timeline.sort_of_pairwise ho).symm

theorem safe_planned (h : o.source.Safe p.deviceName) (ho : o.overlap? p = none) :
    (o.planned p).timeline.Safe p.deviceName := by
  have hc := planned_commands h
  have hmem : ∀ x, x ∈ (o.planned p).timeline.commands ↔
      ∃ c ∈ o.source.commands, c.rename (Bind.through o.binds) = x := by
    intro x
    rw [hc, (Timeline.sort_perm _).mem_iff, mem_renamed]
  have hforward : ∀ x ∈ (o.planned p).timeline.commands, x.start ≤ x.stop := by
    intro x hx
    obtain ⟨c, hcs, rfl⟩ := (hmem x).1 hx
    exact h.forward c hcs
  have hapart := (overlap?_commands_eq_none_iff hforward).1 ho
  refine ⟨hforward, hc ▸ Timeline.pairwise_sort _, hapart, ?_⟩
  rcases h.latest with ⟨hnil, hd⟩ | ⟨⟨c, hcs, hstop⟩, hle⟩
  · left
    refine ⟨List.eq_nil_iff_forall_not_mem.2 fun x hx => ?_, hd⟩
    obtain ⟨c, hcs, -⟩ := (hmem x).1 hx
    simp [hnil] at hcs
  · right
    refine ⟨⟨_, (hmem _).2 ⟨c, hcs, rfl⟩, hstop⟩, fun x hx => ?_⟩
    obtain ⟨d, hds, rfl⟩ := (hmem x).1 hx
    exact hle d hds

end Occurrence

variable {τ : Type} {w : Workshop τ} {p : Program} {c : Compiled} {entry : ProcRef}
  {r r' : Registry τ} {plan : Plan}

/-- A plan of a compiled program can go out as it stands, whatever was renamed or merged on the
way. -/
theorem Plan.build_safe (hc : p.compile = .ok c) (hb : Plan.build w p c entry r = (.ok plan, r')) :
    ∀ t ∈ plan.timelines, t.timeline.Safe p.deviceName := by
  obtain ⟨body, os, hbody, hi, hos, ho⟩ := Plan.build_ok hb
  rw [hos, List.forall_mem_map]
  intro o hmem
  obtain ⟨_, hb', ht⟩ := hi.source_mem hbody (List.Subset.refl _) o hmem
  exact Occurrence.safe_planned (Program.safe_of_steps? hc hb' ht) (ho o hmem)

/-- Of the three devices of the second file two become one, under a name that comes before the name that
the third one gets. -/
def mergedDevices : Program where
  sheets := [
    { file := 0
      path := "a"
      devices := [⟨⟨0, 0⟩, "Print", .system, [], none⟩, ⟨⟨0, 1⟩, "Wait", .system, [], none⟩]
      procedures := [
        ⟨"Main", .body [.call "Play", .command ⟨0, 1⟩ []]⟩,
        ⟨"Play", .alias ⟨1, "Play"⟩ [(⟨1, 0⟩, ⟨0, 1⟩), (⟨1, 1⟩, ⟨0, 0⟩), (⟨1, 2⟩, ⟨0, 0⟩)]⟩] },
    { file := 1
      path := "b"
      devices := [⟨⟨1, 0⟩, "High", .system, [], none⟩, ⟨⟨1, 1⟩, "Low", .system, [], none⟩,
        ⟨⟨1, 2⟩, "Mid", .system, [], none⟩]
      procedures := [
        ⟨"Play", .body [.timed [
          ⟨⟨1, 2⟩, [], some ⟨some 5, .after 2⟩⟩, ⟨⟨1, 0⟩, [], some ⟨some 0, .after 4⟩⟩,
          ⟨⟨1, 1⟩, [], some ⟨some 0, .at 3⟩⟩]]⟩] }]

theorem Plan.build_safe_mergedDevices : ∃ (c : Compiled) (plan : Plan) (r' : Registry Unit),
    mergedDevices.compile = .ok c ∧
    Plan.build ⟨fun _ => (), "", false⟩ mergedDevices c ⟨0, "Main"⟩ {} = (.ok plan, r') ∧
    plan.timelines.map (fun t => (t.procedure, t.timeline.duration,
        t.timeline.commands.map Command.span)) =
      [(⟨1, "Play"⟩, 7, [⟨⟨0, 0⟩, 0, 3⟩, ⟨⟨0, 1⟩, 0, 4⟩, ⟨⟨0, 0⟩, 5, 7⟩]),
        (⟨0, "Main"⟩, 0, [⟨⟨0, 1⟩, 0, 0⟩])] ∧
    ∀ t ∈ plan.timelines, t.timeline.Safe mergedDevices.deviceName := by
  have hrun : (do
      let c ← mergedDevices.compile.mapError fun _ => ()
      let plan ← (Plan.build ⟨fun _ => (), "", false⟩ mergedDevices c ⟨0, "Main"⟩ {}).1.mapError
        fun _ => ()
      return plan.timelines.map fun t => (t.procedure, t.timeline.duration,
        t.timeline.commands.map Command.span)) =
      Except.ok [(⟨1, "Play"⟩, 7, [⟨⟨0, 0⟩, 0, 3⟩, ⟨⟨0, 1⟩, 0, 4⟩, ⟨⟨0, 0⟩, 5, 7⟩]),
        (⟨0, "Main"⟩, 0, [⟨⟨0, 1⟩, 0, 0⟩])] := by
    cbv
  simp only [Result.bind_eq_ok_iff, Result.mapError_eq_ok_iff, pure, Except.pure,
    Except.ok.injEq] at hrun
  obtain ⟨c, hc, plan, hplan, hcommands⟩ := hrun
  have hb : Plan.build ⟨fun _ => (), "", false⟩ mergedDevices c ⟨0, "Main"⟩ {} = (.ok plan, _) :=
    Prod.ext hplan rfl
  exact ⟨c, plan, _, hc, hb, hcommands, Plan.build_safe hc hb⟩

end CueSheet
