import CueSheet.Proofs.Schedule.Timeline
import Mathlib

/-!
Blocks in which every entry says when it starts. There the cursor leaves no trace: an entry has the
command that it has alone. If besides no two entries have one device and one start, sorting leaves
no choice, so that the order of the entries is of no account.
-/

namespace CueSheet

def Entry.start? (e : Entry) : Option Nat := e.time.bind (·.start)

def Entry.key (e : Entry) : DeviceId × Option Nat := (e.device, e.start?)

namespace Program

variable {p : Program} {clamp : Nat → Nat} {cursor : Nat} {es es' : List Entry} {cs : List Command}

def Alone (p : Program) (clamp : Nat → Nat) (e : Entry) (c : Command) : Prop :=
  p.commands clamp 0 [e] = .ok [c]

theorem advance_of_start {time : Option TimeSpec} {start : Nat}
    (h : time.bind (·.start) = some start) (cursor : Nat) :
    Timeline.advance clamp cursor time = Timeline.advance clamp 0 time ∧
      (Timeline.advance clamp 0 time).1 = start := by
  cases time with
  | none => cases h
  | some spec =>
    have hstart : spec.start = some start := h
    simp only [Timeline.advance, hstart, Option.getD_some, and_self]

theorem alone_iff {e : Entry} {c : Command} : p.Alone clamp e c ↔
    ∃ params, e.args.mapM Expr.eval = .ok params ∧
      c = ⟨e.device, params, (Timeline.advance clamp 0 e.time).1,
        (Timeline.advance clamp 0 e.time).2.1⟩ := by
  rw [Alone, commands_cons_eq_ok_iff]
  simp [commands]

theorem commands_eq_ok_iff_alone (h : ∀ e ∈ es, e.start?.isSome) :
    p.commands clamp cursor es = .ok cs ↔ List.Forall₂ (p.Alone clamp) es cs := by
  induction es generalizing cursor cs with
  | nil => cases cs <;> simp [commands]
  | cons e es ih =>
    obtain ⟨he, hes⟩ := List.forall_mem_cons.1 h
    obtain ⟨start, hstart⟩ := Option.isSome_iff_exists.1 he
    rw [commands_cons_eq_ok_iff, List.forall₂_cons_left_iff, (advance_of_start hstart cursor).1]
    simp only [alone_iff, ih hes]
    constructor
    · intro h
      obtain ⟨params, ds, hparams, hds, hcs⟩ := h
      exact ⟨_, ds, ⟨params, hparams, rfl⟩, hds, hcs⟩
    · intro h
      obtain ⟨c, ds, ⟨params, hparams, rfl⟩, hds, hcs⟩ := h
      exact ⟨params, ds, hparams, hds, hcs⟩

theorem map_key (h : ∀ e ∈ es, e.start?.isSome) (hcs : List.Forall₂ (p.Alone clamp) es cs) :
    cs.map (fun c => (c.device, some c.start)) = es.map Entry.key := by
  induction hcs with
  | nil => rfl
  | @cons e c es cs hc _ ih =>
    obtain ⟨he, hes⟩ := List.forall_mem_cons.1 h
    obtain ⟨start, hstart⟩ := Option.isSome_iff_exists.1 he
    obtain ⟨params, -, rfl⟩ := alone_iff.1 hc
    have hkey : e.key = (e.device, some (Timeline.advance clamp 0 e.time).1) := by
      rw [Entry.key, hstart, (advance_of_start hstart 0).2]
    rw [List.map_cons, List.map_cons, ih hes, hkey]

theorem sort_eq_of_perm {ds : List Command}
    (h : (cs.map fun c => (c.device, some c.start)).Nodup) (hp : ds.Perm cs) :
    Timeline.sort p.deviceName ds = Timeline.sort p.deviceName cs := by
  have hsorted : (Timeline.sort p.deviceName ds).Perm (Timeline.sort p.deviceName cs) :=
    ((Timeline.sort_perm ds).trans hp).trans (Timeline.sort_perm cs).symm
  apply hsorted.eq_of_pairwise ?_ (Timeline.pairwise_sort ds) (Timeline.pairwise_sort cs)
  intro a b ha hb hab hba
  have ha : a ∈ cs := hp.subset ((Timeline.sort_perm ds).subset ha)
  have hb : b ∈ cs := (Timeline.sort_perm cs).subset hb
  apply List.inj_on_of_nodup_map h ha hb
  have hstart : a.start = b.start := Nat.le_antisymm hab.start_le hba.start_le
  rw [hab.device_eq hba, hstart]

theorem timeline_of_perm (hstart : ∀ e ∈ es, e.start?.isSome) (hkeys : (es.map Entry.key).Nodup)
    (hp : es'.Perm es) {t : Timeline} (h : p.timeline es = .ok t) : p.timeline es' = .ok t := by
  obtain ⟨cs, hcs, ht, hforward, hapart⟩ := timeline_eq_ok_iff.1 h
  have halone := (commands_eq_ok_iff_alone hstart).1 hcs
  obtain ⟨ds, halone', hds⟩ := List.perm_comp_forall₂ hp halone
  have hcs' : p.commands Timeline.clampToWord 0 es' = .ok ds :=
    (commands_eq_ok_iff_alone fun e he => hstart e (hp.subset he)).2 halone'
  have hsort : Timeline.sort p.deviceName ds = Timeline.sort p.deviceName cs :=
    sort_eq_of_perm (by rwa [map_key hstart halone]) hds
  rw [← hsort] at ht hapart
  exact timeline_eq_ok_iff.2 ⟨ds, hcs', ht, fun c hc => hforward c (hds.subset hc), hapart⟩

/-- The order of the entries makes no difference, neither to whether the block compiles nor to what it
becomes, where all entries start at a time of their own and no two have one device and one start. -/
theorem timeline_perm (p : Program) (r : ProcRef) (hstart : ∀ e ∈ es, e.start?.isSome)
    (hkeys : (es.map Entry.key).Nodup) (hp : es'.Perm es) (t : Timeline) :
    p.blame r (p.timeline es') = .ok t ↔ p.blame r (p.timeline es) = .ok t := by
  have hstart' : ∀ e ∈ es', e.start?.isSome := fun e he => hstart e (hp.subset he)
  have hkeys' : (es'.map Entry.key).Nodup := (hp.map Entry.key).nodup_iff.2 hkeys
  simp only [blame, Result.mapError_eq_ok_iff]
  exact ⟨timeline_of_perm hstart' hkeys' hp.symm, timeline_of_perm hstart hkeys hp⟩

end Program

def sameDeviceName : Program where
  sheets := [
    { file := 0, path := "a", devices := [⟨⟨0, 0⟩, "Print", .system, [], none⟩] },
    { file := 1, path := "b", devices := [⟨⟨1, 0⟩, "Print", .system, [], none⟩] }]

theorem Program.timeline_perm_sameDeviceName : ∃ t,
    sameDeviceName.blame ⟨0, "Main"⟩ (sameDeviceName.timeline
      [⟨⟨0, 0⟩, [], some ⟨some 0, .at 3⟩⟩, ⟨⟨1, 0⟩, [], some ⟨some 0, .after 5⟩⟩]) = .ok t ∧
    sameDeviceName.blame ⟨0, "Main"⟩ (sameDeviceName.timeline
      [⟨⟨1, 0⟩, [], some ⟨some 0, .after 5⟩⟩, ⟨⟨0, 0⟩, [], some ⟨some 0, .at 3⟩⟩]) = .ok t ∧
    t.commands.map Command.span = [⟨⟨0, 0⟩, 0, 3⟩, ⟨⟨1, 0⟩, 0, 5⟩] := by
  have hrun : (sameDeviceName.blame ⟨0, "Main"⟩ (sameDeviceName.timeline
      [⟨⟨0, 0⟩, [], some ⟨some 0, .at 3⟩⟩, ⟨⟨1, 0⟩, [], some ⟨some 0, .after 5⟩⟩])).map
        (·.commands.map Command.span) = .ok [⟨⟨0, 0⟩, 0, 3⟩, ⟨⟨1, 0⟩, 0, 5⟩] := by
    cbv
  obtain ⟨t, ht, hspans⟩ := Result.map_eq_ok_iff.1 hrun
  refine ⟨t, ht, ?_, hspans⟩
  exact (Program.timeline_perm sameDeviceName ⟨0, "Main"⟩ (by decide) (by decide) (.swap _ _ []) t).2 ht

end CueSheet
