import CueSheet.Device.Journal
import CueSheet.Proofs.Device.Calls
import Mathlib.Data.List.Nodup

/-!
What the operations on a device write into the journal. A port is called only by its own device, opened
only when it counts as closed, and written to or closed only when it counts as open.
-/

namespace CueSheet

def PortDeed.InUse (ds : List PortDeed) : Prop :=
  ∃ ws, ds = .opened (.ok ()) :: ws ∧ ∀ d ∈ ws, ∃ text answer, d = .wrote text answer

def PortDeed.Served (ds : List PortDeed) : Prop :=
  ∃ ws answer, ds = .opened (.ok ()) :: ws ++ [.closed answer] ∧
    ∀ d ∈ ws, ∃ text answer, d = .wrote text answer

/-- All that may ever have happened to a port when a run is over. -/
inductive PortDeed.Course : List PortDeed → Prop
  | unused : Course []
  | refused (e : IoError) : Course [.opened (.error e)]
  | served {ds : List PortDeed} : Served ds → Course ds

theorem PortDeed.Course.of_opened {ds : List PortDeed} (h : Course (.opened (.ok ()) :: ds)) :
    Served (.opened (.ok ()) :: ds) := by
  cases h with
  | served hserved => exact hserved

namespace Journal

variable {j : Journal} {k : Nat}

def Adds (Q : Deed → Prop) (j j' : Journal) : Prop := ∃ ds, j' = j ++ ds ∧ ∀ d ∈ ds, Q d

theorem Adds.refl (Q : Deed → Prop) (j : Journal) : Adds Q j j := ⟨[], by simp, by simp⟩

theorem Adds.trans {Q : Deed → Prop} {j' j'' : Journal} (h : Adds Q j j') (h' : Adds Q j' j'') :
    Adds Q j j'' := by
  obtain ⟨ds, rfl, hds⟩ := h
  obtain ⟨ds', rfl, hds'⟩ := h'
  exact ⟨ds ++ ds', by simp, List.forall_mem_append.2 ⟨hds, hds'⟩⟩

theorem adds_one {Q : Deed → Prop} {d : Deed} (h : Q d) : Adds Q j (j ++ [d]) :=
  ⟨[d], rfl, by simpa using h⟩

theorem deeds_append (j j' : Journal) (k : Nat) : deeds (j ++ j') k = deeds j k ++ deeds j' k :=
  List.filterMap_append

theorem deeds_port (j : Journal) (k : Nat) (d : PortDeed) :
    deeds (j ++ [.port (some k) d]) k = deeds j k ++ [d] := by
  simp [deeds, Deed.port?]

theorem deeds_other (j : Journal) {k k' : Nat} (d : PortDeed) (h : k' ≠ k) :
    deeds (j ++ [.port (some k') d]) k = deeds j k := by
  simp [deeds, Deed.port?, h]

def Apart (d : Deed) : Prop := ∀ number p, d ≠ .port number p

theorem Adds.deeds_eq {j' : Journal} (h : Adds Apart j j') (k : Nat) : deeds j' k = deeds j k := by
  obtain ⟨ds, rfl, hds⟩ := h
  have hnone : deeds ds k = [] := by
    rw [deeds, List.filterMap_eq_nil_iff]
    intro d hd
    cases d with
    | port number p => exact absurd rfl (hds _ hd number p)
    | _ => rfl
  rw [deeds_append, hnone, List.append_nil]

end Journal

namespace World

variable (w : World)

theorem openPort_run (p : Plug) (j : Journal) :
    ∃ answer, (w.rig.openPort p).run j =
      ((answer, { p with number := some (p.number.getD j.length) }),
        j ++ [.port (some (p.number.getD j.length)) (.opened answer)]) :=
  ⟨w.opens j { p with number := some (p.number.getD j.length) }, rfl⟩

theorem closePort_run (p : Plug) (j : Journal) :
    ∃ answer, (w.rig.closePort p).run j = ((answer, p), j ++ [.port p.number (.closed answer)]) :=
  ⟨w.closes j p, rfl⟩

end World

namespace Instance

def number? : Instance Plug → Option Nat
  | .transport t => t.port.number
  | _ => none

variable {i : Instance Plug} {j : Journal} {args : List Value} {w : World}

theorem openPort_cases (w : World) (i : Instance Plug) (j : Journal) :
    (∀ t, i = .transport t → t.isOpen = true) ∧ (i.openPort w.rig).run j = ((.ok (), i), j) ∨
      ∃ t k answer, i = .transport t ∧ t.isOpen = false ∧ k = t.port.number.getD j.length ∧
        (i.openPort w.rig).run j = ((answer.mapError (.io t.name), .transport { t with
          port := { t.port with number := some k }, isOpen := answer.toBool }),
          j ++ [.port (some k) (.opened answer)]) := by
  cases i with
  | print format => exact .inl ⟨by simp, rfl⟩
  | wait => exact .inl ⟨by simp, rfl⟩
  | transport t =>
    cases hopen : t.isOpen with
    | true => exact .inl ⟨by simpa using hopen, openPort_open hopen⟩
    | false =>
      obtain ⟨answer, hrun⟩ := w.openPort_run t.port j
      exact .inr ⟨t, _, answer, rfl, hopen, rfl, by rw [openPort_transport hopen, hrun]⟩

theorem closePort_cases (w : World) (i : Instance Plug) (j : Journal) :
    (∀ t, i = .transport t → t.isOpen = false) ∧ (i.closePort w.rig).run j = ((.ok (), i), j) ∨
      ∃ t answer, i = .transport t ∧ t.isOpen = true ∧
        (i.closePort w.rig).run j = ((answer.mapError (.io t.name), .transport { t with
          isOpen := false }), j ++ [.port t.port.number (.closed answer)]) := by
  cases i with
  | print format => exact .inl ⟨by simp, rfl⟩
  | wait => exact .inl ⟨by simp, rfl⟩
  | transport t =>
    cases hopen : t.isOpen with
    | false => exact .inl ⟨by simpa using hopen, closePort_closed hopen⟩
    | true =>
      obtain ⟨answer, hrun⟩ := w.closePort_run t.port j
      exact .inr ⟨t, answer, rfl, hopen, by rw [closePort_transport hopen, hrun]⟩

theorem printLine_apart (w : World) (format : String) (args : List Value) (j : Journal) :
    Journal.Adds Journal.Apart j ((printLine w.rig format args).run j).2 :=
  printLine_keeps (fun h h' => h.trans h')
    (fun _ _ => Journal.adds_one (by simp [Journal.Apart]))
    (fun _ _ => Journal.adds_one (by simp [Journal.Apart]))
    (fun _ => Journal.adds_one (by simp [Journal.Apart])) format args j

/-- A command touches no port but its own, and that only when it is open. -/
theorem execute_journal (w : World) (name : String) (args : List Value) (i : Instance Plug)
    (j : Journal) :
    let y := (i.execute w.rig name args).run j
    y.1.2 = i ∧ (Journal.Adds Journal.Apart j y.2 ∨ ∃ t text answer, i = .transport t ∧
      t.isOpen = true ∧ y.2 = j ++ [.port t.port.number (.wrote text answer)]) := by
  cases i with
  | print format => exact ⟨rfl, .inl (printLine_apart w format args j)⟩
  | wait =>
    cases hns : pause? ((args.head?.bind Value.number?).getD 0) with
    | none =>
      simp only [execute, hns]
      exact ⟨rfl, .inl (.refl _ j)⟩
    | some ns =>
      simp only [execute, hns]
      exact ⟨rfl, .inl (Journal.adds_one (by simp [Journal.Apart]))⟩
  | transport t =>
    cases hopen : t.isOpen with
    | false =>
      rw [execute_closed hopen]
      exact ⟨rfl, .inl (.refl _ j)⟩
    | true =>
      rw [execute_transport hopen]
      exact ⟨rfl, .inr ⟨t, _, _, rfl, hopen, rfl⟩⟩

end Instance

end CueSheet
