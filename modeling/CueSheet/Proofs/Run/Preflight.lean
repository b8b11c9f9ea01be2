import CueSheet.Device.Rehearsal
import CueSheet.Proofs.Basic
import CueSheet.Proofs.Device.Calls
import CueSheet.Proofs.Run.Turns
import Mathlib

/-!
What the test before a run is worth. A command that passed it, on a device that is open, can only fail
because the world refuses a write; and no command makes another one fail in any other way.
-/

namespace CueSheet

variable {σ τ : Type} {rig : Rig (StateM σ) τ}

/-- The format can be written, whatever the time is. -/
def Rig.Stamps (rig : Rig (StateM σ) τ) (format : String) : Prop :=
  ∀ s, ∃ stamp s', (rig.stamp format).run s = (some stamp, s')

namespace Instance

inductive Ready (rig : Rig (StateM σ) τ) (args : List Value) : Instance τ → Prop
  | print {format} : args ≠ [] → rig.Stamps format → Ready rig args (.print format)
  | wait {ms ns} : args = [.number ms] → pause? ms = some ns → Ready rig args .wait
  | transport {t text} : args = [.text text] → t.isOpen = true → Ready rig args (.transport t)

/-- What a command comes to where its device is ready for it. The only errors are answers of the world
to something that was to be written. -/
inductive Performs (rig : Rig (StateM σ) τ) (name : String) (args : List Value) (s : σ) :
    Instance τ → Except DeviceError Unit → σ → Prop
  | waited {ms ns} : args = [.number ms] → pause? ms = some ns →
    Performs rig name args s .wait (.ok ()) ((rig.sleep ns).run s).2
  | sent {t text answer port s'} : args = [.text text] → t.isOpen = true →
    (rig.send text t.port).run s = ((answer, port), s') →
    Performs rig name args s (.transport t) (answer.mapError (.io name)) s'
  | unprinted {format stamp s₁ e s'} : args ≠ [] → (rig.stamp format).run s = (some stamp, s₁) →
    (rig.print (lineOf stamp args)).run s₁ = (.error e, s') →
    Performs rig name args s (.print format) (.error (.io name e)) s'
  | printed {format stamp s₁ s₂ answer s'} : args ≠ [] →
    (rig.stamp format).run s = (some stamp, s₁) →
    (rig.print (lineOf stamp args)).run s₁ = (.ok (), s₂) → rig.flush.run s₂ = (answer, s') →
    Performs rig name args s (.print format) (answer.mapError (.io name)) s'

variable {name : String} {args : List Value} {i i' : Instance τ} {s : σ}

theorem Ready.performs (h : i.Ready rig args) (name : String) (s : σ) :
    Performs rig name args s i ((i.execute rig name args).run s).1.1
      ((i.execute rig name args).run s).2 := by
  cases h with
  | print hargs hformat =>
    obtain ⟨stamp, s₁, hstamp⟩ := hformat s
    rw [execute_print, printLine_run hstamp]
    dsimp only
    cases hline : (rig.print (lineOf stamp args)).run s₁ with
    | mk answer s₂ =>
      cases answer with
      | error e => exact .unprinted hargs hstamp hline
      | ok _ => exact .printed hargs hstamp hline rfl
  | wait hargs hns =>
    subst hargs
    rw [execute_wait hns]
    exact .waited rfl hns
  | transport hargs hopen =>
    subst hargs
    rw [execute_transport hopen]
    exact .sent rfl hopen rfl

theorem Ready.execute {args' : List Value} (h : i.Ready rig args') :
    ((i.execute rig name args).run s).1.2.Ready rig args' := by
  rcases execute_instance rig name args i s with hsame | ⟨t, port, rfl, hopen, hport⟩
  · rwa [hsame]
  · rw [hport]
    cases h with
    | transport hargs _ => exact .transport hargs hopen

theorem Performs.ok_or_io {result : Except DeviceError Unit} {s' : σ}
    (h : Performs rig name args s i result s') :
    result = .ok () ∨ ∃ e, result = .error (.io name e) := by
  cases h with
  | waited => exact .inl rfl
  | sent => exact Result.mapError_ok_or_error _ _
  | unprinted => exact .inr ⟨_, rfl⟩
  | printed => exact Result.mapError_ok_or_error _ _

inductive Opened : Instance τ → Instance τ → Prop
  | print {format} : Opened (.print format) (.print format)
  | wait : Opened .wait .wait
  | transport {t t'} : t'.isOpen = true → Opened (.transport t) (.transport t')

theorem opened_of_openPort (h : ((i.openPort rig).run s).1.1 = .ok ()) :
    Opened i ((i.openPort rig).run s).1.2 := by
  cases i with
  | print format => exact .print
  | wait => exact .wait
  | transport t =>
    cases hopen : t.isOpen with
    | true =>
      rw [openPort_open hopen]
      exact .transport hopen
    | false =>
      rw [openPort_transport hopen] at h ⊢
      refine .transport ?_
      rw [Result.mapError_eq_ok_iff.1 h]
      rfl

theorem Opened.ready (h : Opened i i') (htest : i.test name args = .ok ())
    (hformat : ∀ format, i = .print format → rig.Stamps format) : i'.Ready rig args := by
  cases h with
  | @print format =>
    refine .print (fun hargs => ?_) (hformat format rfl)
    subst hargs
    cases htest
  | wait =>
    simp only [test] at htest
    split at htest
    · split_ifs at htest with hms
      obtain ⟨ns, hns⟩ := Option.isSome_iff_exists.1 hms
      exact .wait rfl hns
    · cases htest
  | transport hopen =>
    simp only [test] at htest
    split at htest
    · exact .transport rfl hopen
    · cases htest

end Instance

namespace Registry

variable {r r' : Registry τ} {id : DeviceId} {e : Registered τ} {args : List Value} {s s' : σ}

def Ready (rig : Rig (StateM σ) τ) (r : Registry τ) (c : Command) : Prop :=
  ∃ e, r.entry? c.device = some e ∧ e.unit.Ready rig c.params

theorem Ready.execute {c : Command} (h : r.Ready rig c) (he : r.entry? id = some e) :
    ((r.execute rig id args).run s).1.2.Ready rig c := by
  obtain ⟨x, hx, hready⟩ := h
  rw [execute_run he, Ready]
  dsimp only
  rw [entry?_update, hx]
  by_cases hid : x.id = id
  · have hsame : x = e := by
      have hd : x.id = c.device := by simpa using List.find?_some hx
      rw [← hid, hd, hx] at he
      exact Option.some.inj he
    subst hsame
    exact ⟨_, by rw [Option.map_some, if_pos hid], hready.execute⟩
  · exact ⟨x, by rw [Option.map_some, if_neg hid], hready⟩

def Opened (e e' : Registered τ) : Prop :=
  e'.id = e.id ∧ e'.name = e.name ∧ e.unit.Opened e'.unit

theorem opened_of_openEntries {es es' : List (Registered τ)}
    (h : (openEntries rig es).run s = ((.ok (), es'), s')) : List.Forall₂ Opened es es' := by
  induction es generalizing s es' with
  | nil =>
    cases h
    exact .nil
  | cons e es ih =>
    rw [openEntries_cons] at h
    dsimp only at h
    split at h
    · cases h
    · next hok =>
      cases hrest : (openEntries rig es).run ((e.unit.openPort rig).run s).2 with
      | mk z s₂ =>
        obtain ⟨result, rest⟩ := z
        rw [hrest] at h
        cases h
        exact .cons ⟨rfl, rfl, Instance.opened_of_openPort hok⟩ (ih hrest)

theorem opened_of_openAll (h : (r.openAll rig).run s = ((.ok (), r'), s')) :
    List.Forall₂ Opened r.entries r'.entries := by
  rw [openAll_run] at h
  cases hrun : (openEntries rig r.entries).run s with
  | mk y s₂ =>
    obtain ⟨result, es⟩ := y
    rw [hrun] at h
    cases h
    exact opened_of_openEntries hrun

theorem isOpen_of_openAll (h : (r.openAll rig).run s = ((.ok (), r'), s')) :
    ∀ e ∈ r'.entries, ∀ t, e.unit = .transport t → t.isOpen = true := by
  intro e he t ht
  obtain ⟨e₀, -, -, -, hunit⟩ := Result.exists_of_mem_right (opened_of_openAll h) he
  rw [ht] at hunit
  generalize e₀.unit = i at hunit
  cases hunit with
  | transport hisOpen => exact hisOpen

theorem opened_entry? {es es' : List (Registered τ)} (h : List.Forall₂ Opened es es')
    (he : es.find? (·.id = id) = some e) : ∃ e', es'.find? (·.id = id) = some e' ∧ Opened e e' := by
  induction h with
  | nil => cases he
  | @cons a b es es' hab _ ih =>
    rw [List.find?_cons] at he ⊢
    rw [hab.1]
    by_cases hid : a.id = id
    · rw [decide_eq_true hid] at he ⊢
      cases he
      exact ⟨b, rfl, hab⟩
    · rw [decide_eq_false hid] at he ⊢
      exact ih he

theorem ready_of_openAll {c : Command} (htest : r.test c.device c.params = .ok ())
    (hformat : ∀ e ∈ r.entries, ∀ format, e.unit = .print format → rig.Stamps format)
    (hopen : (r.openAll rig).run s = ((.ok (), r'), s')) : r'.Ready rig c := by
  simp only [test] at htest
  split at htest
  · cases htest
  · next e he =>
    obtain ⟨e', he', -, -, hunit⟩ := opened_entry? (opened_of_openAll hopen) he
    have hmem : e ∈ r.entries := List.mem_of_find?_eq_some he
    exact ⟨e', he', hunit.ready htest (hformat e hmem)⟩

end Registry

namespace Plan

variable {plan : Plan} {r r' : Registry τ} {s s' : σ}

theorem test_of_preflight (h : plan.preflight r = .ok ()) :
    ∀ c ∈ plan.commands, r.test c.device c.params = .ok () := by
  rw [preflight] at h
  intro c hc
  generalize plan.commands = cs at h hc
  induction cs with
  | nil => cases hc
  | cons x cs ih =>
    rw [List.forM_eq_forM, List.forM_cons] at h
    obtain ⟨⟨⟩, hx, hcs⟩ := Result.bind_eq_ok_iff.1 h
    rcases List.mem_cons.1 hc with rfl | hc
    · exact hx
    · exact ih hcs hc

/-- Once the test of a plan has passed and all devices are open, every command of the run finds its
device ready for it: it does what it is for, or the world refuses what it writes. Nothing else is
counted as suppressed. -/
theorem preflight_performs (htest : plan.preflight r = .ok ())
    (hformat : ∀ e ∈ r.entries, ∀ format, e.unit = .print format → rig.Stamps format)
    (hopen : (r.openAll rig).run s = ((.ok (), r'), s')) :
    let turns := Dispatch.planTurns rig plan r' s'
    turns.map (·.command) = plan.commands ∧
      ((Dispatch.run rig plan r').run s').1.1 = Dispatch.registryAfter rig r' turns ∧
      (∀ t ∈ turns, ∃ e, t.registry.entry? t.command.device = some e ∧
        e.unit.Performs rig e.name t.command.params t.world (t.outcome rig).1.1 (t.outcome rig).2 ∧
        ((t.outcome rig).1.1 = .ok () ∨ ∃ x, (t.outcome rig).1.1 = .error (.io e.name x))) ∧
      ((Dispatch.run rig plan r').run s').1.2.suppressed = turns.countP (·.isRefused rig) := by
  have hready : ∀ c ∈ plan.commands, r'.Ready rig c := fun c hc =>
    Registry.ready_of_openAll (test_of_preflight htest c hc) hformat hopen
  have hkeeps : Dispatch.Keeps rig plan.commands fun r _ => ∀ c ∈ plan.commands, r.Ready rig c := by
    refine ⟨fun r s h => h, fun ns r s h => h, fun c hc r s h x hx => ?_⟩
    obtain ⟨e, he, -⟩ := h c hc
    exact (h x hx).execute he
  refine ⟨Dispatch.planTurns_command rig plan r' s', Dispatch.run_registry rig plan r' s',
    fun t ht => ?_, Dispatch.run_suppressed rig plan r' s'⟩
  have hcommand : t.command ∈ plan.commands := by
    rw [← Dispatch.planTurns_command rig plan r' s']
    exact List.mem_map_of_mem ht
  obtain ⟨e, he, hunit⟩ := hkeeps.planTurns hready t ht t.command hcommand
  refine ⟨e, he, ?_⟩
  rw [Turn.outcome, Registry.execute_run he]
  have hperforms := hunit.performs e.name t.world
  exact ⟨hperforms, hperforms.ok_or_io⟩

def refusedWrite : Plan :=
  ⟨[⟨⟨0, "Main"⟩, ⟨[⟨⟨0, 0⟩, [.text "go"], 0, 0⟩, ⟨⟨0, 1⟩, [.text "up"], 5, 5⟩], 5⟩⟩]⟩

theorem preflight_performs_refusedWrite :
    let rig := Rehearsal.rig { writes := ["tty"] }
    let r : Registry SerialConfig := { entries := [⟨⟨0, 0⟩, "Print", .print "%%"⟩,
      ⟨⟨0, 1⟩, "Lift", .transport ⟨"Lift", { port := "tty" }, { port := "tty" }, false⟩⟩] }
    ∃ r' s', (r.openAll rig).run {} = ((.ok (), r'), s') ∧
      ((Dispatch.run rig refusedWrite r').run s').1.2.suppressed = 1 ∧
      (Dispatch.planTurns rig refusedWrite r' s').countP (·.isRefused rig) = 1 := by
  intro rig r
  have htest : refusedWrite.preflight r = .ok () := rfl
  have hformat : ∀ e ∈ r.entries, ∀ format, e.unit = .print format → rig.Stamps format := by
    intro e he format hprint s
    rcases List.mem_cons.1 he with rfl | he
    · cases hprint
      exact ⟨"%", s, rfl⟩
    · obtain rfl := List.mem_singleton.1 he
      cases hprint
  have hopen : (r.openAll rig).run {} =
      ((.ok (), ((r.openAll rig).run {}).1.2), ((r.openAll rig).run {}).2) := rfl
  obtain ⟨-, -, -, hcount⟩ := preflight_performs htest hformat hopen
  have hone : ((Dispatch.run rig refusedWrite ((r.openAll rig).run {}).1.2).run
      ((r.openAll rig).run {}).2).1.2.suppressed = 1 := by cbv
  exact ⟨_, _, hopen, hone, hcount.symm.trans hone⟩

end Plan

end CueSheet
