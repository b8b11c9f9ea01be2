import CueSheet.Proofs.Device.Books
import CueSheet.Proofs.Run.Preflight
import CueSheet.Run

/-!
The safety of a whole run. Nothing is called before the plan stands and its test has passed; whatever
the world answers, a port that was opened is closed exactly once at the end, and texts go to it only in
between.
-/

namespace CueSheet

/-- In a run an open port is in use, and a closed one has run its course. -/
def PortDeed.Standing (isOpen : Bool) (ds : List PortDeed) : Prop :=
  if isOpen = true then InUse ds else Course ds

theorem PortDeed.lasting_standing : Lasting Standing where
  called := by
    rintro ⟨ws, hws, -⟩
    cases hws
  wrote := by
    rintro _ text answer ⟨ws, rfl, hwrote⟩
    exact ⟨ws ++ [.wrote text answer], rfl, List.forall_mem_append.2 ⟨hwrote, by simp⟩⟩
  closed := by
    rintro _ answer ⟨ws, rfl, hwrote⟩
    exact .served ⟨ws, answer, rfl, hwrote⟩

namespace Registry

abbrev Accounted : List (Registered Plug) → Journal → Prop := Books PortDeed.Standing

variable {e : Registered Plug} {j : Journal} {w : World}

theorem Unused.opens (h : Unused e) : e.unit.Opens PortDeed.Standing := by
  intro t _ _ j answer _
  rw [Instance.deeds_of_none h.number, List.nil_append]
  cases answer with
  | error x => exact .refused x
  | ok _ => exact ⟨[], rfl, by simp⟩

section Calls

variable {r : Registry Plug}

theorem accounted_fresh (hr : r.Fresh w.rig.port) : Accounted r.entries [] :=
  books_unused .unused (unused_of_fresh hr)

theorem accounted_openAll (w : World) (h : Accounted r.entries j)
    (hunused : ∀ e ∈ r.entries, Unused e) :
    let y := (r.openAll w.rig).run j
    Accounted y.1.2.entries y.2 ∧ y.1.2.entries.map (·.id) = r.entries.map (·.id) ∧ Quiet j y.2 := by
  have hbooks : Accounted ([] ++ r.entries) j := h
  obtain ⟨hall, hkept, hquiet⟩ := hbooks.openEntries w fun e he => (hunused e he).opens
  exact ⟨hall, map_id_of_kept hkept, hquiet⟩

theorem accounted_closeAll (w : World) (h : Accounted r.entries j) :
    let y := (r.closeAll w.rig).run j
    (∀ k, PortDeed.Course (y.2.deeds k)) ∧ (∀ d, Deed.port none d ∉ y.2) ∧ Quiet j y.2 := by
  have hbooks : Accounted ([] ++ r.entries) j := h
  obtain ⟨hall, -, hquiet, hclosed⟩ := hbooks.closeEntries w PortDeed.lasting_standing
  rw [List.nil_append] at hall
  rw [closeAll_run]
  exact ⟨hall.deeds_closed .unused hclosed, hall.numbered, hquiet⟩

/-- Where all ports are open when it comes to closing, each of them was used to the end. -/
theorem served_closeAll (w : World) (h : Accounted r.entries j)
    (hopen : ∀ e ∈ r.entries, ∀ t, e.unit = .transport t → t.isOpen = true) :
    let y := (r.closeAll w.rig).run j
    ∀ e ∈ y.1.2.entries, ∀ t, e.unit = .transport t →
      ∃ k, t.port.number = some k ∧ PortDeed.Served (y.2.deeds k) := by
  intro y e' he' t' ht'
  have hbooks : Accounted ([] ++ r.entries) j := h
  obtain ⟨-, hkept, -⟩ := hbooks.closeEntries w PortDeed.lasting_standing
  obtain ⟨hcourse, -, hquiet⟩ := accounted_closeAll w h
  obtain ⟨e, he, hsame⟩ := Result.exists_of_mem_right hkept he'
  obtain ⟨t, ht, hnumber⟩ := hsame.exists_transport ht'
  obtain ⟨k, hk, ws, hws, -⟩ := h.exists_number PortDeed.lasting_standing he ht (hopen e he t ht)
  obtain ⟨ds, hj, -⟩ := hquiet
  refine ⟨k, hnumber k hk, ?_⟩
  have hwhole := hcourse k
  rw [hj, Journal.deeds_append, hws, List.cons_append] at hwhole ⊢
  exact hwhole.of_opened

theorem accounted_dispatch (w : World) (hdistinct : (r.entries.map (·.id)).Nodup)
    (h : Accounted r.entries j) (p : Plan) :
    let y := (Dispatch.run w.rig p r).run j
    y.1.1 = r ∧ Accounted y.1.1.entries y.2 := by
  have hkeeps : Dispatch.Keeps w.rig p.commands fun r' j => r' = r ∧ Accounted r.entries j := by
    constructor
    · rintro _ j ⟨rfl, hj⟩
      exact ⟨rfl, hj.apart (Journal.adds_one (by simp [Journal.Apart]))⟩
    · rintro ns _ j ⟨rfl, hj⟩
      exact ⟨rfl, hj.apart (Journal.adds_one (by simp [Journal.Apart]))⟩
    · rintro c - _ j ⟨rfl, hj⟩
      exact hj.execute w PortDeed.lasting_standing hdistinct c.device c.params
  obtain ⟨hsame, hran⟩ := hkeeps.run ⟨rfl, h⟩
  exact ⟨hsame, hsame.symm ▸ hran⟩

end Calls

end Registry

namespace Stage

theorem perform_run {σ τ : Type} (rig : Rig (StateM σ) τ) (plan : Plan) (r : Registry τ) (s : σ) :
    (perform rig plan r).run s =
      let o := (r.openAll rig).run s
      match o.1.1 with
      | .error e =>
        let c := (o.1.2.closeAll rig).run o.2
        ((.error (.openDevices e), c.1.2), c.2)
      | .ok () =>
        let d := (Dispatch.run rig plan o.1.2).run o.2
        let c := (d.1.1.closeAll rig).run d.2
        ((.ok d.1.2, c.1.2), c.2) := by
  rw [perform, StateT.run_bind]
  change (let o := (r.openAll rig).run s; _) = _
  generalize (r.openAll rig).run s = o
  obtain ⟨⟨result, opened⟩, s'⟩ := o
  cases result <;> rfl

theorem perform_safe (w : World) (plan : Plan) {r : Registry Plug} (hr : r.Fresh w.rig.port) :
    let y := (perform w.rig plan r).run []
    (∀ e, y.1.1 = .error e → ∀ d ∈ y.2, d.isOutput = false) ∧
      (∀ k, PortDeed.Course (y.2.deeds k)) ∧ (∀ d, Deed.port none d ∉ y.2) ∧
      ∀ report, y.1.1 = .ok report → ∀ e ∈ y.1.2.entries, ∀ t, e.unit = .transport t →
        ∃ k, t.port.number = some k ∧ PortDeed.Served (y.2.deeds k) := by
  obtain ⟨hopened, hids, hquiet⟩ := Registry.accounted_openAll w (Registry.accounted_fresh hr)
    (Registry.unused_of_fresh hr)
  rw [perform_run]
  dsimp only
  generalize ho : (r.openAll w.rig).run [] = o at hopened hids hquiet ⊢
  obtain ⟨⟨result, opened⟩, j⟩ := o
  cases result with
  | error e =>
    obtain ⟨hcourse, hnumbered, hquiet'⟩ := Registry.accounted_closeAll w hopened
    refine ⟨fun _ _ => ?_, hcourse, hnumbered, fun _ h => ?_⟩
    · obtain ⟨ds, hj, hds⟩ := hquiet.trans hquiet'
      dsimp only
      rw [hj]
      exact hds
    · cases h
  | ok _ =>
    have hdistinct : (opened.entries.map (·.id)).Nodup := hids ▸ hr.distinct
    obtain ⟨hsame, hran⟩ := Registry.accounted_dispatch w hdistinct hopened plan
    obtain ⟨hcourse, hnumbered, -⟩ := Registry.accounted_closeAll w hran
    have hserved := Registry.served_closeAll w hran (hsame.symm ▸ Registry.isOpen_of_openAll ho)
    refine ⟨fun e he => ?_, hcourse, hnumbered, fun _ _ => hserved⟩
    cases he

section Cleared

variable {τ : Type}

/-- All that has to go well before the first device is touched. -/
def Cleared (s : Stage τ) (path : String) (r : Registry τ) (plan : Plan) (planned : Registry τ) :
    Prop :=
  ∃ program entry compiled,
    ({ tree := s.tree, lineBuffer := s.settings.lineBuffer } : Loader).program s.here path =
      .ok program ∧
    program.entry = .ok entry ∧ program.compile = .ok compiled ∧
    Plan.build s.workshop program compiled entry r = (.ok plan, planned) ∧
    plan.preflight planned = .ok ()

variable {s : Stage τ} {path : String} {r planned : Registry τ} {plan : Plan}

theorem Cleared.fresh (h : s.Cleared path r plan planned) (hr : r.Fresh s.workshop.port) :
    planned.Fresh s.workshop.port := by
  obtain ⟨program, entry, compiled, -, -, -, hbuild, -⟩ := h
  have hbuilt := Registry.fresh_build s.workshop program compiled entry hr
  rwa [hbuild] at hbuilt

theorem prepare_cases (s : Stage τ) (path : String) (r : Registry τ) :
    (∃ e planned, s.prepare path r = (.error e, planned)) ∨
    ∃ plan planned, s.prepare path r = (.ok plan, planned) ∧ s.Cleared path r plan planned := by
  simp only [prepare]
  split
  · exact .inl ⟨_, _, rfl⟩
  · next program entry compiled hcompiled =>
    obtain ⟨_, hprogram, hcompiled⟩ := Result.bind_eq_ok_iff.1 hcompiled
    obtain ⟨_, hentry, hcompiled⟩ := Result.bind_eq_ok_iff.1 hcompiled
    obtain ⟨_, hcompile, hcompiled⟩ := Result.bind_eq_ok_iff.1 hcompiled
    cases hcompiled
    split
    · exact .inl ⟨_, _, rfl⟩
    · next plan planned hbuild =>
      split
      · exact .inl ⟨_, _, rfl⟩
      · next htest =>
        exact .inr ⟨plan, planned, rfl, program, entry, compiled,
          Result.mapError_eq_ok_iff.1 hprogram, Result.mapError_eq_ok_iff.1 hentry,
          Result.mapError_eq_ok_iff.1 hcompile, hbuild, htest⟩

/-- A run leaves the world alone and has no report, or it was cleared and performs its plan. -/
theorem run_cases {σ : Type} (rig : Rig (StateM σ) τ) (s : Stage τ) (path : String) (dry : Bool)
    (r : Registry τ) (world : σ) :
    (((s.run rig path dry r).run world).2 = world ∧
      ∀ report, ((s.run rig path dry r).run world).1.1 ≠ .ok (some report)) ∨
    dry = false ∧ ∃ plan planned, s.Cleared path r plan planned ∧
      (s.run rig path dry r).run world =
        let y := (perform rig plan planned).run world
        ((y.1.1.map some, y.1.2), y.2) := by
  rcases s.prepare_cases path r with ⟨e, planned, hprepare⟩ | ⟨plan, planned, hprepare, hcleared⟩
  · rw [run, hprepare]
    exact .inl ⟨rfl, fun _ h => by cases h⟩
  · rw [run, hprepare]
    cases dry with
    | true => exact .inl ⟨rfl, fun _ h => by cases h⟩
    | false => exact .inr ⟨rfl, plan, planned, hcleared, rfl⟩

end Cleared

/-- Whatever the world answers: no device is touched before all checks have passed, or in a dry run; a
run that fails has written and printed nothing; and every port that was opened is closed exactly once, after
all that was sent to it. A run with a report has opened and closed the ports of all its devices. -/
theorem run_safe (w : World) (s : Stage Plug) (path : String) (dry : Bool) {r : Registry Plug}
    (hport : s.workshop.port = w.rig.port) (hr : r.Fresh w.rig.port) :
    let y := (s.run w.rig path dry r).run []
    (y.2 ≠ [] → dry = false ∧ ∃ plan planned, s.Cleared path r plan planned) ∧
      (∀ e, y.1.1 = .error e → ∀ d ∈ y.2, d.isOutput = false) ∧
      (∀ k, PortDeed.Course (y.2.deeds k)) ∧ (∀ d, Deed.port none d ∉ y.2) ∧
      ∀ report, y.1.1 = .ok (some report) → ∀ e ∈ y.1.2.entries, ∀ t, e.unit = .transport t →
        ∃ k, t.port.number = some k ∧ PortDeed.Served (y.2.deeds k) := by
  rcases run_cases w.rig s path dry r [] with ⟨hnone, hno⟩ | ⟨rfl, plan, planned, hcleared, hrun⟩
  · dsimp only
    rw [hnone]
    exact ⟨fun h => absurd rfl h, by simp, fun _ => .unused, by simp,
      fun report h => absurd h (hno report)⟩
  · rw [← hport] at hr
    have hplanned : planned.Fresh w.rig.port := hport ▸ hcleared.fresh hr
    obtain ⟨herror, hcourse, hnumbered, hserved⟩ := perform_safe w plan hplanned
    rw [hrun]
    refine ⟨fun _ => ⟨rfl, plan, planned, hcleared⟩, fun e he => ?_, hcourse, hnumbered,
      fun report he => ?_⟩
    · exact herror e (Result.map_eq_error_iff.1 he)
    · obtain ⟨_, hok, -⟩ := Result.map_eq_ok_iff.1 he
      exact hserved _ hok

def portJammed : World where
  opens _ p := if p.config.port = "jam" then .error (.other "jammed") else .ok ()
  takes _ _ _ := .ok ()
  closes _ _ := .ok ()
  prints _ _ := .ok ()
  flushes _ := .ok ()
  stamp _ _ := some ""
  clock _ := 0

def twoPorts : Stage Plug where
  tree := ⟨[(["a"], .file ("#device Lamp = tty, 9600\n#device Lift = jam, 9600\n" ++
    "proc Main \x7b\nLamp(\"on\")\nLift(\"up\")\n\x7d").toUTF8.toList)]⟩
  here := []
  workshop := { port := portJammed.rig.port }

theorem run_safe_portJammed :
    let y := (twoPorts.run portJammed.rig "/a" false {}).run []
    y.2.deeds 0 = [.opened (.ok ()), .closed (.ok ())] ∧
      y.2.deeds 1 = [.opened (.error (.other "jammed"))] ∧
      (∃ plan planned, twoPorts.Cleared "/a" {} plan planned) ∧ ∀ d ∈ y.2, d.isOutput = false := by
  have hrun : Prod.map (·.1.toBool) id ((twoPorts.run portJammed.rig "/a" false {}).run []) =
      (false, [.port (some 0) (.opened (.ok ())),
        .port (some 1) (.opened (.error (.other "jammed"))), .port (some 0) (.closed (.ok ()))]) := by
    cbv
  obtain ⟨hcleared, herror, -⟩ :=
    run_safe portJammed twoPorts "/a" false rfl (Registry.fresh_empty portJammed.rig.port)
  dsimp only
  generalize (twoPorts.run portJammed.rig "/a" false {}).run [] = y at hrun hcleared herror ⊢
  obtain ⟨⟨result, r⟩, j⟩ := y
  cases result with
  | ok _ => cases hrun
  | error e =>
    cases hrun
    exact ⟨rfl, rfl, (hcleared (by simp)).2, herror e rfl⟩

end Stage

end CueSheet
