import CueSheet.Registry

/-!
What the operations on devices are in terms of the calls of the rig, over a world with a state: each
comes to one equation about the answer, the device and the world afterwards.
-/

namespace CueSheet

variable {σ τ : Type} {rig : Rig (StateM σ) τ}

namespace Instance

def lineOf (stamp : String) (args : List Value) : String :=
  stamp ++ " " ++ " ".intercalate (args.map Value.display) ++ "\n"

variable {name : String} {args : List Value} {s : σ}

theorem execute_wait {ms : Float} {ns : Nat} (h : pause? ms = some ns) :
    (execute rig name [.number ms] .wait).run s =
      ((.ok (), .wait), ((rig.sleep ns).run s).2) := by
  simp only [execute, List.head?_cons, Option.bind_some, Value.number?, Option.getD_some, h]
  rfl

theorem execute_transport {t : Transport τ} (h : t.isOpen = true) :
    (execute rig name args (.transport t)).run s =
      let y := (rig.send ((args.head?.bind Value.text?).getD "") t.port).run s
      ((y.1.1.mapError (.io name), .transport { t with port := y.1.2 }), y.2) := by
  simp only [execute, h, Bool.not_true, Bool.false_eq_true, if_false]
  rfl

theorem execute_closed {t : Transport τ} (h : t.isOpen = false) :
    (execute rig name args (.transport t)).run s =
      ((.error (.io name .transportClosed), .transport t), s) := by
  simp only [execute, h, Bool.not_false, if_true]
  rfl

theorem printLine_unwritten {format : String} {s' : σ} (h : (rig.stamp format).run s = (none, s')) :
    (printLine rig format args).run s = (.error (.other "formatter error"), s') := by
  rw [printLine, StateT.run_bind, h]
  rfl

theorem printLine_run {format stamp : String} {s' : σ}
    (h : (rig.stamp format).run s = (some stamp, s')) :
    (printLine rig format args).run s =
      let line := (rig.print (lineOf stamp args)).run s'
      (match line.1 with
        | .error e => return .error e
        | .ok () => rig.flush : StateM σ IoResult).run line.2 := by
  rw [printLine, StateT.run_bind, h]
  rfl

/-- What the calls of the console keep, from the world before to the world after, a line keeps. -/
theorem printLine_keeps {R : σ → σ → Prop} (htrans : ∀ {a b c}, R a b → R b c → R a c)
    (hstamp : ∀ format s, R s ((rig.stamp format).run s).2)
    (hprint : ∀ line s, R s ((rig.print line).run s).2) (hflush : ∀ s, R s (rig.flush.run s).2)
    (format : String) (args : List Value) (s : σ) :
    R s ((printLine rig format args).run s).2 := by
  have hstamped := hstamp format s
  cases hrun : (rig.stamp format).run s with
  | mk stamp s' =>
    rw [hrun] at hstamped
    cases stamp with
    | none =>
      rw [printLine_unwritten hrun]
      exact hstamped
    | some text =>
      rw [printLine_run hrun]
      dsimp only
      have hprinted := htrans hstamped (hprint (lineOf text args) s')
      generalize (rig.print (lineOf text args)).run s' = line at hprinted ⊢
      cases line.1 with
      | error e => exact hprinted
      | ok _ => exact htrans hprinted (hflush line.2)

theorem execute_print (format : String) :
    (execute rig name args (.print format)).run s =
      let y := (printLine rig format args).run s
      ((y.1.mapError (.io name), .print format), y.2) := rfl

/-- Only a port can be another one afterwards. -/
theorem execute_instance (rig : Rig (StateM σ) τ) (name : String) (args : List Value)
    (i : Instance τ) (s : σ) : ((i.execute rig name args).run s).1.2 = i ∨
    ∃ t port, i = .transport t ∧ t.isOpen = true ∧
      ((i.execute rig name args).run s).1.2 = .transport { t with port := port } := by
  cases i with
  | print format => exact .inl rfl
  | wait =>
    left
    simp only [execute]
    split <;> rfl
  | transport t =>
    cases hopen : t.isOpen with
    | false => exact .inl (by rw [execute_closed hopen])
    | true => exact .inr ⟨t, _, rfl, hopen, by rw [execute_transport hopen]⟩

theorem openPort_open {t : Transport τ} (h : t.isOpen = true) :
    (openPort rig (.transport t)).run s = ((.ok (), .transport t), s) := by
  simp only [openPort, h, if_true]
  rfl

theorem openPort_transport {t : Transport τ} (h : t.isOpen = false) :
    (openPort rig (.transport t)).run s =
      let y := (rig.openPort t.port).run s
      ((y.1.1.mapError (.io t.name),
        .transport { t with port := y.1.2, isOpen := y.1.1.toBool }), y.2) := by
  simp only [openPort, h, Bool.false_eq_true, if_false]
  rfl

theorem closePort_closed {t : Transport τ} (h : t.isOpen = false) :
    (closePort rig (.transport t)).run s = ((.ok (), .transport t), s) := by
  simp only [closePort, h, Bool.not_false, if_true]
  rfl

theorem closePort_transport {t : Transport τ} (h : t.isOpen = true) :
    (closePort rig (.transport t)).run s =
      let y := (rig.closePort t.port).run s
      ((y.1.1.mapError (.io t.name), .transport { t with port := y.1.2, isOpen := false }), y.2) := by
  simp only [closePort, h, Bool.not_true, Bool.false_eq_true, if_false]
  rfl

end Instance

namespace Registry

variable {r : Registry τ} {id : DeviceId} {e : Registered τ} {args : List Value} {s : σ}

theorem entry?_update (i : Instance τ) (d : DeviceId) :
    Registry.entry? (r.update id i) d =
      (r.entry? d).map fun e => if e.id = id then { e with unit := i } else e := by
  simp only [update, entry?, List.find?_map]
  congr 2
  funext e
  simp only [Function.comp_apply]
  split <;> rfl

theorem execute_run (h : r.entry? id = some e) :
    (r.execute rig id args).run s =
      let y := (e.unit.execute rig e.name args).run s
      ((y.1.1, r.update id y.1.2), y.2) := by
  simp only [execute, h]
  rfl

theorem openEntries_cons (e : Registered τ) (es : List (Registered τ)) :
    (openEntries rig (e :: es)).run s =
      let y := (e.unit.openPort rig).run s
      match y.1.1 with
      | .error x => ((.error x, { e with unit := y.1.2 } :: es), y.2)
      | .ok () =>
        let z := (openEntries rig es).run y.2
        ((z.1.1, { e with unit := y.1.2 } :: z.1.2), z.2) := by
  rw [openEntries, StateT.run_bind]
  change (let y := (e.unit.openPort rig).run s; _) = _
  generalize (e.unit.openPort rig).run s = y
  obtain ⟨⟨result, i⟩, s'⟩ := y
  cases result <;> rfl

theorem openAll_run : (r.openAll rig).run s =
    let y := (openEntries rig r.entries).run s
    ((y.1.1, { r with entries := y.1.2 }), y.2) := rfl

theorem closeEntries_cons (e : Registered τ) (es : List (Registered τ)) :
    (closeEntries rig (e :: es)).run s =
      let y := (e.unit.closePort rig).run s
      let z := (closeEntries rig es).run y.2
      (((if y.1.1.toBool then 0 else 1) + z.1.1, { e with unit := y.1.2 } :: z.1.2), z.2) := rfl

theorem closeAll_run : (r.closeAll rig).run s =
    let y := (closeEntries rig r.entries).run s
    ((y.1.1, { r with entries := y.1.2 }), y.2) := rfl

end Registry

end CueSheet
