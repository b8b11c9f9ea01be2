import CueSheet.Proofs.Load.Closed
import CueSheet.Proofs.Plan.Refusal
import Mathlib.Data.List.Nodup

/-!
In a closed program no stage meets a name that it does not know. The compiler finds every callee,
and the procedures with a body of their own are the ones that it compiles. The planner then only
walks from one of them to another, and the binds in force lead to declared devices wherever the
walk is.
-/

namespace CueSheet

theorem Bind.apply_eq_or_mem (b : Bind) (d : DeviceId) :
    b.apply d = d ∨ ∃ x ∈ b, b.apply d = x.2 := by
  simp only [apply]
  cases h : b.find? (·.1 = d) with
  | none => exact Or.inl rfl
  | some x => exact Or.inr ⟨x, List.mem_of_find?_eq_some h, rfl⟩

namespace Procedure

variable {q : Procedure}

theorem bind_of_origin?_eq_none (h : q.origin? = none) : q.bind = [] := by
  simp only [origin?] at h
  simp only [bind]
  split <;> simp_all

theorem definition_of_origin?_eq_some {origin : ProcRef} (h : q.origin? = some origin) :
    q.definition = .alias origin q.bind := by
  simp only [origin?] at h
  simp only [bind]
  split <;> simp_all

end Procedure

section Undeclared

theorem SerialConfig.ofProperties_ne_undeclared {device port : String}
    {properties : List (String × String)} (name : String) :
    ofProperties device port properties ≠ .error (.undeclared name) := by
  intro h
  obtain ⟨c, property, hset⟩ := Result.exists_of_foldlM_eq_error h
  obtain ⟨fault, -, he⟩ := Result.mapError_eq_error_iff.1 hset
  cases fault <;> cases he

variable {τ : Type} {w : Workshop τ}

theorem Instance.create_ne_undeclared (d : Device) (name : String) :
    create w d ≠ .error (.undeclared name) := by
  intro h
  simp only [create] at h
  split at h
  · split at h
    · cases h
    · split at h <;> cases h
  · exact SerialConfig.ofProperties_ne_undeclared name (Result.map_eq_error_iff.1 h)
  · cases h

theorem Registry.device?_of_resolve_undeclared {p : Program} {c : Chain} {d : DeviceId}
    {r : Registry τ} {name : String} (h : r.resolve w p c d = .error (.undeclared name)) :
    p.device? (c.resolve d) = none := by
  simp only [resolve] at h
  split at h
  · cases h
  · split at h
    · next hn => exact hn
    · rcases Result.bind_eq_error_iff.1 h with h | ⟨_, -, h⟩
      · exact absurd h (Instance.create_ne_undeclared _ name)
      · cases h

end Undeclared

namespace Program

variable {p : Program} {f : CompileFault}

theorem evaluate_ne_unknown {d : DeviceId} {args : List Expr} (h : p.evaluate d args = .error f)
    (name : String) : f ≠ .unknown name := by
  obtain ⟨e, -, he⟩ := Result.mapError_eq_error_iff.1 h
  intro hu
  rw [← he] at hu
  cases hu

theorem commands_ne_unknown {clamp : Nat → Nat} {cursor : Nat} {es : List Entry}
    (h : p.commands clamp cursor es = .error f) (name : String) : f ≠ .unknown name := by
  induction es generalizing cursor with
  | nil => cases h
  | cons e r ih =>
    simp only [commands] at h
    split at h
    · next f' he =>
      obtain rfl := Except.error.inj h
      exact evaluate_ne_unknown he name
    · exact ih (Result.map_eq_error_iff.1 h)

theorem checkOrder_ne_unknown {cs : List Command} (h : p.checkOrder cs = .error f)
    (name : String) : f ≠ .unknown name := by
  intro hu
  simp only [checkOrder, hu] at h
  split at h
  · cases h
  · split at h <;> cases h

theorem timeline_ne_unknown {es : List Entry} (h : p.timeline es = .error f) (name : String) :
    f ≠ .unknown name := by
  rcases Result.bind_eq_error_iff.1 h with h | ⟨cs, -, h⟩
  · exact commands_ne_unknown h name
  · rcases Result.bind_eq_error_iff.1 h with h | ⟨_, -, h⟩
    · exact checkOrder_ne_unknown h name
    · cases h

theorem procedure?_of_step_unknown {file : Nat} {e : Element} {name : String}
    (h : p.step file e = .error (.unknown name)) :
    e.callee? = some name ∧ p.procedure? ⟨file, name⟩ = none := by
  cases e with
  | timed es => exact absurd rfl (timeline_ne_unknown (Result.map_eq_error_iff.1 h) name)
  | command d args => exact absurd rfl (evaluate_ne_unknown (Result.map_eq_error_iff.1 h) name)
  | call callee =>
    simp only [step] at h
    split at h
    · next hn =>
      cases h
      exact ⟨rfl, hn⟩
    · split at h <;> cases h

theorem device_mem_of_step {file : Nat} {e : Element} {t : Timeline} {x : Command}
    (h : p.step file e = .ok (.timeline t)) (hx : x ∈ t.commands) : x.device ∈ e.devices := by
  rcases step_eq_timeline h with ⟨es, rfl, ht⟩ | ⟨d, args, params, rfl, rfl⟩
  · exact device_mem_of_timeline ht hx
  · rw [List.mem_singleton.1 hx]
    exact List.mem_singleton_self d

namespace Closed

variable {c : Compiled} {r : ProcRef}

theorem compile_ne_unknown (hp : p.Closed) {e : CompileError} (h : p.compile = .error e)
    (name : String) : e.fault ≠ .unknown name := by
  obtain ⟨r, hr, hc⟩ := Result.exists_of_mapM_eq_error (Result.map_eq_error_iff.1 h)
  obtain ⟨f, hf, rfl⟩ := Result.mapError_eq_error_iff.1 (Result.map_eq_error_iff.1 hc)
  obtain ⟨s, hs, hr⟩ := List.mem_flatMap.1 hr
  obtain ⟨q, hq, -, -, rfl⟩ := mem_ownProcedures.1 hr
  obtain ⟨i, hi⟩ := exists_holds hs
  have hsound := hp.sound i s hi
  simp only [hsound.file, hp.procedure?_of_mem hi hq] at hf
  obtain ⟨e, he, hstep⟩ := Result.exists_of_mapM_eq_error hf
  intro hu
  subst hu
  obtain ⟨hcallee, hnone⟩ := procedure?_of_step_unknown hstep
  have hisSome := (hsound.bodies q hq e he).callee name hcallee
  obtain ⟨callee, hsome⟩ := Option.isSome_iff_exists.1 hisSome
  have hfound : p.procedure? ⟨i, name⟩ = some callee := procedure?_eq_some_iff.2 ⟨s, hi, hsome⟩
  rw [hnone] at hfound
  cases hfound

theorem mem_compile_iff (hp : p.Closed) (hc : p.compile = .ok c) :
    r ∈ c.procedures.map (·.1) ↔ ∃ q, p.procedure? r = some q ∧ q.origin? = none := by
  rw [map_fst_compile hc, List.mem_flatMap]
  constructor
  · intro h
    obtain ⟨s, hs, hr⟩ := h
    obtain ⟨q, hq, -, ho, rfl⟩ := mem_ownProcedures.1 hr
    obtain ⟨i, hi⟩ := exists_holds hs
    refine ⟨q, ?_, ho⟩
    rw [(hp.sound i s hi).file]
    exact hp.procedure?_of_mem hi hq
  · intro h
    obtain ⟨q, hq, ho⟩ := h
    obtain ⟨s, hs, hq⟩ := procedure?_eq_some_iff.1 hq
    obtain ⟨hm, hname⟩ := Sheet.procedure?_eq_some hq
    refine ⟨s, List.mem_iff_getElem?.2 ⟨_, hs⟩, mem_ownProcedures.2 ⟨q, hm, ?_, ho, ?_⟩⟩
    · exact hp.defined _ s hs q hm
    · rw [(hp.sound _ s hs).file, hname]

theorem nodup_compile (hp : p.Closed) (hc : p.compile = .ok c) :
    (c.procedures.map (·.1)).Nodup := by
  rw [map_fst_compile hc, List.nodup_flatMap]
  constructor
  · intro s hs
    obtain ⟨i, hi⟩ := exists_holds hs
    have hnames : s.procedures.Pairwise fun a b => a.name ≠ b.name :=
      (hp.sound i s hi).sorted.imp fun hlt => String.ne_of_lt hlt
    rw [ownProcedures, List.Nodup, List.pairwise_map]
    exact (hnames.filter _).imp fun hne he => hne (ProcRef.mk.inj he).2
  · rw [List.pairwise_iff_getElem]
    intro i j hi hj hij r hr hr'
    obtain ⟨q, -, -, -, he⟩ := mem_ownProcedures.1 hr
    obtain ⟨q', -, -, -, he'⟩ := mem_ownProcedures.1 hr'
    have hfile := (hp.sound i _ (List.getElem?_eq_getElem hi)).file
    have hfile' := (hp.sound j _ (List.getElem?_eq_getElem hj)).file
    have hsame := (ProcRef.mk.inj (he.symm.trans he')).1
    omega

theorem call_of_step (hp : p.Closed) {file : Nat} {e : Element} {k : Call}
    (h : p.step file e = .ok (.call k)) :
    (∃ q, p.procedure? k.target = some q ∧ q.origin? = none) ∧
      ∀ x ∈ k.bind, (p.device? x.2).isSome = true := by
  obtain ⟨name, callee, rfl, hcallee, rfl⟩ := step_eq_call h
  obtain ⟨s, hs, hfind⟩ := procedure?_eq_some_iff.1 hcallee
  obtain ⟨hmem, -⟩ := Sheet.procedure?_eq_some hfind
  cases ho : callee.origin? with
  | none => exact ⟨⟨callee, hcallee, ho⟩, by simp [Procedure.bind_of_origin?_eq_none ho]⟩
  | some origin =>
    have hd := Procedure.definition_of_origin?_eq_some ho
    have himports := (hp.sound _ s hs).aliases callee hmem origin _ hd
    obtain ⟨t, ht, ⟨body, es, hbody, hes⟩, hbind⟩ := himports.target
    constructor
    · exact ⟨body, procedure?_eq_some_iff.2 ⟨t, ht, hbody⟩, by simp [Procedure.origin?, hes]⟩
    · intro x hx
      exact hp.device?_isSome hs (hbind x hx).2

theorem reaches (hp : p.Closed) (hc : p.compile = .ok c) {entry here : ProcRef}
    {stack : List ProcRef} {bs : List Bind} (hr : Reaches c entry stack bs here)
    (he : ∃ q, p.procedure? entry = some q ∧ q.origin? = none) :
    (∃ q, p.procedure? here = some q ∧ q.origin? = none) ∧
      ∀ d, (p.device? d).isSome = true → (p.device? (Bind.through bs d)).isSome = true := by
  induction hr with
  | entry => exact ⟨he, fun _ h => h⟩
  | call _ _ hb hk ih =>
    obtain ⟨q, hq, hs⟩ := exists_source hc hb
    obtain ⟨e, -, hstep⟩ := Result.exists_of_mem_right hs hk
    obtain ⟨htarget, hbind⟩ := hp.call_of_step hstep
    refine ⟨htarget, fun d hd => ih.2 _ ?_⟩
    rcases Bind.apply_eq_or_mem _ d with hsame | ⟨x, hx, hnew⟩
    · rw [hsame]
      exact hd
    · rw [hnew]
      exact hbind x hx

theorem device?_of_timeline (hp : p.Closed) (hc : p.compile = .ok c) {body : List Step}
    {t : Timeline} {x : Command} (hb : c.steps? r = some body) (ht : .timeline t ∈ body)
    (hx : x ∈ t.commands) : (p.device? x.device).isSome = true := by
  obtain ⟨q, hq, hs⟩ := exists_source hc hb
  obtain ⟨e, he, hstep⟩ := Result.exists_of_mem_right hs ht
  obtain ⟨s, hs, hfind⟩ := procedure?_eq_some_iff.1 hq
  have hsupports := (hp.sound _ s hs).bodies q (Sheet.procedure?_eq_some hfind).1 e he
  exact hp.device?_isSome hs (hsupports.devices _ (device_mem_of_step hstep hx))

theorem build_ne_unknown (hp : p.Closed) (hc : p.compile = .ok c) {τ : Type} {w : Workshop τ}
    {entry : ProcRef} {reg reg' : Registry τ} {e : PlanError}
    (he : ∃ q, p.procedure? entry = some q ∧ q.origin? = none)
    (hb : Plan.build w p c entry reg = (.error e, reg')) :
    (∀ q, e ≠ .unknown q) ∧ ∀ name, e ≠ .device (.undeclared name) := by
  obtain ⟨stack, bs, here, hr, hcause⟩ | ⟨rfl, -⟩ := Plan.build_error hb
  rotate_left
  · exact ⟨nofun, nofun⟩
  obtain ⟨hown, hdeclared⟩ := hp.reaches hc hr he
  cases hcause with
  | recursion _ => exact ⟨nofun, nofun⟩
  | overlap _ _ _ => exact ⟨nofun, nofun⟩
  | unknown hn =>
    have hcompiled := Compiled.steps?_isSome_iff.2 ((hp.mem_compile_iff hc).2 hown)
    rw [hn] at hcompiled
    cases hcompiled
  | device hbody ht hx hfail =>
    refine ⟨nofun, fun name hu => ?_⟩
    obtain rfl := PlanError.device.inj hu
    have hfinal := hdeclared _ (hp.device?_of_timeline hc hbody ht hx)
    rw [← Chain.resolve_eq ⟨bs⟩, Registry.device?_of_resolve_undeclared hfail] at hfinal
    cases hfinal

end Closed

theorem procedure?_of_entry {entry : ProcRef} (h : p.entry = .ok entry) :
    ∃ q, p.procedure? entry = some q ∧ q.origin? = none := by
  simp only [Program.entry] at h
  split at h
  · cases h
  · next main hmain =>
    split at h
    · cases h
    · next ho =>
      obtain rfl := Except.ok.inj h
      exact ⟨main, hmain, by simpa using ho⟩

end Program

namespace Loader

/-- Whatever can be loaded is closed, so that nothing is missing from it later. -/
theorem program_closed {L : Loader} {here : Place} {root : String} {p : Program}
    (hL : L.reader = .standard) (h : L.program here root = .ok p) :
    p.Closed ∧
      (∀ e, p.compile = .error e → ∀ name, e.fault ≠ .unknown name) ∧
      (∀ c, p.compile = .ok c → (c.procedures.map (·.1)).Nodup ∧
        ∀ r, r ∈ c.procedures.map (·.1) ↔ ∃ q, p.procedure? r = some q ∧ q.origin? = none) ∧
      ∀ c entry, p.compile = .ok c → p.entry = .ok entry →
        ∀ (τ : Type) (w : Workshop τ) (r r' : Registry τ) (e : PlanError),
          Plan.build w p c entry r = (.error e, r') →
            (∀ q, e ≠ .unknown q) ∧ ∀ name, e ≠ .device (.undeclared name) := by
  have hp := closed_of_program hL h
  refine ⟨hp, fun e he => hp.compile_ne_unknown he, fun c hc => ?_, ?_⟩
  · exact ⟨hp.nodup_compile hc, fun r => hp.mem_compile_iff hc⟩
  · intro c entry hc hentry τ w r r' e hb
    exact hp.build_ne_unknown hc (Program.procedure?_of_entry hentry) hb

/-- A file that loads another and puts its own lamp in place of the one there. Neither is a lamp
that can be made, so the plan is refused, for that reason alone. -/
def unmakeable : Loader where
  tree := ⟨[
    (["a"], .file
      "#device Bulb\n#load \"b\" (Lamp as Bulb)\nproc Main \x7b\nOn\n\x7d".toUTF8.toList),
    (["b"], .file "#device Lamp\nproc On \x7b\nLamp(\"x\")\n\x7d".toUTF8.toList)]⟩

theorem program_closed_unmakeable :
    ∃ p c entry, unmakeable.program [] "a" = .ok p ∧ p.compile = .ok c ∧ p.entry = .ok entry ∧
      (Plan.build ⟨fun _ => (), "", false⟩ p c entry {}).1 =
        .error (.device (.unknownType "Bulb" "#")) ∧
      p.Closed ∧ (⟨1, "On"⟩ : ProcRef) ∈ c.procedures.map (·.1) ∧
      (⟨0, "On"⟩ : ProcRef) ∉ c.procedures.map (·.1) := by
  have hrun : (do
      let p : Program ← (unmakeable.program [] "a").mapError fun _ => ()
      let c ← p.compile.mapError fun _ => ()
      let entry ← p.entry.mapError fun _ => ()
      return ((Plan.build ⟨fun _ => (), "", false⟩ p c entry {}).1.map fun _ => (),
        (p.procedure? ⟨1, "On"⟩).map Procedure.origin?,
        (p.procedure? ⟨0, "On"⟩).map Procedure.origin?)) =
      Except.ok (.error (.device (.unknownType "Bulb" "#")), some none, some (some ⟨1, "On"⟩)) := by
    cbv
  simp only [Result.bind_eq_ok_iff, Result.mapError_eq_ok_iff, Result.map_eq_error_iff, pure,
    Except.pure, Except.ok.injEq, Prod.mk.injEq, Option.map_eq_some_iff] at hrun
  obtain ⟨p, hp, c, hc, entry, he, hb, ⟨on, hon, ho⟩, ⟨on', hon', ho'⟩⟩ := hrun
  obtain ⟨hclosed, -, hkeys, -⟩ := program_closed rfl hp
  refine ⟨p, c, entry, hp, hc, he, hb, hclosed, ((hkeys c hc).2 _).2 ⟨on, hon, ho⟩, fun hk => ?_⟩
  obtain ⟨q, hq, hn⟩ := ((hkeys c hc).2 _).1 hk
  rw [hon'] at hq
  obtain rfl := Option.some.inj hq
  rw [ho'] at hn
  cases hn

end Loader

end CueSheet
