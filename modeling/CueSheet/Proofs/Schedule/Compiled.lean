import CueSheet.Proofs.Schedule.Timeline

/-!
Compiled procedures and their sources, element by element. A program compiles to the procedures
that its files define themselves; the body of each has one step for each element of the source, in
order.
-/

namespace CueSheet

theorem Compiled.steps?_isSome_iff {c : Compiled} {r : ProcRef} :
    (c.steps? r).isSome = true ↔ r ∈ c.procedures.map (·.1) := by
  simp only [steps?, Option.isSome_map, List.find?_isSome, List.mem_map, decide_eq_true_eq]

namespace Program

variable {p : Program} {c : Compiled} {r : ProcRef}

theorem mem_ownProcedures {s : Sheet} :
    r ∈ ownProcedures s ↔
      ∃ q ∈ s.procedures, q.isDefined = true ∧ q.origin? = none ∧ r = ⟨s.file, q.name⟩ := by
  simp only [ownProcedures, List.mem_map, List.mem_filter, Bool.and_eq_true,
    Option.isNone_iff_eq_none, and_assoc]
  exact exists_congr fun q => by rw [eq_comm (a := r)]

theorem compileProcedure_eq_ok_iff {body : List Step} :
    p.compileProcedure r = .ok body ↔ ∃ q, p.procedure? r = some q ∧
      List.Forall₂ (fun e s => p.step r.file e = .ok s) q.body body := by
  simp only [compileProcedure, blame]
  rw [Result.mapError_eq_ok_iff]
  cases p.procedure? r with
  | none => simp
  | some q => simp [Result.mapM_eq_ok_iff]

theorem forall₂_compile (h : p.compile = .ok c) :
    List.Forall₂ (fun r x => x.1 = r ∧ p.compileProcedure r = .ok x.2)
      (p.sheets.flatMap ownProcedures) c.procedures := by
  obtain ⟨ps, hps, rfl⟩ := Result.map_eq_ok_iff.1 h
  refine (Result.mapM_eq_ok_iff.1 hps).imp fun r x hx => ?_
  obtain ⟨body, hb, rfl⟩ := Result.map_eq_ok_iff.1 hx
  exact ⟨rfl, hb⟩

theorem map_fst_compile (h : p.compile = .ok c) :
    c.procedures.map (·.1) = p.sheets.flatMap ownProcedures := by
  have hm := (forall₂_compile h).flip.imp fun _ _ hx => hx.1
  rw [← List.forall₂_eq_eq_eq, List.forall₂_map_left_iff]
  exact hm

theorem compileProcedure_of_steps? {body : List Step} (h : p.compile = .ok c)
    (hb : c.steps? r = some body) : p.compileProcedure r = .ok body := by
  obtain ⟨x, hx, rfl⟩ := Option.map_eq_some_iff.1 hb
  have hr : x.1 = r := by simpa using List.find?_some hx
  obtain ⟨_, -, rfl, hc⟩ :=
    Result.exists_of_mem_right (forall₂_compile h) (List.mem_of_find?_eq_some hx)
  rw [← hr, hc]

theorem exists_source {body : List Step} (h : p.compile = .ok c) (hb : c.steps? r = some body) :
    ∃ q, p.procedure? r = some q ∧
      List.Forall₂ (fun e s => p.step r.file e = .ok s) q.body body :=
  compileProcedure_eq_ok_iff.1 (compileProcedure_of_steps? h hb)

section Step

variable {file : Nat} {s : Step}

theorem step_timed {es : List Entry} (h : p.step file (.timed es) = .ok s) :
    ∃ t, p.timeline es = .ok t ∧ s = .timeline t := by
  obtain ⟨t, ht, rfl⟩ := Result.map_eq_ok_iff.1 h
  exact ⟨t, ht, rfl⟩

theorem step_command {d : DeviceId} {args : List Expr} (h : p.step file (.command d args) = .ok s) :
    ∃ params, args.mapM Expr.eval = .ok params ∧ s = .timeline (Timeline.single d params) := by
  obtain ⟨params, hp, rfl⟩ := Result.map_eq_ok_iff.1 h
  exact ⟨params, evaluate_eq_ok_iff.1 hp, rfl⟩

theorem step_call {name : String} (h : p.step file (.call name) = .ok s) :
    ∃ q, p.procedure? ⟨file, name⟩ = some q ∧
      s = .call ⟨q.origin?.getD ⟨file, name⟩, q.bind⟩ := by
  simp only [step] at h
  split at h
  · cases h
  · next q hq =>
    refine ⟨q, hq, ?_⟩
    simp only [Procedure.origin?, Procedure.bind]
    split at h <;> simp_all

theorem step_eq_call {e : Element} {k : Call} (h : p.step file e = .ok (.call k)) :
    ∃ name callee, e = .call name ∧ p.procedure? ⟨file, name⟩ = some callee ∧
      k = ⟨callee.origin?.getD ⟨file, name⟩, callee.bind⟩ := by
  cases e with
  | timed es =>
    obtain ⟨_, -, he⟩ := step_timed h
    cases he
  | command d args =>
    obtain ⟨_, -, he⟩ := step_command h
    cases he
  | call name =>
    obtain ⟨callee, hcallee, he⟩ := step_call h
    exact ⟨name, callee, rfl, hcallee, Step.call.inj he⟩

theorem step_eq_timeline {e : Element} {t : Timeline} (h : p.step file e = .ok (.timeline t)) :
    (∃ es, e = .timed es ∧ p.timeline es = .ok t) ∨
      ∃ d args params, e = .command d args ∧ t = Timeline.single d params := by
  cases e with
  | timed es =>
    obtain ⟨t', ht, he⟩ := step_timed h
    obtain rfl := Step.timeline.inj he
    exact .inl ⟨es, rfl, ht⟩
  | command d args =>
    obtain ⟨params, -, he⟩ := step_command h
    exact .inr ⟨d, args, params, rfl, Step.timeline.inj he⟩
  | call name =>
    obtain ⟨_, -, he⟩ := step_call h
    cases he

theorem safe_of_step {e : Element} {t : Timeline} (h : p.step file e = .ok (.timeline t)) :
    t.Safe p.deviceName := by
  rcases step_eq_timeline h with ⟨es, -, ht⟩ | ⟨d, args, params, -, rfl⟩
  · exact safe_timeline ht
  · exact Timeline.safe_single _ _ _

end Step

theorem safe_of_steps? {body : List Step} {t : Timeline} (h : p.compile = .ok c)
    (hb : c.steps? r = some body) (ht : .timeline t ∈ body) : t.Safe p.deviceName := by
  obtain ⟨q, -, hf⟩ := exists_source h hb
  obtain ⟨e, -, he⟩ := Result.exists_of_mem_right hf ht
  exact safe_of_step he

end Program

end CueSheet
