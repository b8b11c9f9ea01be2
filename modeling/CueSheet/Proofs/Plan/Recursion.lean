import CueSheet.Proofs.Basic
import CueSheet.Proofs.Plan.Capture

/-!
Procedures that call themselves, directly or through others. A build goes along the calls without
looking ahead; it still comes to an end, because no procedure is entered while it is open. A cycle on
its way is the end of it, and what it then reports is a cycle.
-/

namespace CueSheet

def Compiled.Calls (c : Compiled) (a b : ProcRef) : Prop :=
  ∃ body k, c.steps? a = some body ∧ .call k ∈ body ∧ k.target = b

/-- A way around, from `first` through `rest` and back. The entry leads to it. -/
structure Compiled.Cycle (c : Compiled) (entry first : ProcRef) (rest : List ProcRef) : Prop where
  reached : Relation.ReflTransGen c.Calls entry first
  distinct : (first :: rest).Nodup
  calls : (first :: rest ++ [first]).IsChain c.Calls

inductive Planning.Task
  | enter (here : ProcRef)
  | perform (here : ProcRef) (rest : List Step)

/-- The expansion with nothing to bound it: how a task ends that is begun with these procedures open,
these binds in force and this much planned. What has no end is not here. -/
inductive Planning.Runs {τ : Type} (w : Workshop τ) (p : Program) (c : Compiled) :
    List ProcRef → Chain → Task → Planning τ → Outcome τ → Prop
  | recursion {stack : List ProcRef} {chain : Chain} {here : ProcRef} {st : Planning τ} :
      here ∈ stack → Runs w p c stack chain (.enter here) st
        (.error (.recursion ((stack.dropWhile (· ≠ here)).map (·.name) ++ [here.name])), st)
  | unknown {stack : List ProcRef} {chain : Chain} {here : ProcRef} {st : Planning τ} :
      here ∉ stack → c.steps? here = none →
      Runs w p c stack chain (.enter here) st (.error (.unknown here), st)
  | body {stack : List ProcRef} {chain : Chain} {here : ProcRef} {st : Planning τ}
      {body : List Step} {out : Outcome τ} : here ∉ stack → c.steps? here = some body →
      Runs w p c (stack ++ [here]) chain (.perform here body) st out →
      Runs w p c stack chain (.enter here) st out
  | done {stack : List ProcRef} {chain : Chain} {here : ProcRef} {st : Planning τ} :
      Runs w p c stack chain (.perform here []) st (.ok (), st)
  | timeline {stack : List ProcRef} {chain : Chain} {here : ProcRef} {st st' : Planning τ}
      {t : Timeline} {rest : List Step} {out : Outcome τ} :
      timeline w p here chain t st = (.ok (), st') →
      Runs w p c stack chain (.perform here rest) st' out →
      Runs w p c stack chain (.perform here (.timeline t :: rest)) st out
  | refused {stack : List ProcRef} {chain : Chain} {here : ProcRef} {st st' : Planning τ}
      {t : Timeline} {rest : List Step} {e : PlanError} :
      timeline w p here chain t st = (.error e, st') →
      Runs w p c stack chain (.perform here (.timeline t :: rest)) st (.error e, st')
  | call {stack : List ProcRef} {chain : Chain} {here : ProcRef} {st st' : Planning τ} {k : Call}
      {rest : List Step} {out : Outcome τ} :
      Runs w p c stack (chain.push k.bind) (.enter k.target) st (.ok (), st') →
      Runs w p c stack chain (.perform here rest) st' out →
      Runs w p c stack chain (.perform here (.call k :: rest)) st out
  | failed {stack : List ProcRef} {chain : Chain} {here : ProcRef} {st st' : Planning τ} {k : Call}
      {rest : List Step} {e : PlanError} :
      Runs w p c stack (chain.push k.bind) (.enter k.target) st (.error e, st') →
      Runs w p c stack chain (.perform here (.call k :: rest)) st (.error e, st')

namespace Planning

variable {τ : Type} {w : Workshop τ} {p : Program} {c : Compiled} {entry here : ProcRef}
  {stack : List ProcRef} {chain : Chain} {st : Planning τ}

theorem Runs.unique {task : Task} {out out' : Outcome τ} (h : Runs w p c stack chain task st out)
    (h' : Runs w p c stack chain task st out') : out = out' := by
  induction h generalizing out' with
  | recursion hs =>
    cases h' with
    | recursion _ => rfl
    | unknown hn _ => exact absurd hs hn
    | body hn _ _ => exact absurd hs hn
  | unknown hn hb =>
    cases h' with
    | recursion hs => exact absurd hs hn
    | unknown _ _ => rfl
    | body _ hb' _ => rw [hb] at hb'; cases hb'
  | body hn hb _ ih =>
    cases h' with
    | recursion hs => exact absurd hs hn
    | unknown _ hb' => rw [hb] at hb'; cases hb'
    | body _ hb' h' =>
      obtain rfl := Option.some.inj (hb.symm.trans hb')
      exact ih h'
  | done => cases h'; rfl
  | timeline ht _ ih =>
    cases h' with
    | timeline ht' h' =>
      obtain ⟨-, rfl⟩ := Prod.mk.inj (ht.symm.trans ht')
      exact ih h'
    | refused ht' => cases ht.symm.trans ht'
  | refused ht =>
    cases h' with
    | timeline ht' _ => cases ht.symm.trans ht'
    | refused ht' => exact ht.symm.trans ht'
  | call _ _ ihk ih =>
    cases h' with
    | call hk' h' =>
      obtain ⟨-, rfl⟩ := Prod.mk.inj (ihk hk')
      exact ih h'
    | failed hk' => cases ihk hk'
  | failed _ ihk =>
    cases h' with
    | call hk' _ => cases ihk hk'
    | failed hk' => exact ihk hk'

theorem runs_steps {visit : Chain → ProcRef → Planning τ → Outcome τ} {rest : List Step}
    (hv : ∀ k, .call k ∈ rest → ∀ st,
      Runs w p c stack (chain.push k.bind) (.enter k.target) st
        (visit (chain.push k.bind) k.target st)) :
    Runs w p c stack chain (.perform here rest) st (steps w p here chain visit rest st) := by
  induction rest generalizing st with
  | nil => exact .done
  | cons s rest ih =>
    have hrest : ∀ st, Runs w p c stack chain (.perform here rest) st
        (steps w p here chain visit rest st) :=
      fun _ => ih fun k hk => hv k (List.mem_cons_of_mem _ hk)
    cases s with
    | timeline t =>
      simp only [steps]
      split
      · next he => exact .refused (Prod.ext he rfl)
      · next he => exact .timeline (Prod.ext he rfl) (hrest _)
    | call k =>
      have hk := hv k List.mem_cons_self st
      simp only [steps]
      split
      · next he =>
        apply Runs.failed
        rwa [← Prod.eta (visit _ _ _), he] at hk
      · next he =>
        apply Runs.call ?_ (hrest _)
        rwa [← Prod.eta (visit _ _ _), he] at hk

/-- An allowance for the procedures that are not open yet is as good as none at all. -/
theorem runs_expand {n : Nat} (hr : Reaches c entry stack chain.frames here)
    (hn : c.procedures.length ≤ n + stack.length) :
    Runs w p c stack chain (.enter here) st (expand w p c n stack chain here st) := by
  induction n using Nat.strongRecOn generalizing stack chain here st with
  | ind n ih =>
    generalize h : expand w p c n stack chain here st = out
    obtain ⟨result, st'⟩ := out
    rcases expand_cases h with ⟨hs, rfl, rfl⟩ | ⟨hs, hb, rfl, rfl⟩ | ⟨body, m, hs, hb, rfl, hsteps⟩
    · exact .recursion hs
    · refine .unknown hs ?_
      rcases hb with hb | rfl
      · exact hb
      · exact hr.steps?_eq_none hs (by omega)
    · rw [← hsteps]
      refine .body hs hb (runs_steps fun k hk st => ?_)
      apply ih m (Nat.lt_succ_self m) (hr.call hs hb hk)
      rw [List.length_append, List.length_singleton]
      omega

theorem reaches_of_explored {r : Registry τ} {n : Nat}
    (h : Explored w p c entry r n stack chain here st) : Reaches c entry stack chain.frames here := by
  induction h with
  | entry => exact .entry
  | call _ hn hb hsplit _ ih => exact ih.call hn hb (by simp [hsplit])

end Planning

section Calls

variable {c : Compiled} {entry here first : ProcRef} {stack rest : List ProcRef} {bs : List Bind}

theorem Reaches.isChain (h : Reaches c entry stack bs here) : (stack ++ [here]).IsChain c.Calls := by
  induction h with
  | entry => exact .singleton _
  | call _ _ hb hk ih => exact isChain_concat ih List.getLast?_concat ⟨_, _, hb, hk, rfl⟩

theorem Reaches.reflTransGen (h : Reaches c entry stack bs here) :
    Relation.ReflTransGen c.Calls entry here := by
  induction h with
  | entry => exact .refl
  | call _ _ hb hk ih => exact ih.tail ⟨_, _, hb, hk, rfl⟩

/-- What a refusal lists is a cycle. -/
theorem Reaches.exists_cycle (h : Reaches c entry stack bs here) (hs : here ∈ stack) :
    ∃ rest, stack.dropWhile (· ≠ here) = here :: rest ∧ c.Cycle entry here rest := by
  obtain ⟨before, rest, rfl, hbefore⟩ := List.eq_append_cons_of_mem hs
  have hne : ∀ a ∈ before, decide (a ≠ here) = true :=
    fun a ha => decide_eq_true fun he => hbefore (he ▸ ha)
  have hdrop : (before ++ here :: rest).dropWhile (· ≠ here) = here :: rest := by
    rw [List.dropWhile_append_of_pos hne, List.dropWhile_cons_of_neg (by simp)]
  have hchain := h.isChain
  rw [List.append_assoc] at hchain
  refine ⟨rest, hdrop, h.reflTransGen, ?_, (List.isChain_append.1 hchain).2.1⟩
  exact (List.nodup_append.1 h.nodup).2.1

namespace Compiled.Cycle

theorem pairwise (h : c.Cycle entry first rest) :
    (∀ x ∈ rest, Relation.TransGen c.Calls first x ∧ Relation.TransGen c.Calls x first) ∧
      Relation.TransGen c.Calls first first := by
  have hway := pairwise_transGen h.calls
  rw [List.cons_append, List.pairwise_cons, List.pairwise_append] at hway
  obtain ⟨hfirst, -, -, hlast⟩ := hway
  refine ⟨fun x hx => ⟨?_, ?_⟩, ?_⟩
  · exact hfirst x (List.mem_append_left _ hx)
  · exact hlast x hx first (List.mem_singleton_self first)
  · exact hfirst first (List.mem_append_right _ (List.mem_singleton_self first))

end Compiled.Cycle

theorem Inlining.acc {body : List Step} {os : List Occurrence} (h : Inlining c bs here body os) :
    ∀ k, .call k ∈ body → Acc (fun b a => c.Calls a b) k.target := by
  induction h with
  | nil => simp
  | timeline _ _ ih =>
    intro k hk
    exact ih k (by simpa using hk)
  | call k hbody _ _ ihk ih =>
    intro k' hk'
    rcases List.mem_cons.1 hk' with he | hk'
    · obtain rfl := Step.call.inj he
      refine .intro _ fun b hb => ?_
      obtain ⟨body', x, hbody', hx, rfl⟩ := hb
      obtain rfl := Option.some.inj (hbody.symm.trans hbody')
      exact ihk x hx
    · exact ih k' hk'

end Calls

theorem Plan.acc_of_build {τ : Type} {w : Workshop τ} {p : Program} {c : Compiled} {entry : ProcRef}
    {r r' : Registry τ} {plan : Plan} (h : Plan.build w p c entry r = (.ok plan, r')) :
    Acc (fun b a => c.Calls a b) entry := by
  obtain ⟨body, os, hbody, hinlining, -, -⟩ := Plan.build_ok h
  refine .intro _ fun b hb => ?_
  obtain ⟨body', k, hbody', hk, rfl⟩ := hb
  obtain rfl := Option.some.inj (hbody.symm.trans hbody')
  exact hinlining.acc k hk

namespace Program

variable {p : Program} {c : Compiled} {rank : Nat → Nat} {a b : ProcRef}

theorem Closed.rank_of_calls (hp : p.Closed) (hr : ∀ i s, p.Holds i s → s.Descends rank i)
    (hc : p.compile = .ok c) (h : c.Calls a b) : b.file = a.file ∨ rank b.file < rank a.file := by
  obtain ⟨body, k, hbody, hk, rfl⟩ := h
  obtain ⟨q, hq, hsource⟩ := exists_source hc hbody
  obtain ⟨e, he, hstep⟩ := Result.exists_of_mem_right hsource hk
  obtain ⟨name, callee, rfl, hcallee, rfl⟩ := step_eq_call hstep
  cases ho : callee.origin? with
  | none => exact .inl rfl
  | some origin =>
    have hdef := Procedure.definition_of_origin?_eq_some ho
    exact .inr (hp.lifts hr hcallee hdef).rank_lt

theorem Closed.rank_of_transGen (hp : p.Closed) (hr : ∀ i s, p.Holds i s → s.Descends rank i)
    (hc : p.compile = .ok c) (h : Relation.TransGen c.Calls a b) :
    b.file = a.file ∨ rank b.file < rank a.file := by
  induction h with
  | single hab => exact hp.rank_of_calls hr hc hab
  | tail _ hstep ih =>
    rcases hp.rank_of_calls hr hc hstep with he | hlt
    · rw [he]
      exact ih
    · rcases ih with he | hlt'
      · exact .inr (he ▸ hlt)
      · exact .inr (Nat.lt_trans hlt hlt')

/-- No cycle leaves its file. -/
theorem Closed.file_of_cycle (hp : p.Closed) (hr : ∀ i s, p.Holds i s → s.Descends rank i)
    (hc : p.compile = .ok c) {entry first : ProcRef} {rest : List ProcRef}
    (h : c.Cycle entry first rest) : ∀ x ∈ rest, x.file = first.file := by
  intro x hx
  obtain ⟨hto, hback⟩ := h.pairwise.1 x hx
  rcases hp.rank_of_transGen hr hc hto with he | hlt
  · exact he
  · rcases hp.rank_of_transGen hr hc hback with he | hlt'
    · exact he.symm
    · omega

end Program

/-- Whatever the program, a build comes to an end and holds no procedure open twice. It does not succeed
where the entry leads to a cycle, and what it reports as recursion is a cycle that the entry leads to,
within one file if the program was loaded. -/
theorem Plan.build_recursion {τ : Type} (w : Workshop τ) (p : Program) (c : Compiled)
    (entry : ProcRef) (r : Registry τ) :
    (∃ out : Planning.Outcome τ,
      (∀ o, Planning.Runs w p c [] {} (.enter entry) { registry := r } o ↔ o = out) ∧
      Plan.build w p c entry r = Planning.plan w out) ∧
    (∀ n stack chain here st, Planning.Explored w p c entry r n stack chain here st →
      stack.Nodup ∧ (here ∉ stack → (stack ++ [here]).Nodup)) ∧
    (∀ a, Relation.ReflTransGen c.Calls entry a → Relation.TransGen c.Calls a a →
      ∀ plan r', Plan.build w p c entry r ≠ (.ok plan, r')) ∧
    ∀ names r', Plan.build w p c entry r = (.error (.recursion names), r') →
      ∃ first rest, c.Cycle entry first rest ∧ Relation.TransGen c.Calls first first ∧
        names = (first :: rest ++ [first]).map (·.name) ∧
        ∀ (L : Loader) (place : Place) (root : String), L.reader = .standard →
          L.program place root = .ok p → p.compile = .ok c → ∀ x ∈ rest, x.file = first.file := by
  refine ⟨?_, fun n stack chain here st hx => ?_, fun a hreach hcycle plan r' hb => ?_,
    fun names r' hb => ?_⟩
  · have hruns : Planning.Runs w p c [] {} (.enter entry) { registry := r }
        (Planning.expand w p c c.procedures.length [] {} entry { registry := r }) :=
      Planning.runs_expand .entry (Nat.le_refl _)
    exact ⟨_, fun o => ⟨fun h => h.unique hruns, fun h => h ▸ hruns⟩, rfl⟩
  · have hstack := (Planning.reaches_of_explored hx).nodup
    refine ⟨hstack, fun hn => ?_⟩
    rw [← List.concat_eq_append]
    exact List.Nodup.concat hn hstack
  · exact not_transGen_of_acc (acc_of_reflTransGen hreach (Plan.acc_of_build hb)) hcycle
  · obtain ⟨stack, bs, here, hr, hcause⟩ := (Plan.build_error hb).resolve_right fun h => nomatch h.1
    cases hcause with
    | recursion hs =>
      obtain ⟨rest, hdrop, hcycle⟩ := hr.exists_cycle hs
      refine ⟨here, rest, hcycle, hcycle.pairwise.2, ?_, fun L place root hL hload hc => ?_⟩
      · rw [hdrop, List.map_append]
        rfl
      · obtain ⟨rank, hrank⟩ := Loader.exists_rank hL hload
        exact (Loader.closed_of_program hL hload).file_of_cycle hrank hc hcycle

def eachOther : Loader where
  tree := ⟨[
    (["a"], .file "#load \"b\"\nproc Main \x7b\nPing\n\x7d".toUTF8.toList),
    (["b"], .file ("proc Ping \x7b\nPong\n\x7d\n" ++
      "proc Pong \x7b\nPing\n\x7d").toUTF8.toList)]⟩

theorem Plan.build_recursion_eachOther : ∃ p c first rest,
    eachOther.program [] "a" = .ok p ∧ p.compile = .ok c ∧
    (Plan.build (τ := Unit) ⟨fun _ => (), "", false⟩ p c ⟨0, "Main"⟩ {}).1 =
      .error (.recursion ["Ping", "Pong", "Ping"]) ∧
    c.Cycle ⟨0, "Main"⟩ first rest ∧ ∀ x ∈ rest, x.file = first.file := by
  have hrun : (do
      let p : Program ← (eachOther.program [] "a").mapError fun _ => ()
      let c ← p.compile.mapError fun _ => ()
      return (Plan.build (τ := Unit) ⟨fun _ => (), "", false⟩ p c ⟨0, "Main"⟩ {}).1.map fun _ => ()) =
      Except.ok (.error (.recursion ["Ping", "Pong", "Ping"])) := by
    cbv
  simp only [Result.bind_eq_ok_iff, Result.mapError_eq_ok_iff, Result.map_eq_error_iff, pure,
    Except.pure, Except.ok.injEq] at hrun
  obtain ⟨p, hp, c, hc, hb⟩ := hrun
  obtain ⟨-, -, -, hcycle⟩ :=
    Plan.build_recursion (τ := Unit) ⟨fun _ => (), "", false⟩ p c ⟨0, "Main"⟩ {}
  obtain ⟨first, rest, hcycle, -, -, hfile⟩ := hcycle _ _ (Prod.ext hb rfl)
  exact ⟨p, c, first, rest, hp, hc, hb, hcycle, hfile _ _ _ rfl hp hc⟩

end CueSheet
