import CueSheet.Proofs.Load.Ranked
import CueSheet.Proofs.Plan.Closed

/-!
Substitution captures nothing. A chain sends a device through every frame, whatever the inner frames
made of it; the lexical rule follows it from one alias outward to the next and stops where an alias
has no pair for it. The two agree on the devices of a body, because a bind leads from the file that
is called to the file that calls, and the files on a way rise in rank from the inside outward: a
device that an inner call left alone belongs to a file that no outer bind speaks of.
-/

namespace CueSheet

inductive Hop
  | within
  | across (bind : Bind)

namespace Hop

def bind : Hop → Bind
  | .within => []
  | .across b => b

/-- Where a device leads, the innermost call first. A call within a file is not noticed; the first
alias without a pair for the device is the end. -/
def lexical : List Hop → DeviceId → DeviceId
  | [], d => d
  | .within :: outer, d => lexical outer d
  | .across b :: outer, d =>
    match b.find? (·.1 = d) with
    | some x => lexical outer x.2
    | none => d

end Hop

/-- The calls of the source that lead from `entry` to a procedure, and the procedures that they
start from. No procedure is entered while it is open. -/
inductive Program.Way (p : Program) (entry : ProcRef) :
    List ProcRef → List Hop → ProcRef → Prop
  | entry : p.Way entry [] [] entry
  | within {stack : List ProcRef} {hops : List Hop} {here : ProcRef} {q callee : Procedure}
      {name : String} : p.Way entry stack hops here → here ∉ stack →
      p.procedure? here = some q → .call name ∈ q.body →
      p.procedure? ⟨here.file, name⟩ = some callee → callee.origin? = none →
      p.Way entry (stack ++ [here]) (.within :: hops) ⟨here.file, name⟩
  | across {stack : List ProcRef} {hops : List Hop} {here origin : ProcRef} {q callee : Procedure}
      {name : String} {bind : Bind} : p.Way entry stack hops here → here ∉ stack →
      p.procedure? here = some q → .call name ∈ q.body →
      p.procedure? ⟨here.file, name⟩ = some callee → callee.definition = .alias origin bind →
      p.Way entry (stack ++ [here]) (.across bind :: hops) origin

/-- The calls of `expand` that a build makes, with the allowance, the stack and the chain of each,
and what was planned before it. -/
inductive Planning.Explored {τ : Type} (w : Workshop τ) (p : Program) (c : Compiled)
    (entry : ProcRef) (r : Registry τ) :
    Nat → List ProcRef → Chain → ProcRef → Planning τ → Prop
  | entry : Explored w p c entry r c.procedures.length [] {} entry { registry := r }
  | call {n : Nat} {stack : List ProcRef} {chain : Chain} {here : ProcRef} {st st' : Planning τ}
      {body before after : List Step} {k : Call} :
      Explored w p c entry r (n + 1) stack chain here st → here ∉ stack →
      c.steps? here = some body → body = before ++ .call k :: after →
      steps w p here chain (expand w p c n (stack ++ [here])) before st = (.ok (), st') →
      Explored w p c entry r n (stack ++ [here]) (chain.push k.bind) k.target st'

theorem Bind.apply_of_unbound {b : Bind} {d : DeviceId} (h : ∀ x ∈ b, x.1 ≠ d) :
    b.apply d = d := by
  have hn : b.find? (·.1 = d) = none := List.find?_eq_none.2 (by simpa using h)
  simp [apply, hn]

theorem Bind.through_of_unbound {bs : List Bind} {d : DeviceId}
    (h : ∀ b ∈ bs, ∀ x ∈ b, x.1 ≠ d) : Bind.through bs d = d := by
  induction bs with
  | nil => rfl
  | cons b outer ih =>
    obtain ⟨hb, ho⟩ := List.forall_mem_cons.1 h
    rw [through, apply_of_unbound hb]
    exact ih ho

namespace Program

variable {p : Program} {rank : Nat → Nat} {entry here origin : ProcRef} {stack : List ProcRef}
  {hops : List Hop} {bind : Bind} {d : DeviceId}

structure Lifts (p : Program) (rank : Nat → Nat) (file : Nat) (origin : ProcRef) (bind : Bind) :
    Prop where
  rank_lt : rank origin.file < rank file
  old : ∀ x ∈ bind, x.1.file = origin.file
  new : ∀ x ∈ bind, x.2.file = file
  declared : ∀ x ∈ bind, (p.device? x.2).isSome = true

theorem Closed.lifts (hp : p.Closed) (hr : ∀ i s, p.Holds i s → s.Descends rank i) {file : Nat}
    {name : String} {callee : Procedure} (hq : p.procedure? ⟨file, name⟩ = some callee)
    (hd : callee.definition = .alias origin bind) : p.Lifts rank file origin bind := by
  obtain ⟨s, hs, hfind⟩ := procedure?_eq_some_iff.1 hq
  have hmem : callee ∈ s.procedures := (Sheet.procedure?_eq_some hfind).1
  have hfile : s.file = file := (hp.sound _ s hs).file
  obtain ⟨t, ht, -, hbind⟩ := ((hp.sound _ s hs).aliases callee hmem origin bind hd).target
  refine ⟨hr _ s hs callee hmem origin bind hd, fun x hx => ?_, fun x hx => ?_, fun x hx => ?_⟩
  · have hold : x.1.file = t.file := (hbind x hx).1.1
    exact hold.trans (hp.sound _ t ht).file
  · have hnew : x.2.file = s.file := (hbind x hx).2.1
    exact hnew.trans hfile
  · exact hp.device?_isSome hs (hbind x hx).2

namespace Way

variable (hp : p.Closed) (hr : ∀ i s, p.Holds i s → s.Descends rank i)
include hp hr

theorem rank_le (h : p.Way entry stack hops here) :
    ∀ hop ∈ hops, ∀ x ∈ hop.bind, rank here.file ≤ rank x.1.file := by
  induction h with
  | entry => simp
  | within _ _ _ _ _ _ ih => exact List.forall_mem_cons.2 ⟨by simp [Hop.bind], ih⟩
  | across _ _ _ _ hcallee hd ih =>
    have hl := hp.lifts hr hcallee hd
    refine List.forall_mem_cons.2 ⟨fun x hx => ?_, fun hop hhop x hx => ?_⟩
    · exact Nat.le_of_eq (congrArg rank (hl.old x hx)).symm
    · have hle := ih hop hhop x hx
      have hlt := hl.rank_lt
      omega

theorem ne_of_rank_lt (h : p.Way entry stack hops here) (hd : rank d.file < rank here.file) :
    ∀ hop ∈ hops, ∀ x ∈ hop.bind, x.1 ≠ d := by
  intro hop hhop x hx he
  have hle := h.rank_le hp hr hop hhop x hx
  rw [he] at hle
  omega

theorem through_eq_lexical (h : p.Way entry stack hops here) (hd : d.file = here.file) :
    Bind.through (hops.map Hop.bind) d = Hop.lexical hops d := by
  induction h generalizing d with
  | entry => rfl
  | within _ _ _ _ _ _ ih => exact ih hd
  | across hway _ _ _ hcallee hdef ih =>
    have hl := hp.lifts hr hcallee hdef
    simp only [List.map_cons, Hop.bind, Bind.through, Bind.apply, Hop.lexical]
    split
    · next x hx =>
      have hx' := List.mem_of_find?_eq_some hx
      simp only [hx, Option.map_some, Option.getD_some]
      exact ih (hl.new x hx')
    · next hn =>
      -- what this alias leaves alone is below all that the outer ones speak of
      have hlow : rank d.file < rank _ := hd ▸ hl.rank_lt
      simp only [hn, Option.map_none, Option.getD_none]
      apply Bind.through_of_unbound
      exact List.forall_mem_map.2 (hway.ne_of_rank_lt hp hr hlow)

theorem lexical_declared (h : p.Way entry stack hops here) (hd : d.file = here.file)
    (hdev : (p.device? d).isSome = true) :
    (p.device? (Hop.lexical hops d)).isSome = true ∧
      ∃ r ∈ stack ++ [here], r.file = (Hop.lexical hops d).file := by
  induction h generalizing d with
  | entry => exact ⟨hdev, _, List.mem_singleton_self _, hd.symm⟩
  | within _ _ _ _ _ _ ih =>
    obtain ⟨hdecl, r, hmem, hfile⟩ := ih hd hdev
    exact ⟨hdecl, r, List.mem_append_left _ hmem, hfile⟩
  | across _ _ _ _ hcallee hdef ih =>
    have hl := hp.lifts hr hcallee hdef
    simp only [Hop.lexical]
    split
    · next x hx =>
      have hx' := List.mem_of_find?_eq_some hx
      obtain ⟨hdecl, r, hmem, hfile⟩ := ih (hl.new x hx') (hl.declared x hx')
      exact ⟨hdecl, r, List.mem_append_left _ hmem, hfile⟩
    · exact ⟨hdev, _, List.mem_append_right _ (List.mem_singleton_self _), hd.symm⟩

/-- Behind an alias nobody has a pair for the device as it comes to that alias. -/
theorem unbound_beyond (h : p.Way entry stack hops here) (hd : rank d.file ≤ rank here.file)
    {inner outer : List Hop} {b : Bind} (hs : hops = inner ++ .across b :: outer) :
    ∀ hop ∈ outer, ∀ x ∈ hop.bind, x.1 ≠ Bind.through (inner.map Hop.bind) d := by
  induction h generalizing d inner with
  | entry => simp at hs
  | within _ _ _ _ _ _ ih =>
    cases inner with
    | nil => simp at hs
    | cons hop inner =>
      obtain ⟨rfl, htail⟩ := List.cons.inj hs
      exact @ih d hd inner htail
  | @across _ _ here origin _ _ _ bind hway _ _ _ hcallee hdef ih =>
    have hl := hp.lifts hr hcallee hdef
    cases inner with
    | nil =>
      obtain ⟨-, rfl⟩ := List.cons.inj hs
      exact hway.ne_of_rank_lt hp hr (Nat.lt_of_le_of_lt hd hl.rank_lt)
    | cons hop inner =>
      obtain ⟨rfl, htail⟩ := List.cons.inj hs
      have hle : rank (Bind.apply bind d).file ≤ rank here.file := by
        rcases Bind.apply_eq_or_mem bind d with hsame | ⟨x, hx, hnew⟩
        · have hlt := hl.rank_lt
          rw [hsame]
          omega
        · exact Nat.le_of_eq (by rw [hnew, hl.new x hx])
      exact @ih _ hle inner htail

end Way

theorem way_of_explored {c : Compiled} (hc : p.compile = .ok c) {τ : Type} {w : Workshop τ}
    {r : Registry τ} {n : Nat} {chain : Chain} {st : Planning τ}
    (h : Planning.Explored w p c entry r n stack chain here st) :
    ∃ hops, p.Way entry stack hops here ∧ chain.frames = hops.map Hop.bind := by
  induction h with
  | entry => exact ⟨[], .entry, rfl⟩
  | @call n stack chain here st st' body before after k _ hn hbody hsplit _ ih =>
    obtain ⟨hops, hway, hframes⟩ := ih
    obtain ⟨q, hq, hsource⟩ := exists_source hc hbody
    have hk : Step.call k ∈ body := by simp [hsplit]
    obtain ⟨e, he, hstep⟩ := Result.exists_of_mem_right hsource hk
    obtain ⟨name, callee, rfl, hcallee, rfl⟩ := step_eq_call hstep
    cases ho : callee.origin? with
    | none =>
      refine ⟨.within :: hops, ?_, ?_⟩
      · exact .within hway hn hq he hcallee ho
      · simp [Chain.push, hframes, Hop.bind, Procedure.bind_of_origin?_eq_none ho]
    | some origin =>
      have hdef := Procedure.definition_of_origin?_eq_some ho
      refine ⟨.across callee.bind :: hops, ?_, ?_⟩
      · exact .across hway hn hq he hcallee hdef
      · simp [Chain.push, hframes, Hop.bind]

end Program

/-- Wherever a build comes to, its chain makes of the devices of the body there what the lexical rule
makes of them: devices of a file on the way, and none that a call further out has a pair for once it
came to an alias. -/
theorem Plan.build_lexical {L : Loader} {place : Place} {root : String} {p : Program}
    {c : Compiled} {entry : ProcRef} (hL : L.reader = .standard)
    (h : L.program place root = .ok p) (hc : p.compile = .ok c)
    {τ : Type} {w : Workshop τ} {r : Registry τ} {n : Nat} {stack : List ProcRef} {chain : Chain}
    {here : ProcRef} {st : Planning τ}
    (hx : Planning.Explored w p c entry r n stack chain here st) :
    ∃ hops, p.Way entry stack hops here ∧ chain.frames = hops.map Hop.bind ∧
      ∀ q, p.procedure? here = some q → ∀ e ∈ q.body, ∀ d ∈ e.devices,
        chain.resolve d = Hop.lexical hops d ∧
        (p.device? (chain.resolve d)).isSome = true ∧
        (∃ x ∈ stack ++ [here], x.file = (chain.resolve d).file) ∧
        ∀ inner b outer, hops = inner ++ .across b :: outer →
          ∀ hop ∈ outer, ∀ x ∈ hop.bind, x.1 ≠ Bind.through (inner.map Hop.bind) d := by
  have hp := Loader.closed_of_program hL h
  obtain ⟨rank, hr⟩ := Loader.exists_rank hL h
  obtain ⟨hops, hway, hframes⟩ := Program.way_of_explored hc hx
  refine ⟨hops, hway, hframes, fun q hq e he d hd => ?_⟩
  obtain ⟨s, hs, hfind⟩ := Program.procedure?_eq_some_iff.1 hq
  have hmem : q ∈ s.procedures := (Sheet.procedure?_eq_some hfind).1
  have hdecl : s.Declares d := ((hp.sound _ s hs).bodies q hmem e he).devices d hd
  have hfile : d.file = here.file := hdecl.1.trans (hp.sound _ s hs).file
  have hresolve : chain.resolve d = Hop.lexical hops d := by
    rw [Chain.resolve_eq, hframes, hway.through_eq_lexical hp hr hfile]
  obtain ⟨hfinal, x, hx, hxfile⟩ := hway.lexical_declared hp hr hfile (hp.device?_isSome hs hdecl)
  rw [hresolve]
  refine ⟨rfl, hfinal, ⟨x, hx, hxfile⟩, fun inner b outer hsplit => ?_⟩
  exact hway.unbound_beyond hp hr (Nat.le_of_eq (congrArg rank hfile)) hsplit

def substitutedTwice : Loader where
  tree := ⟨[
    (["a"], .file ("#device A\n#load \"b\" B as A\nproc Main \x7b\nG\n\x7d\n" ++
      "proc G \x7b\nF\n\x7d").toUTF8.toList),
    (["b"], .file "#device B\n#load \"c\" C as B\nproc F \x7b\nK\n\x7d".toUTF8.toList),
    (["c"], .file "#device C\n#device D\nproc K \x7b\nC\nD\n\x7d".toUTF8.toList)]⟩

theorem Plan.build_lexical_substitutedTwice : ∃ p c n st hops,
    substitutedTwice.program [] "a" = .ok p ∧ p.compile = .ok c ∧
    Planning.Explored (τ := Unit) ⟨fun _ => (), "", false⟩ p c ⟨0, "Main"⟩ {} n
      [⟨0, "Main"⟩, ⟨0, "G"⟩, ⟨1, "F"⟩] ⟨[[(⟨2, 0⟩, ⟨1, 0⟩)], [(⟨1, 0⟩, ⟨0, 0⟩)], []]⟩
      ⟨2, "K"⟩ st ∧
    p.Way ⟨0, "Main"⟩ [⟨0, "Main"⟩, ⟨0, "G"⟩, ⟨1, "F"⟩] hops ⟨2, "K"⟩ ∧
    Hop.lexical hops ⟨2, 0⟩ = ⟨0, 0⟩ ∧ Hop.lexical hops ⟨2, 1⟩ = ⟨2, 1⟩ := by
  have hrun : (do
      let p : Program ← (substitutedTwice.program [] "a").mapError fun _ => ()
      let c ← p.compile.mapError fun _ => ()
      return (c.procedures.length, c.steps? ⟨0, "Main"⟩, c.steps? ⟨0, "G"⟩,
        c.steps? ⟨1, "F"⟩, (p.procedure? ⟨2, "K"⟩).map (·.body.map Element.devices))) =
      Except.ok (4, some [.call ⟨⟨0, "G"⟩, []⟩],
        some [.call ⟨⟨1, "F"⟩, [(⟨1, 0⟩, ⟨0, 0⟩)]⟩],
        some [.call ⟨⟨2, "K"⟩, [(⟨2, 0⟩, ⟨1, 0⟩)]⟩], some [[⟨2, 0⟩], [⟨2, 1⟩]]) := by
    cbv
  simp only [Result.bind_eq_ok_iff, Result.mapError_eq_ok_iff, pure, Except.pure, Except.ok.injEq,
    Prod.mk.injEq, Option.map_eq_some_iff] at hrun
  obtain ⟨p, hp, c, hc, hlength, hmain, hg, hf, k, hk, hdevices⟩ := hrun
  have hx₀ : Planning.Explored (τ := Unit) ⟨fun _ => (), "", false⟩ p c ⟨0, "Main"⟩ {} 4 [] {}
      ⟨0, "Main"⟩ { registry := {} } := hlength ▸ .entry
  have hx₁ := hx₀.call (by simp) hmain (List.nil_append _).symm rfl
  have hx₂ := hx₁.call (by simp) hg (List.nil_append _).symm rfl
  have hx₃ := hx₂.call (by simp) hf (List.nil_append _).symm rfl
  obtain ⟨hops, hway, -, hlex⟩ := Plan.build_lexical rfl hp hc hx₃
  have hdevice : ∀ d, [d] ∈ k.body.map Element.devices →
      (⟨[[(⟨2, 0⟩, ⟨1, 0⟩)], [(⟨1, 0⟩, ⟨0, 0⟩)], []]⟩ : Chain).resolve d = Hop.lexical hops d := by
    intro d hd
    obtain ⟨e, he, hed⟩ := List.mem_map.1 hd
    exact (hlex k hk e he d (by simp [hed])).1
  refine ⟨p, c, _, _, hops, hp, hc, hx₃, hway, ?_, ?_⟩
  · rw [← hdevice _ (by simp [hdevices])]
    rfl
  · rw [← hdevice _ (by simp [hdevices])]
    rfl

end CueSheet
