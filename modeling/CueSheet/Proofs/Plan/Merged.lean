import CueSheet.Proofs.Plan.Capture
import CueSheet.Proofs.Plan.Safety

/-!
Devices that became one. Whether a device is used twice at once is looked for in the order of
dispatch. For most spans that is no matter: of two that clash, each clashes with the other. But a
span with no length may share its start with a longer one only if it goes out first, and which of
the two goes out first, where they are for one device now, is what the names they had before have
settled.
-/

namespace CueSheet

namespace Span

structure Clash (a b : Span) : Prop where
  device : a.device = b.device
  within : a.start < b.start ∧ b.start < a.stop ∨ b.start < a.start ∧ a.start < b.stop ∨
    a.start = b.start ∧ a.start < a.stop ∧ b.start < b.stop

/-- `b` takes no time, and it starts together with `a`, which does. -/
structure Late (a b : Span) : Prop where
  device : a.device = b.device
  start : a.start = b.start
  takes : a.start < a.stop
  instant : b.stop = b.start

def Clashing (l : List Span) : Prop := ∃ a b, [a, b].Sublist l ∧ a.Clash b

/-- Somewhere a span with no length stands behind a longer one with its start. -/
def Delayed (l : List Span) : Prop := ∃ a b, [a, b].Sublist l ∧ a.Late b

theorem Clash.symm {a b : Span} (h : a.Clash b) : b.Clash a := by
  obtain ⟨hd, hw⟩ := h
  exact ⟨hd.symm, by omega⟩

theorem not_pairwise_not_iff {α : Type} {R : α → α → Prop} {l : List α} :
    ¬ l.Pairwise (fun a b => ¬ R a b) ↔ ∃ a b, [a, b].Sublist l ∧ R a b := by
  rw [List.pairwise_iff_forall_sublist]
  push Not
  rfl

theorem Clashing.perm {l l' : List Span} (h : l.Perm l') : Clashing l ↔ Clashing l' := by
  rw [Clashing, Clashing, ← not_pairwise_not_iff, ← not_pairwise_not_iff,
    h.pairwise_iff fun hab hba => hab hba.symm]

theorem not_delayed_of_forall {l : List Span} (h : ∀ a ∈ l, ∀ b ∈ l, ¬ a.Late b) :
    ¬ Delayed l := by
  rintro ⟨a, b, hab, hlate⟩
  exact h a (hab.subset List.mem_cons_self) b
    (hab.subset (List.mem_cons_of_mem _ List.mem_cons_self)) hlate

theorem apart_iff {a b : Span} (hstart : a.start ≤ b.start) (ha : a.start ≤ a.stop)
    (hb : b.start ≤ b.stop) : a.Apart b ↔ ¬ a.Clash b ∧ ¬ a.Late b := by
  constructor
  · intro h
    constructor
    · rintro ⟨hd, hw⟩
      have hle := h hd
      omega
    · rintro ⟨hd, hs, ht, -⟩
      have hle := h hd
      omega
  · rintro ⟨hclash, hlate⟩ hd
    by_contra hlt
    by_cases hs : a.start = b.start ∧ b.stop = b.start
    · exact hlate ⟨hd, hs.1, by omega, hs.2⟩
    · exact hclash ⟨hd, by omega⟩

theorem not_pairwise_apart_iff {l : List Span} (hl : l.Pairwise fun a b => a.start ≤ b.start)
    (hforward : ∀ s ∈ l, s.start ≤ s.stop) : ¬ l.Pairwise Apart ↔ Clashing l ∨ Delayed l := by
  have hiff : l.Pairwise Apart ↔
      (l.Pairwise fun a b => ¬ a.Clash b) ∧ l.Pairwise fun a b => ¬ a.Late b := by
    rw [← List.pairwise_and_iff]
    constructor
    · exact fun h => (h.and hl).imp_of_mem fun ha hb hab =>
        (apart_iff hab.2 (hforward _ ha) (hforward _ hb)).1 hab.1
    · exact fun h => (h.and hl).imp_of_mem fun ha hb hab =>
        (apart_iff hab.2 (hforward _ ha) (hforward _ hb)).2 hab.1
  rw [hiff, not_and_or, not_pairwise_not_iff, not_pairwise_not_iff]
  rfl

end Span

namespace Timeline

variable {name : DeviceId → String} {cs : List Command}

/-- Sorting leaves what has one device and one start as it is. -/
theorem filter_sort_tie (d : DeviceId) (s : Nat) :
    (sort name cs).filter (fun c => c.device = d ∧ c.start = s) =
      cs.filter (fun c => c.device = d ∧ c.start = s) := by
  apply filter_sort
  apply List.pairwise_of_forall_mem_list
  intro a ha b hb
  obtain ⟨had, has⟩ := of_decide_eq_true (List.mem_filter.1 ha).2
  obtain ⟨hbd, hbs⟩ := of_decide_eq_true (List.mem_filter.1 hb).2
  exact .of_device_eq (had.trans hbd.symm) (Nat.le_of_eq (has.trans hbs.symm))

theorem pairwise_ties_iff {R : Command → Command → Prop} :
    cs.Pairwise (fun a b => a.device = b.device ∧ a.start = b.start → R a b) ↔
      ∀ d s, (cs.filter fun c => c.device = d ∧ c.start = s).Pairwise R := by
  constructor
  · intro h d s
    refine List.pairwise_filter.2 (h.imp fun hab ha hb => ?_)
    obtain ⟨had, has⟩ := of_decide_eq_true ha
    obtain ⟨hbd, hbs⟩ := of_decide_eq_true hb
    exact hab ⟨had.trans hbd.symm, has.trans hbs.symm⟩
  · intro h
    refine List.pairwise_iff_forall_sublist.2 fun {a b} hab hties => ?_
    have hpair := (List.pairwise_filter.1 (h b.device b.start)).sublist hab
    exact List.rel_of_pairwise_cons hpair List.mem_cons_self (by simpa using hties) (by simp)

theorem delayed_iff : Span.Delayed (cs.map Command.span) ↔
    ¬ cs.Pairwise fun a b => a.device = b.device ∧ a.start = b.start →
      ¬ a.span.Late b.span := by
  rw [Span.Delayed, ← Span.not_pairwise_not_iff, List.pairwise_map, not_iff_not]
  constructor
  · intro h
    apply h.imp
    intro a b hab _
    exact hab
  · exact fun h => h.imp fun hab hlate => hab ⟨hlate.device, hlate.start⟩ hlate

theorem delayed_sort_iff : Span.Delayed ((sort name cs).map Command.span) ↔
    Span.Delayed (cs.map Command.span) := by
  simp only [delayed_iff, pairwise_ties_iff, filter_sort_tie]

/-- Sorted, commands overlap for what they are or for the order in which they came. -/
theorem exists_overlap_sort_iff (name : DeviceId → String) (hforward : ∀ c ∈ cs, c.start ≤ c.stop) :
    (∃ o, Span.overlap? ((sort name cs).map Command.span) = some o) ↔
      Span.Clashing (cs.map Command.span) ∨ Span.Delayed (cs.map Command.span) := by
  have hperm : ((sort name cs).map Command.span).Perm (cs.map Command.span) :=
    (sort_perm cs).map Command.span
  have hspans : ∀ s ∈ (sort name cs).map Command.span, s.start ≤ s.stop := by
    intro s hs
    obtain ⟨c, hc, rfl⟩ := List.mem_map.1 (hperm.subset hs)
    exact hforward c hc
  have hstarts : ((sort name cs).map Command.span).Pairwise fun a b => a.start ≤ b.start :=
    List.pairwise_map.2 ((pairwise_sort cs).imp Command.Precedes.start_le)
  calc (∃ o, Span.overlap? ((sort name cs).map Command.span) = some o)
      ↔ ¬ ((sort name cs).map Command.span).Pairwise Span.Apart := by
        rw [← Span.overlap?_eq_none_iff hspans, ← Option.ne_none_iff_exists']
    _ ↔ _ := Span.not_pairwise_apart_iff hstarts hspans
    _ ↔ _ := by rw [Span.Clashing.perm hperm, delayed_sort_iff]

end Timeline

structure Push (τ : Type) where
  here : ProcRef
  depth : Nat
  commands : List Command
  duration : Nat
  before : Planning τ

namespace Push

variable {τ : Type}

def outcome (p : Program) (x : Push τ) : Planning.Outcome τ :=
  Planning.push p x.here x.depth x.commands x.duration x.before

def spans (x : Push τ) : List Span := x.commands.map Command.span

def Overlaps (p : Program) (x : Push τ) : Prop :=
  ∃ name o, (x.outcome p).1 = .error (.overlap x.here name o)

theorem overlaps_iff_exists {p : Program} {x : Push τ} : x.Overlaps p ↔
    ∃ o, Span.overlap? ((if 0 < x.depth then Timeline.sort p.deviceName x.commands
      else x.commands).map Command.span) = some o := by
  simp only [Overlaps, outcome, Planning.push]
  split
  · next o ho => exact ⟨fun _ => ⟨o, ho⟩, fun _ => ⟨_, _, rfl⟩⟩
  · next hn => simp [hn]

end Push

/-- The calls of `push` that a build makes: those of the bodies it expands, as far as it comes. -/
inductive Planning.Pushes {τ : Type} (w : Workshop τ) (p : Program) (c : Compiled)
    (entry : ProcRef) (r : Registry τ) : Push τ → Prop
  | intro {n : Nat} {stack : List ProcRef} {chain : Chain} {here : ProcRef}
      {st st' : Planning τ} {body before after : List Step} {t : Timeline} {cs : List Command}
      {r' : Registry τ} :
      Explored w p c entry r (n + 1) stack chain here st → here ∉ stack →
      c.steps? here = some body → body = before ++ .timeline t :: after →
      steps w p here chain (expand w p c n (stack ++ [here])) before st = (.ok (), st') →
      resolveAll w p chain t.commands st'.registry = (.ok cs, r') →
      Pushes w p c entry r ⟨here, chain.depth, cs, t.duration, { st' with registry := r' }⟩

namespace Planning

variable {τ : Type} {w : Workshop τ} {p : Program} {c : Compiled} {entry : ProcRef}
  {r : Registry τ}

theorem steps_append {here : ProcRef} {chain : Chain}
    {visit : Chain → ProcRef → Planning τ → Outcome τ} {before rest : List Step}
    {st st' : Planning τ} (h : steps w p here chain visit before st = (.ok (), st')) :
    steps w p here chain visit (before ++ rest) st = steps w p here chain visit rest st' := by
  induction before generalizing st with
  | nil =>
    cases h
    rfl
  | cons s before ih =>
    cases s <;>
    · simp only [steps, List.cons_append] at h ⊢
      split at h
      · cases h
      · exact ih h

theorem expand_of_steps {n : Nat} {stack : List ProcRef} {chain : Chain} {here : ProcRef}
    {st : Planning τ} {body : List Step} (hn : here ∉ stack) (hb : c.steps? here = some body) :
    expand w p c (n + 1) stack chain here st =
      steps w p here chain (expand w p c n (stack ++ [here])) body st := by
  rw [expand.eq_def]
  simp only [if_neg hn, hb]

theorem Explored.build_error {n : Nat} {stack : List ProcRef} {chain : Chain} {here : ProcRef}
    {st : Planning τ} {e : PlanError} (hx : Explored w p c entry r n stack chain here st)
    (h : (expand w p c n stack chain here st).1 = .error e) :
    (Plan.build w p c entry r).1 = .error e := by
  induction hx with
  | entry =>
    simp only [Plan.build, Planning.plan, h]
  | @call n stack chain here st st' body before after k _ hn hb hsplit hbefore ih =>
    apply ih
    rw [expand_of_steps hn hb, hsplit, steps_append hbefore]
    simp only [steps, h]

theorem Pushes.build_error {x : Push τ} {e : PlanError} (hx : Pushes w p c entry r x)
    (h : (x.outcome p).1 = .error e) : (Plan.build w p c entry r).1 = .error e := by
  obtain ⟨hexplored, hn, hb, hsplit, hbefore, hresolve⟩ := hx
  apply hexplored.build_error
  rw [expand_of_steps hn hb, hsplit, steps_append hbefore]
  simp only [steps, timeline, hresolve]
  simp only [Push.outcome] at h
  rw [h]

theorem Pushes.overlaps_iff {x : Push τ} (hc : p.compile = .ok c) (hx : Pushes w p c entry r x) :
    x.Overlaps p ↔ Span.Clashing x.spans ∨ Span.Delayed x.spans := by
  obtain @⟨n, stack, chain, here, st, st', body, before, after, t, cs, r', -, -, hb, hsplit, -,
    hresolve⟩ := hx
  obtain rfl := resolveAll_eq_ok hresolve
  let o : Occurrence := ⟨here, chain.frames, t⟩
  have hsafe : t.Safe p.deviceName := Program.safe_of_steps? hc hb (by simp [hsplit])
  have hforward : ∀ x ∈ o.renamed, x.start ≤ x.stop :=
    List.forall_mem_map.2 hsafe.forward
  have hsorted : (if 0 < chain.depth then Timeline.sort p.deviceName o.renamed else o.renamed) =
      Timeline.sort p.deviceName o.renamed := Occurrence.planned_commands (o := o) hsafe
  have hoverlap := Timeline.exists_overlap_sort_iff p.deviceName hforward
  rw [← hsorted] at hoverlap
  exact Push.overlaps_iff_exists.trans hoverlap

end Planning

/-- Two calls of `push` with the same uses of the same devices say the same, unless a device has a
use with no length and a longer one from one time on. Then the call overlaps in which the longer one
came first. -/
theorem Plan.pushes_agree {τ τ' : Type} {w : Workshop τ} {w' : Workshop τ'} {p p' : Program}
    {c c' : Compiled} {entry entry' : ProcRef} {r : Registry τ} {r' : Registry τ'} {x : Push τ}
    {x' : Push τ'} (hc : p.compile = .ok c) (hc' : p'.compile = .ok c')
    (hx : Planning.Pushes w p c entry r x) (hx' : Planning.Pushes w' p' c' entry' r' x')
    (hperm : x'.spans.Perm x.spans) :
    (x.Overlaps p ↔ Span.Clashing x.spans ∨ Span.Delayed x.spans) ∧
    (x'.Overlaps p' ↔ Span.Clashing x.spans ∨ Span.Delayed x'.spans) ∧
    ((∀ a ∈ x.spans, ∀ b ∈ x.spans, ¬ a.Late b) → (x'.Overlaps p' ↔ x.Overlaps p)) ∧
    (x.Overlaps p → ∃ name o, (Plan.build w p c entry r).1 = .error (.overlap x.here name o)) ∧
    (x'.Overlaps p' →
      ∃ name o, (Plan.build w' p' c' entry' r').1 = .error (.overlap x'.here name o)) := by
  have hoverlaps := hx.overlaps_iff hc
  have hoverlaps' := hx'.overlaps_iff hc'
  rw [Span.Clashing.perm hperm] at hoverlaps'
  refine ⟨hoverlaps, hoverlaps', fun hlate => ?_, fun h => ?_, fun h => ?_⟩
  · have hnone : ¬ Span.Delayed x.spans := Span.not_delayed_of_forall hlate
    have hnone' : ¬ Span.Delayed x'.spans := Span.not_delayed_of_forall fun a ha b hb =>
      hlate a (hperm.subset ha) b (hperm.subset hb)
    rw [hoverlaps, hoverlaps', or_iff_left hnone, or_iff_left hnone']
  · obtain ⟨name, o, ho⟩ := h
    exact ⟨name, o, hx.build_error ho⟩
  · obtain ⟨name, o, ho⟩ := h
    exact ⟨name, o, hx'.build_error ho⟩

/-- Two devices that one is put in for. In each body one of them is used for no time and the other
for longer; that one has the second name in the first body and the first name in the second. -/
def tiedStarts : Program where
  sheets := [
    { file := 0
      path := "a"
      devices := [⟨⟨0, 0⟩, "Print", .system, [], none⟩]
      procedures := [
        ⟨"First", .alias ⟨1, "First"⟩ [(⟨1, 0⟩, ⟨0, 0⟩), (⟨1, 1⟩, ⟨0, 0⟩)]⟩,
        ⟨"Main", .body [.call "First", .call "Second"]⟩,
        ⟨"Second", .alias ⟨1, "Second"⟩ [(⟨1, 0⟩, ⟨0, 0⟩), (⟨1, 1⟩, ⟨0, 0⟩)]⟩] },
    { file := 1
      path := "b"
      devices := [⟨⟨1, 0⟩, "Left", .system, [], none⟩, ⟨⟨1, 1⟩, "Right", .system, [], none⟩]
      procedures := [
        ⟨"First", .body [.timed [
          ⟨⟨1, 0⟩, [], some ⟨some 0, .at 0⟩⟩, ⟨⟨1, 1⟩, [], some ⟨some 0, .after 5⟩⟩]]⟩,
        ⟨"Second", .body [.timed [
          ⟨⟨1, 0⟩, [], some ⟨some 0, .after 5⟩⟩, ⟨⟨1, 1⟩, [], some ⟨some 0, .at 0⟩⟩]]⟩] }]

theorem pushes_tiedStarts : ∃ (c : Compiled) (st st' : Planning Unit), tiedStarts.compile = .ok c ∧
    Planning.Pushes ⟨fun _ => (), "", false⟩ tiedStarts c ⟨0, "Main"⟩ {}
      ⟨⟨1, "First"⟩, 1, [⟨⟨0, 0⟩, [], 0, 0⟩, ⟨⟨0, 0⟩, [], 0, 5⟩], 5, st⟩ ∧
    Planning.Pushes ⟨fun _ => (), "", false⟩ tiedStarts c ⟨0, "Main"⟩ {}
      ⟨⟨1, "Second"⟩, 1, [⟨⟨0, 0⟩, [], 0, 5⟩, ⟨⟨0, 0⟩, [], 0, 0⟩], 5, st'⟩ := by
  have hrun : (do
      let c ← tiedStarts.compile.mapError fun _ => ()
      return (c.procedures.length, c.steps? ⟨0, "Main"⟩, c.steps? ⟨1, "First"⟩,
        c.steps? ⟨1, "Second"⟩)) =
      Except.ok (3, some [
          .call ⟨⟨1, "First"⟩, [(⟨1, 0⟩, ⟨0, 0⟩), (⟨1, 1⟩, ⟨0, 0⟩)]⟩,
          .call ⟨⟨1, "Second"⟩, [(⟨1, 0⟩, ⟨0, 0⟩), (⟨1, 1⟩, ⟨0, 0⟩)]⟩],
        some [.timeline ⟨[⟨⟨1, 0⟩, [], 0, 0⟩, ⟨⟨1, 1⟩, [], 0, 5⟩], 5⟩],
        some [.timeline ⟨[⟨⟨1, 0⟩, [], 0, 5⟩, ⟨⟨1, 1⟩, [], 0, 0⟩], 5⟩]) := by
    cbv
  simp only [Result.bind_eq_ok_iff, Result.mapError_eq_ok_iff, pure, Except.pure, Except.ok.injEq,
    Prod.mk.injEq] at hrun
  obtain ⟨c, hc, hlength, hmain, hfirst, hsecond⟩ := hrun
  have hx : Planning.Explored (τ := Unit) ⟨fun _ => (), "", false⟩ tiedStarts c ⟨0, "Main"⟩ {} 3 [] {}
      ⟨0, "Main"⟩ { registry := {} } := hlength ▸ .entry
  have hx₁ := hx.call (by simp) hmain (List.nil_append _).symm rfl
  have hpush := Planning.Pushes.intro hx₁ (by simp) hfirst (List.nil_append _).symm rfl rfl
  have hbefore : Planning.steps (τ := Unit) ⟨fun _ => (), "", false⟩ tiedStarts ⟨0, "Main"⟩ {}
      (Planning.expand ⟨fun _ => (), "", false⟩ tiedStarts c 2 ([] ++ [⟨0, "Main"⟩]))
      [.call ⟨⟨1, "First"⟩, [(⟨1, 0⟩, ⟨0, 0⟩), (⟨1, 1⟩, ⟨0, 0⟩)]⟩] { registry := {} } =
      (.ok (), ⟨⟨[⟨⟨0, 0⟩, "Print", .print ""⟩], [⟨0, 0⟩]⟩,
        [⟨⟨1, "First"⟩, ⟨[⟨⟨0, 0⟩, [], 0, 0⟩, ⟨⟨0, 0⟩, [], 0, 5⟩], 5⟩⟩]⟩) := by
    rw [Planning.steps, Planning.expand_of_steps (by simp) hfirst]
    cbv
  have hx₂ := hx.call (by simp) hmain List.singleton_append.symm hbefore
  have hpush' := Planning.Pushes.intro hx₂ (by simp) hsecond (List.nil_append _).symm rfl rfl
  exact ⟨c, _, _, hc, hpush, hpush'⟩

theorem Plan.pushes_agree_tiedStarts : ∃ (c : Compiled) (name : String) (o : Overlap),
    tiedStarts.compile = .ok c ∧
    (Plan.build (τ := Unit) ⟨fun _ => (), "", false⟩ tiedStarts c ⟨0, "Main"⟩ {}).1 =
      .error (.overlap ⟨1, "Second"⟩ name o) := by
  obtain ⟨c, st, st', hc, hx, hx'⟩ := pushes_tiedStarts
  obtain ⟨-, hoverlaps, -, -, hrefused⟩ := Plan.pushes_agree hc hc hx hx' (.swap _ _ [])
  obtain ⟨name, o, ho⟩ := hrefused (hoverlaps.2 (.inr
    ⟨_, _, List.Sublist.refl _, rfl, rfl, by decide, rfl⟩))
  exact ⟨c, name, o, hc, ho⟩

theorem Plan.pushes_not_always_agree : ¬ ∀ (w : Workshop Unit) (p : Program) (c : Compiled)
    (entry : ProcRef) (r : Registry Unit) (x x' : Push Unit), p.compile = .ok c →
    Planning.Pushes w p c entry r x → Planning.Pushes w p c entry r x' → x'.spans.Perm x.spans →
    (x'.Overlaps p ↔ x.Overlaps p) := by
  intro h
  obtain ⟨c, st, st', hc, hx, hx'⟩ := pushes_tiedStarts
  have hsecond := (hx'.overlaps_iff hc).2
    (.inr ⟨_, _, List.Sublist.refl _, rfl, rfl, by decide, rfl⟩)
  obtain ⟨o, ho⟩ := Push.overlaps_iff_exists.1
    ((h _ _ _ _ _ _ _ hc hx hx' (.swap _ _ [])).1 hsecond)
  have hfirst : Span.overlap? ((Timeline.sort tiedStarts.deviceName
      [⟨⟨0, 0⟩, [], 0, 0⟩, ⟨⟨0, 0⟩, [], 0, 5⟩]).map Command.span) = none := by
    cbv
  cases hfirst.symm.trans ho

end CueSheet
