import CueSheet.Proofs.Plan.Refusal
import CueSheet.Proofs.Plan.Safety

/-!
To call through an alias is to call a copy of the origin with other devices written in. The planner
renames a block that was sorted by its old devices and sorts it again; the copy would be sorted
once. Both orders are the same where the renaming keeps the devices of the block apart: commands
that tie under the new devices tied under the old ones. Two devices of a block that become one are
the only way to an overlap, because sorting again does not reorder the commands of a device that
stays one.
-/

namespace CueSheet

def Entry.rename (f : DeviceId → DeviceId) (e : Entry) : Entry := { e with device := f e.device }

def Entry.devices (es : List Entry) : List DeviceId := es.map (·.device)

structure Passage where
  here : ProcRef
  chain : Chain
  element : Element

/-- The inlining of a source body: names are looked up in the file of the body, and an alias stands
for its origin, with its bind in front. -/
inductive Program.Passes (p : Program) : Chain → ProcRef → List Element → List Passage → Prop
  | nil {c : Chain} {here : ProcRef} : p.Passes c here [] []
  | timed {c : Chain} {here : ProcRef} {rest : List Element} {xs : List Passage}
      (es : List Entry) : p.Passes c here rest xs →
      p.Passes c here (.timed es :: rest) (⟨here, c, .timed es⟩ :: xs)
  | command {c : Chain} {here : ProcRef} {rest : List Element} {xs : List Passage}
      (d : DeviceId) (args : List Expr) : p.Passes c here rest xs →
      p.Passes c here (.command d args :: rest) (⟨here, c, .command d args⟩ :: xs)
  | call {c : Chain} {here target : ProcRef} {rest : List Element} {inner xs : List Passage}
      {name : String} {q origin : Procedure} : p.procedure? ⟨here.file, name⟩ = some q →
      target = q.origin?.getD ⟨here.file, name⟩ → p.procedure? target = some origin →
      p.Passes (c.push q.bind) target origin.body inner → p.Passes c here rest xs →
      p.Passes c here (.call name :: rest) (inner ++ xs)

namespace Program

variable {p : Program} {c : Compiled}

theorem Passes.unique {chain : Chain} {here : ProcRef} {es : List Element} {xs xs' : List Passage}
    (h : p.Passes chain here es xs) (h' : p.Passes chain here es xs') : xs = xs' := by
  induction h generalizing xs' with
  | nil => cases h'; rfl
  | timed es _ ih =>
    cases h' with
    | timed _ h' => rw [ih h']
  | command d args _ ih =>
    cases h' with
    | command _ _ h' => rw [ih h']
  | call hq ht ho _ _ ihi ih =>
    cases h' with
    | call hq' ht' ho' hi' h' =>
      obtain rfl := Option.some.inj (hq.symm.trans hq')
      obtain rfl := ht.trans ht'.symm
      obtain rfl := Option.some.inj (ho.symm.trans ho')
      rw [ihi hi', ih h']

theorem exists_passes (hc : p.compile = .ok c) {bs : List Bind} {here : ProcRef} {body : List Step}
    {os : List Occurrence} (h : Inlining c bs here body os) {es : List Element}
    (hs : List.Forall₂ (fun e s => p.step here.file e = .ok s) es body) :
    ∃ xs, p.Passes ⟨bs⟩ here es xs ∧ List.Forall₂ (fun (x : Passage) (o : Occurrence) =>
      o.here = x.here ∧ o.binds = x.chain.frames ∧
        p.step x.here.file x.element = .ok (.timeline o.source)) xs os := by
  induction h generalizing es with
  | nil =>
    cases hs
    exact ⟨[], .nil, .nil⟩
  | timeline t _ ih =>
    rcases hs with _ | ⟨he, hs⟩
    obtain ⟨xs, hx, hf⟩ := ih hs
    rcases step_eq_timeline he with ⟨es, rfl, -⟩ | ⟨d, args, params, rfl, -⟩
    · exact ⟨_, .timed es hx, .cons ⟨rfl, rfl, he⟩ hf⟩
    · exact ⟨_, .command d args hx, .cons ⟨rfl, rfl, he⟩ hf⟩
  | call k hk _ _ ihi ih =>
    rcases hs with _ | ⟨he, hs⟩
    obtain ⟨xs, hx, hf⟩ := ih hs
    obtain ⟨name, q, rfl, hq, rfl⟩ := step_eq_call he
    obtain ⟨origin, ho, hb⟩ := exists_source hc hk
    obtain ⟨inner, hi, hfi⟩ := ihi hb
    exact ⟨_, .call hq rfl ho hi hx, List.rel_append hfi hf⟩

theorem commands_rename {clamp : Nat → Nat} {f : DeviceId → DeviceId} {es : List Entry}
    {cursor : Nat} {cs : List Command} (h : p.commands clamp cursor es = .ok cs) :
    p.commands clamp cursor (es.map (Entry.rename f)) = .ok (cs.map (Command.rename f)) := by
  induction es generalizing cursor cs with
  | nil =>
    obtain rfl : [] = cs := by simpa [commands] using h
    rfl
  | cons e r ih =>
    obtain ⟨params, ds, hp, hds, rfl⟩ := commands_cons_eq_ok_iff.1 h
    rw [List.map_cons, commands_cons_eq_ok_iff]
    exact ⟨params, _, hp, ih hds, rfl⟩

end Program

namespace Timeline

variable {name : DeviceId → String} {f : DeviceId → DeviceId}

theorem lastStop_rename (cs : List Command) :
    lastStop (cs.map (Command.rename f)) = lastStop cs := by
  induction cs with
  | nil => rfl
  | cons c r ih =>
    rw [List.map_cons, lastStop_cons, lastStop_cons, ih]
    rfl

/-- Sorting by the old devices first leaves no trace, if the new ones tie no more than they did. -/
theorem sort_rename_sort {cs : List Command}
    (hf : ∀ a ∈ cs, ∀ b ∈ cs, f a.device = f b.device → a.device = b.device) :
    sort name ((sort name cs).map (Command.rename f)) = sort name (cs.map (Command.rename f)) := by
  let r (a b : Command) : Bool := (order name a b).isLE
  let s (a b : Command) : Bool := (order name (a.rename f) (b.rename f)).isLE
  have hs (l : List Command) :
      sort name (l.map (Command.rename f)) = (l.mergeSort s).map (Command.rename f) :=
    (List.map_mergeSort (r := s) (s := r) (f := Command.rename f) fun _ _ _ _ => rfl).symm
  rw [hs, hs]
  congr 1
  apply mergeSort_mergeSort (r := r) (s := s) order_trans order_total
    (fun a b c => order_trans (a.rename f) (b.rename f) (c.rename f))
    (fun a b => order_total (a.rename f) (b.rename f))
  intro a ha b hb hab hba
  simp only [r, s, order_isLE_iff] at *
  have hd : a.device = b.device := hf a ha b hb (hab.device_eq hba)
  exact Command.Precedes.of_device_eq hd hab.start_le

theorem filter_sort_rename {cs : List Command} (hcs : cs.Pairwise (Command.Precedes name))
    (d : DeviceId) :
    (sort name (cs.map (Command.rename f))).filter (·.device = d) =
      (cs.map (Command.rename f)).filter (·.device = d) := by
  apply filter_sort
  rw [List.pairwise_filter, List.pairwise_map]
  refine hcs.imp fun {a b} h ha hb => ?_
  apply Command.Precedes.of_device_eq
  · exact (of_decide_eq_true ha).trans (of_decide_eq_true hb).symm
  · exact h.start_le

end Timeline

namespace Occurrence

variable {p : Program} {o : Occurrence}

/-- An overlap that the source did not have is between two of its devices that became one. -/
theorem exists_merged (h : o.source.Safe p.deviceName) {v : Overlap} (hv : o.overlap? p = some v) :
    ∃ a ∈ o.source.commands, ∃ b ∈ o.source.commands, a.device ≠ b.device ∧
      Bind.through o.binds a.device = v.span.device ∧
      Bind.through o.binds b.device = v.span.device := by
  obtain ⟨s, hs, hlt, hsub⟩ := Span.exists_of_overlap?_eq_some hv
  rw [planned_commands h] at hsub
  obtain ⟨l, hl, hmap⟩ := List.sublist_map_iff.1 hsub
  -- the two commands stand in this order in the source, since they go to one device
  have hd : l.filter (·.device = v.span.device) = l := by
    rw [List.filter_eq_self]
    intro x hx
    have hx' : x.span ∈ [s, v.span] := hmap ▸ List.mem_map_of_mem hx
    have hxd : x.span.device = v.span.device := by
      rcases List.mem_cons.1 hx' with he | he
      · rw [he, hs]
      · rw [List.mem_singleton.1 he]
    exact decide_eq_true hxd
  have hl' : l.Sublist o.renamed := by
    have hf := hl.filter (·.device = v.span.device)
    rw [hd, renamed, Timeline.filter_sort_rename h.ordered] at hf
    exact hf.trans List.filter_sublist
  obtain ⟨k, hk, rfl⟩ := List.sublist_map_iff.1 hl'
  rw [List.map_map] at hmap
  obtain ⟨a, k, rfl, ha, hmap⟩ := List.map_eq_cons_iff.1 hmap.symm
  obtain ⟨b, k, rfl, hb, hmap⟩ := List.map_eq_cons_iff.1 hmap
  have hab : a.Apart b := List.rel_of_pairwise_cons (h.apart.sublist hk) List.mem_cons_self
  refine ⟨a, hk.subset List.mem_cons_self, b, hk.subset (List.mem_cons_of_mem _ List.mem_cons_self),
    ?_, ?_, ?_⟩
  · intro he
    have hle : a.stop ≤ b.start := hab he
    have hsa : s.stop = a.stop := by rw [← ha]; rfl
    have hsb : v.span.start = b.start := by rw [← hb]; rfl
    omega
  · rw [← hs, ← ha]
    rfl
  · rw [← hb]
    rfl

theorem timeline_rename {es : List Entry} (ht : p.timeline es = .ok o.source)
    (ho : o.overlap? p = none)
    (hinj : ∀ d ∈ Entry.devices es, ∀ d' ∈ Entry.devices es,
      Bind.through o.binds d = Bind.through o.binds d' → d = d') :
    p.timeline (es.map (Entry.rename (Bind.through o.binds))) = .ok (o.planned p).timeline := by
  have hsafe := safe_planned (Program.safe_timeline ht) ho
  have hcommands := planned_commands (Program.safe_timeline ht)
  obtain ⟨cs, hcs, hsource, hforward, -⟩ := Program.timeline_eq_ok_iff.1 ht
  have hdev : ∀ a ∈ cs, a.device ∈ Entry.devices es := by
    intro a ha
    apply Program.device_mem_of_timeline ht
    rw [hsource]
    exact (Timeline.sort_perm cs).symm.subset ha
  have hsort : (o.planned p).timeline.commands =
      Timeline.sort p.deviceName (cs.map (Command.rename (Bind.through o.binds))) := by
    rw [hcommands, renamed, hsource]
    exact Timeline.sort_rename_sort fun a ha b hb => hinj _ (hdev a ha) _ (hdev b hb)
  have hduration : (o.planned p).timeline.duration = Timeline.lastStop
      (Timeline.sort p.deviceName (cs.map (Command.rename (Bind.through o.binds)))) := by
    rw [Timeline.lastStop_perm (Timeline.sort_perm _), Timeline.lastStop_rename,
      ← Timeline.lastStop_perm (Timeline.sort_perm cs)]
    exact congrArg Timeline.duration hsource
  refine Program.timeline_eq_ok_iff.2 ⟨_, Program.commands_rename hcs, ?_, ?_, hsort ▸ hsafe.apart⟩
  · rw [Timeline.ofCommands, ← hduration, ← hsort]
  · exact List.forall_mem_map.2 hforward

end Occurrence

/-- What a plan has to hold for an element of the source: a block with other devices written in, as
long as they stay apart, or a command for another device. -/
structure Passage.Substituted (p : Program) (x : Passage) (t : PlannedTimeline) : Prop where
  procedure : t.procedure = x.here
  timed : ∀ es, x.element = .timed es →
    (∀ d ∈ Entry.devices es, ∀ d' ∈ Entry.devices es,
      x.chain.resolve d = x.chain.resolve d' → d = d') →
    p.timeline (es.map (Entry.rename x.chain.resolve)) = .ok t.timeline
  command : ∀ d args, x.element = .command d args → ∃ params, args.mapM Expr.eval = .ok params ∧
    t.timeline = Timeline.single (x.chain.resolve d) params

theorem Occurrence.substituted {p : Program} {x : Passage} {o : Occurrence} (hh : o.here = x.here)
    (hb : o.binds = x.chain.frames) (hs : p.step x.here.file x.element = .ok (.timeline o.source))
    (ho : o.overlap? p = none) : x.Substituted p (o.planned p) := by
  have hresolve : x.chain.resolve = Bind.through o.binds := by
    funext d
    rw [Chain.resolve_eq, hb]
  refine ⟨hh, fun es he hinj => ?_, fun d args he => ?_⟩
  · rw [he] at hs
    obtain ⟨t, ht, hst⟩ := Program.step_timed hs
    obtain rfl := Step.timeline.inj hst
    rw [hresolve] at hinj ⊢
    exact timeline_rename ht ho hinj
  · rw [he] at hs
    obtain ⟨params, hp, hst⟩ := Program.step_command hs
    have hsource := Step.timeline.inj hst
    refine ⟨params, hp, ?_⟩
    rw [hresolve, planned, renamed, hsource]
    split
    · simp only [Timeline.sort, Timeline.single, List.map_cons, List.map_nil,
        List.mergeSort_singleton]
      rfl
    · rfl

theorem Plan.build_substitutes {τ : Type} {w : Workshop τ} {p : Program} {c : Compiled}
    {entry : ProcRef} {r : Registry τ} (hc : p.compile = .ok c) :
    (∀ plan r', Plan.build w p c entry r = (.ok plan, r') →
      ∃ q xs, p.procedure? entry = some q ∧ p.Passes {} entry q.body xs ∧
        (∀ xs', p.Passes {} entry q.body xs' → xs' = xs) ∧
        List.Forall₂ (Passage.Substituted p) xs plan.timelines) ∧
    ∀ here name o r', Plan.build w p c entry r = (.error (.overlap here name o), r') →
      ∃ stack bs q es, Reaches c entry stack bs here ∧ p.procedure? here = some q ∧
        .timed es ∈ q.body ∧ ∃ d ∈ Entry.devices es, ∃ d' ∈ Entry.devices es, d ≠ d' ∧
          (⟨bs⟩ : Chain).resolve d = o.span.device ∧ (⟨bs⟩ : Chain).resolve d' = o.span.device := by
  constructor
  · intro plan r' hb
    obtain ⟨body, os, hbody, hi, hos, ho⟩ := Plan.build_ok hb
    obtain ⟨q, hq, hs⟩ := Program.exists_source hc hbody
    obtain ⟨xs, hx, hf⟩ := Program.exists_passes hc hi hs
    refine ⟨q, xs, hq, hx, fun xs' h' => h'.unique hx, ?_⟩
    rw [hos, List.forall₂_map_right_iff]
    have hf' := (List.forall₂_and_left _ _).2 ⟨ho, hf.flip⟩
    exact hf'.flip.imp fun x o h => Occurrence.substituted h.2.1 h.2.2.1 h.2.2.2 h.1
  · intro here name o r' hb
    obtain ⟨stack, bs, here', hr, hcause⟩ :=
      (Plan.build_error hb).resolve_right fun h => nomatch h.1
    rcases hcause with _ | _ | _ | ⟨hbody, ht, hv⟩
    obtain ⟨q, hq, hs⟩ := Program.exists_source hc hbody
    obtain ⟨e, he, hst⟩ := Result.exists_of_mem_right hs ht
    obtain ⟨x, hx, y, hy, hne, hxd, hyd⟩ := Occurrence.exists_merged (Program.safe_of_step hst) hv
    cases e with
    | timed es =>
      obtain ⟨t, ht, hst⟩ := Program.step_timed hst
      obtain rfl := Step.timeline.inj hst
      have hdx := Program.device_mem_of_timeline ht hx
      have hdy := Program.device_mem_of_timeline ht hy
      refine ⟨stack, bs, q, es, hr, hq, he, x.device, hdx, y.device, hdy, hne, ?_, ?_⟩
      · rw [Chain.resolve_eq, hxd]
      · rw [Chain.resolve_eq, hyd]
    | command d args =>
      -- a single command has no second device
      obtain ⟨params, -, hst⟩ := Program.step_command hst
      obtain rfl := Step.timeline.inj hst
      rw [List.mem_singleton.1 hx, List.mem_singleton.1 hy] at hne
      exact absurd rfl hne
    | call name =>
      obtain ⟨_, -, hst⟩ := Program.step_call hst
      cases hst

theorem Plan.build_substitutes_oneForTwo :
    ∃ c : Compiled, oneForTwo.compile = .ok c ∧
      (∃ (plan : Plan) (r' : Registry Unit) (t : PlannedTimeline) (rest : List PlannedTimeline),
        Plan.build ⟨fun _ => (), "", false⟩ oneForTwo c ⟨0, "Main"⟩ {} = (.ok plan, r') ∧
        plan.timelines = t :: rest ∧
        oneForTwo.timeline [⟨⟨1, 1⟩, [], some ⟨none, .after 5⟩⟩,
          ⟨⟨0, 0⟩, [], some ⟨some 0, .at 3⟩⟩] = .ok t.timeline) ∧
      ∃ stack bs d d', Reaches c ⟨0, "Clash"⟩ stack bs ⟨1, "Both"⟩ ∧ d ≠ d' ∧
        Chain.resolve ⟨bs⟩ d = ⟨0, 0⟩ ∧ Chain.resolve ⟨bs⟩ d' = ⟨0, 0⟩ := by
  have hclash : (do
      let c ← oneForTwo.compile.mapError fun _ => ()
      return (Plan.build ⟨fun _ => (), "", false⟩ oneForTwo c ⟨0, "Clash"⟩ {}).1.map fun _ => ()) =
      Except.ok (.error (.overlap ⟨1, "Both"⟩ "Print" ⟨⟨⟨0, 0⟩, 0, 5⟩, 3⟩)) := by
    cbv
  obtain ⟨c, plan, r', hc, hb, -⟩ := oneForTwo_main
  rw [hc] at hclash
  have herror := Result.map_eq_error_iff.1 (Except.ok.inj hclash)
  obtain ⟨stack, bs, -, -, hr, -, -, d, -, d', -, hne, hd, hd'⟩ :=
    (Plan.build_substitutes hc).2 _ _ _ _ (Prod.ext herror rfl)
  refine ⟨c, hc, ?_, stack, bs, d, d', hr, hne, hd, hd'⟩
  obtain ⟨q, xs, hq, -, hunique, hs⟩ := (Plan.build_substitutes hc).1 plan r' hb
  obtain rfl := Option.some.inj hq
  have hpasses := hunique _ (.call rfl rfl rfl (.timed _ .nil) (.command _ _ .nil))
  rw [← hpasses] at hs
  obtain ⟨t, rest, ht, -, hrest⟩ := List.forall₂_cons_left_iff.1 hs
  refine ⟨plan, r', t, rest, hb, hrest, ht.timed _ rfl ?_⟩
  decide

end CueSheet
