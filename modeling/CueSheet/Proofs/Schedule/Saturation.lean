import CueSheet.Proofs.Load.Times
import CueSheet.Proofs.Schedule.Timeline

/-!
Ends that do not fit a word. The ends of a block are cut off at the largest word as they are made,
and the next entry may start at one that was cut off; the outcome is as if the block had been laid
with no bound and all its times had been cut off at last. So a block is judged by its exact times,
but with eyes for what is below the largest word only.
-/

namespace CueSheet

inductive Timeline.Verdict
  | good
  | argument
  | range
  | overlap
  | unknown
deriving DecidableEq, Repr

def CompileFault.verdict : CompileFault → Timeline.Verdict
  | .overlap _ _ => .overlap
  | .range _ _ _ => .range
  | .argument _ _ => .argument
  | .unknown _ => .unknown

def CompileError.verdict {α : Type} : Except CompileError α → Timeline.Verdict
  | .ok _ => .good
  | .error e => e.fault.verdict

def Command.clamped (c : Command) : Command :=
  { c with start := Timeline.clampToWord c.start, stop := Timeline.clampToWord c.stop }

namespace Timeline

def Forward (seen : Nat → Prop) (cs : List Command) : Prop :=
  ∀ c ∈ cs, seen c.stop → c.start ≤ c.stop

def Clear (name : DeviceId → String) (seen : Nat → Prop) (cs : List Command) : Prop :=
  (sort name cs).Pairwise fun a b => a.device = b.device → seen b.start → a.stop ≤ b.start

/-- What one has to say of the commands of a block who sees the times with `seen` only. -/
inductive Judged (name : DeviceId → String) (seen : Nat → Prop) (cs : List Command) : Verdict → Prop
  | range : ¬ Forward seen cs → Judged name seen cs .range
  | overlap : Forward seen cs → ¬ Clear name seen cs → Judged name seen cs .overlap
  | good : Forward seen cs → Clear name seen cs → Judged name seen cs .good

theorem Judged.unique {name : DeviceId → String} {seen : Nat → Prop} {cs : List Command}
    {v v' : Verdict} (h : Judged name seen cs v) (h' : Judged name seen cs v') : v = v' := by
  cases h with
  | range hf => cases h' with
    | range _ => rfl
    | overlap hf' _ => exact absurd hf' hf
    | good hf' _ => exact absurd hf' hf
  | overlap hf hc => cases h' with
    | range hf' => exact absurd hf hf'
    | overlap _ _ => rfl
    | good _ hc' => exact absurd hc' hc
  | good hf hc => cases h' with
    | range hf' => exact absurd hf hf'
    | overlap _ hc' => exact absurd hc hc'
    | good _ _ => rfl

/-- Who sees less has no more to object. -/
theorem Judged.good_mono {name : DeviceId → String} {seen : Nat → Prop} {cs : List Command}
    (h : Judged name (fun _ => True) cs .good) : Judged name seen cs .good := by
  cases h with
  | good hf hc =>
    exact .good (fun c hc' _ => hf c hc' trivial) (hc.imp fun hab hd _ => hab hd trivial)

theorem clampToWord_lt_iff (t : Nat) : clampToWord t < Decimal.maxWord ↔ t < Decimal.maxWord := by
  rw [clampToWord]
  omega

theorem clampToWord_of_le {t : Nat} (h : t ≤ Decimal.maxWord) : clampToWord t = t :=
  Nat.min_eq_left h

theorem clampToWord_le (t : Nat) : clampToWord t ≤ Decimal.maxWord := Nat.min_le_right _ _

theorem clamped_of_le {c : Command} (hstart : c.start ≤ Decimal.maxWord)
    (hstop : c.stop ≤ Decimal.maxWord) : c.clamped = c := by
  rw [Command.clamped, clampToWord_of_le hstart, clampToWord_of_le hstop]

theorem advance_clamped {cursor : Nat} {time : Option TimeSpec} (h : ∀ t, time = some t → t.Fits) :
    advance clampToWord (clampToWord cursor) time =
      (clampToWord (advance id cursor time).1, clampToWord (advance id cursor time).2.1,
        clampToWord (advance id cursor time).2.2) := by
  cases time with
  | none => rfl
  | some spec =>
    obtain ⟨start, stop⟩ := spec
    obtain ⟨hstart, hstop⟩ := h _ rfl
    have hfrom : start.getD (clampToWord cursor) = clampToWord (start.getD cursor) := by
      cases start with
      | none => rfl
      | some s => exact (clampToWord_of_le (hstart s rfl)).symm
    cases stop with
    | «at» t =>
      have ht : clampToWord t = t := clampToWord_of_le hstop
      simp only [advance, hfrom, ht]
    | after length =>
      have hlength : clampToWord (clampToWord (start.getD cursor) + length) =
          clampToWord (start.getD cursor + length) := by
        simp only [clampToWord]
        omega
      simp only [advance, hfrom, hlength, id_eq]

section Judging

variable {name : DeviceId → String} {cs : List Command}

theorem forward_clamped_iff (cs : List Command) :
    Forward (fun _ => True) (cs.map Command.clamped) ↔ Forward (· < Decimal.maxWord) cs := by
  simp only [Forward, List.forall_mem_map, true_implies]
  refine forall₂_congr fun c _ => ?_
  simp only [Command.clamped, clampToWord]
  omega

theorem filter_sort_clamped :
    (sort name (cs.map Command.clamped)).filter (·.start < Decimal.maxWord) =
      ((sort name cs).filter (·.start < Decimal.maxWord)).map Command.clamped := by
  have hq : ∀ c : Command, decide (c.clamped.start < Decimal.maxWord) =
      decide (c.start < Decimal.maxWord) := fun c => by
    rw [decide_eq_decide]
    exact clampToWord_lt_iff c.start
  rw [sort, sort, filter_mergeSort order_trans order_total,
    filter_mergeSort order_trans order_total, List.filter_map]
  simp only [Function.comp_def, hq]
  rw [List.map_mergeSort]
  intro a ha b hb
  have hsame : ∀ c ∈ cs.filter (·.start < Decimal.maxWord), c.clamped.start = c.start := by
    intro c hc
    have hlt : c.start < Decimal.maxWord := by simpa using (List.mem_filter.1 hc).2
    exact clampToWord_of_le (Nat.le_of_lt hlt)
  simp only [order, hsame a ha, hsame b hb]
  rfl

theorem pairwise_filter_start_iff {R : Command → Command → Prop} {l : List Command} (bound : Nat)
    (hl : l.Pairwise fun a b => a.start ≤ b.start)
    (hR : ∀ a ∈ l, ∀ b ∈ l, bound ≤ b.start → R a b) :
    (l.filter (·.start < bound)).Pairwise R ↔ l.Pairwise R := by
  rw [List.pairwise_filter]
  constructor
  · intro h
    refine (h.and hl).imp_of_mem fun {a b} ha hb hab => ?_
    by_cases hbound : b.start < bound
    · have ha' : a.start < bound := Nat.lt_of_le_of_lt hab.2 hbound
      exact hab.1 (by simpa using ha') (by simpa using hbound)
    · exact hR a ha b hb (Nat.le_of_not_lt hbound)
  · exact fun h => h.imp fun hab _ _ => hab

theorem clear_clamped_iff (name : DeviceId → String) (cs : List Command) :
    Clear name (fun _ => True) (cs.map Command.clamped) ↔
      Clear name (· < Decimal.maxWord) cs := by
  have hsorted : ∀ l : List Command, (sort name l).Pairwise fun a b => a.start ≤ b.start :=
    fun l => (pairwise_sort l).imp Command.Precedes.start_le
  have hcut : ∀ a ∈ sort name (cs.map Command.clamped), a.stop ≤ Decimal.maxWord := by
    intro a ha
    obtain ⟨c, -, rfl⟩ := List.mem_map.1 ((sort_perm _).subset ha)
    exact clampToWord_le c.stop
  rw [Clear, Clear, ← pairwise_filter_start_iff Decimal.maxWord (hsorted _),
    ← pairwise_filter_start_iff Decimal.maxWord (hsorted cs), filter_sort_clamped,
    List.pairwise_map]
  · refine List.Pairwise.iff_of_mem fun {a b} _ hb => ?_
    have hb' : b.start < Decimal.maxWord := by simpa using (List.mem_filter.1 hb).2
    have hstop : min a.stop Decimal.maxWord ≤ min b.start Decimal.maxWord ↔ a.stop ≤ b.start := by
      omega
    simp only [Command.clamped, clampToWord, hstop, hb', true_implies]
  · exact fun a _ b _ hlate _ hseen => absurd hseen (Nat.not_lt.2 hlate)
  · exact fun a ha b _ hlate _ _ => Nat.le_trans (hcut a ha) hlate

theorem judged_clamped_iff {v : Verdict} : Judged name (fun _ => True) (cs.map Command.clamped) v ↔
    Judged name (· < Decimal.maxWord) cs v := by
  have hforward := forward_clamped_iff cs
  have hclear := clear_clamped_iff name cs
  constructor
  · intro h
    cases h with
    | range hf => exact .range (mt hforward.2 hf)
    | overlap hf hc => exact .overlap (hforward.1 hf) (mt hclear.2 hc)
    | good hf hc => exact .good (hforward.1 hf) (hclear.1 hc)
  · intro h
    cases h with
    | range hf => exact .range (mt hforward.1 hf)
    | overlap hf hc => exact .overlap (hforward.2 hf) (mt hclear.1 hc)
    | good hf hc => exact .good (hforward.2 hf) (hclear.2 hc)

end Judging

end Timeline

namespace Program

variable {p : Program} {es : List Entry} {cs : List Command}

/-- The commands of a block are those that it has with no bound, with their times cut off. -/
theorem commands_clamped (hfits : ∀ e ∈ es, e.Fits) (cursor : Nat) :
    p.commands Timeline.clampToWord (Timeline.clampToWord cursor) es =
      (p.commands id cursor es).map (List.map Command.clamped) := by
  induction es generalizing cursor with
  | nil => rfl
  | cons e es ih =>
    obtain ⟨he, hes⟩ := List.forall_mem_cons.1 hfits
    simp only [commands, Timeline.advance_clamped he, ih hes]
    cases p.evaluate e.device e.args with
    | error f => rfl
    | ok params =>
      cases p.commands id (Timeline.advance id cursor e.time).2.2 es with
      | error f => rfl
      | ok ds => rfl

theorem commands_eq_clamped (hfits : ∀ e ∈ es, e.Fits) :
    p.commands Timeline.clampToWord 0 es = (p.commands id 0 es).map (List.map Command.clamped) :=
  commands_clamped hfits 0

theorem verdict_of_commands_eq_error {clamp : Nat → Nat} {cursor : Nat} {f : CompileFault}
    (h : p.commands clamp cursor es = .error f) : f.verdict = .argument := by
  induction es generalizing cursor with
  | nil => cases h
  | cons e es ih =>
    simp only [commands] at h
    split at h
    · next f' hf' =>
      obtain ⟨_, -, rfl⟩ := Result.mapError_eq_error_iff.1 hf'
      cases h
      rfl
    · exact ih (Result.map_eq_error_iff.1 h)

theorem timelineWith_of_commands {clamp : Nat → Nat} (h : p.commands clamp 0 es = .ok cs) :
    p.timelineWith clamp es = (p.checkOrder (Timeline.sort p.deviceName cs)).map fun _ =>
      Timeline.ofCommands (Timeline.sort p.deviceName cs) := by
  simp only [timelineWith, h, bind, Except.bind]
  cases p.checkOrder (Timeline.sort p.deviceName cs) <;> rfl

theorem judged_of_commands {clamp : Nat → Nat} (r : ProcRef) (h : p.commands clamp 0 es = .ok cs) :
    Timeline.Judged p.deviceName (fun _ => True) cs
      (CompileError.verdict (p.blame r (p.timelineWith clamp es))) := by
  have hforward : (∀ c ∈ Timeline.sort p.deviceName cs, c.start ≤ c.stop) ↔
      Timeline.Forward (fun _ => True) cs := by
    simp only [Timeline.Forward, true_implies, (Timeline.sort_perm cs).mem_iff]
  have hclear : (Timeline.sort p.deviceName cs).Pairwise Command.Apart ↔
      Timeline.Clear p.deviceName (fun _ => True) cs := by
    simp only [Timeline.Clear, true_implies]
    rfl
  rw [timelineWith_of_commands h]
  cases hcheck : p.checkOrder (Timeline.sort p.deviceName cs) with
  | ok u =>
    obtain ⟨hf, ha⟩ := checkOrder_eq_ok_iff.1 hcheck
    exact .good (hforward.1 hf) (hclear.1 ha)
  | error f =>
    have hbad : ¬ ((∀ c ∈ Timeline.sort p.deviceName cs, c.start ≤ c.stop) ∧
        (Timeline.sort p.deviceName cs).Pairwise Command.Apart) := by
      rw [← checkOrder_eq_ok_iff, hcheck]
      nofun
    rcases checkOrder_eq_error hcheck with ⟨before, c, after, hsplit, -, hlt, rfl⟩ | ⟨hf, o, -, rfl⟩
    · refine .range fun hf => absurd (hforward.2 hf c ?_) (Nat.not_le.2 hlt)
      rw [hsplit]
      exact List.mem_append_right _ List.mem_cons_self
    · exact .overlap (hforward.1 hf) fun hc => hbad ⟨hf, hclear.2 hc⟩

theorem judged_iff {clamp : Nat → Nat} (r : ProcRef) (h : p.commands clamp 0 es = .ok cs)
    (v : Timeline.Verdict) : CompileError.verdict (p.blame r (p.timelineWith clamp es)) = v ↔
      Timeline.Judged p.deviceName (fun _ => True) cs v :=
  ⟨fun hv => hv ▸ judged_of_commands r h, (judged_of_commands r h).unique⟩

theorem start_le_of_stop_le {cursor : Nat} (hcursor : cursor ≤ Decimal.maxWord)
    (hfits : ∀ e ∈ es, e.Fits) (h : p.commands id cursor es = .ok cs)
    (hstop : ∀ c ∈ cs, c.stop ≤ Decimal.maxWord) : ∀ c ∈ cs, c.start ≤ Decimal.maxWord := by
  induction es generalizing cursor cs with
  | nil =>
    cases h
    exact List.forall_mem_nil _
  | cons e es ih =>
    obtain ⟨he, hes⟩ := List.forall_mem_cons.1 hfits
    obtain ⟨params, ds, -, hds, rfl⟩ := commands_cons_eq_ok_iff.1 h
    obtain ⟨hlast, hstop⟩ := List.forall_mem_cons.1 hstop
    have hstart : (Timeline.advance id cursor e.time).1 ≤ Decimal.maxWord := by
      cases htime : e.time with
      | none => exact hcursor
      | some spec =>
        obtain ⟨start, stop⟩ := spec
        cases start with
        | none => exact hcursor
        | some t => exact (he _ htime).1 t rfl
    have hnext : (Timeline.advance id cursor e.time).2.2 ≤ Decimal.maxWord := by
      rwa [Timeline.advance_cursor]
    exact List.forall_mem_cons.2 ⟨hstart, ih hnext hes hds hstop⟩

theorem commands_eq_of_stop_le (hfits : ∀ e ∈ es, e.Fits) (h : p.commands id 0 es = .ok cs)
    (hstop : ∀ c ∈ cs, c.stop ≤ Decimal.maxWord) :
    p.commands Timeline.clampToWord 0 es = .ok cs := by
  have hstart := start_le_of_stop_le (Nat.zero_le _) hfits h hstop
  have hsame : cs.map Command.clamped = cs :=
    calc cs.map Command.clamped = cs.map id :=
          List.map_congr_left fun c hc => Timeline.clamped_of_le (hstart c hc) (hstop c hc)
      _ = cs := List.map_id cs
  rw [commands_eq_clamped hfits, h]
  exact congrArg Except.ok hsame

/-- To cut the ends off never makes a conflict, and it hides only what lies at the largest word. -/
theorem timeline_saturates (p : Program) (r : ProcRef) (hfits : ∀ e ∈ es, e.Fits) :
    (∃ e, p.blame r (p.timelineWith id es) = .error e ∧ p.blame r (p.timeline es) = .error e ∧
      e.fault.verdict = .argument) ∨
    ∃ cs, p.commands id 0 es = .ok cs ∧
      (∀ v, CompileError.verdict (p.blame r (p.timelineWith id es)) = v ↔
        Timeline.Judged p.deviceName (fun _ => True) cs v) ∧
      (∀ v, CompileError.verdict (p.blame r (p.timeline es)) = v ↔
        Timeline.Judged p.deviceName (· < Decimal.maxWord) cs v) ∧
      (CompileError.verdict (p.blame r (p.timelineWith id es)) = .good →
        CompileError.verdict (p.blame r (p.timeline es)) = .good) ∧
      ((∀ c ∈ cs, c.stop ≤ Decimal.maxWord) → p.timeline es = p.timelineWith id es) := by
  have hcommands := commands_eq_clamped (p := p) hfits
  cases hexact : p.commands id 0 es with
  | error f =>
    rw [hexact] at hcommands
    refine .inl ⟨⟨p.path r.file, r.name, f⟩, ?_, ?_, verdict_of_commands_eq_error hexact⟩
    · simp only [timelineWith, hexact]
      rfl
    · simp only [timeline, timelineWith, hcommands]
      rfl
  | ok cs =>
    rw [hexact] at hcommands
    have hreal (v : Timeline.Verdict) : CompileError.verdict (p.blame r (p.timeline es)) = v ↔
        Timeline.Judged p.deviceName (· < Decimal.maxWord) cs v := by
      rw [← Timeline.judged_clamped_iff]
      exact judged_iff r hcommands v
    refine .inr ⟨cs, rfl, judged_iff r hexact, hreal, fun hgood => ?_, fun hstop => ?_⟩
    · exact (hreal .good).2 ((judged_iff r hexact .good).1 hgood).good_mono
    · rw [timeline, timelineWith_of_commands hexact,
        timelineWith_of_commands (commands_eq_of_stop_le hfits hexact hstop)]

end Program

def onePrinter : Program where
  sheets := [{ file := 0, path := "a", devices := [⟨⟨0, 0⟩, "Print", .system, [], none⟩] }]

def fromLargestWord : List Entry :=
  [⟨⟨0, 0⟩, [], some ⟨some Decimal.maxWord, .after 1⟩⟩,
    ⟨⟨0, 0⟩, [], some ⟨some Decimal.maxWord, .after 1⟩⟩]

theorem fits_fromLargestWord : ∀ e ∈ fromLargestWord, e.Fits := by
  have hspec : TimeSpec.Fits ⟨some Decimal.maxWord, .after 1⟩ :=
    ⟨fun _ h => Nat.le_of_eq (Option.some.inj h).symm, (by decide : 1 ≤ Decimal.maxWord)⟩
  simp only [fromLargestWord, List.forall_mem_cons]
  exact ⟨fun t h => Option.some.inj h ▸ hspec, fun t h => Option.some.inj h ▸ hspec,
    List.forall_mem_nil _⟩

theorem verdict_fromLargestWord_exact : CompileError.verdict
    (onePrinter.blame ⟨0, "Main"⟩ (onePrinter.timelineWith id fromLargestWord)) = .overlap := by
  cbv

theorem verdict_fromLargestWord : CompileError.verdict
    (onePrinter.blame ⟨0, "Main"⟩ (onePrinter.timeline fromLargestWord)) = .good := by
  cbv

theorem Program.timeline_saturates_fromLargestWord : ∃ cs,
    onePrinter.commands id 0 fromLargestWord = .ok cs ∧
    Timeline.Judged onePrinter.deviceName (fun _ => True) cs .overlap ∧
    Timeline.Judged onePrinter.deviceName (· < Decimal.maxWord) cs .good := by
  rcases Program.timeline_saturates onePrinter ⟨0, "Main"⟩ fits_fromLargestWord with
    ⟨e, he, -, hfault⟩ | ⟨cs, hcs, hexact, hreal, -, -⟩
  · have hoverlap := verdict_fromLargestWord_exact
    rw [he] at hoverlap
    cases hfault.symm.trans hoverlap
  · exact ⟨cs, hcs, (hexact .overlap).1 verdict_fromLargestWord_exact,
      (hreal .good).1 verdict_fromLargestWord⟩

theorem Program.saturation_not_always_seen : ¬ ∀ (p : Program) (r : ProcRef) (es : List Entry),
    (∀ e ∈ es, e.Fits) → CompileError.verdict (p.blame r (p.timeline es)) =
      CompileError.verdict (p.blame r (p.timelineWith id es)) := by
  intro h
  have hsame := h onePrinter ⟨0, "Main"⟩ fromLargestWord fits_fromLargestWord
  rw [verdict_fromLargestWord, verdict_fromLargestWord_exact] at hsame
  cases hsame

end CueSheet
