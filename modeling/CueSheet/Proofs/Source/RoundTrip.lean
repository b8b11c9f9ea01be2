import CueSheet.Proofs.Source.Block

/-!
The lines that are written for a list of procedures are read as those procedures: an element takes the
draft from one place in a body to the next, and a procedure from the end of one to the end of the next.
-/

namespace CueSheet.Draft

def readLines : Draft → Nat → List (List Char) → Except SyntaxError Draft
  | d, _, [] => .ok d
  | d, n, text :: r =>
    match d.read n text with
    | ⟨d', none⟩ => d'.readLines (n + 1) r
    | ⟨_, some e⟩ => .error e

theorem readLines_append (d : Draft) (n : Nat) (texts texts' : List (List Char)) :
    d.readLines n (texts ++ texts') =
      (d.readLines n texts).bind fun d' => d'.readLines (n + texts.length) texts' := by
  induction texts generalizing d n with
  | nil => rfl
  | cons text r ih =>
    rw [List.cons_append, readLines, readLines]
    split
    · rw [ih, List.length_cons, Nat.add_assoc, Nat.add_comm 1]
    · rfl

structure TakesAll (P : Draft → Prop) (tss : List (List Token)) (Q : Draft → Prop) : Prop where
  spellable : ∀ ts ∈ tss, ∀ t ∈ ts, t.Spellable
  leads : ∀ d n, P d → ∃ d', d.readLines n (tss.map Token.line) = .ok d' ∧ Q d'

section Sequence

variable {P Q R : Draft → Prop} {ts : List Token} {tss uss : List (List Token)}

theorem TakesAll.nil : TakesAll P [] P := ⟨List.forall_mem_nil _, fun d _ h => ⟨d, rfl, h⟩⟩

theorem Takes.all (h : Takes P ts Q) : TakesAll P [ts] Q := by
  refine ⟨List.forall_mem_singleton.2 h.spellable, fun d n hd => ?_⟩
  obtain ⟨d', hread, hd'⟩ := h.read n hd
  refine ⟨d', ?_, hd'⟩
  rw [List.map_singleton, readLines, hread]
  rfl

theorem TakesAll.append (h : TakesAll P tss Q) (h' : TakesAll Q uss R) :
    TakesAll P (tss ++ uss) R := by
  refine ⟨List.forall_mem_append.2 ⟨h.spellable, h'.spellable⟩, fun d n hd => ?_⟩
  obtain ⟨d₁, h₁, hd₁⟩ := h.leads d n hd
  obtain ⟨d₂, h₂, hd₂⟩ := h'.leads d₁ (n + (tss.map Token.line).length) hd₁
  refine ⟨d₂, ?_, hd₂⟩
  rw [List.map_append, readLines_append, h₁]
  exact h₂

theorem Takes.cons (h : Takes P ts Q) (h' : TakesAll Q tss R) : TakesAll P (ts :: tss) R :=
  h.all.append h'

end Sequence

section Procedures

variable {s : Sheet} {done : List Listing} {p : Listing} {b : Bracketing}

theorem takes_entries (hd : (s.devices.map (·.name)).Nodup) {before entries : List Entry}
    (h : ∀ e ∈ entries, e.Writable s) :
    TakesAll (Reached s done (.timed p before))
      (entries.map fun e => Line.Statement.tokens b ⟨s.nameOf e.device, e.args, e.time⟩)
      (Reached s done (.timed p (before ++ entries))) := by
  induction entries generalizing before with
  | nil =>
    rw [List.append_nil]
    exact .nil
  | cons e entries ih =>
    obtain ⟨he, hrest⟩ := List.forall_mem_cons.1 h
    rw [List.append_cons]
    exact (takes_entry hd he).cons (ih hrest)

theorem takes_element (hd : (s.devices.map (·.name)).Nodup) {e : Element} (h : e.Writable s) :
    TakesAll (Reached s done (.inside p)) (e.tokenLines b s)
      (Reached s done (.inside ⟨p.name, p.body ++ [e]⟩)) := by
  cases e with
  | timed entries => exact takes_timeline.cons ((takes_entries hd h).append takes_end_timed.all)
  | command device args => exact (takes_command hd h.1 h.2).all
  | call name => exact (takes_call h.1 h.2).all

theorem takes_body (hd : (s.devices.map (·.name)).Nodup) {es : List Element}
    (h : ∀ e ∈ es, e.Writable s) :
    TakesAll (Reached s done (.inside p)) (es.flatMap (Element.tokenLines b s))
      (Reached s done (.inside ⟨p.name, p.body ++ es⟩)) := by
  induction es generalizing p with
  | nil =>
    rw [List.append_nil]
    exact .nil
  | cons e es ih =>
    obtain ⟨he, hrest⟩ := List.forall_mem_cons.1 h
    have hmore := ih (p := ⟨p.name, p.body ++ [e]⟩) hrest
    rw [List.append_assoc] at hmore
    exact (takes_element hd he).append hmore

theorem takes_listing (hd : (s.devices.map (·.name)).Nodup) (hp : p.Writable s)
    (hnew : p.name ∉ done.map (·.name)) :
    TakesAll (Reached s done .outside) (p.tokenLines b s) (Reached s (done ++ [p]) .outside) :=
  (takes_header hp hnew).cons ((takes_body hd hp.body).append (takes_end hnew).all)

theorem takes_listings (hd : (s.devices.map (·.name)).Nodup) {ps : List Listing}
    (hp : ∀ p ∈ ps, p.Writable s) (hnames : ((done ++ ps).map (·.name)).Nodup) :
    TakesAll (Reached s done .outside) (ps.flatMap (Listing.tokenLines b s))
      (Reached s (done ++ ps) .outside) := by
  induction ps generalizing done with
  | nil =>
    rw [List.append_nil]
    exact .nil
  | cons p ps ih =>
    obtain ⟨hhead, hrest⟩ := List.forall_mem_cons.1 hp
    have hnew : p.name ∉ done.map (·.name) := by
      intro hmem
      rw [List.map_append, List.nodup_append] at hnames
      exact hnames.2.2 _ hmem _ List.mem_cons_self rfl
    rw [List.append_cons] at hnames ⊢
    exact (takes_listing hd hhead hnew).append (ih hrest hnames)

/-- Procedures that are written, with all their parentheses or with as few as can be, are read as
they were: no line is refused, no block stays open, and each name has its body. -/
theorem readLines_write (b : Bracketing) (n : Nat) {s : Sheet} {ps : List Listing}
    (hs : s.procedures = []) (hd : (s.devices.map (·.name)).Nodup)
    (hnames : (ps.map (·.name)).Nodup) (hp : ∀ p ∈ ps, p.Writable s) :
    (∀ text ∈ s.write b ps, '\n' ∉ text) ∧
      ∃ d, readLines ⟨s, none⟩ n (s.write b ps) = .ok d ∧ d.finish = .ok () ∧
        d.sheet.devices = s.devices ∧
        (∀ p ∈ ps, d.sheet.procedure? p.name = some ⟨p.name, .body p.body⟩) ∧
        ∀ name, d.sheet.isDefined name = true → name ∈ ps.map (·.name) := by
  have htakes : TakesAll (Reached s [] .outside) (ps.flatMap (Listing.tokenLines b s))
      (Reached s ([] ++ ps) .outside) := takes_listings hd hp hnames
  have hstart : Reached s [] .outside ⟨s, none⟩ := by
    refine ⟨rfl, rfl, List.forall_mem_nil _, fun name h => ?_⟩
    simp [Sheet.isDefined, Sheet.procedure?, hs] at h
  obtain ⟨d, hread, hd'⟩ := htakes.leads _ n hstart
  refine ⟨?_, d, hread, ?_, hd'.devices, hd'.stored, hd'.defined⟩
  · intro text htext
    obtain ⟨ts, hts, rfl⟩ := List.mem_map.1 htext
    exact Token.no_break_line (htakes.spellable ts hts)
  · rw [finish, block_of_outside hd'.stand]

end Procedures

def twoDevices : Sheet where
  file := 0
  path := "a"
  devices := [⟨⟨0, 0⟩, "Print", .system, [], none⟩, ⟨⟨0, 1⟩, "fan", .serial, [], none⟩]

def everyStatement : List Listing :=
  [⟨"main", [
    .timed [⟨⟨0, 1⟩,
      [.binary .sub (.literal (.number 2.5))
        (.binary .add (.literal (.number (-1))) (.literal (.variable "x")))],
      some ⟨some 100, .after 50⟩⟩],
    .command ⟨0, 0⟩ [.literal (.text "a\n")],
    .call "rest"]⟩,
  ⟨"rest", [.command ⟨0, 0⟩ []]⟩]

theorem everyStatement_writable : ∀ p ∈ everyStatement, p.Writable twoDevices := by
  have hprint : twoDevices.Speaks ⟨0, 0⟩ :=
    ⟨⟨_, List.mem_cons_self, rfl⟩, by decide, by decide, by decide⟩
  have hfan : twoDevices.Speaks ⟨0, 1⟩ :=
    ⟨⟨_, List.mem_cons_of_mem _ List.mem_cons_self, rfl⟩, by decide, by decide, by decide⟩
  have hfraction : Decimal.Readable 2.5 := ⟨⟨_, _, _, rfl⟩, by decide +kernel⟩
  have hnegative : Decimal.Readable (-1) := ⟨⟨_, _, _, rfl⟩, by decide +kernel⟩
  have hrest : Spoken "rest" := ⟨by decide, by decide, by decide⟩
  simp only [everyStatement, List.forall_mem_cons, List.not_mem_nil, false_implies, implies_true,
    and_true]
  refine ⟨⟨by decide, by decide, ?_⟩, ⟨by decide, by decide, ?_⟩⟩
  · simp only [List.forall_mem_cons, List.not_mem_nil, false_implies, implies_true, and_true]
    refine ⟨List.forall_mem_singleton.2 ⟨hfan, ?_, ?_⟩, ⟨hprint, ?_⟩, hrest, by decide⟩
    · exact List.forall_mem_singleton.2 ⟨hfraction, hnegative, (by decide : Text.isName ['x'] = true)⟩
    · rintro t ⟨⟩
      exact ⟨by rintro time ⟨⟩; decide, (by decide : 50 ≤ Decimal.maxWord)⟩
    · exact List.forall_mem_singleton.2 trivial
  · exact List.forall_mem_singleton.2 ⟨hprint, List.forall_mem_nil _⟩

theorem readLines_write_everyStatement :
    (twoDevices.write .minimal everyStatement).map String.ofList =
      ["proc main \x7b", "timeline \x7b", "fan ( 2.5 - ( - 1 + x ) ) at 100 for 50", "\x7d",
        "Print ( \"a\\n\" )", "rest", "\x7d", "proc rest \x7b", "Print", "\x7d"] ∧
    ∃ d, readLines ⟨twoDevices, none⟩ 1 (twoDevices.write .minimal everyStatement) = .ok d ∧
      d.finish = .ok () ∧ ∀ p ∈ everyStatement, d.sheet.procedure? p.name = some ⟨p.name, .body p.body⟩ := by
  obtain ⟨-, d, hread, hfinish, -, hstored, -⟩ :=
    readLines_write .minimal 1 (s := twoDevices) rfl (by decide) (by decide) everyStatement_writable
  refine ⟨?_, d, hread, hfinish, hstored⟩
  decide +kernel

end CueSheet.Draft
