import CueSheet.Draft
import CueSheet.Proofs.Load.Sheet
import CueSheet.Proofs.Source.Statement

/-!
One written line and the draft that takes it. What a draft is in the middle of says what the line does
to it; the numbers of its lines do not matter.
-/

namespace CueSheet

structure Spoken (name : String) : Prop where
  isName : Text.isName name.toList = true
  not_proc : name ≠ "proc"
  not_timeline : name ≠ "timeline"

structure Sheet.Speaks (s : Sheet) (id : DeviceId) : Prop where
  declared : ∃ d ∈ s.devices, d.id = id
  spoken : Spoken (s.nameOf id)

structure Entry.Writable (s : Sheet) (e : Entry) : Prop where
  device : s.Speaks e.device
  args : ∀ x ∈ e.args, Line.Writable x
  time : ∀ t, e.time = some t → t.Fits

def Element.Writable (s : Sheet) : Element → Prop
  | .timed entries => ∀ e ∈ entries, e.Writable s
  | .command device args => s.Speaks device ∧ ∀ x ∈ args, Line.Writable x
  | .call name => Spoken name ∧ s.device? name = none

structure Listing.Writable (s : Sheet) (p : Listing) : Prop where
  isName : Text.isName p.name.toList = true
  not_device : s.device? p.name = none
  body : ∀ e ∈ p.body, e.Writable s

theorem Sheet.device?_of_mem {s : Sheet} {d : Device} (hd : (s.devices.map (·.name)).Nodup)
    (h : d ∈ s.devices) : s.device? d.name = some d := by
  cases hfind : s.device? d.name with
  | none => exact absurd (decide_eq_true rfl) (List.find?_eq_none.1 hfind d h)
  | some d' =>
    have hname : d'.name = d.name := by simpa using List.find?_some hfind
    rw [List.inj_on_of_nodup_map hd (List.mem_of_find?_eq_some hfind) h hname]

theorem Sheet.device?_nameOf {s : Sheet} {id : DeviceId} (hd : (s.devices.map (·.name)).Nodup)
    (h : s.Speaks id) : ∃ d, s.device? (s.nameOf id) = some d ∧ d.id = id := by
  obtain ⟨d, hmem, hid⟩ := h.declared
  cases hfind : s.devices.find? (·.id = id) with
  | none => exact absurd (decide_eq_true hid) (List.find?_eq_none.1 hfind d hmem)
  | some d' =>
    have hname : s.nameOf id = d'.name := by rw [nameOf, hfind, Option.map_some, Option.getD_some]
    refine ⟨d', ?_, by simpa using List.find?_some hfind⟩
    rw [hname]
    exact Sheet.device?_of_mem hd (List.mem_of_find?_eq_some hfind)

inductive Stand
  | outside
  | inside (p : Listing)
  | timed (p : Listing) (entries : List Entry)

namespace Draft

def stand (d : Draft) : Stand :=
  match d.block with
  | none => .outside
  | some b =>
    match b.timeline with
    | none => .inside ⟨b.name, b.body⟩
    | some t => .timed ⟨b.name, b.body⟩ t.entries

/-- The draft has read the procedures `done`, defined them and no others, and has come to `x`. -/
structure Reached (s : Sheet) (done : List Listing) (x : Stand) (d : Draft) : Prop where
  stand : d.stand = x
  devices : d.sheet.devices = s.devices
  stored : ∀ p ∈ done, d.sheet.procedure? p.name = some ⟨p.name, .body p.body⟩
  defined : ∀ name, d.sheet.isDefined name = true → name ∈ done.map (·.name)

section Stands

variable {d : Draft} {p : Listing} {entries : List Entry}

theorem block_of_outside (h : d.stand = .outside) : d.block = none := by
  unfold stand at h
  split at h
  · assumption
  · split at h <;> cases h

theorem block_of_inside (h : d.stand = .inside p) :
    ∃ line, d.block = some ⟨p.name, line, p.body, none⟩ := by
  unfold stand at h
  split at h
  · cases h
  · next b hb =>
    obtain ⟨name, line, body, timeline⟩ := b
    split at h
    · next ht =>
      cases h
      cases ht
      exact ⟨line, hb⟩
    · cases h

theorem block_of_timed (h : d.stand = .timed p entries) :
    ∃ line start, d.block = some ⟨p.name, line, p.body, some ⟨start, entries⟩⟩ := by
  unfold stand at h
  split at h
  · cases h
  · next b hb =>
    obtain ⟨name, line, body, timeline⟩ := b
    split at h
    · cases h
    · next t ht =>
      cases h
      cases ht
      exact ⟨line, t.line, hb⟩

end Stands

structure Takes (P : Draft → Prop) (ts : List Token) (Q : Draft → Prop) : Prop where
  spellable : ∀ t ∈ ts, t.Spellable
  leads : ∀ d line, P d → ∃ d', d.readTokens line ts = d'.accepted ∧ Q d'

theorem Takes.read {P Q : Draft → Prop} {ts : List Token} (h : Takes P ts Q) {d : Draft}
    (line : Nat) (hd : P d) : ∃ d', d.read line (Token.line ts) = d'.accepted ∧ Q d' := by
  rw [Draft.read, Token.scan_line h.spellable]
  exact h.leads d line hd

section Lines

variable {s : Sheet} {done : List Listing} {p : Listing} {entries : List Entry} {b : Bracketing}

theorem Reached.device? {d : Draft} {x : Stand} (h : d.Reached s done x) (name : String) :
    d.sheet.device? name = s.device? name := by
  rw [Sheet.device?, h.devices, Sheet.device?]

theorem Reached.move {d : Draft} {x y : Stand} {block : Option OpenProcedure}
    (h : d.Reached s done x) (hy : Draft.stand ⟨d.sheet, block⟩ = y) :
    Reached s done y ⟨d.sheet, block⟩ :=
  ⟨hy, h.devices, h.stored, h.defined⟩

theorem takes_header (hp : p.Writable s) (hnew : p.name ∉ done.map (·.name)) :
    Takes (Reached s done .outside) [.name "proc", .name p.name, .symbol .lbrace]
      (Reached s done (.inside ⟨p.name, []⟩)) := by
  refine ⟨?_, fun d line h => ?_⟩
  · simp only [List.forall_mem_cons, List.not_mem_nil, false_implies, implies_true]
    exact ⟨rfl, hp.isName, trivial, trivial⟩
  have hblock := block_of_outside h.stand
  have hdefined : ¬ d.sheet.isDefined p.name = true := fun hd => hnew (h.defined p.name hd)
  refine ⟨⟨d.sheet, some ⟨p.name, line, [], none⟩⟩, ?_, h.move rfl⟩
  change d.openProcedure line p.name = _
  rw [openProcedure, if_neg (by simp [hblock]), if_neg (by simp [h.device?, hp.not_device]),
    if_neg hdefined]

theorem takes_timeline :
    Takes (Reached s done (.inside p)) [.name "timeline", .symbol .lbrace]
      (Reached s done (.timed p [])) := by
  refine ⟨List.forall_mem_cons.2 ⟨rfl, List.forall_mem_singleton.2 trivial⟩, fun d line h => ?_⟩
  obtain ⟨start, hblock⟩ := block_of_inside h.stand
  refine ⟨⟨d.sheet, some ⟨p.name, start, p.body, some ⟨line, []⟩⟩⟩, ?_, h.move rfl⟩
  change d.openTimeline line = _
  simp only [openTimeline, hblock]

theorem takes_end_timed :
    Takes (Reached s done (.timed p entries)) [.symbol .rbrace]
      (Reached s done (.inside ⟨p.name, p.body ++ [.timed entries]⟩)) := by
  refine ⟨List.forall_mem_singleton.2 trivial, fun d line h => ?_⟩
  obtain ⟨start, start', hblock⟩ := block_of_timed h.stand
  refine ⟨⟨d.sheet, some ⟨p.name, start, p.body ++ [.timed entries], none⟩⟩, ?_, h.move rfl⟩
  change d.close line = _
  simp only [close, hblock]

theorem takes_end (hnew : p.name ∉ done.map (·.name)) :
    Takes (Reached s done (.inside p)) [.symbol .rbrace] (Reached s (done ++ [p]) .outside) := by
  refine ⟨List.forall_mem_singleton.2 trivial, fun d line h => ?_⟩
  obtain ⟨start, hblock⟩ := block_of_inside h.stand
  have hdefined : ¬ d.sheet.isDefined p.name = true := fun hd => hnew (h.defined p.name hd)
  refine ⟨⟨d.sheet.put ⟨p.name, .body p.body⟩, none⟩, ?_, rfl, h.devices, ?_, ?_⟩
  · change d.close line = _
    simp only [close, hblock, Sheet.define?, if_neg hdefined]
  · refine List.forall_mem_append.2 ⟨fun q hq => ?_, List.forall_mem_singleton.2 ?_⟩
    · -- a body that was stored before is not lost under the new name
      have hne : p.name ≠ q.name := fun he => hnew (he ▸ List.mem_map_of_mem hq)
      rw [Sheet.procedure?_put, if_neg hne]
      exact h.stored q hq
    · rw [Sheet.procedure?_put, if_pos rfl]
  · intro name hname
    rw [Sheet.isDefined_put] at hname
    rw [List.map_append, List.mem_append]
    split_ifs at hname with he
    · exact .inr (List.mem_singleton.2 he.symm)
    · exact .inl (h.defined name hname)

theorem takes_statement {P Q : Draft → Prop} {t : Line.Statement} (ht : t.Writable)
    (hname : Spoken t.name)
    (h : ∀ d line, P d → ∃ o, d.block = some o ∧ ∃ d', d.perform line o t = d'.accepted ∧ Q d') :
    Takes P (t.tokens b) Q := by
  refine ⟨Line.spellable_statement ht, fun d line hd => ?_⟩
  obtain ⟨o, hblock, hperform⟩ := h d line hd
  rw [readTokens, Line.kind_statement hname.not_proc hname.not_timeline]
  simpa only [statement, hblock, Line.statement_tokens ht] using hperform

theorem takes_command {device : DeviceId} {args : List Expr}
    (hd : (s.devices.map (·.name)).Nodup) (hs : s.Speaks device)
    (hargs : ∀ e ∈ args, Line.Writable e) :
    Takes (Reached s done (.inside p)) (Line.Statement.tokens b ⟨s.nameOf device, args, none⟩)
      (Reached s done (.inside ⟨p.name, p.body ++ [.command device args]⟩)) := by
  refine takes_statement ⟨hs.spoken.isName, hargs, by rintro t ⟨⟩⟩ hs.spoken fun d line h => ?_
  obtain ⟨start, hblock⟩ := block_of_inside h.stand
  obtain ⟨dev, hdevice, rfl⟩ := Sheet.device?_nameOf hd hs
  refine ⟨_, hblock, ⟨d.sheet, some ⟨p.name, start, p.body ++ [.command dev.id args], none⟩⟩, ?_,
    h.move rfl⟩
  simp only [perform, h.device?, hdevice]
  rfl

theorem takes_entry {e : Entry} (hd : (s.devices.map (·.name)).Nodup) (he : e.Writable s) :
    Takes (Reached s done (.timed p entries))
      (Line.Statement.tokens b ⟨s.nameOf e.device, e.args, e.time⟩)
      (Reached s done (.timed p (entries ++ [e]))) := by
  have hname := he.device.spoken
  refine takes_statement ⟨hname.isName, he.args, he.time⟩ hname fun d line h => ?_
  obtain ⟨start, start', hblock⟩ := block_of_timed h.stand
  obtain ⟨dev, hdevice, hid⟩ := Sheet.device?_nameOf hd he.device
  refine ⟨_, hblock, ⟨d.sheet, some ⟨p.name, start, p.body, some ⟨start', entries ++ [e]⟩⟩⟩, ?_,
    h.move rfl⟩
  simp only [perform, h.device?, hdevice, hid]

theorem takes_call {name : String} (hs : Spoken name) (hdevice : s.device? name = none) :
    Takes (Reached s done (.inside p)) (Line.Statement.tokens b ⟨name, [], none⟩)
      (Reached s done (.inside ⟨p.name, p.body ++ [.call name]⟩)) := by
  refine takes_statement ⟨hs.isName, List.forall_mem_nil _, by rintro t ⟨⟩⟩ hs fun d line h => ?_
  obtain ⟨start, hblock⟩ := block_of_inside h.stand
  refine ⟨_, hblock, ⟨d.sheet.mention name, some ⟨p.name, start, p.body ++ [.call name], none⟩⟩, ?_,
    rfl, ?_, ?_, ?_⟩
  · simp only [perform, h.device?, hdevice]
    rfl
  · rw [Sheet.devices_mention]
    exact h.devices
  · intro q hq
    have hstored := h.stored q hq
    rw [Sheet.procedure?_mention]
    split
    · next he => rw [he, hstored, Option.getD_some]
    · exact hstored
  · intro other ho
    rw [Sheet.isDefined_mention] at ho
    exact h.defined other ho

end Lines

end Draft

end CueSheet
