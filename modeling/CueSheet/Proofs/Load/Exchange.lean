import CueSheet.Proofs.Load.Underway
import Mathlib

/-!
The exchange of loader and reader comes to what the lines mean in turn, whatever the pace of the two.
The lines that are still in flight tell how far the reader is behind; all lines before them are in the
draft. A state is described by the position of the loader: which lines are done, which in flight, which
not yet sent.
-/

namespace CueSheet

def Position.weight : Position → Nat
  | .reading rest => 6 * rest.length + 2
  | .asking _ _ rest => 6 * rest.length + 5
  | .granted _ _ _ rest => 6 * rest.length + 4
  | .releasing next => next.weight + 1
  | .closed => 1
  | .returned _ => 0

def Attention.weight : Attention → Nat
  | .holding _ => 2
  | .waiting | .parked => 1
  | .ended _ | .gone => 0

namespace Exchange

def weight (s : Exchange) : Nat := s.position.weight + 2 * s.queue.length + s.reader.weight

def message (line : List Char × Nat) : Message := .line line.2 (Text.trim line.1)

def inFlight (s : Exchange) : List Message :=
  match s.reader with
  | .holding m => m :: s.queue
  | _ => s.queue

section Faithful

variable (L : Loader) (visit : Loader.Visit) (chain : List Nat) (here : Place)
  (lines : List (List Char × Nat)) (x : Linker × Draft)

def Done (before : List (List Char × Nat)) (s : Exchange) : Prop :=
  before.foldlM (L.handle visit chain here) x =
    match s.failure with
    | some e => .error (.malformed here.path e)
    | none => .ok (s.linker, s.draft)

/-- The reader is at work: it has done `before`, and `fed` and `tail` are on their way to it. -/
structure Streaming (before fed : List (List Char × Nat)) (tail : List Message) (s : Exchange) :
    Prop where
  done : Done L visit chain here x before s
  awake : s.reader = .waiting ∨ ∃ m, s.reader = .holding m
  flight : s.inFlight = fed.map message ++ tail
  plain : ∀ line ∈ fed, Directive.isDirective (Text.trim line.1) = false

def Stands : Position → Exchange → Prop
  | .reading rest, s => ∃ before fed after, lines = before ++ fed ++ after ∧
      rest = Loader.legible after ∧ Streaming L visit chain here x before fed [] s
  | .asking line n rest, s => ∃ before fed after, lines = before ++ fed ++ (line, n) :: after ∧
      rest = Loader.legible after ∧ Directive.isDirective (Text.trim line) = true ∧
      Streaming L visit chain here x before fed [.pause] s
  | .granted healthy line n rest, s => ∃ before after, lines = before ++ (line, n) :: after ∧
      rest = Loader.legible after ∧ Directive.isDirective (Text.trim line) = true ∧
      healthy = s.failure.isNone ∧ s.reader = .parked ∧ s.queue = [] ∧
      Done L visit chain here x before s
  | .releasing next, s => s.reader = .parked ∧ s.queue = [] ∧
      Stands next { s with position := next, reader := .waiting }
  | .closed, s =>
      (∃ before fed after, lines = before ++ fed ++ after ∧
        (after = [] ∨ s.failure.isSome = true) ∧ Streaming L visit chain here x before fed [] s) ∨
      ∃ verdict, s.reader = .ended verdict ∧ L.inTurn visit chain here lines x =
        (Loader.deliver here verdict s.draft.sheet).map (s.linker, ·)
  | .returned outcome, _ => outcome = L.inTurn visit chain here lines x

def Faithful (s : Exchange) : Prop := Stands L visit chain here lines x s.position s

end Faithful

variable {L : Loader} {visit : Loader.Visit} {chain : List Nat} {here : Place}
  {lines : List (List Char × Nat)} {x : Linker × Draft} {s t : Exchange}

section Done

variable {before : List (List Char × Nat)} {line : List Char} {n : Nat}

theorem Done.error (h : Done L visit chain here x before s) {e : SyntaxError}
    (hf : s.failure = some e) :
    before.foldlM (L.handle visit chain here) x = .error (.malformed here.path e) := by
  rw [h, hf]

theorem Done.ok (h : Done L visit chain here x before s) (hf : s.failure = none) :
    before.foldlM (L.handle visit chain here) x = .ok (s.linker, s.draft) := by
  rw [h, hf]

theorem Done.inTurn_error (h : Done L visit chain here x before s) {e : SyntaxError}
    (hf : s.failure = some e) (after : List (List Char × Nat)) :
    L.inTurn visit chain here (before ++ after) x = .error (.malformed here.path e) := by
  rw [Loader.inTurn, List.foldlM_append, h.error hf]
  rfl

theorem Done.inTurn_ok (h : Done L visit chain here x before s) (hf : s.failure = none)
    (after : List (List Char × Nat)) :
    L.inTurn visit chain here (before ++ after) x =
      L.inTurn visit chain here after (s.linker, s.draft) := by
  rw [Loader.inTurn, List.foldlM_append, h.ok hf]
  rfl

theorem Done.skip (h : Done L visit chain here x before s) {e : SyntaxError}
    (hf : s.failure = some e) (hft : t.failure = some e) :
    Done L visit chain here x (before ++ [(line, n)]) t := by
  rw [Done, hft, List.foldlM_append, h.error hf]
  rfl

theorem Done.step (h : Done L visit chain here x before s) (hf : s.failure = none)
    {y : Except LoadError (Linker × Draft)}
    (hy : L.handle visit chain here (s.linker, s.draft) (line, n) = y) :
    (before ++ [(line, n)]).foldlM (L.handle visit chain here) x = y := by
  rw [List.foldlM_append, h.ok hf, ← hy]
  exact bind_pure (L.handle visit chain here (s.linker, s.draft) (line, n))

theorem Done.read (h : Done L visit chain here x before s) (hf : s.failure = none)
    (hd : Directive.isDirective (Text.trim line) = false)
    (hlinker : t.linker = s.linker) (hdraft : t.draft = (s.draft.read n (Text.trim line)).draft)
    (hfailure : t.failure = (s.draft.read n (Text.trim line)).refusal) :
    Done L visit chain here x (before ++ [(line, n)]) t := by
  rw [Done, hfailure]
  cases hr : (s.draft.read n (Text.trim line)).refusal with
  | some e => exact h.step hf (Loader.handle_refused hd hr)
  | none =>
    rw [hlinker, hdraft]
    exact h.step hf (Loader.handle_accepted hd hr)

end Done

theorem ReaderStep.position (h : s.ReaderStep L t) : t.position = s.position := by
  cases h <;> rfl

theorem not_readerStep_of_parked (h : s.reader = .parked) : ¬ s.ReaderStep L t := by
  intro hstep
  cases hstep <;> simp_all

theorem not_readerStep_of_ended {verdict : Except SyntaxError Unit} (h : s.reader = .ended verdict) :
    ¬ s.ReaderStep L t := by
  intro hstep
  cases hstep <;> simp_all

section Streaming

variable {before fed : List (List Char × Nat)} {tail : List Message}

theorem Streaming.isThere (h : Streaming L visit chain here x before fed tail s) :
    s.reader.isThere = true := by
  rcases h.awake with hr | ⟨m, hr⟩ <;> rw [hr] <;> rfl

theorem Streaming.holding_line (h : Streaming L visit chain here x before fed tail s) {n : Nat}
    {text : List Char} (hr : s.reader = .holding (.line n text)) (htail : ∀ m ∈ tail, m = .pause) :
    ∃ line rest, fed = (line, n) :: rest ∧ text = Text.trim line ∧
      s.queue = rest.map message ++ tail := by
  have hflight := h.flight
  simp only [inFlight, hr] at hflight
  cases fed with
  | nil =>
    have hm : Message.line n text ∈ tail := by
      rw [List.map_nil, List.nil_append] at hflight
      rw [← hflight]
      exact List.mem_cons_self
    exact absurd (htail _ hm) (by simp)
  | cons line rest =>
    obtain ⟨line, k⟩ := line
    simp only [List.map_cons, List.cons_append, List.cons.injEq, message, Message.line.injEq]
      at hflight
    obtain ⟨⟨rfl, rfl⟩, hqueue⟩ := hflight
    exact ⟨line, rest, rfl, rfl, hqueue⟩

/-- A pause reaches the reader behind all lines. -/
theorem Streaming.holding_pause (h : Streaming L visit chain here x before fed tail s)
    (hr : s.reader = .holding .pause) : fed = [] ∧ tail = .pause :: s.queue := by
  have hflight := h.flight
  simp only [inFlight, hr] at hflight
  cases fed with
  | nil => exact ⟨rfl, hflight.symm⟩
  | cons line rest => simp [message] at hflight

theorem Streaming.readerStep (hL : L.reader = .standard)
    (h : Streaming L visit chain here x before fed tail s) (htail : ∀ m ∈ tail, m = .pause)
    (hasking : tail ≠ [] → s.position.isAsking = true) (hstep : s.ReaderStep L t) :
    (∃ before' fed', before' ++ fed' = before ++ fed ∧
      Streaming L visit chain here x before' fed' tail t ∧
      (s.failure.isSome = true → t.failure.isSome = true)) ∨
    (fed = [] ∧ tail = [] ∧ s.position.isClosed = true ∧ t.reader = .ended s.verdict ∧
      t.linker = s.linker ∧ t.draft = s.draft) := by
  cases hstep with
  | take hr hq =>
    have hflight := h.flight
    simp only [inFlight, hr, hq] at hflight
    exact .inl ⟨before, fed, rfl, ⟨h.done, .inr ⟨_, rfl⟩, hflight, h.plain⟩, id⟩
  | @read n text reading hr hf hread =>
    obtain ⟨line, rest, rfl, rfl, hq⟩ := h.holding_line hr htail
    obtain ⟨hd, hplain⟩ := List.forall_mem_cons.1 h.plain
    obtain rfl : s.draft.read n (Text.trim line) = reading := by
      rw [hL] at hread
      exact Option.some.inj hread
    refine .inl ⟨before ++ [(line, n)], rest, by simp, ⟨?_, .inl rfl, hq, hplain⟩, by simp [hf]⟩
    exact h.done.read hf hd rfl rfl rfl
  | @skip n text e hr hf =>
    obtain ⟨line, rest, rfl, rfl, hq⟩ := h.holding_line hr htail
    obtain ⟨-, hplain⟩ := List.forall_mem_cons.1 h.plain
    refine .inl ⟨before ++ [(line, n)], rest, by simp, ⟨?_, .inl rfl, hq, hplain⟩, id⟩
    exact h.done.skip hf hf
  | collapse hr hf hread =>
    rw [hL] at hread
    cases hread
  | unheard hr hpos =>
    obtain ⟨-, rfl⟩ := h.holding_pause hr
    rw [hasking (by simp)] at hpos
    cases hpos
  | finish hr hq hclosed =>
    have hflight := h.flight
    simp only [inFlight, hr, hq] at hflight
    obtain ⟨hfed, htl⟩ := List.append_eq_nil_iff.1 hflight.symm
    exact .inr ⟨List.map_eq_nil_iff.1 hfed, htl, hclosed, rfl, rfl, rfl⟩

theorem Streaming.exists_readerStep (hL : L.reader = .standard)
    (h : Streaming L visit chain here x before fed tail s) (hflight : s.inFlight ≠ [])
    (hpause : s.reader ≠ .holding .pause) : ∃ t, s.ReaderStep L t := by
  rcases h.awake with hr | ⟨m, hr⟩
  · simp only [inFlight, hr] at hflight
    obtain ⟨m, rest, hq⟩ := List.exists_cons_of_ne_nil hflight
    exact ⟨_, .take hr hq⟩
  · cases m with
    | pause => exact absurd hr hpause
    | line n text =>
      cases hf : s.failure with
      | some e => exact ⟨_, .skip hr hf⟩
      | none => exact ⟨_, .read hr hf (by rw [hL]; rfl)⟩

end Streaming

theorem faithful_start {texts : List (List Char)} (hlines : L.tree.lines here = texts.map .ok)
    (st : Linker) (d : Draft) :
    Faithful L visit chain here (texts.zipIdx 1) (st, d) (start L st d here) := by
  refine ⟨[], [], texts.zipIdx 1, rfl, ?_, rfl, .inl rfl, rfl, by simp⟩
  rw [hlines, Loader.legible_zipIdx]

theorem faithful_readerStep (hL : L.reader = .standard)
    (h : Faithful L visit chain here lines x s) (hstep : s.ReaderStep L t) :
    Faithful L visit chain here lines x t := by
  have hsame := hstep.position
  rw [Faithful, hsame]
  rw [Faithful] at h
  cases hpos : s.position with
  | reading rest =>
    rw [hpos] at h
    obtain ⟨before, fed, after, hlines, hrest, hstream⟩ := h
    rcases hstream.readerStep hL (by simp) (by simp) hstep with
      ⟨before', fed', hsplit, hstream', -⟩ | ⟨-, -, hclosed, -⟩
    · exact ⟨before', fed', after, hsplit ▸ hlines, hrest, hstream'⟩
    · rw [hpos] at hclosed
      cases hclosed
  | asking line n rest =>
    rw [hpos] at h
    obtain ⟨before, fed, after, hlines, hrest, hd, hstream⟩ := h
    rcases hstream.readerStep hL (by simp) (by simp [hpos, Position.isAsking]) hstep with
      ⟨before', fed', hsplit, hstream', -⟩ | ⟨-, htail, -⟩
    · exact ⟨before', fed', after, hsplit ▸ hlines, hrest, hd, hstream'⟩
    · cases htail
  | granted healthy line n rest =>
    rw [hpos] at h
    obtain ⟨before, after, -, -, -, -, hparked, -⟩ := h
    exact absurd hstep (not_readerStep_of_parked hparked)
  | releasing next =>
    rw [hpos] at h
    exact absurd hstep (not_readerStep_of_parked h.1)
  | closed =>
    rw [hpos] at h
    rcases h with ⟨before, fed, after, hlines, hafter, hstream⟩ | ⟨verdict, hended, -⟩
    · rcases hstream.readerStep hL (by simp) (by simp) hstep with
        ⟨before', fed', hsplit, hstream', hf⟩ | ⟨rfl, -, -, hended, hlinker, hdraft⟩
      · exact .inl ⟨before', fed', after, hsplit ▸ hlines, hafter.imp_right hf, hstream'⟩
      · refine .inr ⟨s.verdict, hended, ?_⟩
        rw [hlinker, hdraft, hlines, List.append_nil, verdict]
        cases hfail : s.failure with
        | some e => exact hstream.done.inTurn_error hfail after
        | none =>
          obtain rfl : after = [] := by simpa [hfail] using hafter
          exact hstream.done.inTurn_ok hfail []
    · exact absurd hstep (not_readerStep_of_ended hended)
  | returned outcome =>
    rw [hpos] at h
    exact h

theorem legible_eq_cons {after : List (List Char × Nat)} {read : Except FileError (List Char)}
    {n : Nat} {rest : List FileLine} (h : (read, n) :: rest = Loader.legible after) :
    ∃ line after', read = .ok line ∧ after = (line, n) :: after' ∧ rest = Loader.legible after' := by
  cases after with
  | nil => cases h
  | cons line after' =>
    obtain ⟨line, k⟩ := line
    rw [Loader.legible_cons] at h
    cases h
    exact ⟨line, after', rfl, rfl, rfl⟩

theorem inFlight_send (m : Message) (position : Position) :
    inFlight { s with position := position, queue := s.queue ++ [m] } = s.inFlight ++ [m] := by
  simp only [inFlight]
  split <;> rfl

theorem faithful_loaderStep (h : Faithful L visit chain here lines x s)
    (hstep : s.LoaderStep L visit chain here t) : Faithful L visit chain here lines x t := by
  rw [Faithful] at h
  cases hstep with
  | fail hpos =>
    rw [hpos] at h
    obtain ⟨before, fed, after, -, hrest, -⟩ := h
    obtain ⟨line, after', hread, -⟩ := legible_eq_cons hrest
    cases hread
  | @feed line n rest hpos hd _ _ =>
    rw [hpos] at h
    obtain ⟨before, fed, after, hlines, hrest, hstream⟩ := h
    obtain ⟨_, after', hread, rfl, hrest'⟩ := legible_eq_cons hrest
    cases hread
    refine ⟨before, fed ++ [(line, n)], after', by simp [hlines], hrest', hstream.done, hstream.awake,
      ?_, List.forall_mem_append.2 ⟨hstream.plain, by simpa using hd⟩⟩
    rw [inFlight_send, hstream.flight]
    simp [message]
  | ask hpos hd _ _ =>
    rw [hpos] at h
    obtain ⟨before, fed, after, hlines, hrest, hstream⟩ := h
    obtain ⟨line, after', hread, rfl, hrest'⟩ := legible_eq_cons hrest
    cases hread
    refine ⟨before, fed, after', hlines, hrest', hd, hstream.done, hstream.awake, ?_, hstream.plain⟩
    rw [inFlight_send, hstream.flight]
    simp
  | stop hpos hgone =>
    rw [hpos] at h
    obtain ⟨before, fed, after, -, -, hstream⟩ := h
    rw [hstream.isThere] at hgone
    cases hgone
  | refuse hpos =>
    rw [hpos] at h
    obtain ⟨before, after, hlines, -, -, hhealthy, hparked, hqueue, hdone⟩ := h
    refine ⟨hparked, hqueue, .inl ⟨before, [], _, by simpa using hlines, .inr ?_, hdone, .inl rfl,
      by simp [inFlight, hqueue], by simp⟩⟩
    simpa [Option.isSome_iff_ne_none] using hhealthy.symm
  | @obey line n rest st sheet hpos hobey =>
    rw [hpos] at h
    obtain ⟨before, after, hlines, hrest, hd, hhealthy, hparked, hqueue, hdone⟩ := h
    have hf : s.failure = none := Option.isNone_iff_eq_none.1 hhealthy.symm
    refine ⟨hparked, hqueue, before ++ [(line, n)], [], after, by simpa using hlines, hrest, ?_,
      .inl rfl, by simp [inFlight, hqueue], by simp⟩
    have hhandle := hdone.step (n := n) hf (Loader.handle_directive hd)
    rw [hobey] at hhandle
    rw [Done]
    simp only [hf]
    exact hhandle
  | reject hpos hobey =>
    rw [hpos] at h
    obtain ⟨before, after, hlines, -, hd, hhealthy, hparked, hqueue, hdone⟩ := h
    have hf : s.failure = none := Option.isNone_iff_eq_none.1 hhealthy.symm
    refine ⟨hparked, hqueue, ?_⟩
    rw [Stands, hlines, hdone.inTurn_ok hf, Loader.inTurn_cons, Loader.handle_directive hd, hobey]
    rfl
  | abandon hpos hgone =>
    rw [hpos] at h
    rw [h.1] at hgone
    cases hgone
  | close hpos =>
    rw [hpos] at h
    obtain ⟨before, fed, after, hlines, hrest, hstream⟩ := h
    have hafter : after = [] := List.map_eq_nil_iff.1 hrest.symm
    exact .inl ⟨before, fed, after, hlines, .inl hafter, hstream.done, hstream.awake, hstream.flight,
      hstream.plain⟩
  | join hpos hended =>
    rw [hpos] at h
    rcases h with ⟨before, fed, after, -, -, hstream⟩ | ⟨verdict', hended', hturn⟩
    · have hthere := hstream.isThere
      rw [hended] at hthere
      cases hthere
    · rw [hended] at hended'
      cases hended'
      exact hturn.symm
  | lose hpos hgone =>
    rw [hpos] at h
    rcases h with ⟨before, fed, after, -, -, hstream⟩ | ⟨verdict', hended', -⟩
    · have hthere := hstream.isThere
      rw [hgone] at hthere
      cases hthere
    · rw [hgone] at hended'
      cases hended'

theorem faithful_meeting (h : Faithful L visit chain here lines x s) (hstep : s.Meeting t) :
    Faithful L visit chain here lines x t := by
  rw [Faithful] at h
  cases hstep with
  | acknowledge hpos hr =>
    rw [hpos] at h
    obtain ⟨before, fed, after, hlines, hrest, hd, hstream⟩ := h
    obtain ⟨rfl, htail⟩ := hstream.holding_pause hr
    have hqueue : s.queue = [] := by simpa using htail.symm
    exact ⟨before, after, by simpa using hlines, hrest, hd, rfl, rfl, hqueue, hstream.done⟩
  | resume hpos hr =>
    rw [hpos] at h
    exact h.2.2

theorem faithful_step (hL : L.reader = .standard) (h : Faithful L visit chain here lines x s)
    (hstep : s.Step L visit chain here t) : Faithful L visit chain here lines x t := by
  rcases hstep with hstep | hstep | hstep
  · exact faithful_loaderStep h hstep
  · exact faithful_readerStep hL h hstep
  · exact faithful_meeting h hstep

theorem faithful_run (hL : L.reader = .standard) (h : Faithful L visit chain here lines x s)
    (hrun : Relation.ReflTransGen (Step L visit chain here) s t) :
    Faithful L visit chain here lines x t := by
  induction hrun with
  | refl => exact h
  | tail _ hstep ih => exact faithful_step hL ih hstep

/-- Loader and reader never wait for one another. -/
theorem Faithful.exists_step (hL : L.reader = .standard) (h : Faithful L visit chain here lines x s)
    (hopen : ∀ outcome, s.position ≠ .returned outcome) : ∃ t, s.Step L visit chain here t := by
  rw [Faithful] at h
  cases hpos : s.position with
  | reading rest =>
    rw [hpos] at h
    obtain ⟨before, fed, after, hlines, rfl, hstream⟩ := h
    cases after with
    | nil => exact ⟨_, .inl (.close hpos)⟩
    | cons line after =>
      by_cases hroom : s.hasRoom L
      · cases hd : Directive.isDirective (Text.trim line.1) with
        | false => exact ⟨_, .inl (.feed hpos hd hstream.isThere hroom)⟩
        | true => exact ⟨_, .inl (.ask hpos hd hstream.isThere hroom)⟩
      · -- the queue is full, so there is something to read
        have hflight : s.inFlight ≠ [] := by
          have hqueue : s.queue ≠ [] := by
            intro hq
            refine hroom ?_
            simp only [hasRoom, hq, List.length_nil]
            omega
          simp only [inFlight]
          split <;> simp [hqueue]
        have hpause : s.reader ≠ .holding .pause := fun hr =>
          absurd (hstream.holding_pause hr).2 (by simp)
        obtain ⟨t, ht⟩ := hstream.exists_readerStep hL hflight hpause
        exact ⟨t, .inr (.inl ht)⟩
  | asking line n rest =>
    rw [hpos] at h
    obtain ⟨before, fed, after, -, -, -, hstream⟩ := h
    by_cases hr : s.reader = .holding .pause
    · exact ⟨_, .inr (.inr (.acknowledge hpos hr))⟩
    · obtain ⟨t, ht⟩ := hstream.exists_readerStep hL (by simp [hstream.flight]) hr
      exact ⟨t, .inr (.inl ht)⟩
  | granted healthy line n rest =>
    cases healthy with
    | false => exact ⟨_, .inl (.refuse hpos)⟩
    | true =>
      cases hobey : L.obey visit chain here n (Text.trim line) s.linker s.draft.sheet with
      | error e => exact ⟨_, .inl (.reject hpos hobey)⟩
      | ok y => exact ⟨_, .inl (.obey hpos hobey)⟩
  | releasing next =>
    rw [hpos] at h
    exact ⟨_, .inr (.inr (.resume hpos h.1))⟩
  | closed =>
    rw [hpos] at h
    rcases h with ⟨before, fed, after, -, -, hstream⟩ | ⟨verdict, hended, -⟩
    · by_cases hflight : s.inFlight = []
      · have hr : s.reader = .waiting := by
          rcases hstream.awake with hr | ⟨m, hr⟩
          · exact hr
          · simp [inFlight, hr] at hflight
        have hqueue : s.queue = [] := by simpa [inFlight, hr] using hflight
        exact ⟨_, .inr (.inl (.finish hr hqueue (by rw [hpos]; rfl)))⟩
      · have hpause : s.reader ≠ .holding .pause := fun hr =>
          absurd (hstream.holding_pause hr).2 (by simp)
        obtain ⟨t, ht⟩ := hstream.exists_readerStep hL hflight hpause
        exact ⟨t, .inr (.inl ht)⟩
    · exact ⟨_, .inl (.join hpos hended)⟩
  | returned outcome => exact absurd hpos (hopen outcome)

theorem step_weight (hstep : s.Step L visit chain here t) : t.weight < s.weight := by
  rcases hstep with hstep | hstep | hstep <;> cases hstep <;>
    simp_all [weight, Position.weight, Attention.weight, Attention.isThere] <;> omega

/-- No run goes on for ever. -/
theorem exists_not_step (run : Nat → Exchange) :
    ∃ k, ¬ (run k).Step L visit chain here (run (k + 1)) := by
  by_contra hall
  have hall : ∀ k, (run k).Step L visit chain here (run (k + 1)) := by simpa using hall
  have hweight : ∀ k, (run k).weight + k ≤ (run 0).weight := by
    intro k
    induction k with
    | zero => simp
    | succ k ih =>
      have hstep := step_weight (hall k)
      omega
  have hlast := hweight ((run 0).weight + 1)
  omega

/-- What holds in every state that the two can come to. -/
structure InStep (L : Loader) (visit : Loader.Visit) (chain : List Nat) (here : Place)
    (lines : List (List Char × Nat)) (x : Linker × Draft) (s : Exchange) : Prop where
  outcome : ∀ o, s.position = .returned o → o = L.inTurn visit chain here lines x
  caughtUp : ∀ healthy line n rest, s.position = .granted healthy line n rest →
    ∃ before after, lines = before ++ (line, n) :: after ∧ healthy = s.failure.isNone ∧
      Done L visit chain here x before s
  alone : s.position.holdsPause = true → s.inFlight = [] ∧ ∀ t, ¬ s.ReaderStep L t
  unblocked : (∃ o, s.position = .returned o) ∨ ∃ t, s.Step L visit chain here t

theorem inStep_of_faithful (hL : L.reader = .standard)
    (h : Faithful L visit chain here lines x s) : InStep L visit chain here lines x s := by
  have hstands : Stands L visit chain here lines x s.position s := h
  constructor
  · intro o hpos
    rw [hpos] at hstands
    exact hstands
  · intro healthy line n rest hpos
    rw [hpos] at hstands
    obtain ⟨before, after, hlines, -, -, hhealthy, -, -, hdone⟩ := hstands
    exact ⟨before, after, hlines, hhealthy, hdone⟩
  · intro hpause
    have hparked : s.reader = .parked ∧ s.queue = [] := by
      cases hpos : s.position with
      | granted healthy line n rest =>
        rw [hpos] at hstands
        obtain ⟨before, after, -, -, -, -, hparked, hqueue, -⟩ := hstands
        exact ⟨hparked, hqueue⟩
      | releasing next =>
        rw [hpos] at hstands
        exact ⟨hstands.1, hstands.2.1⟩
      | _ =>
        rw [hpos] at hpause
        cases hpause
    refine ⟨by simp [inFlight, hparked.1, hparked.2], fun t => not_readerStep_of_parked hparked.1⟩
  · by_cases hopen : ∃ o, s.position = .returned o
    · exact .inl hopen
    · exact .inr (h.exists_step hL fun o ho => hopen ⟨o, ho⟩)

/-- The load of one file, at any depth of a load that is under way. All schedules come to the outcome
of the lines in turn, which is what the visit of the file comes to as well. -/
theorem load_in_turn {n : Nat} {st : Linker} {texts : List (List Char)}
    (hL : L.reader = .standard) (hst : st.Underway L.tree chain) (hnew : here ∉ st.places)
    (hn : L.tree.nodes.length ≤ n + chain.length) (hlines : L.tree.lines here = texts.map .ok) :
    let id := st.places.length
    let visit := L.visit n (chain ++ [id])
    let d : Draft := { sheet := { file := id, path := here.path } }
    let outcome := L.inTurn visit (chain ++ [id]) here (texts.zipIdx 1) (st.opened here, d)
    L.visit (n + 1) chain st here =
        outcome.map (fun y => ({ y.1 with sheets := y.1.sheets.set id (some y.2) }, id)) ∧
      (∀ path, outcome ≠ .error (.readerStopped path)) ∧
      (∀ s, Relation.ReflTransGen (Step L visit (chain ++ [id]) here)
        (start L (st.opened here) d here) s →
        InStep L visit (chain ++ [id]) here (texts.zipIdx 1) (st.opened here, d) s) ∧
      ∀ run : Nat → Exchange, ∃ k, ¬ (run k).Step L visit (chain ++ [id]) here (run (k + 1)) := by
  intro id visit d outcome
  have hnode : here ∈ L.tree.nodes.map (·.1) := by
    by_contra hnode
    obtain ⟨e, he⟩ := Loader.lines_of_not_mem hnode
    rw [hlines] at he
    cases texts <;> simp at he
  have hopen := hst.opened hnew hnode
  have hnested : Loader.Answers L.tree (chain ++ [id]) visit :=
    Loader.visit_answers hL (by simp; omega)
  have hidle := Pipe.idle_start L.lineBuffer d.sheet
  have hbody : L.body visit (chain ++ [id]) here (texts.zipIdx 1) (st.opened here)
      (Pipe.start L.lineBuffer d.sheet) = outcome := Loader.body_eq_inTurn hL hidle rfl
  refine ⟨?_, fun path => ?_, fun s hs => ?_, exists_not_step⟩
  · rw [Loader.visit_eq_body hlines, ← hbody]
  · have hserved : Served _ outcome :=
      hbody ▸ Loader.served_body hL hnested (texts.zipIdx 1) hopen hidle
    exact hserved.ne_readerStopped path
  · exact inStep_of_faithful hL (faithful_run hL (faithful_start hlines _ _) hs)

def roomForOne : Loader where
  tree := ⟨[
    (["a"], .file "#load \"b\"\nproc Main \x7b\ngo\n\x7d".toUTF8.toList),
    (["b"], .file "proc go \x7b\n\x7d".toUTF8.toList)]⟩
  lineBuffer := 1

theorem load_in_turn_roomForOne :
    let lines := ["#load \"b\"".toList, "proc Main \x7b".toList, "go".toList, "\x7d".toList]
    let d : Draft := { sheet := { file := 0, path := "/a" } }
    roomForOne.tree.lines ["a"] = lines.map .ok ∧
      ∀ s, Relation.ReflTransGen (Step roomForOne (roomForOne.visit 2 [0]) [0] ["a"])
        (start roomForOne (({} : Linker).opened ["a"]) d ["a"]) s →
      (∀ o, s.position = .returned o → o.map (·.2.procedures.map (·.name)) = .ok ["Main", "go"]) ∧
      ((∃ o, s.position = .returned o) ∨
        ∃ t, s.Step roomForOne (roomForOne.visit 2 [0]) [0] ["a"] t) := by
  intro lines d
  have hlines : roomForOne.tree.lines ["a"] = lines.map .ok := by
    cbv
  have hturn : (roomForOne.inTurn (roomForOne.visit 2 [0]) [0] ["a"] (lines.zipIdx 1)
      (({} : Linker).opened ["a"], d)).map (·.2.procedures.map (·.name)) = .ok ["Main", "go"] := by
    cbv
  obtain ⟨-, -, hreached, -⟩ := load_in_turn (L := roomForOne) (n := 2) rfl (Linker.underway_empty _)
    (by simp) (by decide) hlines
  refine ⟨hlines, fun s hs => ?_⟩
  have hstep := hreached s hs
  refine ⟨fun o ho => ?_, hstep.unblocked⟩
  rw [hstep.outcome o ho]
  exact hturn

end Exchange

end CueSheet
