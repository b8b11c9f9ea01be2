import CueSheet.Load.Exchange
import CueSheet.Proofs.Load.Ranked

/-!
A file read line by line, without a queue: each line is handled before the next is looked at. The
loader, whose reader works through a queue, comes to the same sheet or stops with the same error.
-/

namespace CueSheet

namespace Pipe

variable {r : LineReader} {p : Pipe} {n : Nat} {text : List Char}

structure Idle (p : Pipe) : Prop where
  running : p.worker = .running
  empty : p.queue = []
  room : 0 < p.capacity

theorem idle_start (capacity : Nat) (sheet : Sheet) : (start capacity sheet).Idle :=
  ⟨rfl, rfl, by simp only [start]; omega⟩

theorem Idle.feed?_standard (h : p.Idle) (hf : p.failure = none) :
    p.feed? .standard n text = some { p with
      draft := (p.draft.read n text).draft, failure := (p.draft.read n text).refusal } := by
  obtain ⟨hrun, hempty, hroom⟩ := h
  simp [feed?, send?, settle, work, Nat.repeat, LineReader.standard, hrun, hempty, hf,
    Nat.pos_iff_ne_zero.1 hroom]

theorem Idle.feed?_refused (h : p.Idle) (hf : p.failure.isSome = true) :
    p.feed? r n text = some p := by
  obtain ⟨hrun, hempty, hroom⟩ := h
  cases p
  simp_all [feed?, send?, settle, work, Nat.repeat, Nat.pos_iff_ne_zero.1 hroom]

theorem Idle.pause? (h : p.Idle) : p.pause? r = some { p with worker := .parked } := by
  obtain ⟨hrun, hempty, hroom⟩ := h
  simp [Pipe.pause?, send?, settle, work, Nat.repeat, hrun, hempty, Nat.pos_iff_ne_zero.1 hroom]

def rewrite (p : Pipe) (sheet : Sheet) : Pipe :=
  { p with draft := { p.draft with sheet := sheet } }

theorem Idle.resume (h : p.Idle) (sheet : Sheet) :
    Pipe.resume r (rewrite { p with worker := .parked } sheet) = p.rewrite sheet := by
  obtain ⟨hrun, hempty, hroom⟩ := h
  cases p
  simp_all [Pipe.resume, rewrite, settle, Nat.repeat]

end Pipe

namespace Loader

section Reference

variable (L : Loader) (visit : Visit) (chain : List Nat) (here : Place)

def handle (x : Linker × Draft) (line : List Char × Nat) : Except LoadError (Linker × Draft) :=
  let text := Text.trim line.1
  if Directive.isDirective text then
    (L.obey visit chain here line.2 text x.1 x.2.sheet).map fun y =>
      (y.1, { x.2 with sheet := y.2 })
  else
    let reading := x.2.read line.2 text
    match reading.refusal with
    | some e => .error (.malformed here.path e)
    | none => .ok (x.1, reading.draft)

def conclude (x : Linker × Draft) : Except LoadError (Linker × Sheet) :=
  (deliver here x.2.finish x.2.sheet).map (x.1, ·)

/-- The sequential meaning of a file: its lines in order, up to the first that cannot be handled. -/
def inTurn (lines : List (List Char × Nat)) (x : Linker × Draft) :
    Except LoadError (Linker × Sheet) :=
  lines.foldlM (L.handle visit chain here) x >>= conclude here

end Reference

variable {L : Loader} {visit : Visit} {chain : List Nat} {here : Place}

theorem handle_directive {x : Linker × Draft} {line : List Char} {n : Nat}
    (hd : Directive.isDirective (Text.trim line) = true) :
    L.handle visit chain here x (line, n) =
      (L.obey visit chain here n (Text.trim line) x.1 x.2.sheet).map fun y =>
        (y.1, { x.2 with sheet := y.2 }) := by
  simp only [handle, hd, if_true]

theorem handle_refused {x : Linker × Draft} {line : List Char} {n : Nat} {e : SyntaxError}
    (hd : Directive.isDirective (Text.trim line) = false)
    (hr : (x.2.read n (Text.trim line)).refusal = some e) :
    L.handle visit chain here x (line, n) = .error (.malformed here.path e) := by
  simp only [handle, hd, hr, Bool.false_eq_true, if_false]

theorem handle_accepted {x : Linker × Draft} {line : List Char} {n : Nat}
    (hd : Directive.isDirective (Text.trim line) = false)
    (hr : (x.2.read n (Text.trim line)).refusal = none) :
    L.handle visit chain here x (line, n) =
      .ok (x.1, (x.2.read n (Text.trim line)).draft) := by
  simp only [handle, hd, hr, Bool.false_eq_true, if_false]

theorem inTurn_cons (line : List Char × Nat) (lines : List (List Char × Nat)) (x : Linker × Draft) :
    L.inTurn visit chain here (line :: lines) x =
      L.handle visit chain here x line >>= L.inTurn visit chain here lines := by
  rw [inTurn, List.foldlM_cons, bind_assoc]
  rfl

def legible (lines : List (List Char × Nat)) : List (Except FileError (List Char) × Nat) :=
  lines.map fun line => (.ok line.1, line.2)

theorem legible_cons (line : List Char) (n : Nat) (lines : List (List Char × Nat)) :
    legible ((line, n) :: lines) = (.ok line, n) :: legible lines := rfl

theorem legible_zipIdx (texts : List (List Char)) (n : Nat) :
    (texts.map Except.ok).zipIdx n = legible (texts.zipIdx n) := by
  induction texts generalizing n with
  | nil => rfl
  | cons t r ih => simp [legible, ih (n + 1)]

/-- Behind a refused line nothing is read any more, and the refusal is what is reported. -/
theorem readLines_refused (lines : List (List Char × Nat)) (st : Linker) {p : Pipe}
    {e : SyntaxError} (hp : p.Idle) (hf : p.failure = some e) :
    ∃ st' p', L.readLines visit chain here (legible lines) st p = .ok (st', p') ∧
      finish here p' = .error (.malformed here.path e) := by
  induction lines with
  | nil =>
    refine ⟨st, p, rfl, ?_⟩
    simp [finish, Pipe.finish?, hp.running, hf]
  | cons line rest ih =>
    by_cases hd : Directive.isDirective (Text.trim line.1) = true
    · refine ⟨st, { p with worker := .parked }, ?_, ?_⟩
      · simp [legible, readLines, hd, hp.pause?, Pipe.isHealthy, hf]
      · simp [finish, Pipe.finish?, hf]
    · obtain ⟨st', p', hread, hfinish⟩ := ih
      refine ⟨st', p', ?_, hfinish⟩
      have hfeed : p.feed? L.reader line.2 (Text.trim line.1) = some p :=
        hp.feed?_refused (by simp [hf])
      simpa [legible, readLines, hd, hfeed] using hread

theorem finish_eq_deliver {p : Pipe} (hp : p.Idle) (hf : p.failure = none) :
    finish here p = deliver here p.draft.finish p.draft.sheet := by
  have hfinish : p.finish? = some p.draft.finish := by simp [Pipe.finish?, hp.running, hf]
  simp only [finish, deliver, hfinish]
  cases p.draft.finish with
  | error e => rfl
  | ok _ => cases p.draft.sheet.undefined? <;> rfl

def reading (L : Loader) (visit : Visit) (chain : List Nat) (here : Place) (lines : List FileLine)
    (st : Linker) (p : Pipe) : Except LoadError (Linker × Sheet) :=
  L.readLines visit chain here lines st p >>= fun y => (finish here y.2).map (y.1, ·)

theorem visit_eq_reading (n : Nat) (chain : List Nat) (st : Linker) (here : Place) :
    L.visit (n + 1) chain st here =
      (reading L (L.visit n (chain ++ [st.places.length])) (chain ++ [st.places.length]) here
        ((L.tree.lines here).zipIdx 1) (st.opened here)
        (Pipe.start L.lineBuffer { file := st.places.length, path := here.path })).map fun y =>
          ({ y.1 with sheets := y.1.sheets.set st.places.length (some y.2) }, st.places.length) := by
  rw [visit, reading]
  change (L.readLines (L.visit n (chain ++ [st.places.length])) (chain ++ [st.places.length]) here
    ((L.tree.lines here).zipIdx 1) (st.opened here) _ >>= _) = _
  cases L.readLines (L.visit n (chain ++ [st.places.length])) (chain ++ [st.places.length]) here
      ((L.tree.lines here).zipIdx 1) (st.opened here)
      (Pipe.start L.lineBuffer { file := st.places.length, path := here.path }) with
  | error e => rfl
  | ok y =>
    obtain ⟨st₁, pipe⟩ := y
    change (finish here pipe >>= _) = Except.map _ ((finish here pipe).map _)
    cases finish here pipe <;> rfl

def body (L : Loader) (visit : Visit) (chain : List Nat) (here : Place)
    (lines : List (List Char × Nat)) (st : Linker) (p : Pipe) : Except LoadError (Linker × Sheet) :=
  L.readLines visit chain here (legible lines) st p >>= fun y => (finish here y.2).map (y.1, ·)

theorem visit_eq_body {n : Nat} {st : Linker} {texts : List (List Char)}
    (hlines : L.tree.lines here = texts.map .ok) :
    L.visit (n + 1) chain st here =
      (L.body (L.visit n (chain ++ [st.places.length])) (chain ++ [st.places.length]) here
        (texts.zipIdx 1) (st.opened here)
        (Pipe.start L.lineBuffer { file := st.places.length, path := here.path })).map fun y =>
          ({ y.1 with sheets := y.1.sheets.set st.places.length (some y.2) }, st.places.length) := by
  rw [visit_eq_reading, hlines, legible_zipIdx]
  rfl

theorem body_eq_inTurn (hL : L.reader = .standard) {lines : List (List Char × Nat)}
    {st : Linker} {p : Pipe} (hp : p.Idle) (hf : p.failure = none) :
    L.body visit chain here lines st p = L.inTurn visit chain here lines (st, p.draft) := by
  induction lines generalizing st p with
  | nil =>
    change (finish here p).map (st, ·) = conclude here (st, p.draft)
    rw [finish_eq_deliver hp hf, conclude]
  | cons line rest ih =>
    obtain ⟨line, n⟩ := line
    rw [inTurn_cons, body, legible_cons, readLines]
    cases hd : Directive.isDirective (Text.trim line) with
    | true =>
      -- the loader meets a reader that has read all lines before this one
      have hhealthy : Pipe.isHealthy { p with worker := .parked } = true := by
        simp [Pipe.isHealthy, hf]
      rw [handle_directive hd]
      simp only [if_true, hp.pause?, hhealthy, Bool.not_true, Bool.false_eq_true, if_false]
      cases L.obey visit chain here n (Text.trim line) st p.draft.sheet with
      | error e => rfl
      | ok y =>
        have hnext : (p.rewrite y.2).Idle := ⟨hp.running, hp.empty, hp.room⟩
        change L.body visit chain here rest y.1
          (Pipe.resume L.reader (Pipe.rewrite { p with worker := .parked } y.2)) = _
        rw [hp.resume]
        exact ih hnext hf
    | false =>
      simp only [Bool.false_eq_true, if_false, hL, hp.feed?_standard hf]
      cases hr : (p.draft.read n (Text.trim line)).refusal with
      | none =>
        rw [handle_accepted hd hr]
        exact ih (p := { p with draft := (p.draft.read n (Text.trim line)).draft, failure := none })
          ⟨hp.running, hp.empty, hp.room⟩ rfl
      | some e =>
        rw [handle_refused hd hr]
        have hidle : Pipe.Idle { p with
            draft := (p.draft.read n (Text.trim line)).draft, failure := some e } :=
          ⟨hp.running, hp.empty, hp.room⟩
        obtain ⟨st', p', hread, hfinish⟩ := readLines_refused rest st hidle rfl
        rw [hread]
        simp only [bind, Except.bind, hfinish, Except.map]

end Loader

end CueSheet
