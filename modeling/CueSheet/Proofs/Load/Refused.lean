import CueSheet.Proofs.Load.Frozen

/-!
Lines that are refused. A line is refused before it has changed anything: what comes after it is taken
as if the line had not been there. There is one exception, the brace behind a body whose name was
defined while the body was open; with it the body is lost.
-/

namespace CueSheet.Draft

/-- The line is the brace behind a body that its name cannot get any more. -/
structure Loses (d : Draft) (text : List Char) (b : OpenProcedure) : Prop where
  brace : Token.scan text = .ok [.symbol .rbrace]
  block : d.block = some b
  timeline : b.timeline = none
  defined : d.sheet.isDefined b.name = true

def Operation.complaint? (d : Draft) : Operation → Option (SyntaxError ⊕ LoadError)
  | .read line text => (d.read line text).refusal.map .inl
  | .finish =>
    match d.finish with
    | .ok _ => none
    | .error e => some (.inl e)
  | .declare path line decl =>
    match Linker.declare path line decl d.sheet with
    | .ok _ => none
    | .error e => some (.inr e)
  | .link path line target renames =>
    match (Linker.link path line target renames d.sheet).1 with
    | .ok _ => none
    | .error e => some (.inr e)

def complaints (d : Draft) : List Operation → List (Option (SyntaxError ⊕ LoadError))
  | [] => []
  | op :: ops => op.complaint? d :: complaints (op.apply d) ops

variable {d : Draft} {line : Nat} {text : List Char} {e : SyntaxError} {b : OpenProcedure}

theorem complaints_append (d : Draft) (ops ops' : List Operation) :
    d.complaints (ops ++ ops') = d.complaints ops ++ (d.after ops).complaints ops' := by
  induction ops generalizing d with
  | nil => rfl
  | cons op ops ih =>
    rw [List.cons_append, complaints, complaints, ih, List.cons_append]
    rfl

theorem Loses.read (h : d.Loses text b) :
    d.read line text = refused { d with block := none } (.duplicate line b.name) := by
  have hkind : Line.Kind.of [.symbol .rbrace] = .closing := rfl
  have hdefine : d.sheet.define? b.name b.body = none := (Sheet.define?_eq_none_iff _ _ _).2 h.defined
  simp only [Draft.read, h.brace, readTokens, hkind, close, h.block, h.timeline, hdefine]

theorem Turns.loses_or_eq {ts : List Token} {r : Reading} (hscan : Token.scan text = .ok ts)
    (h : d.Turns line ts r) (hr : r.refusal = some e) :
    (∃ b, d.Loses text b ∧ e = .duplicate line b.name) ∨ r.draft = d := by
  cases h with
  | malformed _ | taken _ _ => exact .inr rfl
  | lost hb ht hdefined =>
    cases hr
    exact .inl ⟨_, ⟨hscan, hb, ht, hdefined⟩, rfl⟩
  | _ => cases hr

theorem loses_or_eq (hr : (d.read line text).refusal = some e) :
    (∃ b, d.Loses text b ∧ e = .duplicate line b.name) ∨
      (∀ b, ¬ d.Loses text b) ∧ (d.read line text).draft = d := by
  by_cases hloses : ∃ b, d.Loses text b
  · obtain ⟨b, hb⟩ := hloses
    rw [hb.read] at hr
    cases hr
    exact .inl ⟨b, hb, rfl⟩
  · right
    refine ⟨not_exists.1 hloses, ?_⟩
    rcases turns_read d line text with ⟨f, hread⟩ | ⟨ts, hscan, hturns⟩
    · rw [hread]
      rfl
    · rcases hturns.loses_or_eq hscan hr with ⟨b, hb, -⟩ | heq
      · exact absurd ⟨b, hb⟩ hloses
      · exact heq

/-- A refused line leaves the sheet as it was, and the block too, unless it is the brace that loses a
body. If it is not, then whatever lines and directives come after it end in the same draft with the
same complaints as without it. -/
theorem refused_without_trace {before : List Operation}
    (h : ((d.after before).read line text).refusal = some e) :
    let x := d.after before
    let y := (x.read line text).draft
    y.sheet = x.sheet ∧
      ((∃ b, x.Loses text b ∧ e = .duplicate line b.name ∧ y.block = none) ∨
        (∀ b, ¬ x.Loses text b) ∧ y.block = x.block ∧ ∀ later,
          d.after (before ++ .read line text :: later) = d.after (before ++ later) ∧
          d.complaints (before ++ later) = d.complaints before ++ x.complaints later ∧
          d.complaints (before ++ .read line text :: later) =
            d.complaints before ++ some (.inl e) :: x.complaints later) := by
  intro x y
  rcases loses_or_eq h with ⟨b, hb, he⟩ | ⟨hkeeps, hy⟩
  · have hread : y = { x with block := none } := congrArg Reading.draft hb.read
    refine ⟨by rw [hread], .inl ⟨b, hb, he, by rw [hread]⟩⟩
  · have hy : y = x := hy
    refine ⟨by rw [hy], .inr ⟨hkeeps, by rw [hy], fun later => ⟨?_, complaints_append d before later, ?_⟩⟩⟩
    · rw [after_append, after_append]
      change y.after later = x.after later
      rw [hy]
    · rw [complaints_append, complaints, Operation.complaint?, h]
      change _ ++ some (.inl e) :: y.complaints later = _
      rw [hy]

/-- A header that stands in an open body. -/
theorem refused_without_trace_nestedHeader :
    let opened : List Operation := [.read 1 "proc go \x7b".toList]
    let d : Draft := ⟨{ file := 0, path := "/a" }, none⟩
    ((d.after opened).read 2 "proc on \x7b".toList).refusal =
        some (.malformed 2 .nestedProcedure) ∧
      ∀ later, d.after (opened ++ .read 2 "proc on \x7b".toList :: later) =
        d.after (opened ++ later) := by
  intro opened d
  have hrefused : ((d.after opened).read 2 "proc on \x7b".toList).refusal =
      some (.malformed 2 .nestedProcedure) := by
    decide +kernel
  refine ⟨hrefused, fun later => ?_⟩
  obtain ⟨-, ⟨b, -, he, -⟩ | ⟨-, -, hlater⟩⟩ := refused_without_trace hrefused
  · cases he
  · exact (hlater later).1

end CueSheet.Draft
