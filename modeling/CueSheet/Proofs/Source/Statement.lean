import CueSheet.Proofs.Source.Parsing

/-!
A statement that was written is read back: its arguments, with commas between them, and its time, in
each of the forms that a time has. Whoever wrote it, the times that are read from it fit.
-/

namespace CueSheet

def EndSpec.Fits : EndSpec → Prop
  | .at time => time ≤ Decimal.maxWord
  | .after length => length ≤ Decimal.maxWord

structure TimeSpec.Fits (t : TimeSpec) : Prop where
  start : ∀ time, t.start = some time → time ≤ Decimal.maxWord
  stop : t.stop.Fits

namespace Line

variable {b : Bracketing}

structure Statement.Writable (s : Statement) : Prop where
  name : Text.isName s.name.toList = true
  args : ∀ e ∈ s.args, Line.Writable e
  time : ∀ t, s.time = some t → t.Fits

section Arguments

variable {es : List Expr} {r : List Token}

theorem arguments_tokens (h : ∀ x ∈ es, Writable x) :
    arguments (Expr.rowTokens b es ++ .symbol .rparen :: r) = .ok (es, r) := by
  refine arguments_row (List.forall₂_map_right_iff.2 (List.forall₂_same.2 fun x hx => ?_))
  exact derives_tokens (h x hx) .sum

theorem spellable_row {uss : List (List Token)} (h : ∀ us ∈ uss, ∀ t ∈ us, t.Spellable) :
    ∀ t ∈ row uss, t.Spellable := by
  induction uss with
  | nil => exact List.forall_mem_nil _
  | cons us uss ih =>
    obtain ⟨hus, hrest⟩ := List.forall_mem_cons.1 h
    cases uss with
    | nil =>
      rw [row_singleton]
      exact hus
    | cons vs uss =>
      have hcomma : (Token.symbol .comma).Spellable := trivial
      rw [row_cons_cons]
      exact List.forall_mem_append.2 ⟨hus, List.forall_mem_cons.2 ⟨hcomma, ih hrest⟩⟩

theorem spellable_rowTokens (h : ∀ x ∈ es, Writable x) :
    ∀ t ∈ Expr.rowTokens b es, t.Spellable :=
  spellable_row (List.forall_mem_map.2 fun x hx => spellable_expr (h x hx) .sum)

theorem spellable_listTokens (h : ∀ x ∈ es, Writable x) :
    ∀ t ∈ Expr.listTokens b es, t.Spellable := by
  rw [Expr.listTokens]
  split
  · exact List.forall_mem_nil _
  · exact spellable_enclosed (spellable_rowTokens h)

end Arguments

section Times

variable {ts r : List Token} {time : Nat}

theorem milliseconds_ofNat (h : time ≤ Decimal.maxWord) :
    milliseconds (.number (.ofNat time) :: r) = .ok (time, r) := by
  have htime := Decimal.ofDigits_toString time
  simp only [milliseconds, Numeral.ofNat, htime, if_pos h]
  rfl

theorem timeAfter?_word (kw : String) (h : time ≤ Decimal.maxWord) :
    timeAfter? kw (.name kw :: .number (.ofNat time) :: r) = .ok (some time, r) := by
  rw [timeAfter?, if_pos rfl, milliseconds_ofNat h]
  rfl

theorem timeAfter?_other {kw s : String} (h : s ≠ kw) :
    timeAfter? kw (.name s :: r) = .ok (none, .name s :: r) := by
  rw [timeAfter?, if_neg h]

theorem stop?_tokens {e : EndSpec} (h : e.Fits) : stop? e.tokens = .ok (some e, []) := by
  cases e with
  | «at» time =>
    rw [EndSpec.tokens, stop?, timeAfter?_other (by decide)]
    simp only [bind, Except.bind, timeAfter?_word "to" (r := []) h]
    rfl
  | after length =>
    rw [EndSpec.tokens, stop?, timeAfter?_word "for" h]
    rfl

theorem time?_tokens {t : TimeSpec} (h : t.Fits) : time? t.tokens = .ok (some t, []) := by
  obtain ⟨start, stop⟩ := t
  have hstop := stop?_tokens h.stop
  cases start with
  | none =>
    have hat : timeAfter? "at" stop.tokens = .ok (none, stop.tokens) := by
      cases stop <;> exact timeAfter?_other (by decide)
    simp only [TimeSpec.tokens, time?, hat, bind, Except.bind, hstop]
    rfl
  | some time =>
    have hat : timeAfter? "at" (.name "at" :: .number (.ofNat time) :: stop.tokens) =
        .ok (some time, stop.tokens) := timeAfter?_word "at" (h.start time rfl)
    simp only [TimeSpec.tokens, time?, hat, bind, Except.bind, hstop]
    rfl

theorem spellable_timed {kw : String} (h : Text.isName kw.toList = true) (time : Nat) :
    ∀ t ∈ [Token.name kw, .number (.ofNat time)], t.Spellable :=
  List.forall_mem_cons.2 ⟨h, List.forall_mem_singleton.2 (Numeral.spellable_ofNat time)⟩

theorem spellable_time (t : TimeSpec) : ∀ x ∈ t.tokens, x.Spellable := by
  obtain ⟨start, stop⟩ := t
  have hstop : ∀ x ∈ stop.tokens, x.Spellable := by
    cases stop with
    | «at» time => exact spellable_timed (by decide) time
    | after length => exact spellable_timed (by decide) length
  cases start with
  | none => exact hstop
  | some start => exact List.forall_mem_append.2 ⟨spellable_timed (by decide) start, hstop⟩

theorem le_of_milliseconds (h : milliseconds ts = .ok (time, r)) : time ≤ Decimal.maxWord := by
  simp only [milliseconds] at h
  split at h
  · split_ifs at h with _ hle
    · cases h
    · cases h
      exact hle
  · cases h

theorem le_of_timeAfter? {kw : String} (h : timeAfter? kw ts = .ok (some time, r)) :
    time ≤ Decimal.maxWord := by
  simp only [timeAfter?] at h
  split at h
  · split_ifs at h
    · obtain ⟨⟨t, r'⟩, ht, he⟩ := Result.bind_eq_ok_iff.1 h
      cases he
      exact le_of_milliseconds ht
    · cases h
  · cases h

theorem fits_of_stop? {stop : EndSpec} (h : stop? ts = .ok (some stop, r)) : stop.Fits := by
  obtain ⟨⟨length?, r₁⟩, hlength, h⟩ := Result.bind_eq_ok_iff.1 h
  cases length? with
  | some length =>
    cases h
    exact le_of_timeAfter? hlength
  | none =>
    obtain ⟨⟨time?, r₂⟩, htime, he⟩ := Result.bind_eq_ok_iff.1 h
    cases time? with
    | some time =>
      cases he
      exact le_of_timeAfter? htime
    | none => cases he

theorem fits_of_time? {t : TimeSpec} (h : time? ts = .ok (some t, r)) : t.Fits := by
  obtain ⟨⟨start?, r₁⟩, hstart, h⟩ := Result.bind_eq_ok_iff.1 h
  obtain ⟨⟨stop?, r₂⟩, hstop, h⟩ := Result.bind_eq_ok_iff.1 h
  cases stop? with
  | some stop =>
    cases h
    refine ⟨fun time htime => ?_, fits_of_stop? hstop⟩
    have htime : start? = some time := htime
    exact le_of_timeAfter? (htime ▸ hstart)
  | none => cases start? <;> cases h

end Times

section Statements

variable {s : Statement}

theorem time?_option {t? : Option TimeSpec} (h : ∀ t, t? = some t → t.Fits) :
    time? ((t?.map TimeSpec.tokens).getD []) = .ok (t?, []) := by
  cases t? with
  | none => rfl
  | some t => exact time?_tokens (h t rfl)

theorem timeTokens_head_ne (t? : Option TimeSpec) (r : List Token) :
    (t?.map TimeSpec.tokens).getD [] ≠ .symbol .lparen :: r := by
  rcases t? with _ | ⟨_ | start, _ | _⟩ <;> rintro ⟨⟩

theorem statement_tokens (h : s.Writable) : statement (s.tokens b) = .ok s := by
  obtain ⟨name, args, time⟩ := s
  have htime := time?_option h.time
  cases args with
  | nil =>
    simp only [Statement.tokens, Expr.listTokens, List.isEmpty_nil, if_true, List.nil_append,
      statement]
    split
    · next r heq => exact absurd heq (timeTokens_head_ne time r)
    · simp only [bind, Except.bind, htime]
      rfl
  | cons e es =>
    have hargs := arguments_tokens (b := b) (r := (time.map TimeSpec.tokens).getD []) h.args
    simp only [Statement.tokens, Expr.listTokens, List.isEmpty_cons, Bool.false_eq_true, if_false,
      Expr.enclosed, List.cons_append, List.append_assoc, List.nil_append, statement, hargs, bind,
      Except.bind, htime]
    rfl

theorem spellable_statement (h : s.Writable) : ∀ t ∈ s.tokens b, t.Spellable := by
  refine List.forall_mem_cons.2 ⟨h.name, ?_⟩
  refine List.forall_mem_append.2 ⟨spellable_listTokens h.args, ?_⟩
  cases s.time with
  | none => exact List.forall_mem_nil _
  | some t => exact spellable_time t

theorem kind_statement (hproc : s.name ≠ "proc") (htimeline : s.name ≠ "timeline") :
    Kind.of (s.tokens b) = .other (s.tokens b) := by
  unfold Statement.tokens Kind.of
  split <;> first | rfl | simp_all

theorem fits_of_ending {ts : List Token} {name : String} {args : List Expr}
    (h : (do
      let (time, r) ← time? ts
      match r with
      | [] => return ⟨name, args, time⟩
      | r => unexpected .endOfLine r : Except Fault Statement) = .ok s) :
    ∀ t, s.time = some t → t.Fits := by
  obtain ⟨⟨spec?, r₁⟩, htime, h⟩ := Result.bind_eq_ok_iff.1 h
  intro t ht
  simp only at h
  split at h
  · cases h
    have ht : spec? = some t := ht
    exact fits_of_time? (ht ▸ htime)
  · cases h

theorem fits_of_statement {ts : List Token} (h : statement ts = .ok s) :
    ∀ t, s.time = some t → t.Fits := by
  simp only [statement] at h
  split at h
  · split at h
    · obtain ⟨⟨args, r₁⟩, -, h⟩ := Result.bind_eq_ok_iff.1 h
      exact fits_of_ending h
    · exact fits_of_ending h
  · cases h

end Statements

end Line

end CueSheet
