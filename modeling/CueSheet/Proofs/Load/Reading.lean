import CueSheet.Draft
import Mathlib.Tactic.SplitIfs

/-!
What a line can do to a draft. The kinds of lines and the states of the draft make a table; here it is
read once, with what each outcome asks for. An outcome is known by the tokens of the line, or, where
these do not matter, by what it does.
-/

namespace CueSheet

inductive Sheet.Noted (s : Sheet) : Sheet → Prop
  | same : Noted s s
  | mentioned (name : String) : Noted s (s.mention name)
  | defined {name : String} {body : List Element} {s' : Sheet} : s.define? name body = some s' →
    Noted s s'

namespace Line

structure Says (ts : List Token) (s : Statement) : Prop where
  statement : statement ts = .ok s
  not_header : ∀ kw : Keyword, ts.head? ≠ some (.name kw.word)

variable {ts us : List Token} {s : Statement}

theorem kind_eq_blank (h : Kind.of ts = .blank) : ts = [] := by
  unfold Kind.of at h
  split at h <;> first | rfl | cases h

theorem kind_eq_closing (h : Kind.of ts = .closing) : ts = [.symbol .rbrace] := by
  unfold Kind.of at h
  split at h <;> first | rfl | cases h

theorem kind_eq_procedure {name : String} (h : Kind.of ts = .procedure name) :
    ts = [.name "proc", .name name, .symbol .lbrace] := by
  unfold Kind.of at h
  split at h <;> cases h
  rfl

theorem kind_eq_forward {name : String} (h : Kind.of ts = .forward name) :
    ts = [.name "proc", .name name, .symbol .semicolon] := by
  unfold Kind.of at h
  split at h <;> cases h
  rfl

theorem kind_eq_timeline (h : Kind.of ts = .timeline) :
    ts = [.name "timeline", .symbol .lbrace] := by
  unfold Kind.of at h
  split at h <;> first | rfl | cases h

theorem kind_eq_other (h : Kind.of ts = .other us) :
    us = ts ∧ ∀ kw : Keyword, ts.head? ≠ some (.name kw.word) := by
  unfold Kind.of at h
  split at h <;> cases h
  next hproc htimeline =>
    refine ⟨rfl, fun kw hhead => ?_⟩
    obtain ⟨r, rfl⟩ := List.head?_eq_some_iff.1 hhead
    cases kw with
    | proc => exact hproc r rfl
    | timeline => exact htimeline r rfl

theorem Says.kind (h : Says ts s) : Kind.of ts = .other ts := by
  have hstatement := h.statement
  unfold Kind.of
  split
  · cases hstatement
  · cases hstatement
  · exact absurd rfl (h.not_header .proc)
  · exact absurd rfl (h.not_header .proc)
  · exact absurd rfl (h.not_header .timeline)
  · exact absurd rfl (h.not_header .proc)
  · exact absurd rfl (h.not_header .timeline)
  · rfl

end Line

namespace Draft

section Table

variable (d : Draft) (line : Nat)

inductive Turns : List Token → Reading → Prop
  | malformed {ts : List Token} (f : Fault) : Turns ts (d.malformed line f)
  | taken {name : String} : d.block = none → d.sheet.isDefined name = true →
    Turns [.name "proc", .name name, .symbol .lbrace] (d.refused (.duplicate line name))
  | lost {b : OpenProcedure} : d.block = some b → b.timeline = none →
    d.sheet.isDefined b.name = true →
    Turns [.symbol .rbrace] (refused { d with block := none } (.duplicate line b.name))
  | blank : Turns [] d.accepted
  | mentioned {name : String} : d.block = none →
    Turns [.name "proc", .name name, .symbol .semicolon]
      (accepted { d with sheet := d.sheet.mention name })
  | opened {name : String} : d.block = none → d.sheet.device? name = none →
    d.sheet.isDefined name = false → Turns [.name "proc", .name name, .symbol .lbrace]
      (accepted { d with block := some ⟨name, line, [], none⟩ })
  | began {b : OpenProcedure} : d.block = some b → b.timeline = none →
    Turns [.name "timeline", .symbol .lbrace]
      (accepted { d with block := some { b with timeline := some ⟨line, []⟩ } })
  | entry {b : OpenProcedure} {t : OpenTimeline} {ts : List Token} {s : Line.Statement}
    {device : Device} : d.block = some b → b.timeline = some t → Line.Says ts s →
    d.sheet.device? s.name = some device → Turns ts (accepted { d with block := some { b with
      timeline := some { t with entries := t.entries ++ [⟨device.id, s.args, s.time⟩] } } })
  | command {b : OpenProcedure} {ts : List Token} {s : Line.Statement} {device : Device} :
    d.block = some b → b.timeline = none → Line.Says ts s →
    d.sheet.device? s.name = some device → s.time = none →
    Turns ts (accepted { d with block := some { b with
      body := b.body ++ [.command device.id s.args] } })
  | call {b : OpenProcedure} {ts : List Token} {s : Line.Statement} :
    d.block = some b → b.timeline = none → Line.Says ts s → d.sheet.device? s.name = none →
    s.args = [] → s.time = none →
    Turns ts (accepted { sheet := d.sheet.mention s.name,
                         block := some { b with body := b.body ++ [.call s.name] } })
  | ended {b : OpenProcedure} {t : OpenTimeline} : d.block = some b → b.timeline = some t →
    Turns [.symbol .rbrace] (accepted { d with block := some { b with
      body := b.body ++ [.timed t.entries], timeline := none } })
  | closed {b : OpenProcedure} : d.block = some b → b.timeline = none →
    d.sheet.isDefined b.name = false →
    Turns [.symbol .rbrace] (accepted ⟨d.sheet.put ⟨b.name, .body b.body⟩, none⟩)

theorem turns_close : d.Turns line [.symbol .rbrace] (d.close line) := by
  simp only [close]
  split
  · exact .malformed _
  · next b hb =>
    split
    · next t ht => exact .ended hb ht
    · next ht =>
      cases hdefined : d.sheet.isDefined b.name with
      | true =>
        rw [(Sheet.define?_eq_none_iff d.sheet b.name b.body).2 hdefined]
        exact .lost hb ht hdefined
      | false =>
        simp only [Sheet.define?, hdefined, Bool.false_eq_true, if_false]
        exact .closed hb ht hdefined

theorem turns_openProcedure (name : String) :
    d.Turns line [.name "proc", .name name, .symbol .lbrace] (d.openProcedure line name) := by
  simp only [openProcedure]
  split_ifs with hblock hdevice hdefined
  · exact .malformed _
  · exact .malformed _
  · exact .taken (by simpa using hblock) hdefined
  · exact .opened (by simpa using hblock) (by simpa using hdevice) (by simpa using hdefined)

theorem turns_forward (name : String) :
    d.Turns line [.name "proc", .name name, .symbol .semicolon] (d.forward line name) := by
  simp only [forward]
  split_ifs with hblock
  · exact .malformed _
  · exact .mentioned (by simpa using hblock)

theorem turns_openTimeline :
    d.Turns line [.name "timeline", .symbol .lbrace] (d.openTimeline line) := by
  simp only [openTimeline]
  split
  · exact .malformed _
  · next b hb =>
    split
    · exact .malformed _
    · next ht => exact .began hb ht

theorem turns_perform {b : OpenProcedure} {ts : List Token} {s : Line.Statement}
    (hb : d.block = some b) (hs : Line.Says ts s) : d.Turns line ts (d.perform line b s) := by
  simp only [perform]
  split
  · next device t hdevice ht => exact .entry hb ht hs hdevice
  · next device hdevice ht =>
    split_ifs with htime
    · exact .malformed _
    · exact .command hb ht hs hdevice (by simpa using htime)
  · exact .malformed _
  · next hdevice ht =>
    split_ifs with hplain
    · exact .malformed _
    · obtain ⟨hargs, htime⟩ : s.args = [] ∧ s.time = none := by simpa using hplain
      exact .call hb ht hs hdevice hargs htime

theorem turns_statement {ts : List Token} (hts : ∀ kw : Keyword, ts.head? ≠ some (.name kw.word)) :
    d.Turns line ts (d.statement line ts) := by
  simp only [statement]
  split
  · exact .malformed _
  · next b hb =>
    split
    · exact .malformed _
    · next s hs => exact turns_perform d line hb ⟨hs, hts⟩

theorem turns_readTokens (ts : List Token) : d.Turns line ts (d.readTokens line ts) := by
  simp only [readTokens]
  split
  · next h =>
    obtain rfl := Line.kind_eq_blank h
    exact .blank
  · next h =>
    obtain rfl := Line.kind_eq_closing h
    exact turns_close d line
  · next h =>
    obtain rfl := Line.kind_eq_procedure h
    exact turns_openProcedure d line _
  · next h =>
    obtain rfl := Line.kind_eq_forward h
    exact turns_forward d line _
  · next h =>
    obtain rfl := Line.kind_eq_timeline h
    exact turns_openTimeline d line
  · exact .malformed _
  · next h =>
    obtain ⟨rfl, hts⟩ := Line.kind_eq_other h
    exact turns_statement d line hts

theorem turns_read (text : List Char) :
    (∃ f, d.read line text = d.malformed line f) ∨
      ∃ ts, Token.scan text = .ok ts ∧ d.Turns line ts (d.read line text) := by
  simp only [read]
  cases hscan : Token.scan text with
  | error e => exact .inl ⟨_, rfl⟩
  | ok ts => exact .inr ⟨ts, rfl, turns_readTokens d line ts⟩

inductive Effect : Reading → Prop
  | blank : Effect d.accepted
  | malformed (f : Fault) : Effect (d.malformed line f)
  | taken {name : String} : d.block = none → d.sheet.isDefined name = true →
    Effect (d.refused (.duplicate line name))
  | mentioned (name : String) : d.block = none →
    Effect (accepted { d with sheet := d.sheet.mention name })
  | opened {name : String} : d.block = none → d.sheet.device? name = none →
    d.sheet.isDefined name = false → Effect (accepted { d with block := some ⟨name, line, [], none⟩ })
  | began {b : OpenProcedure} : d.block = some b → b.timeline = none →
    Effect (accepted { d with block := some { b with timeline := some ⟨line, []⟩ } })
  | entry {b : OpenProcedure} {t : OpenTimeline} {ts : List Token} {s : Line.Statement}
    {device : Device} : d.block = some b → b.timeline = some t → Line.statement ts = .ok s →
    d.sheet.device? s.name = some device → Effect (accepted { d with block := some { b with
      timeline := some { t with entries := t.entries ++ [⟨device.id, s.args, s.time⟩] } } })
  | command {b : OpenProcedure} {s : Line.Statement} {device : Device} :
    d.block = some b → b.timeline = none → d.sheet.device? s.name = some device → s.time = none →
    Effect (accepted { d with block := some { b with body := b.body ++ [.command device.id s.args] } })
  | call {b : OpenProcedure} {name : String} :
    d.block = some b → b.timeline = none → d.sheet.device? name = none →
    Effect (accepted { sheet := d.sheet.mention name,
                       block := some { b with body := b.body ++ [.call name] } })
  | ended {b : OpenProcedure} {t : OpenTimeline} : d.block = some b → b.timeline = some t →
    Effect (accepted { d with block := some { b with
      body := b.body ++ [.timed t.entries], timeline := none } })
  | closed {b : OpenProcedure} {s : Sheet} : d.block = some b → b.timeline = none →
    d.sheet.define? b.name b.body = some s → Effect (accepted ⟨s, none⟩)
  | lost {b : OpenProcedure} : d.block = some b → b.timeline = none →
    d.sheet.define? b.name b.body = none →
    Effect (refused { d with block := none } (.duplicate line b.name))

variable {d line}

theorem Turns.effect {ts : List Token} {r : Reading} (h : d.Turns line ts r) : d.Effect line r := by
  cases h with
  | malformed f => exact .malformed f
  | taken hblock hdefined => exact .taken hblock hdefined
  | lost hb ht hdefined => exact .lost hb ht ((Sheet.define?_eq_none_iff _ _ _).2 hdefined)
  | blank => exact .blank
  | mentioned hblock => exact .mentioned _ hblock
  | opened hblock hdevice hdefined => exact .opened hblock hdevice hdefined
  | began hb ht => exact .began hb ht
  | entry hb ht hs hdevice => exact .entry hb ht hs.statement hdevice
  | command hb ht _ hdevice htime => exact .command hb ht hdevice htime
  | call hb ht _ hdevice _ _ => exact .call hb ht hdevice
  | ended hb ht => exact .ended hb ht
  | closed hb ht hdefined => exact .closed hb ht (by simp [Sheet.define?, hdefined])

variable (d line) in
theorem effect_read (text : List Char) : d.Effect line (d.read line text) := by
  rcases turns_read d line text with ⟨f, hread⟩ | ⟨ts, -, hturns⟩
  · rw [hread]
    exact .malformed f
  · exact hturns.effect

end Table

theorem Effect.noted {d : Draft} {line : Nat} {r : Reading} (h : d.Effect line r) :
    d.sheet.Noted r.draft.sheet := by
  cases h with
  | mentioned name _ | call _ _ _ => exact .mentioned _
  | closed _ _ hs => exact .defined hs
  | _ => exact .same

end Draft

end CueSheet
