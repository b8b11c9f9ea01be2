import CueSheet.Proofs.Load.Nesting
import Mathlib.Data.List.Induction

/-!
What the lines of a body hold, told from the lines: each statement is an element, and a timed block is
one element, which stands where its brace does. A name gets a body at the brace that closes it and
nowhere else.
-/

namespace CueSheet.Draft

def Operation.Idle : Operation → Prop
  | .read _ text => Token.scan text = .ok []
  | _ => True

inductive Entries (d : Draft) : List Operation → List Entry → Prop
  | nil : Entries d [] []
  | idle {ops : List Operation} {es : List Entry} {op : Operation} : Entries d ops es → op.Idle →
    Entries d (ops ++ [op]) es
  | entry {ops : List Operation} {es : List Entry} {n : Nat} {text : List Char} {ts : List Token}
    {s : Line.Statement} {device : Device} : Entries d ops es → Token.scan text = .ok ts →
    Line.Says ts s → (d.after ops).sheet.device? s.name = some device →
    Entries d (ops ++ [.read n text]) (es ++ [⟨device.id, s.args, s.time⟩])

inductive Elements (d : Draft) : List Operation → List Element → Prop
  | nil : Elements d [] []
  | idle {ops : List Operation} {es : List Element} {op : Operation} : Elements d ops es → op.Idle →
    Elements d (ops ++ [op]) es
  | command {ops : List Operation} {es : List Element} {n : Nat} {text : List Char} {ts : List Token}
    {s : Line.Statement} {device : Device} : Elements d ops es → Token.scan text = .ok ts →
    Line.Says ts s → (d.after ops).sheet.device? s.name = some device →
    Elements d (ops ++ [.read n text]) (es ++ [.command device.id s.args])
  | call {ops : List Operation} {es : List Element} {n : Nat} {text : List Char} {ts : List Token}
    {s : Line.Statement} : Elements d ops es → Token.scan text = .ok ts → Line.Says ts s →
    (d.after ops).sheet.device? s.name = none →
    Elements d (ops ++ [.read n text]) (es ++ [.call s.name])
  | timed {ops inner : List Operation} {es : List Element} {entries : List Entry} {n m : Nat}
    {header brace : List Char} : Elements d ops es →
    Token.scan header = .ok [.name "timeline", .symbol .lbrace] →
    Entries (d.after (ops ++ [.read n header])) inner entries →
    Token.scan brace = .ok [.symbol .rbrace] →
    Elements d (ops ++ .read n header :: (inner ++ [.read m brace])) (es ++ [.timed entries])

/-- Among the lines `ops` are a header for `name` and its brace, with the elements `es` between them. -/
inductive Closes (d : Draft) : List Operation → String → List Element → Prop
  | intro {before inner later : List Operation} {name : String} {es : List Element} {n m : Nat}
    {header brace : List Char} :
    Token.scan header = .ok [.name "proc", .name name, .symbol .lbrace] →
    Elements (d.after (before ++ [.read n header])) inner es →
    Token.scan brace = .ok [.symbol .rbrace] →
    Closes d (before ++ .read n header :: (inner ++ .read m brace :: later)) name es

/-- The procedure comes from `ops`: its body is closed there, or it is an alias that is linked there. -/
inductive Supplies (d : Draft) : List Operation → Procedure → Prop
  | body {ops : List Operation} {name : String} {es : List Element} : Closes d ops name es →
    Supplies d ops ⟨name, .body es⟩
  | linked {before later : List Operation} {path name : String} {n : Nat} {target : Sheet}
    {renames : List (String × String)} {origin : ProcRef} {bind : Bind} :
    (d.after before).sheet.procedure? name = none →
    (Linker.link path n target renames (d.after before).sheet).2.procedure? name =
      some ⟨name, .alias origin bind⟩ →
    Supplies d (before ++ .link path n target renames :: later) ⟨name, .alias origin bind⟩

section Idle

variable {d : Draft} {op : Operation}

theorem Operation.Idle.bracket? (h : op.Idle) : op.bracket? = none := by
  cases op with
  | read n text => exact bracket?_read h
  | _ => rfl

theorem Operation.Idle.block (h : op.Idle) : (op.apply d).block = d.block := by
  cases op with
  | read n text =>
    have hscan : Token.scan text = .ok [] := h
    have hkind : Line.Kind.of [] = .blank := rfl
    simp only [apply, Draft.read, hscan, readTokens, hkind, accepted]
  | finish => rfl
  | declare path line decl =>
    simp only [apply]
    split <;> rfl
  | link path line target renames => rfl

end Idle

section Lines

variable {d : Draft} {n : Nat} {text : List Char} {ts : List Token} {b : OpenProcedure}
  {t : OpenTimeline} {s : Line.Statement}

theorem turns_of_scan (hscan : Token.scan text = .ok ts) : d.Turns n ts (d.read n text) := by
  simp only [read, hscan]
  exact turns_readTokens d n ts

theorem read_statement (hscan : Token.scan text = .ok ts) (hs : Line.Says ts s) (hb : d.block = some b) :
    d.read n text = d.perform n b s := by
  simp only [read, hscan, readTokens, hs.kind, statement, hb, hs.statement]

theorem block_procedure {name : String}
    (hscan : Token.scan text = .ok [.name "proc", .name name, .symbol .lbrace])
    (hr : (d.read n text).refusal = none) :
    (d.read n text).draft.block = some ⟨name, n, [], none⟩ := by
  have hkind : Line.Kind.of [.name "proc", .name name, .symbol .lbrace] = .procedure name := rfl
  simp only [read, hscan, readTokens, hkind, openProcedure] at hr ⊢
  split_ifs at hr ⊢
  · cases hr
  · cases hr
  · cases hr
  · rfl

theorem block_timeline (hscan : Token.scan text = .ok [.name "timeline", .symbol .lbrace])
    (hb : d.block = some b) (ht : b.timeline = none) :
    (d.read n text).draft.block = some { b with timeline := some ⟨n, []⟩ } := by
  have hkind : Line.Kind.of [.name "timeline", .symbol .lbrace] = .timeline := rfl
  simp only [read, hscan, readTokens, hkind, openTimeline, hb, ht, accepted]

theorem block_ended (hscan : Token.scan text = .ok [.symbol .rbrace]) (hb : d.block = some b)
    (ht : b.timeline = some t) : (d.read n text).draft.block =
      some { b with body := b.body ++ [.timed t.entries], timeline := none } := by
  have hkind : Line.Kind.of [.symbol .rbrace] = .closing := rfl
  simp only [read, hscan, readTokens, hkind, close, hb, ht, accepted]

theorem sheet_closed (hscan : Token.scan text = .ok [.symbol .rbrace])
    (hr : (d.read n text).refusal = none) (hb : d.block = some b) (ht : b.timeline = none) :
    (d.read n text).draft.sheet = d.sheet.put ⟨b.name, .body b.body⟩ := by
  have hturns := turns_of_scan (d := d) (n := n) hscan
  generalize d.read n text = r at hturns hr
  cases hturns with
  | malformed _ | lost _ _ _ => cases hr
  | ended hb' ht' =>
    cases hb.symm.trans hb'
    cases ht.symm.trans ht'
  | closed hb' _ _ =>
    cases hb.symm.trans hb'
    rfl
  | entry _ _ hs _ | command _ _ hs _ _ | call _ _ hs _ _ _ => cases hs.statement

end Lines

section Simulation

variable {d : Draft} {ops : List Operation} {b : OpenProcedure}

theorem Entries.block {t : OpenTimeline} {es : List Entry} (h : Entries d ops es)
    (hops : d.Accepts ops) (hb : d.block = some b) (ht : b.timeline = some t) :
    (d.after ops).block =
      some { b with timeline := some { t with entries := t.entries ++ es } } := by
  induction h with
  | nil =>
    rw [List.append_nil, ← ht]
    exact hb
  | idle _ hidle ih =>
    rw [after_snoc, hidle.block, ih (accepts_snoc_iff.1 hops).1]
  | @entry ops es n text ts s device _ hscan hs hdevice ih =>
    have hblock := ih (accepts_snoc_iff.1 hops).1
    rw [after_snoc, Operation.apply, read_statement hscan hs hblock]
    simp only [perform, hdevice, accepted, List.append_assoc]

theorem Elements.block {es : List Element} (h : Elements d ops es) (hops : d.Accepts ops)
    (hb : d.block = some b) (ht : b.timeline = none) :
    (d.after ops).block = some { b with body := b.body ++ es } := by
  induction h with
  | nil =>
    rw [List.append_nil]
    exact hb
  | idle _ hidle ih =>
    rw [after_snoc, hidle.block, ih (accepts_snoc_iff.1 hops).1]
  | @command ops es n text ts s device _ hscan hs hdevice ih =>
    obtain ⟨hbefore, hread⟩ := accepts_snoc_iff.1 hops
    have hblock := ih hbefore
    rw [Operation.Accepted, read_statement hscan hs hblock] at hread
    rw [after_snoc, Operation.apply, read_statement hscan hs hblock]
    simp only [perform, hdevice, ht] at hread ⊢
    split at hread
    · cases hread
    · next htime => simp only [htime, accepted, List.append_assoc]; rfl
  | @call ops es n text ts s _ hscan hs hdevice ih =>
    obtain ⟨hbefore, hread⟩ := accepts_snoc_iff.1 hops
    have hblock := ih hbefore
    rw [Operation.Accepted, read_statement hscan hs hblock] at hread
    rw [after_snoc, Operation.apply, read_statement hscan hs hblock]
    simp only [perform, hdevice, ht] at hread ⊢
    split at hread
    · cases hread
    · next hplain => rw [if_neg hplain]; simp only [accepted, List.append_assoc]
  | @timed ops inner es entries n m header brace _ hheader hinner hbrace ih =>
    obtain ⟨hbefore, hrest⟩ := accepts_append_iff.1 hops
    obtain ⟨-, hrest⟩ := hrest
    have hopened := block_timeline (n := n) hheader (ih hbefore) ht
    rw [after_snoc] at hinner
    have htimed := hinner.block (accepts_snoc_iff.1 hrest).1 hopened rfl
    rw [after_append]
    change (Operation.apply _ _ |>.after (inner ++ [.read m brace])).block = _
    rw [after_snoc, Operation.apply, block_ended hbrace htimed rfl]
    simp only [List.nil_append, List.append_assoc, ht]

end Simulation

section Standing

variable {d : Draft} {ops : List Operation} {op : Operation}

theorem Entries.brackets {es : List Entry} (h : Entries d ops es) : brackets ops = [] := by
  induction h with
  | nil => rfl
  | idle _ hidle ih => rw [brackets_snoc_none hidle.bracket?, ih]
  | entry _ hscan hs _ ih => rw [brackets_snoc_none ((bracket?_read hscan).trans (hs.bracket? _)), ih]

theorem Elements.balanced {es : List Element} (h : Elements d ops es) : Balanced (brackets ops) := by
  induction h with
  | nil => exact .nil
  | idle _ hidle ih => rwa [brackets_snoc_none hidle.bracket?]
  | command _ hscan hs _ ih | call _ hscan hs _ ih =>
    rwa [brackets_snoc_none ((bracket?_read hscan).trans (hs.bracket? _))]
  | timed _ hheader hentries hbrace ih =>
    have hbrackets := hentries.brackets
    rw [brackets_append, brackets_cons_some (bracket?_read hheader), brackets_append, hbrackets,
      brackets_cons_some (bracket?_read hbrace)]
    exact ih.append (.single _ _ .nil)

inductive Standing (d : Draft) : List Operation → Option OpenProcedure → Prop
  | outside {ops : List Operation} : Balanced (brackets ops) → Standing d ops none
  | inside {before inner : List Operation} {name : String} {n : Nat} {header : List Char}
    {es : List Element} : Balanced (brackets before) →
    Token.scan header = .ok [.name "proc", .name name, .symbol .lbrace] →
    Elements (d.after (before ++ [.read n header])) inner es →
    Standing d (before ++ .read n header :: inner) (some ⟨name, n, es, none⟩)
  | timed {before inner entered : List Operation} {name : String} {n m : Nat}
    {header start : List Char} {es : List Element} {entries : List Entry} :
    Balanced (brackets before) →
    Token.scan header = .ok [.name "proc", .name name, .symbol .lbrace] →
    Elements (d.after (before ++ [.read n header])) inner es →
    Token.scan start = .ok [.name "timeline", .symbol .lbrace] →
    Entries ((d.after (before ++ [.read n header])).after (inner ++ [.read m start])) entered entries →
    Standing d (before ++ .read n header :: (inner ++ .read m start :: entered))
      (some ⟨name, n, es, some ⟨m, entries⟩⟩)

theorem Standing.idle {b? : Option OpenProcedure} (h : d.Standing ops b?) (hidle : op.Idle) :
    d.Standing (ops ++ [op]) b? := by
  cases h with
  | outside hops => exact .outside (by rwa [brackets_snoc_none hidle.bracket?])
  | inside hbefore hheader hinner =>
    rw [List.append_assoc]
    exact .inside hbefore hheader (hinner.idle hidle)
  | timed hbefore hheader hinner hstart hentered =>
    rw [List.append_assoc, List.cons_append, List.append_assoc]
    exact .timed hbefore hheader hinner hstart (hentered.idle hidle)

theorem after_behind (d : Draft) (before inner : List Operation) (op : Operation) :
    (d.after (before ++ [op])).after inner = d.after (before ++ op :: inner) := by
  rw [← after_append, List.append_assoc, List.singleton_append]

theorem Standing.turn {n : Nat} {text : List Char} {ts : List Token} {r : Reading}
    (h : d.Standing ops (d.after ops).block) (hscan : Token.scan text = .ok ts)
    (hturns : (d.after ops).Turns n ts r) (hr : r.refusal = none) :
    d.Standing (ops ++ [.read n text]) r.draft.block := by
  cases hturns with
  | malformed _ | taken _ _ | lost _ _ _ => cases hr
  | blank => exact h.idle hscan
  | mentioned hblock =>
    change d.Standing _ (d.after ops).block
    rw [hblock] at h ⊢
    cases h with
    | outside hops => exact .outside (by rwa [brackets_snoc_none (bracket?_read hscan)])
  | opened hblock _ _ =>
    rw [hblock] at h
    cases h with
    | outside hops => exact .inside hops hscan .nil
  | began hb ht =>
    rw [hb] at h
    cases h with
    | inside hbefore hheader hinner =>
      rw [List.append_assoc]
      exact .timed hbefore hheader hinner hscan .nil
    | timed _ _ _ _ _ => cases ht
  | entry hb ht hs hdevice =>
    rw [hb] at h
    cases h with
    | inside _ _ _ => cases ht
    | timed hbefore hheader hinner hstart hentered =>
      cases ht
      rw [← after_behind, ← after_behind] at hdevice
      rw [List.append_assoc, List.cons_append, List.append_assoc]
      exact .timed hbefore hheader hinner hstart (hentered.entry hscan hs hdevice)
  | command hb ht hs hdevice _ =>
    rw [hb] at h
    cases h with
    | inside hbefore hheader hinner =>
      rw [← after_behind] at hdevice
      rw [List.append_assoc]
      exact .inside hbefore hheader (hinner.command hscan hs hdevice)
    | timed _ _ _ _ _ => cases ht
  | call hb ht hs hdevice _ _ =>
    rw [hb] at h
    cases h with
    | inside hbefore hheader hinner =>
      rw [← after_behind] at hdevice
      rw [List.append_assoc]
      exact .inside hbefore hheader (hinner.call hscan hs hdevice)
    | timed _ _ _ _ _ => cases ht
  | ended hb ht =>
    rw [hb] at h
    cases h with
    | inside _ _ _ => cases ht
    | timed hbefore hheader hinner hstart hentered =>
      cases ht
      rw [List.append_assoc, List.cons_append, List.append_assoc]
      exact .inside hbefore hheader (hinner.timed hstart hentered hscan)
  | closed hb ht _ =>
    rw [hb] at h
    cases h with
    | inside hbefore hheader hinner =>
      refine .outside ?_
      rw [brackets_append, brackets_append, brackets_cons_some (bracket?_read hheader),
        brackets_cons_some (bracket?_read hscan), List.append_assoc]
      exact hbefore.append (.single _ _ hinner.balanced)
    | timed _ _ _ _ _ => cases ht

theorem standing_after (hd : d.block = none) (h : d.Accepts ops) :
    d.Standing ops (d.after ops).block := by
  induction ops using List.reverseRecOn with
  | nil =>
    change d.Standing [] d.block
    rw [hd]
    exact .outside .nil
  | append_singleton ops op ih =>
    obtain ⟨hops, hop⟩ := accepts_snoc_iff.1 h
    have hbefore := ih hops
    rw [after_snoc]
    by_cases hidle : op.Idle
    · rw [hidle.block]
      exact hbefore.idle hidle
    · cases op with
      | read n text =>
        rcases turns_read (d.after ops) n text with ⟨f, hread⟩ | ⟨ts, hscan, hturns⟩
        · rw [Operation.Accepted, hread] at hop
          cases hop
        · exact hbefore.turn hscan hturns hop
      | _ => exact absurd trivial hidle

end Standing

end CueSheet.Draft
