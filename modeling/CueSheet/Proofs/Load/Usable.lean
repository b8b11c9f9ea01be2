import CueSheet.Proofs.Directive.Word
import CueSheet.Proofs.Load.Blocks
import CueSheet.Proofs.Source.Lexing

/-!
Names that are declared and names that are used. A directive declares a device under any name, a header
opens a procedure of any name, and an alias may get any name; a statement can begin with any name but
the two that begin a header.
-/

namespace CueSheet

def Line.command (name arg : String) : List Char :=
  name.toList ++ '(' :: ((Token.text arg).spelling ++ [')'])

example : Line.command "fan" "x" = "fan(\"x\")".toList := by decide +kernel

def OpenProcedure.invoke (b : OpenProcedure) (device : DeviceId) (args : List Expr) : OpenProcedure :=
  match b.timeline with
  | some t => { b with timeline := some { t with entries := t.entries ++ [⟨device, args, none⟩] } }
  | none => { b with body := b.body ++ [.command device args] }

namespace Line

variable {name arg : String}

theorem scan_name (h : Text.isName name.toList = true) :
    Token.scan name.toList = .ok [.name name] := by
  have hlaid : Token.Laid [.name name] ([] ++ (name.toList ++ [])) :=
    .token (List.forall_mem_nil _) h (by rintro c ⟨⟩) (.blank (List.forall_mem_nil _))
  rw [List.nil_append, List.append_nil] at hlaid
  exact hlaid.scan

theorem scan_command (h : Text.isName name.toList = true) : Token.scan (command name arg) =
    .ok [.name name, .symbol .lparen, .text arg, .symbol .rparen] := by
  have hnone : ∀ c ∈ ([] : List Char), Text.isBlank c = true := List.forall_mem_nil _
  have hclosing : Token.Laid [.symbol .rparen] [')'] :=
    .token (b := []) (s := []) hnone trivial (by rintro c ⟨⟩) (.blank hnone)
  have harg : Token.Laid [.text arg, .symbol .rparen] ((Token.text arg).spelling ++ [')']) :=
    .token (b := []) hnone trivial (fun _ _ => trivial) hclosing
  have hopening : Token.Laid [.symbol .lparen, .text arg, .symbol .rparen]
      ('(' :: ((Token.text arg).spelling ++ [')'])) :=
    .token (b := []) (t := .symbol .lparen) hnone trivial (fun _ _ => trivial) harg
  have hall : Token.Laid [.name name, .symbol .lparen, .text arg, .symbol .rparen]
      (command name arg) := by
    refine .token (b := []) (t := .name name) hnone h ?_ hopening
    rintro c ⟨⟩
    exact (by decide : Text.continuesName '(' = false)
  exact hall.scan

theorem says_name (h : ∀ kw : Keyword, name ≠ kw.word) : Says [.name name] ⟨name, [], none⟩ :=
  ⟨rfl, fun kw hkw => h kw (by simpa using hkw)⟩

theorem says_command (h : ∀ kw : Keyword, name ≠ kw.word) :
    Says [.name name, .symbol .lparen, .text arg, .symbol .rparen]
      ⟨name, [.literal (.text arg)], none⟩ :=
  ⟨rfl, fun kw hkw => h kw (by simpa using hkw)⟩

theorem kind_name (kw : Keyword) : Kind.of [.name kw.word] = .badHeader kw := by
  cases kw <;> rfl

theorem kind_command (kw : Keyword) (arg : String) :
    Kind.of [.name kw.word, .symbol .lparen, .text arg, .symbol .rparen] = .badHeader kw := by
  cases kw <;> rfl

theorem isName_word (kw : Keyword) : Text.isName kw.word.toList = true := by
  cases kw <;> decide

end Line

namespace Draft

variable {d : Draft} {ops : List Operation} {b : OpenProcedure} {line : Nat}

section Lines

variable {name : String} (arg : String)

theorem read_command (hname : Text.isName name.toList = true) (hfree : ∀ kw : Keyword, name ≠ kw.word)
    {device : Device} (hdevice : d.sheet.device? name = some device) (hb : d.block = some b) :
    d.read line (Line.command name arg) = accepted { d with
      block := some (b.invoke device.id [.literal (.text arg)]) } := by
  rw [read_statement (Line.scan_command hname) (Line.says_command hfree) hb]
  cases ht : b.timeline with
  | none =>
    simp only [perform, hdevice, ht, OpenProcedure.invoke]
    rfl
  | some t => simp only [perform, hdevice, ht, OpenProcedure.invoke]

theorem mention_of_isSome {s : Sheet} (h : (s.procedure? name).isSome = true) : s.mention name = s :=
  if_pos h

theorem read_call (hname : Text.isName name.toList = true) (hfree : ∀ kw : Keyword, name ≠ kw.word)
    (hdevice : d.sheet.device? name = none) (hknown : (d.sheet.procedure? name).isSome = true)
    (hb : d.block = some b) : d.read line name.toList =
      match b.timeline with
      | none => accepted { d with block := some { b with body := b.body ++ [.call name] } }
      | some _ => d.malformed line (.notADevice name) := by
  rw [read_statement (Line.scan_name hname) (Line.says_name hfree) hb]
  cases ht : b.timeline with
  | none =>
    simp only [perform, hdevice, ht, mention_of_isSome hknown]
    rfl
  | some t => simp only [perform, hdevice, ht]

theorem read_reserved (d : Draft) (line : Nat) (kw : Keyword) :
    d.read line kw.word.toList = d.malformed line (.header kw) ∧
      d.read line (Line.command kw.word arg) = d.malformed line (.header kw) := by
  constructor
  · simp only [read, readTokens, Line.scan_name (Line.isName_word kw), Line.kind_name]
  · simp only [read, readTokens, Line.scan_command (Line.isName_word kw), Line.kind_command]

end Lines

section Declared

inductive Declares (d : Draft) : List Operation → DeviceDecl → Device → Prop
  | intro {before later : List Operation} {path : String} {n : Nat} {decl : DeviceDecl}
    {sheet : Sheet} {device : Device} :
    Linker.declare path n decl (d.after before).sheet = .ok sheet →
    sheet.devices = (d.after before).sheet.devices ++ [device] →
    Declares d (before ++ .declare path n decl :: later) decl device

theorem Declares.device? {decl : DeviceDecl} {device : Device} (h : d.Declares ops decl device) :
    (d.after ops).sheet.device? decl.name = some device := by
  cases h with
  | @intro before later path n _ sheet _ hdeclare hdevices =>
    have happly : (Operation.apply (d.after before) (.declare path n decl)).sheet = sheet := by
      simp only [Operation.apply, hdeclare]
    have hlater := later_after (Operation.apply (d.after before) (.declare path n decl)) later
    rw [happly] at hlater
    rw [after_append]
    refine hlater.device? ?_
    simp only [Linker.declare] at hdeclare
    split at hdeclare
    · next hnew =>
      cases hdeclare
      have hnone := Sheet.device?_eq_none_of_declare? hnew
      obtain rfl := Sheet.declare?_eq_some hnew
      rw [List.append_cancel_left_eq, List.cons.injEq] at hdevices
      obtain ⟨rfl, -⟩ := hdevices
      rw [Sheet.device?] at hnone
      simp [Sheet.device?, List.find?_append, hnone]
    · cases hdeclare

end Declared

/-- After any run of accepted lines that leaves a body open, with any directives between the lines: a
device that was declared in the run gets a command where the line gives its name with a text in
parentheses; a procedure that was closed or linked in the run is called where the line is its name, if
no device has that name and no timed block is open. Neither holds of the two words that begin a header:
they are refused, whatever they were declared to be. -/
theorem names_usable (s : Sheet) (h : Accepts ⟨s, none⟩ ops)
    (hb : (after ⟨s, none⟩ ops).block = some b) (line : Nat) :
    let d := after ⟨s, none⟩ ops
    (∀ text decl device, Directive.read text = .ok (.device decl) →
      Declares ⟨s, none⟩ ops decl device → (∀ kw : Keyword, decl.name ≠ kw.word) → ∀ arg,
      d.read line (Line.command decl.name arg) = accepted { d with
        block := some (b.invoke device.id [.literal (.text arg)]) }) ∧
    (∀ p, Supplies ⟨s, none⟩ ops p → Text.isName p.name.toList = true →
      (∀ kw : Keyword, p.name ≠ kw.word) → d.sheet.device? p.name = none →
      d.sheet.procedure? p.name = some p ∧ d.read line p.name.toList =
        match b.timeline with
        | none => accepted { d with block := some { b with body := b.body ++ [.call p.name] } }
        | some _ => d.malformed line (.notADevice p.name)) ∧
    ∀ (kw : Keyword) (arg : String), d.read line kw.word.toList = d.malformed line (.header kw) ∧
      d.read line (Line.command kw.word arg) = d.malformed line (.header kw) := by
  intro d
  refine ⟨fun text decl device hread hdeclares hfree arg => ?_, fun p hp hname hfree hdevice => ?_,
    fun kw arg => read_reserved arg d line kw⟩
  · exact read_command arg (Directive.isName_of_read hread) hfree hdeclares.device? hb
  · have hstored : d.sheet.procedure? p.name = some p := hp.stored h
    exact ⟨hstored, read_call hname hfree hdevice (Option.isSome_of_eq_some hstored) hb⟩

def declaredAndDefined : List Operation :=
  [.declare "/a" 1 ⟨"fan", none, []⟩, .read 2 "proc go \x7b".toList, .read 3 "\x7d".toList,
    .read 4 "proc on \x7b".toList]

theorem names_usable_declaredAndDefined :
    let s : Sheet := { file := 0, path := "/a" }
    let d := after ⟨s, none⟩ declaredAndDefined
    d.read 5 (Line.command "fan" "x") = accepted { d with
      block := some ⟨"on", 4, [.command ⟨0, 0⟩ [.literal (.text "x")]], none⟩ } ∧
    d.read 5 "go".toList = accepted { d with block := some ⟨"on", 4, [.call "go"], none⟩ } ∧
    d.read 5 "timeline".toList = d.malformed 5 (.header .timeline) := by
  intro s d
  have haccepts : Accepts ⟨s, none⟩ declaredAndDefined := by decide +kernel
  have hblock : (after ⟨s, none⟩ declaredAndDefined).block = some ⟨"on", 4, [], none⟩ := by cbv
  obtain ⟨hdevices, hprocedures, hreserved⟩ := names_usable s haccepts hblock 5
  have htimeline := (hreserved .timeline "x").1
  have hfan : Declares ⟨s, none⟩ ([] ++ declaredAndDefined) ⟨"fan", none, []⟩
      ⟨⟨0, 0⟩, "fan", .system, [], none⟩ :=
    .intro rfl rfl
  have hgo : Supplies ⟨s, none⟩ ([.declare "/a" 1 ⟨"fan", none, []⟩] ++ .read 2 "proc go \x7b".toList ::
      ([] ++ .read 3 "\x7d".toList :: [.read 4 "proc on \x7b".toList])) ⟨"go", .body []⟩ :=
    .body (.intro (by decide +kernel) .nil (by decide +kernel))
  refine ⟨?_, ?_, htimeline⟩
  · exact hdevices "#device fan".toList _ _ (by decide +kernel) hfan (by rintro ⟨⟩ <;> decide) "x"
  · exact (hprocedures _ hgo (by decide) (by rintro ⟨⟩ <;> decide) (by cbv)).2

/-- A device that is declared under the word `proc` gets no command. -/
theorem not_every_device_usable : ¬ ∀ (s : Sheet) (ops : List Operation) (b : OpenProcedure) (line : Nat)
    (text : List Char) (decl : DeviceDecl) (device : Device), Accepts ⟨s, none⟩ ops →
    (after ⟨s, none⟩ ops).block = some b → Directive.read text = .ok (.device decl) →
    Declares ⟨s, none⟩ ops decl device →
    ((after ⟨s, none⟩ ops).read line (Line.command decl.name "x")).refusal = none := by
  intro h
  let s : Sheet := { file := 0, path := "/a" }
  let decl : DeviceDecl := ⟨"proc", none, []⟩
  let ops : List Operation := [] ++ [.declare "/a" 1 decl, .read 2 "proc Main \x7b".toList]
  have hproc : Declares ⟨s, none⟩ ops decl ⟨⟨0, 0⟩, "proc", .system, [], none⟩ := .intro rfl rfl
  have hread := h s ops ⟨"Main", 2, [], none⟩ 3 "#device proc".toList decl _ (by decide +kernel) (by cbv)
    (by decide +kernel) hproc
  have hrefused : ((after ⟨s, none⟩ ops).read 3 (Line.command decl.name "x")).refusal =
      some (.malformed 3 (.header .proc)) := by
    cbv
  rw [hrefused] at hread
  cases hread

end Draft

end CueSheet
