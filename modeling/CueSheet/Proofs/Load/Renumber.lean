import CueSheet.Load.Basic
import CueSheet.Proofs.Basic

/-!
Files under other numbers. Numbers of files stand in the identities of devices and in the origins of
aliases. Nothing that makes a sheet looks at them: each operation commutes with a change of numbers.
-/

namespace CueSheet

section Definitions

variable (ρ : Nat → Nat)

def DeviceId.renumber (d : DeviceId) : DeviceId := ⟨ρ d.file, d.index⟩

def Bind.renumber (b : Bind) : Bind := b.map fun x => (x.1.renumber ρ, x.2.renumber ρ)

def ProcRef.renumber (r : ProcRef) : ProcRef := ⟨ρ r.file, r.name⟩

def Device.renumber (d : Device) : Device := { d with id := d.id.renumber ρ }

def Entry.renumber (e : Entry) : Entry := { e with device := e.device.renumber ρ }

def Element.renumber : Element → Element
  | .timed entries => .timed (entries.map (Entry.renumber ρ))
  | .command device args => .command (device.renumber ρ) args
  | .call name => .call name

def Definition.renumber : Definition → Definition
  | .pending => .pending
  | .body elements => .body (elements.map (Element.renumber ρ))
  | .alias origin bind => .alias (origin.renumber ρ) (bind.renumber ρ)

def Procedure.renumber (p : Procedure) : Procedure := ⟨p.name, p.definition.renumber ρ⟩

def Sheet.renumber (s : Sheet) : Sheet where
  file := ρ s.file
  path := s.path
  devices := s.devices.map (Device.renumber ρ)
  procedures := s.procedures.map (Procedure.renumber ρ)

def OpenTimeline.renumber (t : OpenTimeline) : OpenTimeline :=
  ⟨t.line, t.entries.map (Entry.renumber ρ)⟩

def OpenProcedure.renumber (b : OpenProcedure) : OpenProcedure where
  name := b.name
  line := b.line
  body := b.body.map (Element.renumber ρ)
  timeline := b.timeline.map (OpenTimeline.renumber ρ)

def Draft.renumber (d : Draft) : Draft := ⟨d.sheet.renumber ρ, d.block.map (OpenProcedure.renumber ρ)⟩

def Reading.renumber (r : Reading) : Reading := ⟨r.draft.renumber ρ, r.refusal⟩

end Definitions

variable {ρ : Nat → Nat}

namespace Procedure

@[simp] theorem renumber_name (p : Procedure) : (p.renumber ρ).name = p.name := rfl

@[simp] theorem renumber_isDefined (p : Procedure) : (p.renumber ρ).isDefined = p.isDefined := by
  obtain ⟨name, definition⟩ := p
  cases definition <;> rfl

theorem renumber_isLocal (p : Procedure) : (p.renumber ρ).origin?.isNone = p.origin?.isNone := by
  obtain ⟨name, definition⟩ := p
  cases definition <;> rfl

end Procedure

namespace Sheet

variable {s : Sheet}

@[simp] theorem renumber_device? (name : String) :
    (s.renumber ρ).device? name = (s.device? name).map (Device.renumber ρ) := by
  simp only [device?, renumber, List.find?_map]
  rfl

@[simp] theorem renumber_procedure? (name : String) :
    (s.renumber ρ).procedure? name = (s.procedure? name).map (Procedure.renumber ρ) := by
  simp only [procedure?, renumber, List.find?_map]
  rfl

@[simp] theorem renumber_isDefined (name : String) :
    (s.renumber ρ).isDefined name = s.isDefined name := by
  simp only [isDefined, renumber_procedure?]
  cases s.procedure? name <;> simp

theorem renumber_place (p : Procedure) (ps : List Procedure) :
    place (p.renumber ρ) (ps.map (Procedure.renumber ρ)) =
      (place p ps).map (Procedure.renumber ρ) := by
  induction ps with
  | nil => rfl
  | cons q r ih =>
    simp only [place, List.map_cons, Procedure.renumber_name, ih]
    by_cases hlt : p.name < q.name
    · simp [hlt]
    · by_cases he : p.name = q.name <;> simp [hlt, he]

theorem renumber_put (p : Procedure) :
    (s.renumber ρ).put (p.renumber ρ) = (s.put p).renumber ρ := by
  simp only [put, renumber, renumber_place]

theorem renumber_mention (name : String) :
    (s.renumber ρ).mention name = (s.mention name).renumber ρ := by
  simp only [mention, renumber_procedure?, Option.isSome_map]
  split_ifs
  · rfl
  · exact renumber_put ⟨name, .pending⟩

theorem renumber_define? (name : String) (body : List Element) :
    (s.renumber ρ).define? name (body.map (Element.renumber ρ)) =
      (s.define? name body).map (Sheet.renumber ρ) := by
  simp only [define?, renumber_isDefined]
  split_ifs
  · rfl
  · exact congrArg some (renumber_put ⟨name, .body body⟩)

theorem renumber_declare? (name : String) (kind : DeviceKind)
    (configuration : List (String × String)) (serial : Option SerialSpec) :
    (s.renumber ρ).declare? name kind configuration serial =
      (s.declare? name kind configuration serial).map fun x =>
        (x.1.renumber ρ, x.2.renumber ρ) := by
  simp only [declare?, renumber_device?, Option.isSome_map]
  split_ifs
  · rfl
  · simp [renumber, DeviceId.renumber, Device.renumber]

end Sheet

namespace Draft

variable {d : Draft} {n : Nat}

theorem renumber_close : (d.renumber ρ).close n = (d.close n).renumber ρ := by
  obtain ⟨s, block⟩ := d
  cases block with
  | none => rfl
  | some b =>
    obtain ⟨name, line, body, timeline⟩ := b
    cases timeline with
    | some t => simp [close, renumber, OpenProcedure.renumber, OpenTimeline.renumber, accepted,
        Reading.renumber, Element.renumber]
    | none =>
      simp only [close, renumber, OpenProcedure.renumber, Option.map_some, Option.map_none,
        Sheet.renumber_define?]
      cases s.define? name body <;> rfl

theorem renumber_openProcedure (name : String) :
    (d.renumber ρ).openProcedure n name = (d.openProcedure n name).renumber ρ := by
  simp only [openProcedure, renumber, Option.isSome_map, Sheet.renumber_device?,
    Sheet.renumber_isDefined]
  split_ifs <;> rfl

theorem renumber_forward (name : String) :
    (d.renumber ρ).forward n name = (d.forward n name).renumber ρ := by
  simp only [forward, renumber, Option.isSome_map, Sheet.renumber_mention]
  split_ifs <;> rfl

theorem renumber_openTimeline : (d.renumber ρ).openTimeline n = (d.openTimeline n).renumber ρ := by
  obtain ⟨s, block⟩ := d
  cases block with
  | none => rfl
  | some b =>
    obtain ⟨name, line, body, timeline⟩ := b
    cases timeline <;> rfl

theorem renumber_perform (b : OpenProcedure) (s : Line.Statement) :
    (d.renumber ρ).perform n (b.renumber ρ) s = (d.perform n b s).renumber ρ := by
  obtain ⟨name, line, body, timeline⟩ := b
  simp only [perform, renumber, OpenProcedure.renumber, Sheet.renumber_device?,
    Sheet.renumber_mention]
  cases d.sheet.device? s.name with
  | some device =>
    cases timeline with
    | some t => simp [accepted, Reading.renumber, renumber, OpenProcedure.renumber,
        OpenTimeline.renumber, Entry.renumber, Device.renumber]
    | none =>
      simp only [Option.map_some, Option.map_none]
      split_ifs
      · rfl
      · simp [accepted, Reading.renumber, renumber, OpenProcedure.renumber, Element.renumber,
          Device.renumber]
  | none =>
    cases timeline with
    | some t => rfl
    | none =>
      simp only [Option.map_none]
      split_ifs
      · rfl
      · simp [accepted, Reading.renumber, renumber, OpenProcedure.renumber, Element.renumber]

theorem renumber_statement (ts : List Token) :
    (d.renumber ρ).statement n ts = (d.statement n ts).renumber ρ := by
  obtain ⟨s, block⟩ := d
  cases block with
  | none => rfl
  | some b =>
    simp only [statement, renumber, Option.map_some]
    cases Line.statement ts with
    | error f => rfl
    | ok statement => exact renumber_perform (d := ⟨s, some b⟩) b statement

theorem renumber_readTokens (ts : List Token) :
    (d.renumber ρ).readTokens n ts = (d.readTokens n ts).renumber ρ := by
  simp only [readTokens]
  cases Line.Kind.of ts with
  | blank => rfl
  | closing => exact renumber_close
  | procedure name => exact renumber_openProcedure name
  | forward name => exact renumber_forward name
  | timeline => exact renumber_openTimeline
  | badHeader kw => rfl
  | other ts => exact renumber_statement ts

theorem renumber_read (text : List Char) :
    (d.renumber ρ).read n text = (d.read n text).renumber ρ := by
  simp only [read]
  cases Token.scan text with
  | error e => rfl
  | ok ts => exact renumber_readTokens ts

end Draft

namespace Linker

variable {path : String} {line : Nat} {s target : Sheet}

theorem renumber_declare (d : DeviceDecl) :
    declare path line d (s.renumber ρ) = (declare path line d s).map (Sheet.renumber ρ) := by
  simp only [declare, Sheet.renumber_declare?]
  cases s.declare? d.name _ d.configuration d.serial <;> rfl

theorem renumber_bind (seen : List String) (renames : List (String × String)) :
    bind path line (target.renumber ρ) (s.renumber ρ) seen renames =
      (bind path line target s seen renames).map (Bind.renumber ρ) := by
  induction renames generalizing seen with
  | nil => rfl
  | cons rename rest ih =>
    obtain ⟨old, new⟩ := rename
    simp only [bind, Sheet.renumber_device?, ih]
    split_ifs
    · rfl
    · cases target.device? old with
      | none => rfl
      | some d =>
        cases s.device? new with
        | none => rfl
        | some e =>
          simp only [Option.map_some]
          cases bind path line target s (old :: seen) rest <;> rfl

theorem renumber_exports :
    exports (target.renumber ρ) = (exports target).map (Procedure.renumber ρ) := by
  simp only [exports, Sheet.renumber, List.filter_map]
  congr 2
  funext p
  exact Procedure.renumber_isLocal p

theorem renumber_addAliases {file : Nat} {renames : List (String × String)} {pairs : Bind}
    (ps : List Procedure) (s : Sheet) :
    addAliases path line (ρ file) renames (pairs.renumber ρ) (ps.map (Procedure.renumber ρ))
        (s.renumber ρ) =
      ((addAliases path line file renames pairs ps s).1,
        (addAliases path line file renames pairs ps s).2.renumber ρ) := by
  induction ps generalizing s with
  | nil => rfl
  | cons p r ih =>
    simp only [addAliases, List.map_cons, Procedure.renumber_name, Sheet.renumber_procedure?,
      Option.isSome_map]
    split_ifs
    · rfl
    · rw [← ih, ← Sheet.renumber_put]
      rfl

theorem renumber_link {renames : List (String × String)} :
    link path line (target.renumber ρ) renames (s.renumber ρ) =
      ((link path line target renames s).1, (link path line target renames s).2.renumber ρ) := by
  simp only [link, renumber_bind, renumber_exports]
  cases bind path line target s [] renames with
  | error e => rfl
  | ok pairs => exact renumber_addAliases (exports target) s

end Linker

end CueSheet
