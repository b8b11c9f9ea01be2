import CueSheet.Proofs.Load.Closed
import CueSheet.Proofs.Load.Graph

/-!
Names of devices and names of procedures. A statement that gives a device's name means the device, so
where both have one name the procedure cannot be called. A procedure that is opened is refused the name
of a device; a device that is declared is not refused the name of a procedure, nor is an alias that
of a device. These directives are the only way to such a name.
-/

namespace CueSheet

def Sheet.Apart (s : Sheet) : Prop :=
  ∀ name, (s.device? name).isSome = true → s.procedure? name = none

namespace Draft

def HasProcedure (d : Draft) (name : String) : Prop :=
  d.sheet.isDefined name = true ∨ d.block.map (·.name) = some name

def Apart (d : Draft) : Prop :=
  ∀ name, (d.sheet.device? name).isSome = true → ¬ d.HasProcedure name

inductive Names (d : Draft) : Draft → Prop
  | within {d' : Draft} : d'.sheet = d.sheet ∨ (∃ name, d'.sheet = d.sheet.mention name) →
    d'.block.map (·.name) = d.block.map (·.name) → Names d d'
  | opened {b : OpenProcedure} : d.block = none → d.sheet.device? b.name = none →
    Names d ⟨d.sheet, some b⟩
  | closed {b : OpenProcedure} {s : Sheet} : d.block = some b →
    d.sheet.define? b.name b.body = some s → Names d ⟨s, none⟩

variable {d d' : Draft} {line : Nat}

theorem Effect.names {r : Reading} (h : d.Effect line r) (haccepted : r.refusal = none) :
    d.Names r.draft := by
  cases h with
  | blank => exact .within (.inl rfl) rfl
  | malformed _ | taken _ _ | lost _ _ _ => cases haccepted
  | mentioned name _ => exact .within (.inr ⟨name, rfl⟩) rfl
  | opened hblock hdevice _ => exact .opened hblock hdevice
  | began hb _ | entry hb _ _ _ | command hb _ _ _ | ended hb _ =>
    exact .within (.inl rfl) (by rw [hb]; rfl)
  | @call b name hb _ _ => exact .within (.inr ⟨name, rfl⟩) (by rw [hb]; rfl)
  | closed hb _ hs => exact .closed hb hs

theorem Names.devices (h : d.Names d') : d'.sheet.devices = d.sheet.devices := by
  cases h with
  | within hsheet _ =>
    rcases hsheet with hsheet | ⟨name, hsheet⟩
    · rw [hsheet]
    · rw [hsheet, Sheet.devices_mention]
  | opened _ _ => rfl
  | closed _ hs =>
    simp only [Sheet.define?] at hs
    split_ifs at hs
    cases hs
    rfl

theorem Names.hasProcedure_iff (h : d.Names d') {name : String}
    (hdevice : (d.sheet.device? name).isSome = true) : d'.HasProcedure name ↔ d.HasProcedure name := by
  cases h with
  | within hsheet hblock =>
    have hdefined : d'.sheet.isDefined name = d.sheet.isDefined name := by
      rcases hsheet with hsheet | ⟨other, hsheet⟩
      · rw [hsheet]
      · rw [hsheet, Sheet.isDefined_mention]
    rw [HasProcedure, HasProcedure, hblock, hdefined]
  | @opened b hblock hfree =>
    have hne : b.name ≠ name := by
      rintro rfl
      rw [hfree] at hdevice
      cases hdevice
    simp [HasProcedure, hblock, hne]
  | @closed b s hblock hs =>
    simp only [Sheet.define?] at hs
    split_ifs at hs
    cases hs
    by_cases hname : b.name = name <;>
      simp [HasProcedure, hblock, Sheet.isDefined_put, hname, Procedure.isDefined]

theorem Names.apart_iff (h : d.Names d') : d'.Apart ↔ d.Apart := by
  have hdevice : ∀ name, d'.sheet.device? name = d.sheet.device? name := fun name => by
    rw [Sheet.device?, Sheet.device?, h.devices]
  refine forall_congr' fun name => ?_
  rw [hdevice]
  exact imp_congr_right fun hsome => not_congr (h.hasProcedure_iff hsome)

end Draft

namespace Linker

variable {path : String} {line : Nat} {s s' target : Sheet} {renames : List (String × String)}

theorem isDefined_addAliases {file : Nat} {pairs : Bind} {ps : List Procedure}
    (h : addAliases path line file renames pairs ps s = (.ok (), s')) :
    s'.devices = s.devices ∧ ∀ name, s'.isDefined name = true ↔
      s.isDefined name = true ∨ ∃ p ∈ ps, newName renames p.name = name := by
  induction ps generalizing s with
  | nil =>
    cases h
    simp
  | cons p r ih =>
    simp only [addAliases] at h
    split_ifs at h with htaken
    · cases h
    · obtain ⟨hdevices, hdefined⟩ := ih h
      refine ⟨hdevices, fun name => ?_⟩
      rw [hdefined, Sheet.isDefined_put]
      by_cases hname : newName renames p.name = name <;> simp [hname, Procedure.isDefined]

theorem isDefined_link (h : link path line target renames s = (.ok (), s')) :
    s'.devices = s.devices ∧ ∀ name, s'.isDefined name = true ↔
      s.isDefined name = true ∨ ∃ p ∈ exports target, newName renames p.name = name := by
  simp only [link] at h
  split at h
  · cases h
  · exact isDefined_addAliases h

end Linker

namespace Loader

section Clashing

variable (L : Loader) (visit : Visit) (chain : List Nat) (here : Place)

inductive Clashes (x : Linker × Draft) (line : List Char) : Prop
  | device {d : DeviceDecl} : Directive.read (Text.trim line) = .ok (.device d) →
    x.2.HasProcedure d.name → Clashes x line
  | alias {d : LoadDecl} {q : Place} {st : Linker} {id : Nat} {target : Sheet} {p : Procedure} :
    Directive.read (Text.trim line) = .ok (.load d) →
    L.tree.canonical [] (Path.join (Place.path here.dropLast) d.path) = .ok q →
    fileAt visit chain x.1 q = .ok (st, id) → st.Known id target → p ∈ Linker.exports target →
    (x.2.sheet.device? (Linker.newName d.renames p.name)).isSome = true → Clashes x line

end Clashing

variable {L : Loader} {visit : Visit} {chain : List Nat} {here : Place} {x y : Linker × Draft}
  {line : List Char} {n : Nat}

theorem not_clashes {directive : Directive}
    (hread : Directive.read (Text.trim line) = .ok directive) (hdevice : ∀ d, directive ≠ .device d)
    (hload : ∀ d, directive ≠ .load d) : ¬ L.Clashes visit chain here x line := by
  rintro (⟨hread', -⟩ | ⟨hread', -⟩)
  · exact hdevice _ (Except.ok.inj (hread.symm.trans hread'))
  · exact hload _ (Except.ok.inj (hread.symm.trans hread'))

theorem clashes_device_iff {d : DeviceDecl}
    (hread : Directive.read (Text.trim line) = .ok (.device d)) :
    L.Clashes visit chain here x line ↔ x.2.HasProcedure d.name := by
  constructor
  · rintro (⟨hread', hhas⟩ | ⟨hread', -⟩)
    · cases hread.symm.trans hread'
      exact hhas
    · cases hread.symm.trans hread'
  · exact .device hread

theorem clashes_load_iff {d : LoadDecl} {q : Place} {st : Linker} {id : Nat} {target : Sheet}
    (hread : Directive.read (Text.trim line) = .ok (.load d))
    (hq : L.tree.canonical [] (Path.join (Place.path here.dropLast) d.path) = .ok q)
    (hfile : fileAt visit chain x.1 q = .ok (st, id)) (hknown : st.Known id target) :
    L.Clashes visit chain here x line ↔ ∃ p ∈ Linker.exports target,
      (x.2.sheet.device? (Linker.newName d.renames p.name)).isSome = true := by
  constructor
  · rintro (⟨hread', -⟩ | ⟨hread', hq', hfile', hknown', hp, hdevice⟩)
    · cases hread.symm.trans hread'
    · cases hread.symm.trans hread'
      cases hq.symm.trans hq'
      cases hfile.symm.trans hfile'
      cases hknown.symm.trans hknown'
      exact ⟨_, hp, hdevice⟩
  · rintro ⟨p, hp, hdevice⟩
    exact .alias hread hq hfile hknown hp hdevice

/-- An accepted line leaves the names apart, unless they were not or the line clashes. -/
theorem Handled.apart_iff (h : Handled L visit chain here x line n y) :
    y.2.Apart ↔ x.2.Apart ∧
      (Directive.isDirective (Text.trim line) = true → ¬ L.Clashes visit chain here x line) := by
  cases h with
  | plain hd hread =>
    rw [((Draft.effect_read _ _ _).names hread).apart_iff, hd]
    simp
  | @device d s hd hread hdeclare =>
    obtain ⟨hprocedures, hdevices⟩ := Linker.device?_declare hdeclare
    have hdefined : ∀ name, s.isDefined name = x.2.sheet.isDefined name := fun name => by
      rw [Sheet.isDefined, Sheet.isDefined, Sheet.procedure?, Sheet.procedure?, hprocedures]
    simp only [hd, true_implies, clashes_device_iff hread, Draft.Apart, Draft.HasProcedure, hdevices,
      hdefined, or_imp, forall_and, forall_eq']
  | priority window hd hread _ =>
    have hno : ¬ L.Clashes visit chain here x line :=
      not_clashes hread (by rintro d ⟨⟩) (by rintro d ⟨⟩)
    simp [hno]
  | @load d q st id target s hd hread hq hfile hknown hlink =>
    obtain ⟨hdevices, hdefined⟩ := Linker.isDefined_link hlink
    have hdevice : ∀ name, s.device? name = x.2.sheet.device? name := fun name => by
      rw [Sheet.device?, Sheet.device?, hdevices]
    simp only [hd, true_implies, clashes_load_iff hread hq hfile hknown, Draft.Apart,
      Draft.HasProcedure, hdevice, hdefined]
    constructor
    · intro hapart
      refine ⟨fun name hdev hhas => hapart name hdev (hhas.imp_left .inl), ?_⟩
      rintro ⟨p, hp, hdev⟩
      exact hapart _ hdev (.inl (.inr ⟨p, hp, rfl⟩))
    · rintro ⟨hapart, hclean⟩ name hdev ((hhas | ⟨p, hp, rfl⟩) | hopen)
      · exact hapart name hdev (.inl hhas)
      · exact hclean ⟨p, hp, hdev⟩
      · exact hapart name hdev (.inr hopen)

variable {o : Opening} {texts : List (List Char × Nat)}

theorem ReadsAll.apart_iff (h : L.ReadsAll o texts y) :
    y.2.Apart ↔ ∀ x line n, L.Reaches o x line n →
      ¬ L.Clashes (L.visit (o.allowance - 1) o.ownChain) o.ownChain o.place x line := by
  constructor
  · intro hapart x line n hreach hclash
    obtain ⟨z, rest, hz, hrest⟩ := h.proceeds hreach
    have hd : Directive.isDirective (Text.trim line) = true := by
      obtain ⟨-, -, hd⟩ := hreach
      exact hd
    have hz' : ¬ z.2.Apart := fun hz' =>
      ((handled_of_handle hz).apart_iff.1 hz').2 hd hclash
    have hy : ¬ y.2.Apart := foldlM_keeps (P := fun x => ¬ x.2.Apart)
      (fun _ _ _ hstep hx hy => hx ((handled_of_handle hstep).apart_iff.1 hy).1) hrest hz'
    exact hy hapart
  · intro hclean
    refine h.keeps (P := fun x => x.2.Apart) (fun name hdevice => ?_)
      fun x line n z hreach hz hx => ?_
    · cases hdevice
    · exact (handled_of_handle hz).apart_iff.2 ⟨hx, fun hd => hclean x line n (hreach hd)⟩

theorem ReadsAll.sheet_apart_iff (h : L.ReadsAll o texts y) : y.2.sheet.Apart ↔ y.2.Apart := by
  have hblock : y.2.block = none := by
    have hclosed := h.closed
    simp only [Draft.finish] at hclosed
    split at hclosed
    · assumption
    · split at hclosed <;> cases hclosed
  have hdefined : ∀ name, y.2.sheet.isDefined name = (y.2.sheet.procedure? name).isSome := by
    intro name
    rw [Sheet.isDefined]
    cases hq : y.2.sheet.procedure? name with
    | none => rfl
    | some q =>
      have hnone := List.find?_eq_none.1 (Option.map_eq_none_iff.1 h.defined) q
        (Sheet.procedure?_eq_some hq).1
      simpa using hnone
  simp [Sheet.Apart, Draft.Apart, Draft.HasProcedure, hblock, hdefined]

variable {root : String} {p : Program}

/-- In a program that was loaded, a name of a file is that of a device and of a procedure only where a
directive of the file clashes. -/
theorem program_apart_iff (hL : L.reader = .standard) (h : L.program here root = .ok p) {i : Nat}
    {s : Sheet} (hs : p.Holds i s) :
    ∃ o, L.Opened here root o ∧ o.id = i ∧ (s.Apart ↔ ∀ x line n, L.Reaches o x line n →
      ¬ L.Clashes (L.visit (o.allowance - 1) o.ownChain) o.ownChain o.place x line) := by
  obtain ⟨place, st, id, hplace, houtcome, hsheets, -⟩ := program_eq_ok h
  have hknown := (holds_iff hsheets).1 hs
  obtain ⟨hlt, -⟩ := List.getElem?_eq_some_iff.1 hknown
  obtain ⟨o, ho, rfl⟩ :=
    numbered_outcome hL houtcome i (Nat.zero_le i) ((underway_first hL houtcome).length ▸ hlt)
  obtain ⟨texts, y, hall, hknown'⟩ := ho.exists_readsAll hL Linker.sound_empty houtcome
  obtain rfl : s = y.2.sheet := Option.some.inj (Option.some.inj (hknown.symm.trans hknown'))
  exact ⟨o, ⟨place, hplace, ho⟩, rfl, hall.sheet_apart_iff.trans hall.apart_iff⟩

def takenName : Loader where
  tree := ⟨[(["a"], .file
    "proc Print \x7b\n\x7d\n#device Print\nproc Main \x7b\nPrint\n\x7d".toUTF8.toList)]⟩

theorem program_takenName : ∃ p s,
    takenName.program [] "/a" = .ok p ∧ p.Holds 0 s ∧ ¬ s.Apart ∧
    (s.device? "Print").map (·.id) = some ⟨0, 0⟩ ∧ s.isDefined "Print" = true ∧
    (s.procedure? "Main").map (·.body) = some [.command ⟨0, 0⟩ []] := by
  have hrun : (takenName.program [] "/a").map (fun p => p.sheets[0]?.map fun s =>
      ((s.device? "Print").map (·.id), s.isDefined "Print", (s.procedure? "Main").map (·.body))) =
      .ok (some (some ⟨0, 0⟩, true, some [.command ⟨0, 0⟩ []])) := by
    cbv
  obtain ⟨p, hp, hsheet⟩ := Result.map_eq_ok_iff.1 hrun
  obtain ⟨s, hs, hnames⟩ := Option.map_eq_some_iff.1 hsheet
  obtain ⟨hdevice, hrest⟩ := Prod.mk.inj hnames
  obtain ⟨hdefined, hmain⟩ := Prod.mk.inj hrest
  refine ⟨p, s, hp, hs, fun hapart => ?_, hdevice, hdefined, hmain⟩
  have hnone : s.procedure? "Print" = none :=
    hapart "Print" (by rw [← Option.isSome_map, hdevice]; rfl)
  rw [Sheet.isDefined, hnone] at hdefined
  cases hdefined

theorem not_always_apart : ¬ ∀ (L : Loader) (here : Place) (root : String) (p : Program) (i : Nat)
    (s : Sheet), L.program here root = .ok p → p.Holds i s → s.Apart := by
  intro h
  obtain ⟨p, s, hp, hs, hapart, -⟩ := program_takenName
  exact hapart (h takenName [] "/a" p 0 s hp hs)

theorem program_apart_iff_takenName : ∃ o x line n, takenName.Opened [] "/a" o ∧ o.id = 0 ∧
    takenName.Reaches o x line n ∧
    takenName.Clashes (takenName.visit (o.allowance - 1) o.ownChain) o.ownChain o.place x line := by
  obtain ⟨p, s, hp, hs, hapart, -⟩ := program_takenName
  obtain ⟨o, ho, hid, hiff⟩ := program_apart_iff rfl hp hs
  by_contra hnone
  refine hapart (hiff.2 fun x line n hreach hclash => ?_)
  exact hnone ⟨o, x, line, n, ho, hid, hreach, hclash⟩

end Loader

end CueSheet
