import CueSheet.Proofs.Load.Opening

/-!
Definitions that stay as they are. Lines and directives work on the same table of names, in any order,
and some of them fail half way. Whatever they do: devices are only appended, no name leaves the table,
a pending name can get a body once, and what is defined is never changed.
-/

namespace CueSheet

inductive Procedure.Settles (p : Procedure) : Procedure → Prop
  | same : Settles p p
  | filled (body : List Element) : p.definition = .pending → Settles p ⟨p.name, .body body⟩

theorem Procedure.Settles.trans {p q r : Procedure} (h : p.Settles q) (h' : q.Settles r) :
    p.Settles r := by
  cases h' with
  | same => exact h
  | filled body hpending =>
    cases h with
    | same => exact .filled body hpending
    | filled _ _ => cases hpending

namespace Sheet

/-- `s'` has all that `s` has, devices in their places and procedures under their names. -/
structure Later (s s' : Sheet) : Prop where
  file : s'.file = s.file
  path : s'.path = s.path
  devices : s.devices <+: s'.devices
  procedures : ∀ name p, s.procedure? name = some p →
    ∃ p', s'.procedure? name = some p' ∧ p.Settles p'

/-- Each device has its own name and the number of its place, and each procedure its own name. -/
structure Ordered (s : Sheet) : Prop where
  ids : ∀ (j : Nat) (d : Device), s.devices[j]? = some d → d.id = ⟨s.file, j⟩
  devices : (s.devices.map (·.name)).Nodup
  procedures : s.procedures.Pairwise fun p q => p.name < q.name

variable {s s' : Sheet} {name : String}

theorem Later.refl (s : Sheet) : s.Later s :=
  ⟨rfl, rfl, List.prefix_refl _, fun _ p hp => ⟨p, hp, .same⟩⟩

theorem Later.trans {s₁ s₂ s₃ : Sheet} (h : s₁.Later s₂) (h' : s₂.Later s₃) : s₁.Later s₃ := by
  refine ⟨h'.file.trans h.file, h'.path.trans h.path, h.devices.trans h'.devices, fun name p hp => ?_⟩
  obtain ⟨q, hq, hpq⟩ := h.procedures name p hp
  obtain ⟨r, hr, hqr⟩ := h'.procedures name q hq
  exact ⟨r, hr, hpq.trans hqr⟩

theorem Later.device? (h : s.Later s') {d : Device} (hd : s.device? name = some d) :
    s'.device? name = some d := by
  obtain ⟨more, hmore⟩ := h.devices
  rw [Sheet.device?, ← hmore, List.find?_append]
  exact Option.or_of_isSome (Option.isSome_of_eq_some hd) ▸ hd

theorem Later.stored (h : s.Later s') {p : Procedure} (hp : s.procedure? name = some p)
    (hdefined : p.isDefined = true) : s'.procedure? name = some p := by
  obtain ⟨p', hp', hsettles⟩ := h.procedures name p hp
  cases hsettles with
  | same => exact hp'
  | filled body hpending =>
    rw [Procedure.isDefined, hpending] at hdefined
    cases hdefined

theorem ordered_empty (file : Nat) (path : String) : Ordered { file := file, path := path } :=
  ⟨by simp, .nil, .nil⟩

section Put

variable {p : Procedure}

theorem later_put (h : ∀ q, s.procedure? p.name = some q → q.Settles p) : s.Later (s.put p) := by
  refine ⟨rfl, rfl, List.prefix_refl _, fun name q hq => ?_⟩
  rw [procedure?_put]
  split
  · next hname => exact ⟨p, rfl, h q (hname ▸ hq)⟩
  · exact ⟨q, hq, .same⟩

theorem later_put_new (h : s.procedure? p.name = none) : s.Later (s.put p) :=
  later_put fun q hq => by
    rw [h] at hq
    cases hq

theorem Ordered.put (h : s.Ordered) (p : Procedure) : (s.put p).Ordered :=
  ⟨h.ids, h.devices, pairwise_place h.procedures⟩

end Put

theorem later_mention (s : Sheet) (name : String) : s.Later (s.mention name) := by
  simp only [mention]
  split
  · exact .refl s
  · next hnew => exact later_put_new (by simpa using hnew)

theorem Ordered.mention (h : s.Ordered) (name : String) : (s.mention name).Ordered := by
  simp only [Sheet.mention]
  split
  · exact h
  · exact h.put _

theorem definition_of_not_isDefined {p : Procedure} (hp : s.procedure? name = some p)
    (h : s.isDefined name = false) : p.definition = .pending := by
  simp only [isDefined, hp, Option.any_some, Procedure.isDefined] at h
  split at h
  · assumption
  · cases h

theorem later_define? {body : List Element} (h : s.define? name body = some s') : s.Later s' := by
  simp only [define?] at h
  split at h
  · cases h
  · next hdefined =>
    cases h
    refine later_put fun q hq => ?_
    have hpending := definition_of_not_isDefined hq (by simpa using hdefined)
    obtain ⟨-, rfl⟩ := procedure?_eq_some hq
    exact .filled body hpending

theorem Ordered.define? {body : List Element} (h : s.Ordered)
    (hs : s.define? name body = some s') : s'.Ordered := by
  simp only [Sheet.define?] at hs
  split at hs
  · cases hs
  · cases hs
    exact h.put _

theorem Noted.later (h : s.Noted s') : s.Later s' := by
  cases h with
  | same => exact .refl s
  | mentioned name => exact later_mention s name
  | defined h => exact later_define? h

theorem Noted.ordered (h : s.Noted s') (hs : s.Ordered) : s'.Ordered := by
  cases h with
  | same => exact hs
  | mentioned name => exact hs.mention name
  | defined h => exact hs.define? h

section Declare

variable {kind : DeviceKind} {configuration : List (String × String)} {serial : Option SerialSpec}
  {id : DeviceId}

theorem later_declare? (h : s.declare? name kind configuration serial = some (id, s')) :
    s.Later s' := by
  obtain rfl := declare?_eq_some h
  exact ⟨rfl, rfl, List.prefix_append _ _, fun _ p hp => ⟨p, hp, .same⟩⟩

theorem device?_eq_none_of_declare? (h : s.declare? name kind configuration serial = some (id, s')) :
    s.device? name = none := by
  by_contra hold
  have hnone := (declare?_eq_none_iff s name kind configuration serial).2
    (Option.isSome_iff_ne_none.2 hold)
  rw [hnone] at h
  cases h

theorem Ordered.declare? (hs : s.Ordered)
    (h : s.declare? name kind configuration serial = some (id, s')) : s'.Ordered := by
  have hnew := device?_eq_none_of_declare? h
  obtain rfl := declare?_eq_some h
  refine ⟨fun j d hd => ?_, ?_, hs.procedures⟩
  · rw [List.getElem?_append] at hd
    split at hd
    · exact hs.ids j d hd
    · next hj =>
      obtain ⟨hzero, rfl⟩ : j - s.devices.length = 0 ∧ _ = d := by
        simpa [List.getElem?_singleton] using hd
      obtain rfl : s.devices.length = j := by omega
      rfl
  · rw [List.map_append, List.map_singleton, ← List.concat_eq_append]
    refine List.Nodup.concat ?_ hs.devices
    simpa [device?] using hnew

end Declare

end Sheet

namespace Linker

variable {path : String} {line : Nat} {s s' : Sheet}

theorem later_declare {d : DeviceDecl} (h : declare path line d s = .ok s') : s.Later s' := by
  simp only [declare] at h
  split at h
  · next hd =>
    cases h
    exact Sheet.later_declare? hd
  · cases h

theorem ordered_declare {d : DeviceDecl} (hs : s.Ordered) (h : declare path line d s = .ok s') :
    s'.Ordered := by
  simp only [declare] at h
  split at h
  · next hd =>
    cases h
    exact hs.declare? hd
  · cases h

theorem device?_declare {d : DeviceDecl} (h : declare path line d s = .ok s') :
    s'.procedures = s.procedures ∧
      ∀ name, (s'.device? name).isSome = true ↔ (s.device? name).isSome = true ∨ d.name = name := by
  simp only [declare] at h
  split at h
  · next hs =>
    cases h
    obtain rfl := Sheet.declare?_eq_some hs
    refine ⟨rfl, fun name => ?_⟩
    simp only [Sheet.device?, List.find?_append, Option.isSome_or, Bool.or_eq_true]
    refine or_congr_right ?_
    by_cases hname : d.name = name <;> simp [hname]
  · cases h

theorem later_addAliases {file : Nat} {renames : List (String × String)} {pairs : Bind}
    (ps : List Procedure) (s : Sheet) : s.Later (addAliases path line file renames pairs ps s).2 := by
  induction ps generalizing s with
  | nil => exact .refl s
  | cons p r ih =>
    simp only [addAliases]
    split
    · exact .refl s
    · next hnew => exact (Sheet.later_put_new (by simpa using hnew)).trans (ih _)

theorem ordered_addAliases {file : Nat} {renames : List (String × String)} {pairs : Bind}
    (ps : List Procedure) (hs : s.Ordered) :
    (addAliases path line file renames pairs ps s).2.Ordered := by
  induction ps generalizing s with
  | nil => exact hs
  | cons p r ih =>
    simp only [addAliases]
    split
    · exact hs
    · exact ih (hs.put _)

variable {target : Sheet} {renames : List (String × String)}

theorem later_link : s.Later (link path line target renames s).2 := by
  simp only [link]
  split
  · exact .refl s
  · exact later_addAliases _ s

theorem ordered_link (hs : s.Ordered) : (link path line target renames s).2.Ordered := by
  simp only [link]
  split
  · exact hs
  · exact ordered_addAliases _ hs

end Linker

namespace Draft

inductive Operation
  | read (line : Nat) (text : List Char)
  | finish
  | declare (path : String) (line : Nat) (d : DeviceDecl)
  | link (path : String) (line : Nat) (target : Sheet) (renames : List (String × String))

def Operation.apply (d : Draft) : Operation → Draft
  | .read line text => (d.read line text).draft
  | .finish => d
  | .declare path line decl =>
    match Linker.declare path line decl d.sheet with
    | .ok sheet => { d with sheet := sheet }
    | .error _ => d
  | .link path line target renames =>
    { d with sheet := (Linker.link path line target renames d.sheet).2 }

def after (d : Draft) (ops : List Operation) : Draft := ops.foldl Operation.apply d

variable {d : Draft}

theorem later_apply (d : Draft) (op : Operation) : d.sheet.Later (op.apply d).sheet := by
  cases op with
  | read line text => exact (effect_read d line text).noted.later
  | finish => exact .refl _
  | declare path line decl =>
    simp only [Operation.apply]
    split
    · next hd => exact Linker.later_declare hd
    · exact .refl _
  | link path line target renames => exact Linker.later_link

theorem ordered_apply (h : d.sheet.Ordered) (op : Operation) : (op.apply d).sheet.Ordered := by
  cases op with
  | read line text => exact (effect_read d line text).noted.ordered h
  | finish => exact h
  | declare path line decl =>
    simp only [Operation.apply]
    split
    · next hd => exact Linker.ordered_declare h hd
    · exact h
  | link path line target renames => exact Linker.ordered_link h

theorem later_after (d : Draft) (ops : List Operation) : d.sheet.Later (d.after ops).sheet := by
  induction ops generalizing d with
  | nil => exact .refl _
  | cons op ops ih => exact (later_apply d op).trans (ih _)

theorem ordered_after (h : d.sheet.Ordered) (ops : List Operation) : (d.after ops).sheet.Ordered := by
  induction ops generalizing d with
  | nil => exact h
  | cons op ops ih => exact ih (ordered_apply h op)

theorem after_append (d : Draft) (ops ops' : List Operation) :
    d.after (ops ++ ops') = (d.after ops).after ops' := List.foldl_append

/-- After any operations on a new sheet: devices stand in the order of their numbers, no two of a name;
the table answers for each of its procedures by its name. And after any more: the devices are still
the first ones, and every name is still there, with the same procedure if it was defined; if it was
pending, it still is or it has got a body. -/
theorem frozen (file : Nat) (path : String) (ops ops' : List Operation) :
    let s := (after ⟨{ file := file, path := path }, none⟩ ops).sheet
    let s' := (after ⟨{ file := file, path := path }, none⟩ (ops ++ ops')).sheet
    (∀ (j : Nat) (d : Device), s.devices[j]? = some d → d.id = ⟨file, j⟩) ∧
      (s.devices.map (·.name)).Nodup ∧ (∀ p ∈ s.procedures, s.procedure? p.name = some p) ∧
      s.devices <+: s'.devices ∧
      ∀ name p, s.procedure? name = some p → p.name = name ∧
        ∃ p', s'.procedure? name = some p' ∧ (p.isDefined = true → p' = p) ∧
          (p' = p ∨ p.definition = .pending ∧ ∃ body, p' = ⟨name, .body body⟩) := by
  intro s s'
  have hfile : s.file = file := (later_after ⟨{ file := file, path := path }, none⟩ ops).file
  have hordered : s.Ordered := ordered_after (Sheet.ordered_empty file path) ops
  have hlater : s.Later s' := by
    simp only [s', after_append]
    exact later_after _ ops'
  refine ⟨hfile ▸ hordered.ids, hordered.devices,
    fun p hp => Sheet.procedure?_of_mem hordered.procedures hp, hlater.devices, fun name p hp => ?_⟩
  have hname := (Sheet.procedure?_eq_some hp).2
  obtain ⟨p', hp', hsettles⟩ := hlater.procedures name p hp
  refine ⟨hname, p', hp', ?_⟩
  cases hsettles with
  | same => exact ⟨fun _ => rfl, .inl rfl⟩
  | filled body hpending =>
    refine ⟨fun hdefined => ?_, .inr ⟨hpending, body, by rw [hname]⟩⟩
    rw [Procedure.isDefined, hpending] at hdefined
    cases hdefined

/-- An alias that is linked while a body of its name is open: the body is refused. -/
example :
    let target : Sheet := { file := 1, path := "/b", procedures := [⟨"go", .body []⟩] }
    let d := after ⟨{ file := 0, path := "/a" }, none⟩
      [.read 1 "proc go \x7b".toList, .link "/a" 2 target []]
    (d.block.map (·.name) = some "go" ∧ (d.read 3 ['}']).refusal = some (.duplicate 3 "go")) ∧
      ((d.read 3 ['}']).draft.sheet.procedure? "go").bind (·.origin?) = some ⟨1, "go"⟩ := by
  cbv

end Draft

namespace Loader

variable {L : Loader} {visit : Visit} {chain : List Nat} {here : Place} {x y : Linker × Draft}

/-- All that a load does to the draft of a file are operations. -/
theorem Handled.exists_operations {line : List Char} {n : Nat}
    (h : Handled L visit chain here x line n y) : ∃ ops, y.2 = x.2.after ops := by
  cases h with
  | plain _ _ => exact ⟨[.read n (Text.trim line)], rfl⟩
  | @device d s _ _ hdeclare =>
    refine ⟨[.declare here.path n d], ?_⟩
    simp only [Draft.after, List.foldl_cons, List.foldl_nil, Draft.Operation.apply, hdeclare]
  | priority _ _ _ _ => exact ⟨[], rfl⟩
  | @load d _ _ _ target s _ _ _ _ _ hlink =>
    refine ⟨[.link here.path n target d.renames], ?_⟩
    simp only [Draft.after, List.foldl_cons, List.foldl_nil, Draft.Operation.apply, hlink]

theorem ReadsAll.exists_operations {o : Opening} {texts : List (List Char × Nat)}
    (h : L.ReadsAll o texts y) : ∃ ops, y.2 = o.blank.after ops := by
  refine foldlM_keeps (P := fun x => ∃ ops, x.2 = o.blank.after ops) ?_ h.handled ⟨[], rfl⟩
  rintro x a z hz ⟨ops, hx⟩
  obtain ⟨ops', hz⟩ := (handled_of_handle hz).exists_operations
  exact ⟨ops ++ ops', by rw [hz, hx, Draft.after_append]⟩

end Loader

end CueSheet
