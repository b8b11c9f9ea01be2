import CueSheet.Program
import CueSheet.Proofs.Basic

/-!
Sheets whose names lead somewhere. A sheet is sound if its devices carry their own places, its
table is sorted, its bodies use only devices that it declares and names that its table has, and its
aliases come from finished files. Nothing is asked of pending names, so a sheet is sound at every
moment of its making: each operation only adds, and what it adds is sound.
-/

namespace CueSheet

def Element.devices : Element → List DeviceId
  | .timed es => es.map (·.device)
  | .command d _ => [d]
  | .call _ => []

def Element.callee? : Element → Option String
  | .call name => some name
  | _ => none

namespace Sheet

def Declares (s : Sheet) (d : DeviceId) : Prop := d.file = s.file ∧ d.index < s.devices.length

structure Supports (s : Sheet) (e : Element) : Prop where
  devices : ∀ d ∈ e.devices, s.Declares d
  callee : ∀ name, e.callee? = some name → (s.procedure? name).isSome = true

/-- An alias stands for a procedure of another file that has a body, and its bind leads from the
devices of that file to the devices of this one. -/
structure Imports (known : Nat → Sheet → Prop) (s : Sheet) (origin : ProcRef) (bind : Bind) :
    Prop where
  other : origin.file ≠ s.file
  target : ∃ t, known origin.file t ∧
    (∃ q es, t.procedure? origin.name = some q ∧ q.definition = .body es) ∧
    ∀ x ∈ bind, t.Declares x.1 ∧ s.Declares x.2
  distinct : (bind.map (·.1)).Nodup

/-- The names of file `i` lead somewhere, where `known` says what the finished files hold. -/
structure Sound (known : Nat → Sheet → Prop) (i : Nat) (s : Sheet) : Prop where
  file : s.file = i
  ids : ∀ (j : Nat) (d : Device), s.devices[j]? = some d → d.id = ⟨i, j⟩
  sorted : s.procedures.Pairwise fun a b => a.name < b.name
  bodies : ∀ q ∈ s.procedures, ∀ e ∈ q.body, s.Supports e
  aliases : ∀ q ∈ s.procedures, ∀ origin bind, q.definition = .alias origin bind →
    Imports known s origin bind

structure Grows (s s' : Sheet) : Prop where
  file : s'.file = s.file
  devices : s.devices.length ≤ s'.devices.length
  names : ∀ name, (s.procedure? name).isSome = true → (s'.procedure? name).isSome = true

variable {known known' : Nat → Sheet → Prop} {i : Nat} {s s' : Sheet}

theorem Grows.refl (s : Sheet) : s.Grows s := ⟨rfl, Nat.le_refl _, fun _ h => h⟩

theorem Grows.trans {s₁ s₂ s₃ : Sheet} (h : s₁.Grows s₂) (h' : s₂.Grows s₃) : s₁.Grows s₃ :=
  ⟨h'.file.trans h.file, Nat.le_trans h.devices h'.devices,
    fun name hn => h'.names name (h.names name hn)⟩

theorem Declares.grow {d : DeviceId} (h : s.Declares d) (hg : s.Grows s') : s'.Declares d :=
  ⟨h.1.trans hg.file.symm, Nat.lt_of_lt_of_le h.2 hg.devices⟩

theorem Supports.grow {e : Element} (h : s.Supports e) (hg : s.Grows s') : s'.Supports e :=
  ⟨fun d hd => (h.devices d hd).grow hg, fun name hn => hg.names name (h.callee name hn)⟩

theorem Imports.grow {origin : ProcRef} {bind : Bind} (h : Imports known s origin bind)
    (hg : s.Grows s') : Imports known s' origin bind := by
  obtain ⟨t, ht, hq, hb⟩ := h.target
  refine ⟨hg.file ▸ h.other, ⟨t, ht, hq, fun x hx => ?_⟩, h.distinct⟩
  exact ⟨(hb x hx).1, (hb x hx).2.grow hg⟩

theorem Imports.mono {origin : ProcRef} {bind : Bind} (h : Imports known s origin bind)
    (hk : ∀ i t, known i t → known' i t) : Imports known' s origin bind := by
  obtain ⟨t, ht, hq⟩ := h.target
  exact ⟨h.other, ⟨t, hk _ _ ht, hq⟩, h.distinct⟩

theorem Sound.mono (h : s.Sound known i) (hk : ∀ i t, known i t → known' i t) :
    s.Sound known' i :=
  { h with aliases := fun q hq origin bind hd => (h.aliases q hq origin bind hd).mono hk }

theorem sound_empty (known : Nat → Sheet → Prop) (i : Nat) (path : String) :
    Sound known i { file := i, path := path } :=
  ⟨rfl, by simp, .nil, by simp, by simp⟩

section Table

theorem mem_place {p q : Procedure} {ps : List Procedure}
    (h : ps.Pairwise fun a b => a.name < b.name) :
    q ∈ place p ps ↔ q = p ∨ q ∈ ps ∧ q.name ≠ p.name := by
  induction ps with
  | nil => simp [place]
  | cons x r ih =>
    obtain ⟨hx, hr⟩ := List.pairwise_cons.1 h
    have hne : ∀ y ∈ x :: r, p.name < x.name → y.name ≠ p.name := by
      intro y hy hlt he
      rcases List.mem_cons.1 hy with rfl | hy
      · exact String.lt_irrefl _ (he ▸ hlt)
      · exact String.lt_irrefl _ (he ▸ String.lt_trans hlt (hx y hy))
    rw [place]
    split
    · next hlt =>
      rw [List.mem_cons]
      exact or_congr_right ⟨fun hq => ⟨hq, hne q hq hlt⟩, And.left⟩
    · split
      · next he =>
        rw [List.mem_cons, List.mem_cons]
        apply or_congr_right
        constructor
        · intro hq
          exact ⟨Or.inr hq, fun hqn => String.lt_irrefl _ ((hqn.trans he) ▸ hx q hq)⟩
        · rintro ⟨rfl | hq, hn⟩
          · exact absurd he.symm hn
          · exact hq
      · next hlt he =>
        rw [List.mem_cons, ih hr, List.mem_cons]
        constructor
        · rintro (rfl | rfl | ⟨hq, hn⟩)
          · exact Or.inr ⟨Or.inl rfl, fun h => he h.symm⟩
          · exact Or.inl rfl
          · exact Or.inr ⟨Or.inr hq, hn⟩
        · rintro (rfl | ⟨rfl | hq, hn⟩)
          · exact Or.inr (Or.inl rfl)
          · exact Or.inl rfl
          · exact Or.inr (Or.inr ⟨hq, hn⟩)

theorem pairwise_place {p : Procedure} {ps : List Procedure}
    (h : ps.Pairwise fun a b => a.name < b.name) :
    (place p ps).Pairwise fun a b => a.name < b.name := by
  induction ps with
  | nil => simp [place]
  | cons x r ih =>
    obtain ⟨hx, hr⟩ := List.pairwise_cons.1 h
    rw [place]
    split
    · next hlt =>
      refine List.pairwise_cons.2 ⟨List.forall_mem_cons.2 ⟨hlt, fun y hy => ?_⟩, h⟩
      exact String.lt_trans hlt (hx y hy)
    · split
      · next he =>
        refine List.pairwise_cons.2 ⟨fun y hy => ?_, hr⟩
        rw [he]
        exact hx y hy
      · next hlt he =>
        refine List.pairwise_cons.2 ⟨fun y hy => ?_, ih hr⟩
        rcases (mem_place hr).1 hy with rfl | ⟨hy, -⟩
        · rcases Std.lt_trichotomy x.name y.name with h | h | h
          · exact h
          · exact absurd h.symm he
          · exact absurd h hlt
        · exact hx y hy

theorem procedure?_eq_some {name : String} {q : Procedure} (h : s.procedure? name = some q) :
    q ∈ s.procedures ∧ q.name = name :=
  ⟨List.mem_of_find?_eq_some h, by simpa using List.find?_some h⟩

theorem procedure?_of_mem (h : s.procedures.Pairwise fun a b => a.name < b.name) {q : Procedure}
    (hq : q ∈ s.procedures) : s.procedure? q.name = some q := by
  simp only [procedure?]
  induction hs : s.procedures generalizing s with
  | nil => simp [hs] at hq
  | cons x r ih =>
    rw [hs] at h hq
    obtain ⟨hx, hr⟩ := List.pairwise_cons.1 h
    rcases List.mem_cons.1 hq with rfl | hq
    · simp
    · have hne : x.name ≠ q.name := fun he => String.lt_irrefl _ (he ▸ hx q hq)
      rw [List.find?_cons_of_neg (by simpa using hne)]
      exact ih (s := { s with procedures := r }) hr hq rfl

theorem isDefined_put (s : Sheet) (p : Procedure) (name : String) :
    (s.put p).isDefined name = if p.name = name then p.isDefined else s.isDefined name := by
  simp only [isDefined, procedure?_put]
  split <;> rfl

theorem isDefined_mention (s : Sheet) (name other : String) :
    (s.mention name).isDefined other = s.isDefined other := by
  simp only [isDefined, procedure?_mention]
  split
  · next h =>
    subst h
    cases s.procedure? name <;> rfl
  · rfl

end Table

theorem grows_put (s : Sheet) (q : Procedure) : s.Grows (s.put q) := by
  refine ⟨rfl, Nat.le_refl _, fun name hn => ?_⟩
  rw [procedure?_put]
  split
  · rfl
  · exact hn

theorem sound_put (h : s.Sound known i) {q : Procedure} (hb : ∀ e ∈ q.body, s.Supports e)
    (ha : ∀ origin bind, q.definition = .alias origin bind → Imports known s origin bind) :
    (s.put q).Sound known i := by
  have hg := grows_put s q
  refine ⟨h.file, h.ids, pairwise_place h.sorted, fun x hx e he => ?_,
    fun x hx origin bind hd => ?_⟩
  · rcases (mem_place h.sorted).1 hx with rfl | ⟨hx, -⟩
    · exact (hb e he).grow hg
    · exact (h.bodies x hx e he).grow hg
  · rcases (mem_place h.sorted).1 hx with rfl | ⟨hx, -⟩
    · exact (ha origin bind hd).grow hg
    · exact (h.aliases x hx origin bind hd).grow hg

theorem grows_mention (s : Sheet) (name : String) : s.Grows (s.mention name) := by
  simp only [mention]
  split
  · exact Grows.refl s
  · exact grows_put s _

theorem sound_mention (h : s.Sound known i) (name : String) : (s.mention name).Sound known i := by
  simp only [mention]
  split
  · exact h
  · exact sound_put h (by simp [Procedure.body]) (by simp)

theorem sound_define? (h : s.Sound known i) {name : String} {body : List Element}
    (hb : ∀ e ∈ body, s.Supports e) (hd : s.define? name body = some s') : s'.Sound known i := by
  simp only [define?] at hd
  split at hd
  · cases hd
  · cases hd
    exact sound_put h hb (by simp)

section Declare

variable {name : String} {kind : DeviceKind} {configuration : List (String × String)}
  {serial : Option SerialSpec} {id : DeviceId}

theorem declare?_eq_some (h : s.declare? name kind configuration serial = some (id, s')) :
    s' = { s with devices := s.devices ++
      [⟨⟨s.file, s.devices.length⟩, name, kind, configuration, serial⟩] } := by
  simp only [declare?] at h
  split at h
  · cases h
  · cases h; rfl

theorem grows_declare? (h : s.declare? name kind configuration serial = some (id, s')) :
    s.Grows s' := by
  rw [declare?_eq_some h]
  exact ⟨rfl, by simp, fun _ h => h⟩

theorem sound_declare? (hs : s.Sound known i)
    (h : s.declare? name kind configuration serial = some (id, s')) : s'.Sound known i := by
  have hg := grows_declare? h
  obtain rfl := declare?_eq_some h
  refine ⟨hs.file, fun j d hd => ?_, hs.sorted, fun q hq e he => (hs.bodies q hq e he).grow hg,
    fun q hq origin bind hd => (hs.aliases q hq origin bind hd).grow hg⟩
  rcases Nat.lt_trichotomy j s.devices.length with hj | hj | hj
  · rw [List.getElem?_append_left hj] at hd
    exact hs.ids j d hd
  · subst hj
    simp only [List.getElem?_concat_length, Option.some.injEq] at hd
    rw [← hd, hs.file]
  · rw [List.getElem?_eq_none (by rw [List.length_append, List.length_singleton]; exact hj)] at hd
    cases hd

end Declare

theorem declares_of_device? (h : s.Sound known i) {name : String} {d : Device}
    (hd : s.device? name = some d) : s.Declares d.id ∧ d.name = name := by
  obtain ⟨j, hj, he⟩ := List.mem_iff_getElem.1 (List.mem_of_find?_eq_some hd)
  have hid : d.id = ⟨i, j⟩ := h.ids j d (by rw [List.getElem?_eq_getElem hj, he])
  refine ⟨?_, by simpa using List.find?_some hd⟩
  rw [hid]
  exact ⟨h.file.symm, hj⟩

theorem eq_of_id_eq (h : s.Sound known i) {d d' : Device} (hd : d ∈ s.devices)
    (hd' : d' ∈ s.devices) (he : d.id = d'.id) : d = d' := by
  obtain ⟨j, hj, rfl⟩ := List.mem_iff_getElem.1 hd
  obtain ⟨j', hj', rfl⟩ := List.mem_iff_getElem.1 hd'
  rw [h.ids j _ (List.getElem?_eq_getElem hj), h.ids j' _ (List.getElem?_eq_getElem hj')] at he
  obtain rfl : j = j' := (DeviceId.mk.inj he).2
  rfl

end Sheet

end CueSheet
