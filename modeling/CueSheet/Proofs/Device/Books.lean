import CueSheet.Proofs.Device.Journal
import CueSheet.Proofs.Plan.Registry
import Mathlib.Tactic.Tauto

/-!
Books that agree with the journal. Every port of a registry that was called has its own number, and
what the journal says about that number is as it should be of a port that counts as open, or as closed.
What should be is left open here: if each call of a port keeps it, each operation on the registry does.
-/

namespace CueSheet

namespace Instance

def deeds (i : Instance Plug) (j : Journal) : List PortDeed := (i.number?.map j.deeds).getD []

def Agrees (Q : Bool → List PortDeed → Prop) (j : Journal) (i : Instance Plug) : Prop :=
  ∀ t, i = .transport t → Q t.isOpen (i.deeds j)

def Opens (Q : Bool → List PortDeed → Prop) (i : Instance Plug) : Prop :=
  ∀ t, i = .transport t → t.isOpen = false → ∀ j answer, Q false (i.deeds j) →
    Q answer.toBool (i.deeds j ++ [.opened answer])

variable {i : Instance Plug} {j j' : Journal}

theorem deeds_of_number {k : Nat} (h : i.number? = some k) (j : Journal) : i.deeds j = j.deeds k := by
  rw [deeds, h, Option.map_some, Option.getD_some]

theorem deeds_of_none (h : i.number? = none) (j : Journal) : i.deeds j = [] := by
  rw [deeds, h, Option.map_none, Option.getD_none]

theorem Agrees.congr {Q : Bool → List PortDeed → Prop} (h : i.Agrees Q j)
    (hj : ∀ k, i.number? = some k → j'.deeds k = j.deeds k) : i.Agrees Q j' := by
  intro t ht
  have hsame : i.deeds j' = i.deeds j := by
    cases hnumber : i.number? with
    | none => rw [deeds_of_none hnumber, deeds_of_none hnumber]
    | some k => rw [deeds_of_number hnumber, deeds_of_number hnumber, hj k hnumber]
  rw [hsame]
  exact h t ht

end Instance

structure PortDeed.Lasting (Q : Bool → List PortDeed → Prop) : Prop where
  called : ¬ Q true []
  wrote : ∀ ds text answer, Q true ds → Q true (ds ++ [.wrote text answer])
  closed : ∀ ds answer, Q true ds → Q false (ds ++ [.closed answer])

inductive Instance.Kept : Instance Plug → Instance Plug → Prop
  | same (i : Instance Plug) : Kept i i
  | port {t t' : Transport Plug} : t'.name = t.name → t'.config = t.config →
    (∀ k, t.port.number = some k → t'.port.number = some k) → Kept (.transport t) (.transport t')

structure Registered.Kept (e e' : Registered Plug) : Prop where
  id : e'.id = e.id
  name : e'.name = e.name
  unit : e.unit.Kept e'.unit

theorem Instance.Kept.trans {i i' i'' : Instance Plug} (h : i.Kept i') (h' : i'.Kept i'') :
    i.Kept i'' := by
  cases h' with
  | same _ => exact h
  | port hname' hconfig' hnumber' =>
    cases h with
    | same _ => exact .port hname' hconfig' hnumber'
    | port hname hconfig hnumber =>
      exact .port (hname'.trans hname) (hconfig'.trans hconfig) fun k hk => hnumber' k (hnumber k hk)

theorem Registered.Kept.refl (e : Registered Plug) : e.Kept e := ⟨rfl, rfl, .same _⟩

theorem Registered.Kept.trans {e e' e'' : Registered Plug} (h : e.Kept e') (h' : e'.Kept e'') :
    e.Kept e'' :=
  ⟨h'.id.trans h.id, h'.name.trans h.name, h.unit.trans h'.unit⟩

theorem Registered.Kept.numbered {e : Registered Plug} {t : Transport Plug} {k n : Nat}
    (ht : e.unit = .transport t) (hk : k = t.port.number.getD n) (isOpen : Bool) :
    e.Kept { e with unit := .transport { t with
      port := { t.port with number := some k }, isOpen := isOpen } } := by
  refine ⟨rfl, rfl, ?_⟩
  rw [ht]
  refine .port rfl rfl fun x hx => ?_
  rw [hx, Option.getD_some] at hk
  exact congrArg some hk

theorem Registered.Kept.exists_transport {e e' : Registered Plug} (h : e.Kept e') {t' : Transport Plug}
    (ht' : e'.unit = .transport t') : ∃ t, e.unit = .transport t ∧
      ∀ k, t.port.number = some k → t'.port.number = some k := by
  have hunit := h.unit
  rw [ht'] at hunit
  generalize e.unit = i at hunit ⊢
  cases hunit with
  | same _ => exact ⟨t', rfl, fun _ hk => hk⟩
  | port _ _ hnumber => exact ⟨_, rfl, hnumber⟩

namespace Registry

def numbers (es : List (Registered Plug)) : List Nat := es.filterMap (·.unit.number?)

/-- The books of a registry: each number belongs to one entry, every entry agrees with the journal, and
nothing else is in it. -/
structure Books (Q : Bool → List PortDeed → Prop) (es : List (Registered Plug)) (j : Journal) :
    Prop where
  distinct : (numbers es).Nodup
  early : ∀ k ∈ numbers es, k < j.length
  agrees : ∀ e ∈ es, e.unit.Agrees Q j
  known : ∀ k, k ∉ numbers es → j.deeds k = []
  numbered : ∀ d, Deed.port none d ∉ j

def Unused (e : Registered Plug) : Prop :=
  ∀ t, e.unit = .transport t → t.isOpen = false ∧ t.port.number = none

variable {Q : Bool → List PortDeed → Prop} {es es' before after : List (Registered Plug)}
  {e e' : Registered Plug} {j j' : Journal}

section Numbers

theorem mem_numbers_of {k : Nat} (he : e ∈ es) (hk : e.unit.number? = some k) : k ∈ numbers es :=
  List.mem_filterMap.2 ⟨e, he, hk⟩

theorem numbers_append (es es' : List (Registered Plug)) :
    numbers (es ++ es') = numbers es ++ numbers es' := List.filterMap_append

theorem numbers_cons_some {k : Nat} (h : e.unit.number? = some k) :
    numbers (e :: es) = k :: numbers es := List.filterMap_cons_some h

theorem numbers_cons_none (h : e.unit.number? = none) : numbers (e :: es) = numbers es :=
  List.filterMap_cons_none h

theorem Unused.number (h : Unused e) : e.unit.number? = none := by
  cases hunit : e.unit with
  | transport t => exact (h t hunit).2
  | _ => rfl

theorem map_id_of_kept (h : List.Forall₂ Registered.Kept es es') :
    es'.map (·.id) = es.map (·.id) := by
  induction h with
  | nil => rfl
  | cons hone _ ih => rw [List.map_cons, List.map_cons, hone.id, ih]

end Numbers

section Entries

theorem books_unused (hQ : Q false []) (hes : ∀ e ∈ es, Unused e) : Books Q es [] := by
  have hnumbers : numbers es = [] :=
    List.filterMap_eq_nil_iff.2 fun e he => (hes e he).number
  refine ⟨by simp [hnumbers], by simp [hnumbers], fun e he t ht => ?_, fun k _ => rfl, by simp⟩
  rw [(hes e he t ht).1, Instance.deeds_of_none (hes e he).number]
  exact hQ

theorem Books.perm (h : Books Q es j) (hperm : es.Perm es') : Books Q es' j := by
  have hnumbers : (numbers es).Perm (numbers es') := hperm.filterMap _
  exact ⟨hnumbers.nodup_iff.1 h.distinct, fun k hk => h.early k (hnumbers.mem_iff.2 hk),
    fun e he => h.agrees e (hperm.mem_iff.2 he), fun k hk => h.known k (mt hnumbers.mem_iff.1 hk),
    h.numbered⟩

theorem Books.place (h : Books Q es j) (hQ : Q false []) (he : Unused e) :
    Books Q (place e es) j := by
  refine Books.perm ?_ (place_perm e es).symm
  have hnumbers : numbers (e :: es) = numbers es := numbers_cons_none he.number
  refine ⟨hnumbers ▸ h.distinct, hnumbers ▸ h.early, List.forall_mem_cons.2 ⟨fun t ht => ?_, h.agrees⟩,
    hnumbers ▸ h.known, h.numbered⟩
  rw [(he t ht).1, Instance.deeds_of_none he.number]
  exact hQ

theorem Books.apart (h : Books Q es j) (hj : Journal.Adds Journal.Apart j j') : Books Q es j' := by
  have hdeeds := hj.deeds_eq
  obtain ⟨ds, rfl, hds⟩ := hj
  refine ⟨h.distinct, fun k hk => ?_, fun e he => ?_, fun k hk => ?_, fun d hd => ?_⟩
  · have hlt := h.early k hk
    rw [List.length_append]
    omega
  · exact (h.agrees e he).congr fun k _ => hdeeds k
  · rw [hdeeds]
    exact h.known k hk
  · rcases List.mem_append.1 hd with hd | hd
    · exact h.numbered d hd
    · exact hds _ hd none d rfl

structure Free (k : Nat) (ks : List Nat) (j : Journal) : Prop where
  fresh : k ∉ ks
  distinct : ks.Nodup
  early : ∀ x ∈ ks, x < j.length
  bound : k ≤ j.length
  known : ∀ x, x ≠ k → x ∉ ks → j.deeds x = []

theorem Books.free {k : Nat} (h : Books Q (before ++ e :: after) j)
    (hk : k = e.unit.number?.getD j.length) : Free k (numbers before ++ numbers after) j := by
  have hdistinct := h.distinct
  have hearly := h.early
  have hknown := h.known
  cases hnumber : e.unit.number? with
  | some x =>
    rw [hnumber, Option.getD_some] at hk
    rw [numbers_append, numbers_cons_some hnumber, ← hk] at hdistinct hearly hknown
    obtain ⟨hfresh, hrest⟩ := List.nodup_cons.1 (List.nodup_middle.1 hdistinct)
    have hperm : (numbers before ++ k :: numbers after).Perm
        (k :: (numbers before ++ numbers after)) := List.perm_middle
    refine ⟨hfresh, hrest, fun x hx => hearly x ?_, Nat.le_of_lt (hearly k ?_), fun x hx hxr =>
      hknown x ?_⟩
    · exact hperm.mem_iff.2 (List.mem_cons_of_mem k hx)
    · exact hperm.mem_iff.2 List.mem_cons_self
    · rw [hperm.mem_iff, List.mem_cons]
      exact not_or.2 ⟨hx, hxr⟩
  | none =>
    rw [hnumber, Option.getD_none] at hk
    rw [numbers_append, numbers_cons_none hnumber] at hdistinct hearly hknown
    subst hk
    exact ⟨fun hm => Nat.lt_irrefl _ (hearly _ hm), hdistinct, hearly, Nat.le_refl _,
      fun x _ hxr => hknown x hxr⟩

theorem Books.deeds_number {k : Nat} (h : Books Q (before ++ e :: after) j)
    (hk : k = e.unit.number?.getD j.length) : j.deeds k = e.unit.deeds j := by
  cases hnumber : e.unit.number? with
  | some x =>
    rw [hnumber, Option.getD_some] at hk
    rw [Instance.deeds_of_number hnumber, hk]
  | none =>
    rw [hnumber, Option.getD_none] at hk
    rw [Instance.deeds_of_none hnumber, hk]
    exact h.known _ fun hm => Nat.lt_irrefl _ (h.early _ hm)

/-- One call to the port of one entry, which has its number already or gets the next one. -/
theorem Books.call {k : Nat} {d : PortDeed} (h : Books Q (before ++ e :: after) j)
    (hk : k = e.unit.number?.getD j.length) (hk' : e'.unit.number? = some k)
    (hQ : ∀ t, e'.unit = .transport t → Q t.isOpen (e.unit.deeds j ++ [d])) :
    Books Q (before ++ e' :: after) (j ++ [.port (some k) d]) := by
  have hfree := h.free hk
  have hperm : (numbers (before ++ e' :: after)).Perm
      (k :: (numbers before ++ numbers after)) := by
    rw [numbers_append, numbers_cons_some hk']
    exact List.perm_middle
  refine ⟨hperm.nodup_iff.2 (List.nodup_cons.2 ⟨hfree.fresh, hfree.distinct⟩), fun x hx => ?_,
    fun f hmem => ?_, fun x hx => ?_, fun x hx => ?_⟩
  · rw [List.length_append, List.length_singleton]
    rcases List.mem_cons.1 (hperm.mem_iff.1 hx) with rfl | hx
    · exact Nat.lt_succ_of_le hfree.bound
    · exact Nat.lt_succ_of_lt (hfree.early x hx)
  · -- the others agree with the journal as before, since none of them has this number
    have hother : f ∈ before ∨ f ∈ after → f.unit.Agrees Q (j ++ [.port (some k) d]) := by
      intro hbeside
      have hold : f ∈ before ++ e :: after := by
        simp only [List.mem_append, List.mem_cons]
        tauto
      refine (h.agrees f hold).congr fun x hx => Journal.deeds_other j d ?_
      rintro rfl
      exact hfree.fresh (List.mem_append.2 (hbeside.imp (mem_numbers_of · hx) (mem_numbers_of · hx)))
    rcases List.mem_append.1 hmem with hb | hb
    · exact hother (.inl hb)
    · rcases List.mem_cons.1 hb with rfl | hb
      · intro t ht
        rw [Instance.deeds_of_number hk', Journal.deeds_port, h.deeds_number hk]
        exact hQ t ht
      · exact hother (.inr hb)
  · rw [hperm.mem_iff, List.mem_cons, not_or] at hx
    rw [Journal.deeds_other j d (Ne.symm hx.1)]
    exact hfree.known x hx.1 hx.2
  · rcases List.mem_append.1 hx with hx | hx
    · exact h.numbered x hx
    · simp at hx

theorem Books.exists_number (h : Books Q es j) (hQ : PortDeed.Lasting Q) (he : e ∈ es)
    {t : Transport Plug} (ht : e.unit = .transport t) (hopen : t.isOpen = true) :
    ∃ k, t.port.number = some k ∧ Q true (j.deeds k) := by
  have hagrees := h.agrees e he t ht
  rw [hopen] at hagrees
  have hnumber : e.unit.number? = t.port.number := by rw [ht]; rfl
  cases hk : t.port.number with
  | none =>
    rw [Instance.deeds_of_none (hnumber.trans hk)] at hagrees
    exact absurd hagrees hQ.called
  | some k =>
    rw [Instance.deeds_of_number (hnumber.trans hk)] at hagrees
    exact ⟨k, rfl, hagrees⟩

theorem Books.exists_deeds (h : Books Q es j) (hQ : Q false []) (k : Nat) :
    ∃ isOpen, Q isOpen (j.deeds k) ∧
      (isOpen = true → ∃ e ∈ es, ∃ t, e.unit = .transport t ∧ t.isOpen = true) := by
  by_cases hk : k ∈ numbers es
  · obtain ⟨e, he, hnumber⟩ := List.mem_filterMap.1 hk
    cases hunit : e.unit with
    | transport t =>
      have hagrees := h.agrees e he t hunit
      rw [Instance.deeds_of_number hnumber] at hagrees
      exact ⟨t.isOpen, hagrees, fun hopen => ⟨e, he, t, hunit, hopen⟩⟩
    | _ =>
      rw [hunit] at hnumber
      cases hnumber
  · refine ⟨false, ?_, fun hopen => by cases hopen⟩
    rw [h.known k hk]
    exact hQ

theorem Books.deeds_closed (h : Books Q es j) (hQ : Q false [])
    (hclosed : ∀ e ∈ es, ∀ t, e.unit = .transport t → t.isOpen = false) (k : Nat) :
    Q false (j.deeds k) := by
  obtain ⟨isOpen, hdeeds, hopen⟩ := h.exists_deeds hQ k
  cases isOpen with
  | false => exact hdeeds
  | true =>
    obtain ⟨e, he, t, ht, hopen⟩ := hopen rfl
    rw [hclosed e he t ht] at hopen
    cases hopen

end Entries

section Calls

variable (w : World)

abbrev Quiet (j j' : Journal) : Prop := Journal.Adds (fun d => d.isOutput = false) j j'

theorem Books.openPort (h : Books Q (before ++ e :: after) j) (hQ : e.unit.Opens Q) :
    let y := (e.unit.openPort w.rig).run j
    Books Q (before ++ { e with unit := y.1.2 } :: after) y.2 ∧ e.Kept { e with unit := y.1.2 } ∧
      Quiet j y.2 := by
  rcases Instance.openPort_cases w e.unit j with ⟨-, hrun⟩ | ⟨t, k, answer, ht, hclosed, hk, hrun⟩
  · rw [hrun]
    exact ⟨h, .refl e, .refl _ j⟩
  · rw [hrun]
    have hnumber : e.unit.number? = t.port.number := by rw [ht]; rfl
    have hagrees := h.agrees e (by simp) t ht
    rw [hclosed] at hagrees
    refine ⟨h.call (hnumber ▸ hk) rfl fun t' ht' => ?_, .numbered ht hk answer.toBool,
      Journal.adds_one rfl⟩
    cases ht'
    exact hQ t ht hclosed j answer hagrees

theorem Books.openEntries (h : Books Q (before ++ es) j) (hQ : ∀ e ∈ es, e.unit.Opens Q) :
    let y := (openEntries w.rig es).run j
    Books Q (before ++ y.1.2) y.2 ∧ List.Forall₂ Registered.Kept es y.1.2 ∧ Quiet j y.2 := by
  induction es generalizing before j with
  | nil => exact ⟨h, .nil, .refl _ j⟩
  | cons e es ih =>
    obtain ⟨he, hrest⟩ := List.forall_mem_cons.1 hQ
    obtain ⟨hone, hkept, hquiet⟩ := h.openPort w he
    rw [openEntries_cons]
    dsimp only
    cases ((e.unit.openPort w.rig).run j).1.1 with
    | error x => exact ⟨hone, .cons hkept (List.forall₂_same.2 fun f _ => .refl f), hquiet⟩
    | ok _ =>
      rw [List.append_cons] at hone
      obtain ⟨hall, hkepts, hquiet'⟩ := ih hone hrest
      rw [← List.append_cons] at hall
      exact ⟨hall, .cons hkept hkepts, hquiet.trans hquiet'⟩

theorem Books.closePort (h : Books Q (before ++ e :: after) j) (hQ : PortDeed.Lasting Q) :
    let y := (e.unit.closePort w.rig).run j
    Books Q (before ++ { e with unit := y.1.2 } :: after) y.2 ∧ e.Kept { e with unit := y.1.2 } ∧
      Quiet j y.2 ∧ ∀ t, y.1.2 = .transport t → t.isOpen = false := by
  rcases Instance.closePort_cases w e.unit j with ⟨hclosed, hrun⟩ | ⟨t, answer, ht, hopen, hrun⟩
  · rw [hrun]
    exact ⟨h, .refl e, .refl _ j, hclosed⟩
  · have hmem : e ∈ before ++ e :: after := by simp
    obtain ⟨k, hk, hdeeds⟩ := h.exists_number hQ hmem ht hopen
    have hnumber : e.unit.number? = some k := by rw [ht, ← hk]; rfl
    rw [hrun, hk]
    refine ⟨h.call (by rw [hnumber]; rfl) hk fun t' ht' => ?_, ⟨rfl, rfl, ?_⟩,
      Journal.adds_one rfl, fun t' ht' => ?_⟩
    · cases ht'
      rw [Instance.deeds_of_number hnumber]
      exact hQ.closed _ answer hdeeds
    · rw [ht]
      exact .port rfl rfl fun _ hx => hx
    · cases ht'
      rfl

theorem Books.closeEntries (h : Books Q (before ++ es) j) (hQ : PortDeed.Lasting Q) :
    let y := (closeEntries w.rig es).run j
    Books Q (before ++ y.1.2) y.2 ∧ List.Forall₂ Registered.Kept es y.1.2 ∧ Quiet j y.2 ∧
      ∀ e ∈ y.1.2, ∀ t, e.unit = .transport t → t.isOpen = false := by
  induction es generalizing before j with
  | nil => exact ⟨h, .nil, .refl _ j, fun e he => absurd he List.not_mem_nil⟩
  | cons e es ih =>
    obtain ⟨hone, hkept, hquiet, hclosed⟩ := h.closePort w hQ
    rw [closeEntries_cons]
    rw [List.append_cons] at hone
    obtain ⟨hall, hkepts, hquiet', hclosed'⟩ := ih hone
    rw [← List.append_cons] at hall
    exact ⟨hall, .cons hkept hkepts, hquiet.trans hquiet', List.forall_mem_cons.2 ⟨hclosed, hclosed'⟩⟩

variable {r : Registry Plug} {id : DeviceId}

theorem update_self (hdistinct : (r.entries.map (·.id)).Nodup) (he : r.entry? id = some e) :
    r.update id e.unit = r := by
  have hid : e.id = id := by simpa using List.find?_some he
  have hmem : e ∈ r.entries := List.mem_of_find?_eq_some he
  have hsame : ∀ x ∈ r.entries, (if x.id = id then { x with unit := e.unit } else x) = x := by
    intro x hx
    by_cases hxid : x.id = id
    · obtain rfl : x = e := List.inj_on_of_nodup_map hdistinct hx hmem (hxid.trans hid.symm)
      rw [if_pos hxid]
    · rw [if_neg hxid]
  rw [update, List.map_congr_left hsame, List.map_id']

theorem Books.execute (h : Books Q r.entries j) (hQ : PortDeed.Lasting Q)
    (hdistinct : (r.entries.map (·.id)).Nodup) (id : DeviceId) (args : List Value) :
    let y := (r.execute w.rig id args).run j
    y.1.2 = r ∧ Books Q r.entries y.2 := by
  cases he : r.entry? id with
  | none =>
    simp only [Registry.execute, he]
    exact ⟨rfl, h⟩
  | some e =>
    rw [execute_run he]
    obtain ⟨hunit, hdeed⟩ := Instance.execute_journal w e.name args e.unit j
    refine ⟨by dsimp only; rw [hunit, update_self hdistinct he], ?_⟩
    rcases hdeed with hapart | ⟨t, text, answer, ht, hopen, hj⟩
    · exact h.apart hapart
    · have hmem : e ∈ r.entries := List.mem_of_find?_eq_some he
      obtain ⟨k, hk, hdeeds⟩ := h.exists_number hQ hmem ht hopen
      have hnumber : e.unit.number? = some k := by rw [ht, ← hk]; rfl
      obtain ⟨before, after, hsplit⟩ := List.append_of_mem hmem
      rw [hsplit] at h ⊢
      dsimp only
      rw [hj, hk]
      refine h.call (by rw [hnumber]; rfl) hnumber fun t' ht' => ?_
      obtain rfl : t = t' := by
        rw [ht] at ht'
        cases ht'
        rfl
      rw [hopen, Instance.deeds_of_number hnumber]
      exact hQ.wrote _ text answer hdeeds

theorem unused_of_fresh {w : World} (hr : r.Fresh w.rig.port) : ∀ e ∈ r.entries, Unused e := by
  intro e he t ht
  obtain ⟨hclosed, hport⟩ := hr.untouched e he t ht
  exact ⟨hclosed, by rw [hport]; rfl⟩

end Calls

end Registry

end CueSheet
