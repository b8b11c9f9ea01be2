import CueSheet.Proofs.Device.Books

/-!
What the ports of a registry are asked for, in whatever order devices are resolved, tested, commanded,
opened and closed, and whatever the ports answer. A port is opened when it is not open, and written to
or closed when it is; a close counts, also when it is refused.
-/

namespace CueSheet

namespace PortDeed

def IsOpen (ds : List PortDeed) : Prop :=
  ∃ before since, ds = before ++ .opened (.ok ()) :: since ∧ ∀ answer, .closed answer ∉ since

def Allowed (before : List PortDeed) : PortDeed → Prop
  | .opened _ => ¬ IsOpen before
  | .wrote _ _ => IsOpen before
  | .closed _ => IsOpen before

def Orderly (ds : List PortDeed) : Prop :=
  ∀ before d after, ds = before ++ d :: after → Allowed before d

structure Disciplined (isOpen : Bool) (ds : List PortDeed) : Prop where
  orderly : Orderly ds
  isOpen_iff : isOpen = true ↔ IsOpen ds

variable {ds : List PortDeed} {d : PortDeed}

theorem not_isOpen_nil : ¬ IsOpen [] := by
  rintro ⟨before, since, h, -⟩
  cases before <;> cases h

theorem isOpen_snoc : IsOpen (ds ++ [d]) ↔
    d = .opened (.ok ()) ∨ IsOpen ds ∧ ∀ answer, d ≠ .closed answer := by
  constructor
  · rintro ⟨before, since, h, hopen⟩
    rcases List.eq_nil_or_concat since with rfl | ⟨since, x, rfl⟩
    · obtain ⟨-, hd⟩ := List.append_inj' h rfl
      exact .inl (List.cons.inj hd).1
    · rw [List.concat_eq_append, ← List.cons_append, ← List.append_assoc] at h
      obtain ⟨rfl, hd⟩ := List.append_inj' h rfl
      obtain rfl : d = x := (List.cons.inj hd).1
      simp only [List.concat_eq_append, List.mem_append, List.mem_singleton, not_or] at hopen
      exact .inr ⟨⟨before, since, rfl, fun answer => (hopen answer).1⟩,
        fun answer hd => (hopen answer).2 hd.symm⟩
  · rintro (rfl | ⟨⟨before, since, rfl, hopen⟩, hd⟩)
    · exact ⟨ds, [], rfl, by simp⟩
    · refine ⟨before, since ++ [d], by simp, fun answer hmem => ?_⟩
      rcases List.mem_append.1 hmem with hmem | hmem
      · exact hopen answer hmem
      · exact hd answer (List.mem_singleton.1 hmem).symm

theorem orderly_nil : Orderly [] := by
  rintro before d after h
  cases before <;> cases h

theorem Orderly.snoc (h : Orderly ds) (hd : Allowed ds d) : Orderly (ds ++ [d]) := by
  intro before x after hsplit
  rcases List.eq_nil_or_concat after with rfl | ⟨after, y, rfl⟩
  · obtain ⟨rfl, hx⟩ := List.append_inj' hsplit rfl
    obtain rfl : d = x := (List.cons.inj hx).1
    exact hd
  · rw [List.concat_eq_append, ← List.cons_append, ← List.append_assoc] at hsplit
    obtain ⟨rfl, -⟩ := List.append_inj' hsplit rfl
    exact h before x after rfl

theorem disciplined_nil : Disciplined false [] :=
  ⟨orderly_nil, by simpa using not_isOpen_nil⟩

theorem Disciplined.not_isOpen (h : Disciplined false ds) : ¬ IsOpen ds :=
  fun hopen => by cases h.isOpen_iff.2 hopen

theorem Disciplined.opened (h : Disciplined false ds) (answer : IoResult) :
    Disciplined answer.toBool (ds ++ [.opened answer]) := by
  refine ⟨h.orderly.snoc h.not_isOpen, ?_⟩
  rw [isOpen_snoc]
  cases answer with
  | ok _ => simp [Except.toBool]
  | error e => simpa [Except.toBool] using h.not_isOpen

theorem lasting_disciplined : Lasting Disciplined where
  called h := not_isOpen_nil (h.isOpen_iff.1 rfl)
  wrote ds text answer h := by
    have hopen := h.isOpen_iff.1 rfl
    exact ⟨h.orderly.snoc hopen, by simp [isOpen_snoc, hopen]⟩
  closed ds answer h := by
    have hopen := h.isOpen_iff.1 rfl
    exact ⟨h.orderly.snoc hopen, by simp [isOpen_snoc]⟩

end PortDeed

def DeviceId.Precedes (a b : DeviceId) : Prop := a.file < b.file ∨ a.file = b.file ∧ a.index < b.index

theorem DeviceId.compare_isLT_iff (a b : DeviceId) : (compare a b).isLT = true ↔ a.Precedes b := by
  obtain ⟨fa, ia⟩ := a
  obtain ⟨fb, ib⟩ := b
  change ((compare fa fb).then ((compare ia ib).then .eq)).isLT = true ↔ fa < fb ∨ fa = fb ∧ ia < ib
  rw [Ordering.isLT_iff_eq_lt, Ordering.then_eq, Ordering.then_eq_lt, Nat.compare_eq_lt, Nat.compare_eq_eq,
    Nat.compare_eq_lt]

def Instance.isShut {τ : Type} : Instance τ → Bool
  | .transport t => !t.isOpen
  | _ => false

namespace Registry

inductive Operation
  | resolve (p : Program) (c : Chain) (id : DeviceId)
  | test (id : DeviceId) (args : List Value)
  | execute (id : DeviceId) (args : List Value)
  | openAll
  | closeAll

section Operations

variable (w : World) (format : String)

/-- A device that cannot be resolved leaves nothing behind, nor does a test. -/
def Operation.apply (x : Registry Plug × Journal) : Operation → Registry Plug × Journal
  | .resolve p c id =>
    match x.1.resolve { port := w.rig.port, timestampFormat := format } p c id with
    | .ok y => (y.2, x.2)
    | .error _ => x
  | .test _ _ => x
  | .execute id args =>
    let y := (x.1.execute w.rig id args).run x.2
    (y.1.2, y.2)
  | .openAll =>
    let y := (x.1.openAll w.rig).run x.2
    (y.1.2, y.2)
  | .closeAll =>
    let y := (x.1.closeAll w.rig).run x.2
    (y.1.2, y.2)

def after (ops : List Operation) : Registry Plug × Journal :=
  ops.foldl (Operation.apply w format) ({}, [])

end Operations

def openings (es es' : List (Registered Plug)) : Journal :=
  (es.zip es').filterMap fun x =>
    if x.1.unit.isShut then some (.port x.2.unit.number? (.opened (.ok ()))) else none

/-- How it can end when ports are opened one after another. -/
inductive Opening (es : List (Registered Plug)) (j : Journal) :
    Except DeviceError Unit → List (Registered Plug) → Journal → Prop
  | all {es' : List (Registered Plug)} : List.Forall₂ Registered.Kept es es' →
    (∀ e ∈ es', e.unit.isShut = false) → Opening es j (.ok ()) es' (j ++ openings es es')
  | refused {before before' after : List (Registered Plug)} {e e' : Registered Plug}
    {t t' : Transport Plug} {x : IoError} : es = before ++ e :: after →
    List.Forall₂ Registered.Kept before before' → (∀ b ∈ before', b.unit.isShut = false) →
    e.Kept e' → e.unit = .transport t → t.isOpen = false → e'.unit = .transport t' → t'.isOpen = false →
    Opening es j (.error (.io t.name x)) (before' ++ e' :: after)
      (j ++ openings before before' ++ [.port t'.port.number (.opened (.error x))])

structure Managed (x : Registry Plug × Journal) : Prop where
  books : Books PortDeed.Disciplined x.1.entries x.2
  sorted : x.1.entries.Pairwise fun e e' => e.id.Precedes e'.id

variable {w : World} {es es' : List (Registered Plug)} {e : Registered Plug} {j : Journal}

section Sorted

theorem pairwise_place (h : es.Pairwise fun e e' => e.id.Precedes e'.id)
    (hnew : ∀ f ∈ es, f.id ≠ e.id) : (place e es).Pairwise fun e e' => e.id.Precedes e'.id := by
  induction es with
  | nil => simp [place]
  | cons f r ih =>
    obtain ⟨hf, hr⟩ := List.pairwise_cons.1 h
    rw [place]
    split
    · next hlt =>
      have hef := (DeviceId.compare_isLT_iff _ _).1 hlt
      refine List.pairwise_cons.2 ⟨List.forall_mem_cons.2 ⟨hef, fun g hg => ?_⟩, h⟩
      have hfg := hf g hg
      simp only [DeviceId.Precedes] at hef hfg ⊢
      omega
    · next hle =>
      obtain ⟨hfe, hrest⟩ := List.forall_mem_cons.1 hnew
      refine List.pairwise_cons.2 ⟨fun g hg => ?_, ih hr hrest⟩
      rcases List.mem_cons.1 ((place_perm e r).mem_iff.1 hg) with rfl | hg
      · have hnot : ¬ g.id.Precedes f.id := fun hlt => hle ((DeviceId.compare_isLT_iff _ _).2 hlt)
        have hne : ¬ (f.id.file = g.id.file ∧ f.id.index = g.id.index) := fun hsame =>
          hfe (by rw [DeviceId.mk.injEq]; exact hsame)
        simp only [DeviceId.Precedes] at hnot ⊢
        omega
      · exact hf g hg

theorem pairwise_of_kept (hkept : List.Forall₂ Registered.Kept es es')
    (h : es.Pairwise fun e e' => e.id.Precedes e'.id) :
    es'.Pairwise fun e e' => e.id.Precedes e'.id := by
  have hids := List.pairwise_map.2 h
  rw [← map_id_of_kept hkept] at hids
  exact List.pairwise_map.1 hids

theorem exists_kept (h : List.Forall₂ Registered.Kept es es') (he : e ∈ es) :
    ∃ e' ∈ es', e.Kept e' :=
  Result.exists_of_mem_right (List.Forall₂.flip (R := flip Registered.Kept) h) he

theorem Managed.distinct {x : Registry Plug × Journal} (h : Managed x) :
    (x.1.entries.map (·.id)).Nodup := by
  refine List.pairwise_map.2 (h.sorted.imp fun {e e'} hlt he => ?_)
  rw [DeviceId.Precedes, he] at hlt
  omega

end Sorted

section Opening

variable {e' : Registered Plug} {result : Except DeviceError Unit} {j' : Journal}

theorem openings_idle (h : e.unit.isShut = false) (e' : Registered Plug) :
    openings (e :: es) (e' :: es') = openings es es' := by
  simp [openings, h]

theorem openings_shut (h : e.unit.isShut = true) :
    openings (e :: es) (e' :: es') =
      .port e'.unit.number? (.opened (.ok ())) :: openings es es' := by
  simp [openings, h]

theorem Opening.idle (h : Opening es j result es' j') (hidle : e.unit.isShut = false) :
    Opening (e :: es) j result (e :: es') j' := by
  cases h with
  | all hkept hopen =>
    rw [← openings_idle hidle e]
    exact .all (.cons (.refl e) hkept) (List.forall_mem_cons.2 ⟨hidle, hopen⟩)
  | refused hes hkept hopen hsame ht hshut ht' hshut' =>
    rw [← openings_idle hidle e]
    exact .refused (by rw [hes, List.cons_append]) (.cons (.refl e) hkept)
      (List.forall_mem_cons.2 ⟨hidle, hopen⟩) hsame ht hshut ht' hshut'

theorem Opening.opened
    (h : Opening es (j ++ [.port e'.unit.number? (.opened (.ok ()))]) result es' j')
    (hkept : e.Kept e') (hshut : e.unit.isShut = true) (hopened : e'.unit.isShut = false) :
    Opening (e :: es) j result (e' :: es') j' := by
  cases h with
  | all hkepts hopen =>
    rw [List.append_assoc, List.singleton_append, ← openings_shut hshut]
    exact .all (.cons hkept hkepts) (List.forall_mem_cons.2 ⟨hopened, hopen⟩)
  | refused hes hkepts hopen hsame ht hshut' ht' hshut'' =>
    rw [List.append_assoc j, List.singleton_append, ← openings_shut hshut]
    exact .refused (by rw [hes, List.cons_append]) (.cons hkept hkepts)
      (List.forall_mem_cons.2 ⟨hopened, hopen⟩) hsame ht hshut' ht' hshut''

theorem Opening.first_refused {t t' : Transport Plug} {x : IoError} (hkept : e.Kept e')
    (ht : e.unit = .transport t) (hshut : t.isOpen = false) (ht' : e'.unit = .transport t')
    (hshut' : t'.isOpen = false) :
    Opening (e :: es) j (.error (.io t.name x)) (e' :: es)
      (j ++ [.port t'.port.number (.opened (.error x))]) := by
  have hnone : j ++ openings [] [] = j := List.append_nil j
  have hfirst : e :: es = [] ++ e :: es := rfl
  have hrefused : Opening (e :: es) j (.error (.io t.name x)) ([] ++ e' :: es)
      (j ++ openings [] [] ++ [.port t'.port.number (.opened (.error x))]) :=
    .refused hfirst .nil (by simp) hkept ht hshut ht' hshut'
  rwa [hnone] at hrefused

/-- The entries are visited in order, up to the first port that is refused. -/
theorem opening_openEntries (w : World) (es : List (Registered Plug)) (j : Journal) :
    let y := (openEntries w.rig es).run j
    Opening es j y.1.1 y.1.2 y.2 := by
  induction es generalizing j with
  | nil =>
    have hnone : j ++ openings [] [] = j := List.append_nil j
    have hall : Opening [] j (.ok ()) [] (j ++ openings [] []) := .all .nil (by simp)
    rwa [hnone] at hall
  | cons e es ih =>
    rw [openEntries_cons]
    rcases Instance.openPort_cases w e.unit j with ⟨hopen, hrun⟩ | ⟨t, k, answer, ht, hclosed, hk, hrun⟩
    · have hidle : e.unit.isShut = false := by
        cases hunit : e.unit with
        | transport t => simp [Instance.isShut, hopen t hunit]
        | _ => rfl
      rw [hrun]
      exact (ih j).idle hidle
    · rw [hrun]
      cases answer with
      | error x => exact .first_refused (.numbered ht hk false) ht hclosed rfl rfl
      | ok _ =>
        have hshut : e.unit.isShut = true := by simp [ht, Instance.isShut, hclosed]
        exact .opened (ih _) (.numbered ht hk true) hshut rfl

end Opening

section Operations

variable {format : String} {x : Registry Plug × Journal}

theorem managed_apply (w : World) (format : String) (h : Managed x) (op : Operation) :
    Managed (op.apply w format x) ∧
      ∀ e ∈ x.1.entries, ∃ e' ∈ (op.apply w format x).1.entries, e.Kept e' := by
  have hself : ∀ e ∈ x.1.entries, ∃ e' ∈ x.1.entries, e.Kept e' := fun e he => ⟨e, he, .refl e⟩
  have hbooks : Books PortDeed.Disciplined ([] ++ x.1.entries) x.2 := h.books
  cases op with
  | resolve p c id =>
    simp only [Operation.apply]
    split
    · next y hres =>
      rcases resolve_cases hres with ⟨-, rfl⟩ | ⟨d, i, hnone, -, hi, rfl⟩
      · exact ⟨h, hself⟩
      · have hunused : Unused ⟨c.resolve id, d.name, i⟩ := fun t ht => by
          obtain ⟨hclosed, hport⟩ := untouched_create hi ht
          exact ⟨hclosed, by rw [hport]; rfl⟩
        refine ⟨⟨h.books.place PortDeed.disciplined_nil hunused, pairwise_place h.sorted fun f hf => ?_⟩,
          fun e he => ⟨e, ?_, .refl e⟩⟩
        · simpa using List.find?_eq_none.1 hnone f hf
        · exact (place_perm _ _).mem_iff.2 (List.mem_cons_of_mem _ he)
    · exact ⟨h, hself⟩
  | test id args => exact ⟨h, hself⟩
  | execute id args =>
    obtain ⟨hsame, hran⟩ := h.books.execute w PortDeed.lasting_disciplined h.distinct id args
    simp only [Operation.apply, hsame]
    exact ⟨⟨hran, h.sorted⟩, hself⟩
  | openAll =>
    obtain ⟨hall, hkept, -⟩ := hbooks.openEntries w fun e _ t _ _ _ answer hdeeds => hdeeds.opened answer
    exact ⟨⟨hall, pairwise_of_kept hkept h.sorted⟩, fun e he => exists_kept hkept he⟩
  | closeAll =>
    obtain ⟨hall, hkept, -⟩ := hbooks.closeEntries w PortDeed.lasting_disciplined
    exact ⟨⟨hall, pairwise_of_kept hkept h.sorted⟩, fun e he => exists_kept hkept he⟩

theorem managed_foldl (h : Managed x) (ops : List Operation) :
    Managed (ops.foldl (Operation.apply w format) x) ∧
      ∀ e ∈ x.1.entries, ∃ e' ∈ (ops.foldl (Operation.apply w format) x).1.entries, e.Kept e' := by
  induction ops generalizing x with
  | nil => exact ⟨h, fun e he => ⟨e, he, .refl e⟩⟩
  | cons op ops ih =>
    obtain ⟨hone, hkept⟩ := managed_apply w format h op
    obtain ⟨hall, hkepts⟩ := ih hone
    refine ⟨hall, fun e he => ?_⟩
    obtain ⟨e', he', hsame⟩ := hkept e he
    obtain ⟨e'', he'', hsame'⟩ := hkepts e' he'
    exact ⟨e'', he'', hsame.trans hsame'⟩

theorem managed_after (w : World) (format : String) (ops : List Operation) :
    Managed (after w format ops) := by
  have hempty : Managed ({}, []) :=
    ⟨books_unused PortDeed.disciplined_nil (by simp), .nil⟩
  exact (managed_foldl hempty ops).1

theorem Managed.closeAll (h : Managed x) :
    let c := (x.1.closeAll w.rig).run x.2
    (∀ k, ¬ PortDeed.IsOpen (c.2.deeds k)) ∧
      ∀ e ∈ c.1.2.entries, ∀ t, e.unit = .transport t → t.isOpen = false := by
  have hbooks : Books PortDeed.Disciplined ([] ++ x.1.entries) x.2 := h.books
  obtain ⟨hall, -, -, hclosed⟩ := hbooks.closeEntries w PortDeed.lasting_disciplined
  rw [List.nil_append] at hall
  exact ⟨fun k => (hall.deeds_closed PortDeed.disciplined_nil hclosed k).not_isOpen, hclosed⟩

/-- After any operations on a new registry, whatever was answered: every call of a port was in order, each
port has a number of its own and keeps it, and it counts as open if and only if it is. To open all is
to visit the devices in their order up to the first refusal; to close all leaves no port open. -/
theorem disciplined (w : World) (format : String) (ops ops' : List Operation) :
    let x := after w format ops
    let o := (x.1.openAll w.rig).run x.2
    let c := (x.1.closeAll w.rig).run x.2
    ((∀ k, PortDeed.Orderly (x.2.deeds k)) ∧ ∀ d, Deed.port none d ∉ x.2) ∧
      ((numbers x.1.entries).Nodup ∧ (∀ k, k ∉ numbers x.1.entries → x.2.deeds k = []) ∧
        ∀ e ∈ x.1.entries, ∃ e' ∈ (after w format (ops ++ ops')).1.entries, e.Kept e') ∧
      (∀ e ∈ x.1.entries, ∀ t, e.unit = .transport t →
        (t.isOpen = true ↔ PortDeed.IsOpen (e.unit.deeds x.2))) ∧
      (x.1.entries.Pairwise (fun e e' => e.id.Precedes e'.id) ∧
        Opening x.1.entries x.2 o.1.1 o.1.2.entries o.2) ∧
      (∀ k, ¬ PortDeed.IsOpen (c.2.deeds k)) ∧
        ∀ e ∈ c.1.2.entries, ∀ t, e.unit = .transport t → t.isOpen = false := by
  intro x o c
  have hx : Managed x := managed_after w format ops
  have hlater : after w format (ops ++ ops') = ops'.foldl (Operation.apply w format) x :=
    List.foldl_append
  refine ⟨⟨fun k => ?_, hx.books.numbered⟩, ⟨hx.books.distinct, hx.books.known, ?_⟩,
    fun e he t ht => (hx.books.agrees e he t ht).isOpen_iff,
    ⟨hx.sorted, opening_openEntries w x.1.entries x.2⟩, hx.closeAll⟩
  · obtain ⟨_, hdeeds, -⟩ := hx.books.exists_deeds PortDeed.disciplined_nil k
    exact hdeeds.orderly
  · rw [hlater]
    exact (managed_foldl hx ops').2

def refusing : World where
  opens j _ := if j.isEmpty then .error (.other "busy") else .ok ()
  takes _ _ _ := .ok ()
  closes _ _ := .error (.other "stuck")
  prints _ _ := .ok ()
  flushes _ := .ok ()
  stamp _ _ := some ""
  clock _ := 0

/-- A text before the port is open, then the port opened once more than needed, written to and closed
twice, then another text. -/
def overuse : List Operation :=
  let lamp : Device := ⟨⟨0, 0⟩, "Lamp", .serial, [], some ⟨"tty", 9600, none, none, none⟩⟩
  let p : Program := { sheets := [{ file := 0, path := "/a", devices := [lamp] }] }
  [.resolve p {} lamp.id, .openAll, .execute lamp.id [.text "early"], .openAll, .openAll,
    .execute lamp.id [.text "on"], .closeAll, .closeAll, .execute lamp.id [.text "late"]]

/-- What is out of order, like a text to a closed port, never gets to it. -/
theorem disciplined_overuse :
    let j := (after refusing "" overuse).2
    j = [.port (some 0) (.opened (.error (.other "busy"))), .port (some 0) (.opened (.ok ())),
      .port (some 0) (.wrote "on" (.ok ())), .port (some 0) (.closed (.error (.other "stuck")))] ∧
      (∀ k, PortDeed.Orderly (j.deeds k)) ∧
      PortDeed.IsOpen (Journal.deeds (j.take 3) 0) ∧ ¬ PortDeed.IsOpen (j.deeds 0) := by
  intro j
  have hrun : j = [.port (some 0) (.opened (.error (.other "busy"))),
      .port (some 0) (.opened (.ok ())), .port (some 0) (.wrote "on" (.ok ())),
      .port (some 0) (.closed (.error (.other "stuck")))] := by
    cbv
  obtain ⟨⟨horderly, -⟩, -⟩ := disciplined refusing "" overuse []
  refine ⟨hrun, horderly, ?_, ?_⟩
  · rw [hrun]
    exact ⟨[.opened (.error (.other "busy"))], [.wrote "on" (.ok ())], rfl, by simp⟩
  · have hdeeds : j.deeds 0 = [.opened (.error (.other "busy")), .opened (.ok ()),
        .wrote "on" (.ok ())] ++ [.closed (.error (.other "stuck"))] := by
      rw [hrun]
      rfl
    rw [hdeeds, PortDeed.isOpen_snoc]
    simp

end Operations

end Registry

end CueSheet
