import CueSheet.Proofs.Load.Frozen
import Mathlib

/-!
What a file gets from a file that it loads: a name of its own for every procedure with a body there,
and nothing else. One list of renames serves for the devices and for the procedures; a rename that
names neither is passed over. The load is refused where two names would be one.
-/

namespace CueSheet

def Procedure.hasBody (p : Procedure) : Bool :=
  match p.definition with
  | .body _ => true
  | _ => false

namespace Sheet

def bodies (s : Sheet) : List Procedure := s.procedures.filter (·.hasBody)

structure Adds (s : Sheet) (ps : List Procedure) (s' : Sheet) : Prop where
  rest : s' = { s with procedures := s'.procedures }
  table : s'.procedures.Perm (s.procedures ++ ps)
  kept : ∀ name q, s.procedure? name = some q → s'.procedure? name = some q
  added : ∀ p ∈ ps, s'.procedure? p.name = some p

theorem place_perm {p : Procedure} {ps : List Procedure} (h : ∀ q ∈ ps, q.name ≠ p.name) :
    (place p ps).Perm (p :: ps) := by
  induction ps with
  | nil => exact .refl _
  | cons q r ih =>
    obtain ⟨hq, hr⟩ := List.forall_mem_cons.1 h
    rw [place]
    split_ifs with hlt he
    · exact .refl _
    · exact absurd he.symm hq
    · exact ((ih hr).cons q).trans (.swap p q r)

variable {s s' : Sheet} {p : Procedure} {ps : List Procedure}

theorem procedure?_eq_none_iff {name : String} :
    s.procedure? name = none ↔ ∀ q ∈ s.procedures, q.name ≠ name := by
  simp [procedure?]

theorem procedure?_put_eq_none_iff : (∀ q ∈ ps, (s.put p).procedure? q.name = none) ↔
    p.name ∉ ps.map (·.name) ∧ ∀ q ∈ ps, s.procedure? q.name = none := by
  simp only [procedure?_put, List.mem_map, not_exists, not_and]
  rw [← forall₂_and]
  refine forall₂_congr fun q _ => ?_
  by_cases h : p.name = q.name <;> simp [h, eq_comm]

theorem Adds.put (hnew : s.procedure? p.name = none) (h : (s.put p).Adds ps s') :
    s.Adds (p :: ps) s' := by
  have hkept : ∀ name q, s.procedure? name = some q → (s.put p).procedure? name = some q := by
    intro name q hq
    have hne : p.name ≠ name := by
      rintro rfl
      cases hnew.symm.trans hq
    rw [procedure?_put, if_neg hne, hq]
  have hown : (s.put p).procedure? p.name = some p := by rw [procedure?_put, if_pos rfl]
  have hplace := (place_perm (procedure?_eq_none_iff.1 hnew)).append_right ps
  exact ⟨h.rest, (h.table.trans hplace).trans List.perm_middle.symm,
    fun name q hq => h.kept name q (hkept name q hq),
    List.forall_mem_cons.2 ⟨h.kept p.name p hown, h.added⟩⟩

theorem adds_foldl (hdistinct : (ps.map (·.name)).Nodup)
    (hnew : ∀ p ∈ ps, s.procedure? p.name = none) : s.Adds ps (ps.foldl put s) := by
  induction ps generalizing s with
  | nil => exact ⟨rfl, by simp, fun _ _ hq => hq, List.forall_mem_nil _⟩
  | cons p ps ih =>
    obtain ⟨hp, hdistinct⟩ := List.nodup_cons.1 hdistinct
    obtain ⟨hnew, hps⟩ := List.forall_mem_cons.1 hnew
    exact .put hnew (ih hdistinct (procedure?_put_eq_none_iff.2 ⟨hp, hps⟩))

end Sheet

namespace Linker

/-- The name that a load makes of `name`: that of the first rename of it, or else `name` itself. -/
inductive Becomes (renames : List (String × String)) (name : String) : String → Prop
  | renamed {before after : List (String × String)} {new : String} :
    renames = before ++ (name, new) :: after → (∀ x ∈ before, x.1 ≠ name) → Becomes renames name new
  | kept : (∀ x ∈ renames, x.1 ≠ name) → Becomes renames name name

def deviceRenames (target : Sheet) (renames : List (String × String)) : List (String × String) :=
  renames.filter fun x => (target.device? x.1).isSome

def Pairs (target own : Sheet) (rename : String × String) (pair : DeviceId × DeviceId) : Prop :=
  ∃ old new, target.device? rename.1 = some old ∧ own.device? rename.2 = some new ∧
    pair = (old.id, new.id)

/-- No rename is doubled, what comes in for a device is a device, and every name is a new one. -/
structure Linkable (target own : Sheet) (renames : List (String × String)) : Prop where
  once : (renames.map Prod.fst).Nodup
  devices : ∀ x ∈ renames, (target.device? x.1).isSome → (own.device? x.2).isSome
  apart : target.bodies.Pairwise fun q q' => ∀ name, Becomes renames q.name name →
    ¬ Becomes renames q'.name name
  fresh : ∀ q ∈ target.bodies, ∀ name, Becomes renames q.name name → own.procedure? name = none

/-- What has come of `own` when `aliases` were added, each with the devices of `pairs`. -/
structure Linked (target own : Sheet) (renames : List (String × String)) (pairs : Bind)
    (aliases : List Procedure) (own' : Sheet) : Prop where
  adds : own.Adds aliases own'
  ordered : own.Ordered → own'.Ordered
  devices : List.Forall₂ (Pairs target own) (deviceRenames target renames) pairs
  aliases : List.Forall₂ (fun q a => Becomes renames q.name a.name ∧
    a.definition = .alias ⟨target.file, q.name⟩ pairs) target.bodies aliases
  injective : ∀ q ∈ target.bodies, ∀ q' ∈ target.bodies, ∀ name, Becomes renames q.name name →
    Becomes renames q'.name name → q = q'
  fresh : ∀ q ∈ target.bodies, ∀ name, Becomes renames q.name name → own.procedure? name = none

section Names

variable {renames : List (String × String)} {name new : String}

theorem Becomes.newName_eq (h : Becomes renames name new) : newName renames name = new := by
  cases h with
  | @renamed before after _ hrenames hbefore =>
    have hnone : before.find? (·.1 = name) = none := List.find?_eq_none.2 (by simpa using hbefore)
    simp [newName, hrenames, List.find?_append, hnone]
  | kept hkept =>
    have hnone : renames.find? (·.1 = name) = none := List.find?_eq_none.2 (by simpa using hkept)
    simp [newName, hnone]

theorem becomes_newName (renames : List (String × String)) (name : String) :
    Becomes renames name (newName renames name) := by
  simp only [newName]
  cases hfind : renames.find? (·.1 = name) with
  | none => exact .kept (by simpa using hfind)
  | some x =>
    obtain ⟨hx, before, after, hrenames, hbefore⟩ := List.find?_eq_some_iff_append.1 hfind
    obtain ⟨old, new⟩ := x
    obtain rfl := of_decide_eq_true hx
    exact .renamed hrenames (by simpa using hbefore)

theorem becomes_iff : Becomes renames name new ↔ newName renames name = new :=
  ⟨Becomes.newName_eq, fun h => h ▸ becomes_newName renames name⟩

end Names

section Devices

variable {path : String} {line : Nat} {target own : Sheet} {renames : List (String × String)}

theorem bind_eq_ok_iff {seen : List String} {pairs : Bind} :
    bind path line target own seen renames = .ok pairs ↔
      (renames.map Prod.fst).Nodup ∧ (∀ x ∈ renames, x.1 ∉ seen) ∧
        List.Forall₂ (Pairs target own) (deviceRenames target renames) pairs := by
  induction renames generalizing seen pairs with
  | nil => cases pairs <;> simp [bind, deviceRenames]
  | cons rename rest ih =>
    obtain ⟨old, new⟩ := rename
    have hseen : (∀ x ∈ rest, x.1 ∉ old :: seen) ↔
        old ∉ rest.map Prod.fst ∧ ∀ x ∈ rest, x.1 ∉ seen := by
      simp only [List.mem_cons, not_or, List.mem_map, not_exists, not_and]
      grind
    simp only [bind, List.map_cons, List.nodup_cons, List.forall_mem_cons]
    split_ifs with hold
    · simp [hold]
    split
    · next hd =>
      have hskip : deviceRenames target ((old, new) :: rest) = deviceRenames target rest :=
        List.filter_cons_of_neg (by simp [hd])
      rw [ih, hseen, hskip]
      constructor
      · rintro ⟨hnodup, ⟨hnew, hrest⟩, hpairs⟩
        exact ⟨⟨hnew, hnodup⟩, ⟨hold, hrest⟩, hpairs⟩
      · rintro ⟨⟨hnew, hnodup⟩, ⟨-, hrest⟩, hpairs⟩
        exact ⟨hnodup, ⟨hnew, hrest⟩, hpairs⟩
    · next d hd =>
      have htake : deviceRenames target ((old, new) :: rest) =
          (old, new) :: deviceRenames target rest := List.filter_cons_of_pos (by simp [hd])
      rw [htake, List.forall₂_cons_left_iff]
      split
      · next hn =>
        refine iff_of_false (by simp) ?_
        rintro ⟨-, -, -, -, ⟨-, e, -, he, -⟩, -⟩
        cases hn.symm.trans he
      · next e he =>
        have hpair : ∀ pair, Pairs target own (old, new) pair ↔ pair = (d.id, e.id) := by
          simp [Pairs, hd, he]
        simp only [Result.map_eq_ok_iff, ih, hseen, hpair]
        constructor
        · rintro ⟨ps, ⟨hnodup, ⟨hnew, hrest⟩, hps⟩, rfl⟩
          exact ⟨⟨hnew, hnodup⟩, ⟨hold, hrest⟩, _, ps, rfl, hps, rfl⟩
        · rintro ⟨⟨hnew, hnodup⟩, ⟨-, hrest⟩, _, ps, rfl, hps, rfl⟩
          exact ⟨ps, ⟨hnodup, ⟨hnew, hrest⟩, hps⟩, rfl⟩

theorem exists_pairs_iff : (∃ pairs, List.Forall₂ (Pairs target own)
    (deviceRenames target renames) pairs) ↔
    ∀ x ∈ renames, (target.device? x.1).isSome → (own.device? x.2).isSome := by
  simp only [Result.exists_forall₂_iff, deviceRenames, List.mem_filter, and_imp]
  refine forall₂_congr fun x _ => imp_congr_right fun hold => ?_
  obtain ⟨d, hd⟩ := Option.isSome_iff_exists.1 hold
  rw [Option.isSome_iff_exists]
  constructor
  · rintro ⟨pair, _, e, -, he, -⟩
    exact ⟨e, he⟩
  · rintro ⟨e, he⟩
    exact ⟨_, d, e, hd, he, rfl⟩

end Devices

section Aliases

variable {path : String} {line file : Nat} {renames : List (String × String)} {pairs : Bind}
  {ps : List Procedure} {s s' : Sheet}

def aliasesOf (file : Nat) (renames : List (String × String)) (pairs : Bind)
    (ps : List Procedure) : List Procedure :=
  ps.map fun q => ⟨newName renames q.name, .alias ⟨file, q.name⟩ pairs⟩

theorem addAliases_eq_ok_iff : addAliases path line file renames pairs ps s = (.ok (), s') ↔
    ((aliasesOf file renames pairs ps).map (·.name)).Nodup ∧
      (∀ a ∈ aliasesOf file renames pairs ps, s.procedure? a.name = none) ∧
      s' = (aliasesOf file renames pairs ps).foldl Sheet.put s := by
  induction ps generalizing s with
  | nil => simp [addAliases, aliasesOf, eq_comm]
  | cons q ps ih =>
    rw [aliasesOf, List.map_cons, ← aliasesOf]
    simp only [addAliases, List.map_cons, List.nodup_cons, List.forall_mem_cons, List.foldl_cons]
    split_ifs with htaken
    · refine iff_of_false (by simp) ?_
      rintro ⟨-, ⟨hnone, -⟩, -⟩
      rw [hnone] at htaken
      cases htaken
    · rw [ih, Sheet.procedure?_put_eq_none_iff]
      have hnone : s.procedure? (newName renames q.name) = none := by simpa using htaken
      simp only [hnone, true_and]
      constructor
      · rintro ⟨hnodup, ⟨hnew, hfresh⟩, hs'⟩
        exact ⟨⟨hnew, hnodup⟩, hfresh, hs'⟩
      · rintro ⟨⟨hnew, hnodup⟩, hfresh, hs'⟩
        exact ⟨hnodup, ⟨hnew, hfresh⟩, hs'⟩

theorem nodup_aliasesOf_iff : ((aliasesOf file renames pairs ps).map (·.name)).Nodup ↔
    ps.Pairwise fun q q' => ∀ name, Becomes renames q.name name →
      ¬ Becomes renames q'.name name := by
  simp only [aliasesOf, List.map_map, List.Nodup, List.pairwise_map, becomes_iff]
  simp [eq_comm]

theorem fresh_aliasesOf_iff : (∀ a ∈ aliasesOf file renames pairs ps, s.procedure? a.name = none) ↔
    ∀ q ∈ ps, ∀ name, Becomes renames q.name name → s.procedure? name = none := by
  simp [aliasesOf, becomes_iff]

theorem forall₂_aliasesOf (file : Nat) (renames : List (String × String)) (pairs : Bind)
    (ps : List Procedure) : List.Forall₂ (fun q a => Becomes renames q.name a.name ∧
      a.definition = .alias ⟨file, q.name⟩ pairs) ps (aliasesOf file renames pairs ps) := by
  rw [aliasesOf, List.forall₂_map_right_iff, List.forall₂_same]
  exact fun q _ => ⟨becomes_newName renames q.name, rfl⟩

end Aliases

section Link

variable {path : String} {line : Nat} {target own own' : Sheet}
  {renames : List (String × String)}

/-- What a finished file exports is what has a body there. -/
theorem exports_eq_bodies (h : target.undefined? = none) : exports target = target.bodies := by
  have hdefined : ∀ q ∈ target.procedures, q.isDefined = true := by
    simpa [Sheet.undefined?] using h
  refine List.filter_congr fun q hq => ?_
  have hq := hdefined q hq
  obtain ⟨name, definition⟩ := q
  cases definition with
  | pending => cases hq
  | body es => rfl
  | «alias» origin bind => rfl

theorem link_eq_ok_iff : link path line target renames own = (.ok (), own') ↔
    ∃ pairs, bind path line target own [] renames = .ok pairs ∧
      addAliases path line target.file renames pairs (exports target) own = (.ok (), own') := by
  simp only [link]
  cases bind path line target own [] renames with
  | error e => simp
  | ok pairs => simp

theorem linkable_of_link (hfinished : target.undefined? = none)
    (h : link path line target renames own = (.ok (), own')) : Linkable target own renames := by
  obtain ⟨pairs, hbind, haliases⟩ := link_eq_ok_iff.1 h
  obtain ⟨honce, -, hpairs⟩ := bind_eq_ok_iff.1 hbind
  obtain ⟨hapart, hfresh, -⟩ := addAliases_eq_ok_iff.1 haliases
  rw [exports_eq_bodies hfinished, nodup_aliasesOf_iff] at hapart
  rw [exports_eq_bodies hfinished, fresh_aliasesOf_iff] at hfresh
  exact ⟨honce, exists_pairs_iff.1 ⟨pairs, hpairs⟩, hapart, hfresh⟩

theorem Linkable.exists_link (h : Linkable target own renames)
    (hfinished : target.undefined? = none) :
    ∃ own', link path line target renames own = (.ok (), own') := by
  obtain ⟨pairs, hpairs⟩ := exists_pairs_iff.2 h.devices
  refine ⟨_, link_eq_ok_iff.2 ⟨pairs, bind_eq_ok_iff.2 ⟨h.once, by simp, hpairs⟩,
    addAliases_eq_ok_iff.2 ⟨?_, ?_, rfl⟩⟩⟩
  · rw [exports_eq_bodies hfinished, nodup_aliasesOf_iff]
    exact h.apart
  · rw [exports_eq_bodies hfinished, fresh_aliasesOf_iff]
    exact h.fresh

theorem Linkable.injective (h : Linkable target own renames) {q q' : Procedure} {name : String}
    (hq : q ∈ target.bodies) (hq' : q' ∈ target.bodies) (hname : Becomes renames q.name name)
    (hname' : Becomes renames q'.name name) : q = q' := by
  have hnodup : ((aliasesOf 0 renames [] target.bodies).map (·.name)).Nodup :=
    nodup_aliasesOf_iff.2 h.apart
  rw [aliasesOf, List.map_map] at hnodup
  exact List.inj_on_of_nodup_map hnodup hq hq' (hname.newName_eq.trans hname'.newName_eq.symm)

theorem linked_of_link (hfinished : target.undefined? = none)
    (h : link path line target renames own = (.ok (), own')) :
    ∃ pairs aliases, Linked target own renames pairs aliases own' := by
  obtain ⟨pairs, hbind, haliases⟩ := link_eq_ok_iff.1 h
  obtain ⟨-, -, hpairs⟩ := bind_eq_ok_iff.1 hbind
  obtain ⟨hapart, hfresh, hown⟩ := addAliases_eq_ok_iff.1 haliases
  have hlinkable := linkable_of_link hfinished h
  rw [exports_eq_bodies hfinished] at hapart hfresh hown
  refine ⟨pairs, _, ⟨hown ▸ Sheet.adds_foldl hapart hfresh, fun hordered => ?_, hpairs,
    forall₂_aliasesOf _ _ _ _, fun _ hq _ hq' _ => hlinkable.injective hq hq', hlinkable.fresh⟩⟩
  have hordered' : (link path line target renames own).2.Ordered := ordered_link hordered
  rwa [h] at hordered'

/-- A load that links adds the exports of the file that it loads, and it links if nothing is in the
way of them. -/
theorem link_exports (path : String) (line : Nat) (own : Sheet) (renames : List (String × String))
    (hfinished : target.undefined? = none) :
    ((∃ own', link path line target renames own = (.ok (), own')) ↔
      Linkable target own renames) ∧
    ∀ own', link path line target renames own = (.ok (), own') →
      ∃ pairs aliases, Linked target own renames pairs aliases own' :=
  ⟨⟨fun ⟨_, h⟩ => linkable_of_link hfinished h, fun h => h.exists_link hfinished⟩,
    fun _ h => linked_of_link hfinished h⟩

def exporter : Sheet where
  file := 1
  path := "b"
  devices := [⟨⟨1, 0⟩, "Pen", .system, [], none⟩]
  procedures := [⟨"draw", .body []⟩, ⟨"erase", .body []⟩, ⟨"paint", .alias ⟨2, "paint"⟩ []⟩]

def importer : Sheet where
  file := 0
  path := "a"
  devices := [⟨⟨0, 0⟩, "Print", .system, [], none⟩]
  procedures := [⟨"Main", .pending⟩]

theorem link_exports_renamed : ∃ own' pairs aliases,
    link "a" 1 exporter [("Pen", "Print"), ("draw", "sketch"), ("paint", "print")] importer =
      (.ok (), own') ∧
    own'.procedures.map (·.name) = ["Main", "erase", "sketch"] ∧
    Linked exporter importer [("Pen", "Print"), ("draw", "sketch"), ("paint", "print")] pairs aliases
      own' := by
  have hlink : link "a" 1 exporter [("Pen", "Print"), ("draw", "sketch"), ("paint", "print")]
      importer = (.ok (), { importer with procedures := [⟨"Main", .pending⟩,
        ⟨"erase", .alias ⟨1, "erase"⟩ [(⟨1, 0⟩, ⟨0, 0⟩)]⟩,
        ⟨"sketch", .alias ⟨1, "draw"⟩ [(⟨1, 0⟩, ⟨0, 0⟩)]⟩] }) := by
    cbv
  obtain ⟨pairs, aliases, hlinked⟩ := (link_exports "a" 1 importer _ rfl).2 _ hlink
  exact ⟨_, pairs, aliases, hlink, rfl, hlinked⟩

end Link

end Linker

end CueSheet
