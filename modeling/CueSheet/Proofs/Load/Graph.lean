import CueSheet.Proofs.Basic
import CueSheet.Proofs.Load.Frozen
import CueSheet.Proofs.Load.Orderly
import CueSheet.Proofs.Load.Place
import Mathlib

/-!
The graph of a program: which file leads to which. A load that succeeds has been along all of it, and
there is no way around in it; a load that finds a way around does not succeed.
-/

namespace CueSheet

namespace Loader

variable {L : Loader} {here : Place} {root : String} {p : Program}

theorem ReadsAll.path {o : Opening} {texts : List (List Char × Nat)} {y : Linker × Draft}
    (h : L.ReadsAll o texts y) : y.2.sheet.path = o.place.path := by
  obtain ⟨ops, hy⟩ := h.exists_operations
  rw [hy]
  exact (Draft.later_after o.blank ops).path

section Definitions

variable (L : Loader) (here : Place) (root : String)

def first (place : Place) : Opening := ⟨L.tree.nodes.length + 1, [], {}, place⟩

/-- The load of `root` opens this file. -/
def Opened (o : Opening) : Prop :=
  ∃ place, L.tree.canonical here root = .ok place ∧ L.OpensAll (L.first place) o

def Loads (p q : Place) : Prop := ∃ line, .ok line ∈ L.tree.lines p ∧ L.Asks p line q

def LoadsIn (places : List Place) (i j : Nat) : Prop :=
  ∃ q r, places[i]? = some q ∧ places[j]? = some r ∧ L.Loads q r

structure Lists (p : Program) (places : List Place) : Prop where
  paths : p.sheets.map (·.path) = places.map Place.path
  distinct : places.Nodup
  plain : here.Plain → (p.sheets.map (·.path)).Nodup
  head : ∃ place, L.tree.canonical here root = .ok place ∧ places[0]? = some place
  numbers : ∀ i q, places[i]? = some q ↔ ∃ o, L.Opened here root o ∧ o.id = i ∧ o.place = q
  /-- A number says how many files were opened before. -/
  order : ∀ o, L.Opened here root o → o.linker.places ++ [o.place] <+: places
  acyclic : ∀ i, ¬ Relation.TransGen (L.LoadsIn places) i i

/-- The load of `root` goes along the graph of the files in good order. -/
structure Orderly : Prop where
  /-- It is never the allowance that ends a load. -/
  allowance : ∀ o, L.Opened here root o → 0 < o.allowance
  once : ∀ o o', L.Opened here root o → L.Opened here root o' → o.place = o'.place → o = o'
  missing : ∀ o y line n, L.Opened here root o → L.Reaches o y line n →
    ∀ i, y.1.sheets[i]? = some none ↔ i ∈ o.ownChain
  /-- The file that a directive asks for has a table when it is linked. -/
  linked : ∀ o y line n q st id, L.Opened here root o → L.Reaches o y line n →
    fileAt (L.visit (o.allowance - 1) o.ownChain) o.ownChain y.1 q = .ok (st, id) →
    (∀ i, st.sheets[i]? = some none ↔ i ∈ o.ownChain) ∧ ∃ s, st.Known id s
  answered : ∀ path, L.program here root ≠ .error (.readerStopped path)
  listed : ∀ p, L.program here root = .ok p → ∃ places, L.Lists here root p places
  /-- No program has a way around in it. -/
  refused : ∀ place q, L.tree.canonical here root = .ok place →
    Relation.ReflTransGen L.Loads place q → Relation.TransGen L.Loads q q →
    ∀ p, L.program here root ≠ .ok p
  /-- A cycle is reported only where a file is asked for that is still being read. -/
  cycle : ∀ names, L.program here root = .error (.cycle names) →
    ∃ a o y line n, L.Opened here root a ∧ L.OpensAll a o ∧ a.id ∈ o.ownChain ∧
      L.Reaches o y line n ∧ L.Asks o.place line a.place ∧
      names = o.ownChain.filterMap (fun i => (y.1.places[i]?).map Place.path) ++ [a.place.path]

end Definitions

section Program

theorem program_eq_ok (h : L.program here root = .ok p) :
    ∃ place st id, L.tree.canonical here root = .ok place ∧ L.outcome (L.first place) = .ok (st, id) ∧
      st.sheets = p.sheets.map some ∧ st.window = p.window := by
  obtain ⟨place, hplace, h⟩ := Result.bind_eq_ok_iff.1 h
  obtain ⟨⟨st, id⟩, hvisit, h⟩ := Result.bind_eq_ok_iff.1 h
  simp only at h
  split at h
  · next sheets hm =>
    cases h
    exact ⟨place, st, id, Result.mapError_eq_ok_iff.1 hplace, hvisit, eq_map_some_of_mapM hm, rfl⟩
  · cases h

theorem holds_iff {st : Linker} (h : st.sheets = p.sheets.map some) {i : Nat} {s : Sheet} :
    p.Holds i s ↔ st.Known i s := by
  rw [Program.Holds, Linker.Known, h, List.getElem?_map]
  simp

theorem program_eq_error {e : LoadError} (h : L.program here root = .error e) :
    (∃ e', e = .unreadable root e') ∨
      ∃ place, L.tree.canonical here root = .ok place ∧ (L.outcome (L.first place) = .error e ∨
        ∃ st i, L.outcome (L.first place) = .ok (st, i) ∧ st.sheets.mapM id = none) := by
  rcases Result.bind_eq_error_iff.1 h with h | ⟨place, hplace, h⟩
  · obtain ⟨e', -, he⟩ := Result.mapError_eq_error_iff.1 h
    exact .inl ⟨e', he.symm⟩
  refine .inr ⟨place, Result.mapError_eq_ok_iff.1 hplace, ?_⟩
  rcases Result.bind_eq_error_iff.1 h with h | ⟨⟨st, id⟩, hvisit, h⟩
  · exact .inl h
  · simp only at h
    split at h
    · cases h
    · next hm => exact .inr ⟨st, id, hvisit, hm⟩

theorem ready_first (place : Place) : L.Ready (L.first place) :=
  ⟨Linker.underway_empty L.tree, List.not_mem_nil, Nat.lt_succ_self _⟩

theorem Opened.ready (hL : L.reader = .standard) {o : Opening} (h : L.Opened here root o) :
    L.Ready o := by
  obtain ⟨place, -, ho⟩ := h
  exact (ready_first place).opensAll hL ho

theorem none_mem_of_mapM {α : Type} {l : List (Option α)} (h : l.mapM id = none) : none ∈ l := by
  induction l with
  | nil => cases h
  | cons x r ih =>
    cases x with
    | none => exact List.mem_cons_self
    | some a =>
      refine List.mem_cons_of_mem _ (ih ?_)
      cases hr : r.mapM id with
      | none => rfl
      | some as => simp [List.mapM_cons, hr] at h

theorem underway_first (hL : L.reader = .standard) {place : Place} {st : Linker} {i : Nat}
    (h : L.outcome (L.first place) = .ok (st, i)) : st.Underway L.tree [] := by
  have hserved := (ready_first (L := L) place).served hL
  rw [h] at hserved
  exact hserved.1

theorem mapM_ne_none (hL : L.reader = .standard) {place : Place} {st : Linker} {i : Nat}
    (h : L.outcome (L.first place) = .ok (st, i)) : st.sheets.mapM id ≠ none := by
  intro hnone
  obtain ⟨j, hj, he⟩ := List.mem_iff_getElem.1 (none_mem_of_mapM hnone)
  have hmissing : st.sheets[j]? = some none ↔ j ∈ [] := (underway_first hL h).missing j
  rw [List.getElem?_eq_getElem hj, he] at hmissing
  exact List.not_mem_nil (hmissing.1 rfl)

theorem program_answered (hL : L.reader = .standard) (path : String) :
    L.program here root ≠ .error (.readerStopped path) := by
  intro h
  rcases program_eq_error h with ⟨e', he⟩ | ⟨place, -, hvisit | ⟨st, i, hvisit, hnone⟩⟩
  · cases he
  · exact ((ready_first place).served hL).ne_readerStopped path hvisit
  · exact mapM_ne_none hL hvisit hnone

theorem program_cycle (hL : L.reader = .standard) {names : List String}
    (h : L.program here root = .error (.cycle names)) :
    ∃ a o y line n, L.Opened here root a ∧ L.OpensAll a o ∧ a.id ∈ o.ownChain ∧
      L.Reaches o y line n ∧ L.Asks o.place line a.place ∧
      names = o.ownChain.filterMap (fun i => (y.1.places[i]?).map Place.path) ++
        [a.place.path] := by
  rcases program_eq_error h with ⟨e', he⟩ | ⟨place, hplace, hvisit | ⟨st, i, hvisit, hnone⟩⟩
  · cases he
  · obtain ⟨o, y, line, n, q, ho, hreach, hasks, i, hi, hq, hnames⟩ :=
      exists_above_of_cycle hL hvisit
    obtain ⟨a, ha, hao, rfl⟩ := ho.exists_above rfl hi
    obtain rfl : a.place = q := Option.some.inj ((hao.getElem?_places hreach).symm.trans hq)
    exact ⟨a, o, y, line, n, ⟨place, hplace, ha⟩, hao, hi, hreach, hasks, hnames⟩
  · exact absurd hnone (mapM_ne_none hL hvisit)

end Program

section Acyclic

theorem loads_iff {q r : Place} {texts : List (List Char × Nat)}
    (hlines : (L.tree.lines q).zipIdx 1 = legible texts) :
    L.Loads q r ↔ ∃ a ∈ texts, L.Asks q a.1 r := by
  have hmap : L.tree.lines q = texts.map fun a => .ok a.1 := by
    rw [← List.zipIdx_map_fst 1 (L.tree.lines q), hlines, legible, List.map_map]
    rfl
  rw [Loads, hmap]
  constructor
  · rintro ⟨line, hline, hasks⟩
    obtain ⟨a, ha, he⟩ := List.mem_map.1 hline
    cases he
    exact ⟨a, ha, hasks⟩
  · rintro ⟨a, ha, hasks⟩
    exact ⟨a.1, List.mem_map_of_mem ha, hasks⟩

theorem finished_first (hL : L.reader = .standard) {R : Linker → Nat → Place → Sheet → Prop}
    (hlater : ∀ st st' i p s, st.Later st' → R st i p s → R st' i p s)
    (hfinish : ∀ o texts y, o.linker.Sound → L.ReadsAll o texts y →
      (∀ i p s, y.1.Finished i p s → R y.1 i p s) → R y.1 o.id o.place y.2.sheet)
    {place : Place} {st : Linker} {id : Nat} (h : L.outcome (L.first place) = .ok (st, id))
    {i : Nat} {q : Place} {s : Sheet} (hf : st.Finished i q s) : R st i q s := by
  have hempty : ∀ i q s, Linker.Finished {} i q s → R {} i q s := by
    rintro i q s ⟨hplace, -⟩
    cases hplace
  exact (visit_finished hL hlater hfinish _ [] {} place st id h ⟨Linker.sound_empty, hempty⟩).2 i q s hf

theorem acc_of_finished (hL : L.reader = .standard) {place : Place} {st : Linker} {id : Nat}
    (h : L.outcome (L.first place) = .ok (st, id)) {i : Nat} {q : Place} {s : Sheet}
    (hf : st.Finished i q s) : Acc (fun r q => L.Loads q r) q := by
  refine finished_first hL (R := fun _ _ q _ => Acc (fun r q => L.Loads q r) q)
    (fun _ _ _ _ _ _ h => h) (fun o texts y ho hall hacc => ?_) h hf
  refine Acc.intro _ fun r hr => ?_
  obtain ⟨⟨text, n⟩, htext, hasks⟩ := (loads_iff hall.lines).1 hr
  obtain ⟨j, s, hfinished⟩ := hall.exists_finished hL ho htext hasks
  exact hacc j r s hfinished

end Acyclic

section Listed

theorem finished_path (hL : L.reader = .standard) {place : Place} {st : Linker} {id : Nat}
    (h : L.outcome (L.first place) = .ok (st, id)) {i : Nat} {q : Place} {s : Sheet}
    (hf : st.Finished i q s) : s.path = q.path :=
  finished_first hL (R := fun _ _ q s => s.path = q.path) (fun _ _ _ _ _ _ h => h)
    (fun _ _ _ _ hall _ => hall.path) h hf

variable {place : Place} {st : Linker} {id : Nat}

theorem Opened.places (hL : L.reader = .standard) (hplace : L.tree.canonical here root = .ok place)
    (h : L.outcome (L.first place) = .ok (st, id)) {o : Opening} (ho : L.Opened here root o) :
    o.linker.places ++ [o.place] <+: st.places := by
  obtain ⟨place', hplace', ho⟩ := ho
  obtain rfl : place = place' := Except.ok.inj (hplace.symm.trans hplace')
  exact ho.outcome_places hL h

theorem getElem?_places_iff (hL : L.reader = .standard)
    (hplace : L.tree.canonical here root = .ok place) (h : L.outcome (L.first place) = .ok (st, id))
    {i : Nat} {q : Place} :
    st.places[i]? = some q ↔ ∃ o, L.Opened here root o ∧ o.id = i ∧ o.place = q := by
  constructor
  · intro hq
    obtain ⟨hlt, -⟩ := List.getElem?_eq_some_iff.1 hq
    obtain ⟨o, ho, rfl⟩ := numbered_outcome hL h i (Nat.zero_le i) hlt
    refine ⟨o, ⟨place, hplace, ho⟩, rfl, ?_⟩
    have hprefix := Opened.places hL hplace h ⟨place, hplace, ho⟩
    exact Option.some.inj ((Linker.getElem?_of_prefix hprefix).symm.trans hq)
  · rintro ⟨o, ho, rfl, rfl⟩
    exact Linker.getElem?_of_prefix (Opened.places hL hplace h ho)

theorem Opened.plain {o : Opening} (hhere : here.Plain) (h : L.Opened here root o) :
    o.place.Plain := by
  obtain ⟨place, hplace, ho⟩ := h
  rcases Relation.ReflTransGen.cases_tail ho with rfl | ⟨b, -, hb⟩
  · exact FileTree.plain_canonical hhere hplace
  · obtain ⟨-, ⟨-, d, -, hq⟩, -⟩ := hb
    exact FileTree.plain_canonical Place.plain_nil hq

theorem loadsIn_transGen {places : List Place} {i j : Nat}
    (h : Relation.TransGen (L.LoadsIn places) i j) :
    ∃ q r, places[i]? = some q ∧ places[j]? = some r ∧ Relation.TransGen L.Loads q r := by
  induction h with
  | single hstep =>
    obtain ⟨q, r, hq, hr, hloads⟩ := hstep
    exact ⟨q, r, hq, hr, .single hloads⟩
  | tail _ hstep ih =>
    obtain ⟨q, r, hq, hr, hchain⟩ := ih
    obtain ⟨r', t, hr', ht, hloads⟩ := hstep
    obtain rfl := Option.some.inj (hr.symm.trans hr')
    exact ⟨q, t, hq, ht, hchain.tail hloads⟩

theorem exists_finished_of_outcome (hL : L.reader = .standard)
    (h : L.outcome (L.first place) = .ok (st, id)) {i : Nat} {q : Place}
    (hq : st.places[i]? = some q) : ∃ s, st.Finished i q s := by
  obtain ⟨hlt, -⟩ := List.getElem?_eq_some_iff.1 hq
  obtain ⟨s, hs⟩ := (underway_first hL h).known hlt List.not_mem_nil
  exact ⟨s, hq, hs⟩

theorem lists_of_program (hL : L.reader = .standard) (h : L.program here root = .ok p) :
    ∃ places, L.Lists here root p places := by
  obtain ⟨place, st, id, hplace, houtcome, hsheets, -⟩ := program_eq_ok h
  have hunderway := underway_first hL houtcome
  have hlength : p.sheets.length = st.places.length := by
    rw [hunderway.length, hsheets, List.length_map]
  have hpaths : p.sheets.map (·.path) = st.places.map Place.path := by
    refine List.ext_getElem (by simp [hlength]) fun i hi hi' => ?_
    rw [List.length_map] at hi hi'
    have hknown : st.Known i p.sheets[i] := (holds_iff hsheets).1 (List.getElem?_eq_getElem hi)
    simp only [List.getElem_map]
    exact finished_path hL houtcome ⟨List.getElem?_eq_getElem hi', hknown⟩
  refine ⟨st.places, hpaths, hunderway.distinct, fun hhere => ?_, ⟨place, hplace, ?_⟩,
    fun i q => getElem?_places_iff hL hplace houtcome, fun o ho => ho.places hL hplace houtcome,
    fun i hcycle => ?_⟩
  · rw [hpaths]
    refine hunderway.distinct.map_on fun q hq r hr he => ?_
    have hplain : ∀ q ∈ st.places, q.Plain := by
      intro q hq
      obtain ⟨i, hi⟩ := List.mem_iff_getElem?.1 hq
      obtain ⟨o, ho, -, rfl⟩ := (getElem?_places_iff hL hplace houtcome).1 hi
      exact ho.plain hhere
    exact Place.path_injective (hplain q hq) (hplain r hr) he
  · exact (getElem?_places_iff hL hplace houtcome).2 ⟨_, ⟨place, hplace, .refl⟩, rfl, rfl⟩
  · obtain ⟨q, r, hq, hr, hchain⟩ := loadsIn_transGen hcycle
    obtain rfl := Option.some.inj (hq.symm.trans hr)
    obtain ⟨s, hs⟩ := exists_finished_of_outcome hL houtcome hq
    exact not_transGen_of_acc (acc_of_finished hL houtcome hs) hchain

theorem exists_opened (hL : L.reader = .standard) (hhere : here.Plain)
    (h : L.program here root = .ok p) {i : Nat} {q : Place} (hq : q.Plain)
    (hpath : (p.sheets.map (·.path))[i]? = some q.path) :
    ∃ o, L.Opened here root o ∧ o.id = i ∧ o.place = q := by
  obtain ⟨places, hlists⟩ := lists_of_program hL h
  rw [hlists.paths, List.getElem?_map] at hpath
  obtain ⟨r, hr, he⟩ := Option.map_eq_some_iff.1 hpath
  obtain ⟨o, ho, hid, hplace⟩ := (hlists.numbers i r).1 hr
  exact ⟨o, ho, hid, Place.path_injective (ho.plain hhere) hq (hplace ▸ he)⟩

theorem program_refused (hL : L.reader = .standard) {q : Place}
    (hplace : L.tree.canonical here root = .ok place)
    (hreach : Relation.ReflTransGen L.Loads place q) (hcycle : Relation.TransGen L.Loads q q) :
    L.program here root ≠ .ok p := by
  intro h
  obtain ⟨place', st, id, hplace', houtcome, -, -⟩ := program_eq_ok h
  obtain rfl : place = place' := Except.ok.inj (hplace.symm.trans hplace')
  have hfirst : st.places[0]? = some place :=
    (getElem?_places_iff hL hplace houtcome).2 ⟨_, ⟨place, hplace, .refl⟩, rfl, rfl⟩
  obtain ⟨s, hs⟩ := exists_finished_of_outcome hL houtcome hfirst
  exact not_transGen_of_acc (acc_of_reflTransGen hreach (acc_of_finished hL houtcome hs)) hcycle

end Listed

/-- A place tells the file that was opened there. -/
theorem Opened.eq_of_place_eq (hL : L.reader = .standard) {o o' : Opening}
    (ho : L.Opened here root o) (ho' : L.Opened here root o') (he : o.place = o'.place) : o = o' := by
  obtain ⟨place, hplace, ho⟩ := ho
  obtain ⟨place', hplace', ho'⟩ := ho'
  obtain rfl : place = place' := Except.ok.inj (hplace.symm.trans hplace')
  exact ho.eq_of_place_eq hL ho' he

/-- Every load goes along its graph in good order, whatever the files hold. The tree has no links, for they
would add nothing: a link makes more than one path lead to a place, as `..` does already, and all that
counts of a path is its place. -/
theorem program_orderly (here : Place) (root : String) (hL : L.reader = .standard) :
    L.Orderly here root where
  allowance _ ho := (ho.ready hL).allowance_pos
  once _ _ ho ho' he := ho.eq_of_place_eq hL ho' he
  missing o y line n ho hreach := ((ho.ready hL).reaches hL hreach).missing
  linked o y line n q st i ho hreach hfile := by
    have hready := ho.ready hL
    have hserved := served_fileAt (hready.answers hL) (hready.reaches hL hreach) q
    rw [hfile] at hserved
    exact ⟨hserved.1.missing, hserved.2⟩
  answered := program_answered hL
  listed _ h := lists_of_program hL h
  refused _ _ hplace hreach hcycle _ := program_refused hL hplace hreach hcycle
  cycle _ h := program_cycle hL h

def diamond : Loader where
  tree := ⟨[
    (["a"], .file "#load \"b\"\n#load \"c\"".toUTF8.toList),
    (["b"], .file "#load \"d\"".toUTF8.toList),
    (["c"], .file "#load \"d\"".toUTF8.toList),
    (["d"], .file "proc go \x7b\n\x7d".toUTF8.toList)]⟩

theorem program_orderly_diamond :
    (diamond.program [] "/a").map (·.sheets.map (·.path)) = .ok ["/a", "/b", "/d", "/c"] ∧
      diamond.Orderly [] "/a" := by
  refine ⟨?_, program_orderly [] "/a" rfl⟩
  cbv

end Loader

end CueSheet
