import CueSheet.Proofs.Load.InTurn
import Mathlib.Data.List.Nodup
import Mathlib.Data.List.Perm.Subperm

/-!
A load on its way. The files without a table are those of the chain, each place is opened once, and
only places of the tree are opened; so the allowance of the chain never runs out, and no file is asked
for whose table is not there. Whatever ends a load, it is not a reader that stopped.
-/

namespace CueSheet

def Served {α : Type} (Q : α → Prop) : Except LoadError α → Prop
  | .ok a => Q a
  | .error (.readerStopped _) => False
  | .error _ => True

namespace Served

variable {α β : Type} {Q : α → Prop} {R : β → Prop} {x : Except LoadError α}

theorem ne_readerStopped (h : Served Q x) (path : String) : x ≠ .error (.readerStopped path) := by
  rintro rfl
  exact h

theorem bind {f : α → Except LoadError β} (h : Served Q x) (hf : ∀ a, Q a → Served R (f a)) :
    Served R (x >>= f) := by
  cases x with
  | ok a => exact hf a h
  | error e => cases e <;> exact h

theorem map {f : α → β} (h : Served Q x) (hf : ∀ a, Q a → R (f a)) : Served R (x.map f) := by
  cases x with
  | ok a => exact hf a h
  | error e => cases e <;> exact h

theorem of_mapError {ε : Type} {y : Except ε α} {f : ε → LoadError}
    (hf : ∀ e path, f e ≠ .readerStopped path) (hy : ∀ a, y = .ok a → Q a) :
    Served Q (y.mapError f) := by
  cases y with
  | ok a => exact hy a rfl
  | error e =>
    change Served Q (.error (f e))
    cases hfe : f e <;> first | exact hf e _ hfe | trivial

end Served

namespace Linker

section Link

variable {path : String} {line : Nat} {s target : Sheet}

theorem served_bind (seen : List String) (renames : List (String × String)) :
    Served (fun _ => True) (bind path line target s seen renames) := by
  induction renames generalizing seen with
  | nil => trivial
  | cons rename rest ih =>
    obtain ⟨old, new⟩ := rename
    simp only [bind]
    split
    · trivial
    · split
      · exact ih (old :: seen)
      · split
        · trivial
        · exact (ih (old :: seen)).map fun _ _ => trivial

theorem served_addAliases {file : Nat} {renames : List (String × String)} {pairs : Bind}
    (ps : List Procedure) (s : Sheet) :
    Served (fun _ => True) (addAliases path line file renames pairs ps s).1 := by
  induction ps generalizing s with
  | nil => trivial
  | cons p r ih =>
    simp only [addAliases]
    split
    · trivial
    · exact ih _

theorem served_link {renames : List (String × String)} :
    Served (fun _ => True) (link path line target renames s).1 := by
  have hbind : Served (fun _ => True) (bind path line target s [] renames) :=
    served_bind [] renames
  simp only [link]
  split
  · next e he =>
    rw [he] at hbind
    exact hbind.map (f := fun _ => ()) fun _ _ => trivial
  · exact served_addAliases _ s

end Link

variable {t : FileTree} {chain : List Nat} {st : Linker}

/-- `chain` is what is still open, and nothing else is. -/
structure Underway (t : FileTree) (chain : List Nat) (st : Linker) : Prop where
  length : st.places.length = st.sheets.length
  distinct : st.places.Nodup
  placed : ∀ p ∈ st.places, p ∈ t.nodes.map (·.1)
  missing : ∀ id, st.sheets[id]? = some none ↔ id ∈ chain
  simple : chain.Nodup

theorem underway_empty (t : FileTree) : Underway t [] {} :=
  ⟨rfl, .nil, by simp, by simp, .nil⟩

theorem Underway.known (h : st.Underway t chain) {id : Nat} (hlt : id < st.places.length)
    (hid : id ∉ chain) : ∃ s, st.Known id s := by
  obtain ⟨x, hx⟩ : ∃ x, st.sheets[id]? = some x :=
    ⟨_, List.getElem?_eq_getElem (h.length ▸ hlt)⟩
  cases x with
  | none => exact absurd ((h.missing id).1 hx) hid
  | some s => exact ⟨s, hx⟩

theorem Underway.lt_of_mem (h : st.Underway t chain) {id : Nat} (hid : id ∈ chain) :
    id < st.places.length := by
  obtain ⟨hlt, -⟩ := List.getElem?_eq_some_iff.1 ((h.missing id).2 hid)
  exact h.length ▸ hlt

theorem Underway.chain_le (h : st.Underway t chain) : chain.length ≤ t.nodes.length := by
  have hchain : chain.length ≤ st.places.length := by
    have hsub : chain ⊆ List.range st.places.length := fun id hid =>
      List.mem_range.2 (h.lt_of_mem hid)
    simpa using (List.Nodup.subperm h.simple hsub).length_le
  have hplaces : st.places.length ≤ t.nodes.length := by
    simpa using (List.Nodup.subperm h.distinct h.placed).length_le
  omega

theorem Underway.window (h : st.Underway t chain) (w : Int) :
    Underway t chain { st with window := w } := ⟨h.length, h.distinct, h.placed, h.missing, h.simple⟩

theorem Underway.opened (h : st.Underway t chain) {p : Place} (hnew : p ∉ st.places)
    (hp : p ∈ t.nodes.map (·.1)) :
    (st.opened p).Underway t (chain ++ [st.places.length]) := by
  have hfresh : st.places.length ∉ chain := fun hm => Nat.lt_irrefl _ (h.lt_of_mem hm)
  refine ⟨by simp [Linker.opened, h.length], ?_, ?_, fun id => ?_, ?_⟩
  · rw [Linker.opened, ← List.concat_eq_append]
    exact List.Nodup.concat hnew h.distinct
  · exact List.forall_mem_append.2 ⟨h.placed, List.forall_mem_singleton.2 hp⟩
  · rw [List.mem_append, List.mem_singleton, ← h.missing id, Linker.opened, h.length]
    rcases Nat.lt_trichotomy id st.sheets.length with hi | rfl | hi
    · have hne : id ≠ st.sheets.length := by omega
      simp [List.getElem?_append_left hi, hne]
    · simp
    · have hlen : (st.sheets ++ [none]).length ≤ id := by
        simp only [List.length_append, List.length_singleton]
        omega
      have hne : id ≠ st.sheets.length := by omega
      simp [List.getElem?_eq_none hlen, List.getElem?_eq_none (Nat.le_of_lt hi), hne]
  · rw [← List.concat_eq_append]
    exact List.Nodup.concat hfresh h.simple

theorem Underway.set {id : Nat} (h : st.Underway t (chain ++ [id])) (s : Sheet) :
    Underway t chain { st with sheets := st.sheets.set id (some s) } := by
  obtain ⟨hsimple, -, hid⟩ := List.nodup_append.1 h.simple
  have hfresh : id ∉ chain := fun hm => hid id hm id (List.mem_singleton.2 rfl) rfl
  refine ⟨by simp [h.length], h.distinct, h.placed, fun j => ?_, hsimple⟩
  by_cases hj : id = j
  · subst hj
    simp [List.getElem?_set, hfresh]
  · rw [List.getElem?_set_ne hj, h.missing j]
    simp [Ne.symm hj]

theorem Underway.known_set {id : Nat} (h : st.Underway t (chain ++ [id])) (s : Sheet) :
    Known { st with sheets := st.sheets.set id (some s) } id s := by
  have hlt : id < st.sheets.length := h.length ▸ h.lt_of_mem (by simp)
  simp [Known, List.getElem?_set_self hlt]

end Linker

namespace Loader

def Answers (t : FileTree) (chain : List Nat) (visit : Visit) : Prop :=
  ∀ st p, st.Underway t chain → p ∉ st.places →
    Served (fun y => y.1.Underway t chain ∧ ∃ s, y.1.Known y.2 s) (visit st p)

section Answers

variable {L : Loader} {visit : Visit} {chain : List Nat} {here : Place} {line : Nat} {st : Linker}

theorem served_fileAt (hv : Answers L.tree chain visit) (hst : st.Underway L.tree chain)
    (p : Place) :
    Served (fun y => y.1.Underway L.tree chain ∧ ∃ s, y.1.Known y.2 s)
      (fileAt visit chain st p) := by
  simp only [fileAt]
  split
  · next hidx => exact hv st p hst (List.idxOf?_eq_none_iff.1 hidx)
  · next id hidx =>
    split
    · trivial
    · next hid =>
      obtain ⟨hlt, -⟩ := List.findIdx?_eq_some_iff_getElem.1 hidx
      exact ⟨hst, hst.known hlt hid⟩

theorem served_load (hv : Answers L.tree chain visit) (hst : st.Underway L.tree chain)
    (d : LoadDecl) (self : Sheet) :
    Served (fun y => y.1.Underway L.tree chain) (L.load visit chain here line d st self) := by
  refine Served.bind (Q := fun _ => True) (.of_mapError (by simp) (by simp)) fun p _ => ?_
  refine Served.bind (served_fileAt hv hst p) fun y hy => ?_
  obtain ⟨hst₁, sheet, hsheet⟩ := hy
  have hsheet : y.1.sheets[y.2]? = some (some sheet) := hsheet
  simp only [hsheet]
  exact Linker.served_link.map fun _ _ => hst₁

theorem served_setWindow (hst : st.Underway L.tree chain) (path : String) (seconds : Int) :
    Served (fun st' => st'.Underway L.tree chain)
      (Linker.setWindow chain path line seconds st) := by
  simp only [Linker.setWindow]
  split
  · exact hst
  · split
    · trivial
    · exact hst.window seconds

theorem served_obey (hv : Answers L.tree chain visit) (hst : st.Underway L.tree chain)
    (text : List Char) (self : Sheet) :
    Served (fun y => y.1.Underway L.tree chain) (L.obey visit chain here line text st self) := by
  refine Served.bind (Q := fun _ => True) (.of_mapError (by simp) (by simp)) fun d _ => ?_
  cases d with
  | device d =>
    refine Served.bind (Q := fun _ => True) ?_ fun s _ => hst
    simp only [Linker.declare]
    split <;> trivial
  | load d => exact served_load hv hst d self
  | priority seconds =>
    exact Served.bind (served_setWindow hst here.path seconds) fun st' h => h

/-- The pipe is idle whenever the loader looks at the next line. -/
theorem served_readLines (hL : L.reader = .standard) (hv : Answers L.tree chain visit)
    {lines : List (Except FileError (List Char) × Nat)} {p : Pipe} (hst : st.Underway L.tree chain)
    (hp : p.Idle) :
    Served (fun y => y.1.Underway L.tree chain ∧ y.2.worker ≠ .gone)
      (L.readLines visit chain here lines st p) := by
  induction lines generalizing st p with
  | nil => exact ⟨hst, by simp [hp.running]⟩
  | cons entry rest ih =>
    obtain ⟨read, n⟩ := entry
    cases read with
    | error e => trivial
    | ok text =>
      simp only [readLines]
      split
      · simp only [hp.pause?]
        split
        · exact ⟨hst, by simp⟩
        · refine Served.bind (served_obey hv hst _ _) fun y hy => ?_
          change Served _ (L.readLines visit chain here rest y.1
            (Pipe.resume L.reader (Pipe.rewrite { p with worker := .parked } y.2)))
          rw [hp.resume]
          exact ih hy ⟨hp.running, hp.empty, hp.room⟩
      · cases hf : p.failure with
        | none =>
          simp only [hL, hp.feed?_standard hf]
          exact ih hst ⟨hp.running, hp.empty, hp.room⟩
        | some e =>
          simp only [hp.feed?_refused (r := L.reader) (p := p) (by simp [hf])]
          exact ih hst hp

theorem served_finish {p : Pipe} (hp : p.worker ≠ .gone) :
    Served (fun _ => True) (finish here p) := by
  cases hf : p.failure with
  | some e => simp [finish, Pipe.finish?, hp, hf, Served]
  | none =>
    simp only [finish, Pipe.finish?, hp, hf, if_false]
    cases p.draft.finish with
    | error e => trivial
    | ok _ => cases p.draft.sheet.undefined? <;> trivial

theorem served_body (hL : L.reader = .standard) (hv : Answers L.tree chain visit)
    (lines : List (List Char × Nat)) {p : Pipe} (hst : st.Underway L.tree chain) (hp : p.Idle) :
    Served (fun y => y.1.Underway L.tree chain) (L.body visit chain here lines st p) :=
  Served.bind (served_readLines hL hv hst hp) fun _ hy =>
    (served_finish hy.2).map fun _ _ => hy.1

end Answers

variable {L : Loader}

theorem lines_of_not_mem {t : FileTree} {p : Place} (h : p ∉ t.nodes.map (·.1)) :
    ∃ e, t.lines p = [.error e] := by
  have hfind : t.nodes.find? (·.1 = p) = none := by
    rw [List.find?_eq_none]
    intro x hx he
    exact h (List.mem_map.2 ⟨x, hx, by simpa using he⟩)
  cases p with
  | nil => exact ⟨.isDirectory, by simp [FileTree.lines, FileTree.node?]⟩
  | cons a r =>
    refine ⟨.notFound, ?_⟩
    simp only [FileTree.lines, FileTree.node?, List.isEmpty_cons, Bool.false_eq_true, if_false, hfind,
      Option.map_none]

theorem visit_answers (hL : L.reader = .standard) {n : Nat} {chain : List Nat}
    (hn : L.tree.nodes.length < n + chain.length) : Answers L.tree chain (L.visit n chain) := by
  induction n generalizing chain with
  | zero =>
    intro st p hst hp
    have hlen := hst.chain_le
    omega
  | succ n ih =>
    intro st p hst hp
    simp only [visit]
    by_cases hnode : p ∈ L.tree.nodes.map (·.1)
    · have hopen := hst.opened hp hnode
      have hnested : Answers L.tree (chain ++ [st.places.length])
          (L.visit n (chain ++ [st.places.length])) := ih (by simp; omega)
      refine Served.bind (served_readLines hL hnested hopen (Pipe.idle_start _ _)) fun y hy => ?_
      refine Served.bind (served_finish hy.2) fun sheet _ => ?_
      exact ⟨hy.1.set sheet, sheet, hy.1.known_set sheet⟩
    · obtain ⟨e, he⟩ := lines_of_not_mem hnode
      simp only [he, List.zipIdx_cons, List.zipIdx_nil, readLines]
      trivial

end Loader

end CueSheet
