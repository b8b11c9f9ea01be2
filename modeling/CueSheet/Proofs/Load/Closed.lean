import CueSheet.Proofs.Load.Linker

/-!
Programs in which every name leads somewhere. The loader makes no other programs: the files that it
has finished are sound for one another, and it stops unless all are finished.
-/

namespace CueSheet

namespace Program

def Holds (p : Program) (i : Nat) (s : Sheet) : Prop := p.sheets[i]? = some s

/-- Besides being sound for one another, the files have no pending name; each procedure is found
under its own name, and one that stands for another has no body. -/
structure Closed (p : Program) : Prop where
  sound : ∀ i s, p.Holds i s → s.Sound p.Holds i
  defined : ∀ i s, p.Holds i s → ∀ q ∈ s.procedures, q.isDefined = true
  named : ∀ i s, p.Holds i s → ∀ q ∈ s.procedures, s.procedure? q.name = some q
  bodiless : ∀ i s, p.Holds i s → ∀ q ∈ s.procedures, q.origin?.isSome = true → q.body = []

section Lookup

variable {p : Program} {i : Nat} {s : Sheet}

theorem exists_holds (h : s ∈ p.sheets) : ∃ i, p.Holds i s := List.mem_iff_getElem?.1 h

theorem procedure?_eq_some_iff {r : ProcRef} {q : Procedure} :
    p.procedure? r = some q ↔ ∃ s, p.Holds r.file s ∧ s.procedure? r.name = some q :=
  Option.bind_eq_some_iff

theorem Closed.procedure?_of_mem (hp : p.Closed) (hs : p.Holds i s) {q : Procedure}
    (hq : q ∈ s.procedures) : p.procedure? ⟨i, q.name⟩ = some q :=
  procedure?_eq_some_iff.2 ⟨s, hs, hp.named i s hs q hq⟩

theorem Closed.device?_isSome (hp : p.Closed) (hs : p.Holds i s) {d : DeviceId}
    (hd : s.Declares d) : (p.device? d).isSome = true := by
  have hfile : d.file = i := hd.1.trans (hp.sound i s hs).file
  have hs' : p.sheets[d.file]? = some s := hfile ▸ hs
  simp only [device?, hs', Option.bind_some, List.getElem?_eq_getElem hd.2, Option.isSome_some]

end Lookup

end Program

theorem eq_map_some_of_mapM {α : Type} {l : List (Option α)} {l' : List α}
    (h : l.mapM id = some l') : l = l'.map some := by
  induction l generalizing l' with
  | nil =>
    obtain rfl : [] = l' := by simpa using h
    rfl
  | cons x r ih =>
    simp only [List.mapM_cons, id_eq, bind, Option.bind_eq_some_iff, pure, Option.some.injEq] at h
    obtain ⟨a, rfl, as, hr, rfl⟩ := h
    rw [ih hr, List.map_cons]

namespace Loader

variable {L : Loader} {here : Place} {root : String} {p : Program}

theorem exists_visit (h : L.program here root = .ok p) : ∃ place st id,
    L.visit (L.tree.nodes.length + 1) [] {} place = .ok (st, id) ∧
      ∀ i s, p.Holds i s ↔ st.Known i s := by
  obtain ⟨place, -, h⟩ := Result.bind_eq_ok_iff.1 h
  obtain ⟨⟨st, id⟩, hv, h⟩ := Result.bind_eq_ok_iff.1 h
  refine ⟨place, st, id, hv, ?_⟩
  simp only at h
  split at h
  · next sheets hm =>
    cases h
    intro i s
    rw [Program.Holds, Linker.Known, eq_map_some_of_mapM hm, List.getElem?_map]
    simp
  · cases h

theorem exists_linker (hL : L.reader = .standard) (h : L.program here root = .ok p) :
    ∃ st : Linker, st.Sound ∧ ∀ i s, p.Holds i s ↔ st.Known i s := by
  obtain ⟨place, st, id, hv, hiff⟩ := exists_visit h
  exact ⟨st, (visit_sure hL _ [] {} place st id hv Linker.sound_empty).1, hiff⟩

theorem closed_of_program (hL : L.reader = .standard) (h : L.program here root = .ok p) :
    p.Closed := by
  obtain ⟨st, hst, hiff⟩ := exists_linker hL h
  have hfinished : ∀ i s, p.Holds i s →
      s.Sound st.Known i ∧ ∀ q ∈ s.procedures, q.isDefined = true :=
    fun i s hs => hst.finished i s ((hiff i s).1 hs)
  constructor
  · intro i s hs
    exact (hfinished i s hs).1.mono fun i t => (hiff i t).2
  · intro i s hs
    exact (hfinished i s hs).2
  · intro i s hs q hq
    exact Sheet.procedure?_of_mem (hfinished i s hs).1.sorted hq
  · intro i s hs q hq ho
    simp only [Procedure.origin?] at ho
    simp only [Procedure.body]
    split <;> simp_all

end Loader

end CueSheet
