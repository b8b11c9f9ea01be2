import CueSheet.Files.Tree
import CueSheet.Proofs.Basic
import Mathlib.Data.List.Basic

/-!
Places as paths show them. A path is cut at its slashes, so the names of a place that a path leads to
hold no slash, and the path of such a place tells the place.
-/

namespace CueSheet

def Place.Plain (p : Place) : Prop := ∀ name ∈ p, name ≠ "" ∧ '/' ∉ name.toList

theorem Place.plain_nil : Place.Plain [] := fun _ h => absurd h List.not_mem_nil

theorem Text.not_mem_pieces {sep : Char} {s t : List Char} (h : t ∈ Text.pieces sep s) :
    sep ∉ t := by
  induction s generalizing t with
  | nil =>
    obtain rfl := List.mem_singleton.1 h
    exact List.not_mem_nil
  | cons c r ih =>
    rw [Text.pieces] at h
    split at h
    · rcases List.mem_cons.1 h with rfl | h
      · exact List.not_mem_nil
      · exact ih h
    · next hc =>
      split at h
      · next hp => exact absurd hp (Text.pieces_ne_nil sep r)
      · next p ps hp =>
        rcases List.mem_cons.1 h with rfl | h
        · have hsep : sep ∉ p := ih (hp ▸ List.mem_cons_self)
          simp [hsep, Ne.symm hc]
        · exact ih (hp ▸ List.mem_cons_of_mem p h)

namespace FileTree

variable {t : FileTree} {p q : Place}

theorem plain_step {name : String} (hp : p.Plain) (hname : '/' ∉ name.toList)
    (h : t.step p name = .ok q) : q.Plain := by
  simp only [step] at h
  split_ifs at h with hdir hself hup hlong hnode
  · cases h
    exact hp
  · cases h
    exact fun name hn => hp name ((List.dropLast_sublist p).subset hn)
  · cases h
    simp only [Bool.or_eq_true, decide_eq_true_eq, not_or] at hself
    exact List.forall_mem_append.2 ⟨hp, List.forall_mem_singleton.2 ⟨hself.1, hname⟩⟩

theorem plain_steps {names : List String} (hp : p.Plain) (hnames : ∀ name ∈ names, '/' ∉ name.toList)
    (h : names.foldlM t.step p = .ok q) : q.Plain := by
  induction names generalizing p with
  | nil =>
    cases h
    exact hp
  | cons name rest ih =>
    rw [List.foldlM_cons] at h
    obtain ⟨p', hstep, hrest⟩ := Result.bind_eq_ok_iff.1 h
    obtain ⟨hname, hnames⟩ := List.forall_mem_cons.1 hnames
    exact ih (plain_step hp hname hstep) hnames hrest

theorem plain_canonical {path : String} (hp : p.Plain) (h : t.canonical p path = .ok q) :
    q.Plain := by
  have hnames : ∀ name ∈ Path.names path, '/' ∉ name.toList := by
    intro name hn
    obtain ⟨piece, hpiece, rfl⟩ := List.mem_map.1 hn
    rw [String.toList_ofList]
    exact Text.not_mem_pieces hpiece
  simp only [canonical] at h
  split_ifs at h with hnul hempty habsolute
  · exact plain_steps Place.plain_nil hnames h
  · exact plain_steps hp hnames h

end FileTree

namespace Place

theorem toList_path (p : Place) : p.path.toList = '/' :: ['/'].intercalate (p.map String.toList) := by
  simp [path, String.toList_intercalate]

theorem splitOn_path {p : Place} (hp : p.Plain) (hne : p ≠ []) :
    (p.path.toList.drop 1).splitOn '/' = p.map String.toList := by
  rw [toList_path, List.drop_one, List.tail_cons]
  refine List.splitOn_intercalate '/' (fun l hl => ?_) (by simpa using hne)
  obtain ⟨name, hname, rfl⟩ := List.mem_map.1 hl
  exact (hp name hname).2

theorem path_ne_root {p : Place} (hp : p.Plain) (hne : p ≠ []) : p.path ≠ path [] := by
  intro he
  have hsplit := splitOn_path hp hne
  rw [he] at hsplit
  have hone : p.map String.toList = [[]] := by
    rw [← hsplit]
    rfl
  obtain ⟨name, rest, rfl⟩ := List.exists_cons_of_ne_nil hne
  obtain ⟨hname, -⟩ := List.cons.inj hone
  exact (hp name List.mem_cons_self).1 (String.toList_eq_nil_iff.1 hname)

theorem path_injective {p q : Place} (hp : p.Plain) (hq : q.Plain) (h : p.path = q.path) :
    p = q := by
  by_cases hpe : p = []
  · by_cases hqe : q = []
    · rw [hpe, hqe]
    · exact absurd (h.symm.trans (hpe ▸ rfl)) (path_ne_root hq hqe)
  · by_cases hqe : q = []
    · exact absurd (h.trans (hqe ▸ rfl)) (path_ne_root hp hpe)
    · have hmap : p.map String.toList = q.map String.toList := by
        rw [← splitOn_path hp hpe, h, splitOn_path hq hqe]
      exact List.map_injective_iff.2 (fun _ _ => String.toList_inj.1) hmap

end Place

end CueSheet
