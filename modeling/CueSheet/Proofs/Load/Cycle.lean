import CueSheet.Proofs.Load.Graph

/-!
What is listed when files load each other in a circle. The list is the way that was gone, from the
root to the file in which the circle is closed, and then once more the file that it closes at. What
lies before that file for the first time only leads to the circle and is no part of it.
-/

namespace CueSheet

/-- A way from `start` along `lead` to `around`, and from there through `loop` back to it. -/
structure Loader.Lasso (L : Loader) (start : Place) (lead : List Place) (around : Place)
    (loop : List Place) : Prop where
  head : (lead ++ [around]).head? = some start
  distinct : (lead ++ around :: loop).Nodup
  loads : (lead ++ around :: loop ++ [around]).IsChain L.Loads

structure Opening.Way (L : Loader) (start : Place) (o : Opening) (way : List Place) : Prop where
  head : way.head? = some start
  last : way.getLast? = some o.place
  distinct : way.Nodup
  loads : way.IsChain L.Loads
  numbers : List.Forall₂ (fun i q => (o.linker.places ++ [o.place])[i]? = some q) o.ownChain way

namespace Loader

variable {L : Loader} {o : Opening} {y : Linker × Draft} {line : List Char} {n : Nat}

theorem Reaches.loads (h : L.Reaches o y line n) {q : Place} (hq : L.Asks o.place line q) :
    L.Loads o.place q := by
  obtain ⟨hlines, -, -⟩ := h
  have hmem : (Except.ok line, n) ∈ (L.tree.lines o.place).zipIdx 1 := by simp [hlines]
  refine ⟨line, ?_, hq⟩
  rw [← List.zipIdx_map_fst 1 (L.tree.lines o.place)]
  exact List.mem_map_of_mem hmem

theorem filterMap_of_forall₂ {ps qs : List Place} {ns : List Nat}
    (h : List.Forall₂ (fun i q => ps[i]? = some q) ns qs) :
    ns.filterMap (fun i => (ps[i]?).map Place.path) = qs.map Place.path := by
  induction h with
  | nil => rfl
  | cons hq _ ih => rw [List.filterMap_cons, hq, Option.map_some, ih, List.map_cons]

theorem way_first (place : Place) : (L.first place).Way L place [place] :=
  ⟨rfl, rfl, List.nodup_singleton place, .singleton place, .cons rfl .nil⟩

end Loader

namespace Opening.Way

variable {L : Loader} {place : Place} {o o' : Opening} {way : List Place} {y : Linker × Draft}
  {line : List Char} {n : Nat}

theorem numbered (h : o.Way L place way) (hr : L.Reaches o y line n) :
    List.Forall₂ (fun i q => y.1.places[i]? = some q) o.ownChain way := by
  refine h.numbers.imp fun i q hq => ?_
  obtain ⟨hi, rfl⟩ := List.getElem?_eq_some_iff.1 hq
  exact List.prefix_iff_getElem?.1 hr.places i hi

theorem exists_opens (h : o.Way L place way) (ho : L.Opens o o') :
    ∃ way', o'.Way L place way' := by
  obtain @⟨y, line, n, q, hreach, hasks, hnew⟩ := ho
  have hnumbered := h.numbered hreach
  have hfresh : q ∉ way := by
    intro hq
    obtain ⟨i, -, hi⟩ := Result.exists_of_mem_right hnumbered hq
    exact hnew (List.mem_of_getElem? hi)
  have hloads := isChain_concat h.loads h.last (hreach.loads hasks)
  refine ⟨way ++ [q], ?_, List.getLast?_concat, ?_, hloads, ?_⟩
  · rw [List.head?_append, h.head]
    rfl
  · rw [← List.concat_eq_append]
    exact h.distinct.concat hfresh
  · refine List.rel_append (hnumbered.imp fun i r hr => ?_) (.cons ?_ .nil)
    · exact (List.getElem?_append_left (List.getElem?_eq_some_iff.1 hr).1).trans hr
    · exact List.getElem?_concat_length

/-- Where the file at hand asks for one of the way, the way and that file once more are a lasso. -/
theorem exists_lasso (h : o.Way L place way) {q : Place} (hq : q ∈ way)
    (hloads : L.Loads o.place q) :
    ∃ lead loop, way = lead ++ q :: loop ∧ L.Lasso place lead q loop := by
  obtain ⟨lead, loop, rfl⟩ := List.append_of_mem hq
  refine ⟨lead, loop, rfl, ?_, h.distinct, isChain_concat h.loads h.last hloads⟩
  have hhead := h.head
  rw [List.head?_append] at hhead ⊢
  exact hhead

end Opening.Way

namespace Loader

variable {L : Loader} {here start : Place} {root : String}

theorem exists_way {o : Opening} (h : L.OpensAll (L.first start) o) : ∃ way, o.Way L start way := by
  induction h with
  | refl => exact ⟨[start], way_first start⟩
  | tail _ hopens ih =>
    obtain ⟨way, hway⟩ := ih
    exact hway.exists_opens hopens

theorem Loads.plain {p q : Place} (h : L.Loads p q) : q.Plain := by
  obtain ⟨-, -, -, d, -, hq⟩ := h
  exact FileTree.plain_canonical Place.plain_nil hq

theorem plain_of_isChain {p : Place} {ps : List Place} (h : (p :: ps).IsChain L.Loads)
    (hp : p.Plain) : ∀ q ∈ p :: ps, q.Plain := by
  induction ps generalizing p with
  | nil => exact List.forall_mem_singleton.2 hp
  | cons r ps ih =>
    obtain ⟨hloads, hchain⟩ := List.isChain_cons_cons.1 h
    exact List.forall_mem_cons.2 ⟨hp, ih hchain hloads.plain⟩

namespace Lasso

variable {lead loop : List Place} {around : Place}

theorem plain (h : L.Lasso start lead around loop) (hstart : start.Plain) :
    ∀ q ∈ lead ++ around :: loop, q.Plain := by
  have hall : ∀ q ∈ lead ++ around :: loop ++ [around], q.Plain := by
    have hhead := h.head
    have hloads := h.loads
    cases lead with
    | nil =>
      obtain rfl := Option.some.inj hhead
      exact plain_of_isChain hloads hstart
    | cons p lead =>
      obtain rfl := Option.some.inj hhead
      exact plain_of_isChain hloads hstart
  exact fun q hq => hall q (List.mem_append_left _ hq)

theorem nodup_paths (h : L.Lasso start lead around loop) (hstart : start.Plain) :
    ((lead ++ around :: loop).map Place.path).Nodup := by
  have hplain := h.plain hstart
  exact h.distinct.map_on fun q hq r hr he => Place.path_injective (hplain q hq) (hplain r hr) he

/-- As a list of paths, a lasso begins where it ends only if nothing leads to the way around. -/
theorem head?_eq_getLast?_iff (h : L.Lasso start lead around loop) (hstart : start.Plain) :
    ((lead ++ around :: loop ++ [around]).map Place.path).head? =
      ((lead ++ around :: loop ++ [around]).map Place.path).getLast? ↔ lead = [] := by
  have hnodup := h.nodup_paths hstart
  rw [List.map_append, List.map_singleton, List.getLast?_concat]
  cases lead with
  | nil => exact ⟨fun _ => rfl, fun _ => rfl⟩
  | cons p lead =>
    have hne : p.path ≠ around.path := by
      intro he
      rw [List.cons_append, List.map_cons, List.nodup_cons] at hnodup
      exact hnodup.1 (he ▸ List.mem_map_of_mem (by simp))
    simpa using hne

end Lasso

/-- Where files load each other in a circle, the list ends with a cycle. All of it is one if and
only if the root is where the circle closes. -/
theorem program_lasso (hL : L.reader = .standard) {names : List String}
    (h : L.program here root = .error (.cycle names)) :
    ∃ start lead around loop, L.tree.canonical here root = .ok start ∧
      L.Lasso start lead around loop ∧
      names = (lead ++ around :: loop ++ [around]).map Place.path ∧
      (here.Plain → names.dropLast.Nodup ∧ (names.head? = names.getLast? ↔ lead = [])) := by
  obtain ⟨a, o, y, line, n, ⟨start, hstart, ha⟩, hao, hid, hreach, hasks, hnames⟩ :=
    program_cycle hL h
  obtain ⟨way, hway⟩ := exists_way (ha.trans hao)
  have hnumbered := hway.numbered hreach
  have hmem : a.place ∈ way := by
    obtain ⟨q, hq, hplace⟩ := Result.exists_of_mem_right hnumbered.flip hid
    obtain rfl := Option.some.inj ((hao.getElem?_places hreach).symm.trans hplace)
    exact hq
  obtain ⟨lead, loop, rfl, hlasso⟩ := hway.exists_lasso hmem (hreach.loads hasks)
  rw [filterMap_of_forall₂ hnumbered, ← List.map_singleton, ← List.map_append] at hnames
  refine ⟨start, lead, a.place, loop, hstart, hlasso, hnames, fun hhere => ?_⟩
  have hplain : start.Plain := FileTree.plain_canonical hhere hstart
  rw [hnames]
  refine ⟨?_, hlasso.head?_eq_getLast?_iff hplain⟩
  rw [List.map_append, List.map_singleton, List.dropLast_concat]
  exact hlasso.nodup_paths hplain

def selfLoad : Loader where
  tree := ⟨[
    (["a"], .file "#load \"b\"".toUTF8.toList),
    (["b"], .file "#load \"b\"".toUTF8.toList)]⟩

theorem program_selfLoad : selfLoad.program [] "/a" = .error (.cycle ["/a", "/b", "/b"]) := by
  cbv

theorem program_lasso_selfLoad : ∃ start lead around loop, selfLoad.Lasso start lead around loop ∧
    ["/a", "/b", "/b"] = (lead ++ around :: loop ++ [around]).map Place.path ∧ lead ≠ [] := by
  obtain ⟨start, lead, around, loop, -, hlasso, hnames, hlead⟩ := program_lasso rfl program_selfLoad
  obtain ⟨-, hhead⟩ := hlead Place.plain_nil
  exact ⟨start, lead, around, loop, hlasso, hnames, fun hnil => absurd (hhead.2 hnil) (by decide)⟩

theorem cycle_not_always_closed : ¬ ∀ (L : Loader) (here : Place) (root : String)
    (names : List String), L.reader = .standard → L.program here root = .error (.cycle names) →
    names.head? = names.getLast? := by
  intro h
  exact absurd (h selfLoad [] "/a" _ rfl program_selfLoad) (by decide)

end Loader

end CueSheet
