import CueSheet.Proofs.Load.Ending
import Mathlib.Logic.Relation

/-!
The files that a load opens, whether it succeeds or not, each with what was seen when it was opened.
A file opens another where the lines before a directive are handled and the directive asks for a
place that was not seen before.
-/

namespace CueSheet

/-- A file that is about to be read, and the files that are being read around it. -/
structure Opening where
  allowance : Nat
  chain : List Nat
  linker : Linker
  place : Place

namespace Opening

def id (o : Opening) : Nat := o.linker.places.length

def ownChain (o : Opening) : List Nat := o.chain ++ [o.id]

def blank (o : Opening) : Draft := ⟨{ file := o.id, path := o.place.path }, none⟩

def start (o : Opening) : Linker × Draft := (o.linker.opened o.place, o.blank)

end Opening

namespace Linker

def Finished (st : Linker) (i : Nat) (p : Place) (s : Sheet) : Prop :=
  st.places[i]? = some p ∧ st.Known i s

structure Later (st st' : Linker) : Prop where
  places : st.places <+: st'.places
  known : ∀ i s, st.Known i s → st'.Known i s

variable {st st' st'' : Linker}

theorem Later.refl (st : Linker) : st.Later st := ⟨List.prefix_refl _, fun _ _ h => h⟩

theorem Later.trans (h : st.Later st') (h' : st'.Later st'') : st.Later st'' :=
  ⟨h.places.trans h'.places, fun i s hk => h'.known i s (h.known i s hk)⟩

theorem Later.place {i : Nat} {p : Place} (h : st.Later st') (hp : st.places[i]? = some p) :
    st'.places[i]? = some p := by
  obtain ⟨hi, rfl⟩ := List.getElem?_eq_some_iff.1 hp
  exact List.prefix_iff_getElem?.1 h.places i hi

theorem Later.finished {i : Nat} {p : Place} {s : Sheet} (h : st.Later st')
    (hf : st.Finished i p s) : st'.Finished i p s :=
  ⟨h.place hf.1, h.known i s hf.2⟩

theorem getElem?_of_prefix {ps qs : List Place} {p : Place} (h : ps ++ [p] <+: qs) :
    qs[ps.length]? = some p := by
  obtain ⟨r, rfl⟩ := h
  simp

theorem later_opened (st : Linker) (p : Place) : st.Later (st.opened p) :=
  ⟨List.prefix_append _ _, fun _ _ h => (st.extends_opened p).known h⟩

theorem later_set {i : Nat} (hi : st.sheets[i]? = some none) (s : Sheet) :
    st.Later { st with sheets := st.sheets.set i (some s) } := by
  refine ⟨List.prefix_refl _, fun j t hk => ?_⟩
  have hne : i ≠ j := by
    rintro rfl
    rw [Known, hi] at hk
    cases hk
  exact (List.getElem?_set_ne hne).trans hk

theorem known_set {i j : Nat} {s t : Sheet}
    (h : Known { st with sheets := st.sheets.set i (some s) } j t) :
    j = i ∧ t = s ∨ st.Known j t := by
  rw [Known, List.getElem?_set] at h
  split_ifs at h with hij hlt
  · cases h
    exact .inl ⟨hij.symm, rfl⟩
  · exact .inr h

end Linker

namespace Loader

section Definitions

variable (L : Loader)

def outcome (o : Opening) : Except LoadError (Linker × Nat) :=
  L.visit o.allowance o.chain o.linker o.place

def handling (o : Opening) : Linker × Draft → List Char × Nat → Except LoadError (Linker × Draft) :=
  L.handle (L.visit (o.allowance - 1) o.ownChain) o.ownChain o.place

inductive Reaches (o : Opening) (y : Linker × Draft) (line : List Char) (n : Nat) : Prop
  | intro {before : List (List Char × Nat)} {after : List FileLine} :
    (L.tree.lines o.place).zipIdx 1 = legible before ++ (.ok line, n) :: after →
    before.foldlM (L.handling o) o.start = .ok y →
    Directive.isDirective (Text.trim line) = true → Reaches o y line n

structure ReadsAll (o : Opening) (texts : List (List Char × Nat)) (y : Linker × Draft) : Prop where
  lines : (L.tree.lines o.place).zipIdx 1 = legible texts
  handled : texts.foldlM (L.handling o) o.start = .ok y
  closed : y.2.finish = .ok ()
  defined : y.2.sheet.undefined? = none

inductive Opens (o : Opening) : Opening → Prop
  | intro {y : Linker × Draft} {line : List Char} {n : Nat} {q : Place} : L.Reaches o y line n →
    L.Asks o.place line q → q ∉ y.1.places → Opens o ⟨o.allowance - 1, o.ownChain, y.1, q⟩

abbrev OpensAll (o o' : Opening) : Prop := Relation.ReflTransGen L.Opens o o'

end Definitions

variable {L : Loader}

section Lines

variable {α β ε : Type} {f : β → α → Except ε β}

theorem foldlM_append_eq_ok {l r : List α} {x z : β} (h : (l ++ r).foldlM f x = .ok z) :
    ∃ y, l.foldlM f x = .ok y ∧ r.foldlM f y = .ok z := by
  rw [List.foldlM_append] at h
  exact Result.bind_eq_ok_iff.1 h

theorem foldlM_cons_eq_ok {a : α} {r : List α} {x z : β} (h : (a :: r).foldlM f x = .ok z) :
    ∃ y, f x a = .ok y ∧ r.foldlM f y = .ok z := by
  rw [List.foldlM_cons] at h
  exact Result.bind_eq_ok_iff.1 h

theorem foldlM_one (a : α) (x : β) : [a].foldlM f x = f x a := by
  rw [List.foldlM_cons]
  exact bind_pure _

theorem foldlM_keeps {P : β → Prop} (hf : ∀ x a y, f x a = .ok y → P x → P y) {l : List α} {x y : β}
    (h : l.foldlM f x = .ok y) (hx : P x) : P y := by
  induction l generalizing x with
  | nil =>
    cases h
    exact hx
  | cons a r ih =>
    obtain ⟨z, hz, h⟩ := foldlM_cons_eq_ok h
    exact ih h (hf x a z hz hx)

end Lines

theorem legible_injective : Function.Injective legible :=
  List.map_injective_iff.2 fun a b h => by
    obtain ⟨h₁, h₂⟩ := Prod.mk.inj h
    exact Prod.ext (Except.ok.inj h₁) h₂

theorem exists_rest {texts before : List (List Char × Nat)} {line : List Char} {n : Nat}
    {after : List FileLine} (h : legible texts = legible before ++ (.ok line, n) :: after) :
    ∃ rest, texts = before ++ (line, n) :: rest := by
  obtain ⟨l₁, l₂, rfl, hl₁, hl₂⟩ := List.map_eq_append_iff.1 h
  obtain ⟨⟨a, m⟩, rest, rfl, ha, -⟩ := List.map_eq_cons_iff.1 hl₂
  obtain ⟨ha, rfl⟩ := Prod.mk.inj ha
  cases ha
  exact ⟨rest, by rw [legible_injective hl₁]⟩

def Proceeds (L : Loader) (o : Opening) (y : Linker × Draft) (line : List Char) (n : Nat)
    (y' : Linker × Draft) : Prop :=
  ∃ (z : Linker × Draft) (rest : List (List Char × Nat)), L.handling o y (line, n) = .ok z ∧
    rest.foldlM (L.handling o) z = .ok y'

variable {o o' : Opening} {y y' : Linker × Draft} {line line' : List Char} {n n' : Nat}
  {texts : List (List Char × Nat)}

theorem proceeds_of_longer {before before' : List (List Char × Nat)} {more : List FileLine}
    (hbefore : before.foldlM (L.handling o) o.start = .ok y)
    (hbefore' : before'.foldlM (L.handling o) o.start = .ok y')
    (h : legible before' = legible before ++ (.ok line, n) :: more) : L.Proceeds o y line n y' := by
  obtain ⟨rest, rfl⟩ := exists_rest h
  obtain ⟨x, hx, hrest⟩ := foldlM_append_eq_ok hbefore'
  obtain rfl : y = x := Except.ok.inj (hbefore.symm.trans hx)
  obtain ⟨z, hz, hrest⟩ := foldlM_cons_eq_ok hrest
  exact ⟨z, rest, hz, hrest⟩

theorem ReadsAll.proceeds (h : L.ReadsAll o texts y') (hr : L.Reaches o y line n) :
    L.Proceeds o y line n y' := by
  obtain ⟨hlines, hbefore, -⟩ := hr
  exact proceeds_of_longer hbefore h.handled (h.lines.symm.trans hlines)

/-- What holds when a file is opened and is kept by each of its lines holds when all are handled. Of a
directive that keeps it one may know that it is reached. -/
theorem ReadsAll.keeps {P : Linker × Draft → Prop} (h : L.ReadsAll o texts y) (hstart : P o.start)
    (hstep : ∀ x line n z, (Directive.isDirective (Text.trim line) = true → L.Reaches o x line n) →
      L.handling o x (line, n) = .ok z → P x → P z) : P y := by
  -- on the lines that are left; `before` keeps the way to each directive among them
  have hrest : ∀ (rest before : List (List Char × Nat)) (x : Linker × Draft), texts = before ++ rest →
      before.foldlM (L.handling o) o.start = .ok x → rest.foldlM (L.handling o) x = .ok y →
      P x → P y := by
    intro rest
    induction rest with
    | nil =>
      rintro before x - - hfold hx
      cases hfold
      exact hx
    | cons a rest ih =>
      obtain ⟨line, n⟩ := a
      intro before x htexts hbefore hfold hx
      obtain ⟨z, hz, hrest⟩ := foldlM_cons_eq_ok hfold
      have hsplit : (L.tree.lines o.place).zipIdx 1 =
          legible before ++ (.ok line, n) :: legible rest := by
        rw [h.lines, htexts, legible, List.map_append]
        rfl
      have hmore : (before ++ [(line, n)]).foldlM (L.handling o) o.start = .ok z := by
        rw [List.foldlM_append, hbefore]
        exact (foldlM_one (line, n) x).trans hz
      exact ih (before ++ [(line, n)]) z (by rw [htexts, List.append_assoc]; rfl) hmore hrest
        (hstep x line n z (fun hd => .intro hsplit hbefore hd) hz hx)
  exact hrest texts [] o.start rfl rfl h.handled hstart

theorem Reaches.compare (h : L.Reaches o y line n) (h' : L.Reaches o y' line' n') :
    (y = y' ∧ line = line') ∨ L.Proceeds o y line n y' ∨ L.Proceeds o y' line' n' y := by
  obtain ⟨hlines, hbefore, -⟩ := h
  obtain ⟨hlines', hbefore', -⟩ := h'
  rcases List.append_eq_append_iff.1 (hlines.symm.trans hlines') with
    ⟨more, hmore, hrest⟩ | ⟨more, hmore, hrest⟩
  · cases more with
    | nil =>
      rw [List.append_nil] at hmore
      rw [legible_injective hmore, hbefore] at hbefore'
      obtain ⟨ha, -⟩ := List.cons.inj hrest
      exact .inl ⟨Except.ok.inj hbefore', Except.ok.inj (Prod.mk.inj ha).1⟩
    | cons a more =>
      obtain ⟨rfl, -⟩ := List.cons.inj hrest
      exact .inr (.inl (proceeds_of_longer hbefore hbefore' hmore))
  · cases more with
    | nil =>
      rw [List.append_nil] at hmore
      rw [legible_injective hmore, hbefore'] at hbefore
      obtain ⟨ha, -⟩ := List.cons.inj hrest
      exact .inl ⟨(Except.ok.inj hbefore).symm, (Except.ok.inj (Prod.mk.inj ha).1).symm⟩
    | cons a more =>
      obtain ⟨rfl, -⟩ := List.cons.inj hrest
      exact .inr (.inr (proceeds_of_longer hbefore' hbefore hmore))

theorem exists_ending (hL : L.reader = .standard) (hpos : 0 < o.allowance) :
    ∃ r, Ending L (L.visit (o.allowance - 1) o.ownChain) o.ownChain o.place o.start
      ((L.tree.lines o.place).zipIdx 1) r ∧
      L.outcome o = r.map fun y =>
        ({ y.1 with sheets := y.1.sheets.set o.id (some y.2) }, o.id) := by
  obtain ⟨allowance, chain, linker, place⟩ := o
  cases allowance with
  | zero => cases hpos
  | succ m =>
    exact ⟨_, ending_reading hL _ (Pipe.idle_start _ _) rfl, visit_eq_reading m chain linker place⟩

theorem outcome_zero (h : o.allowance = 0) : L.outcome o = .error (.readerStopped o.place.path) := by
  rw [outcome, h]
  rfl

theorem readsAll_of_outcome (hL : L.reader = .standard) {st : Linker} {id : Nat}
    (h : L.outcome o = .ok (st, id)) :
    0 < o.allowance ∧ ∃ texts y, L.ReadsAll o texts y ∧ id = o.id ∧
      st = { y.1 with sheets := y.1.sheets.set o.id (some y.2.sheet) } := by
  rcases Nat.eq_zero_or_pos o.allowance with hzero | hpos
  · rw [outcome_zero hzero] at h
    cases h
  obtain ⟨r, hending, houtcome⟩ := exists_ending (L := L) hL hpos
  obtain ⟨⟨st₁, sheet⟩, rfl, he⟩ := Result.map_eq_ok_iff.1 (houtcome.symm.trans h)
  cases hending with
  | @through texts y hlines hfold hfinish hdef =>
    cases he
    exact ⟨hpos, texts, y, ⟨hlines, hfold, hfinish, hdef⟩, rfl, rfl⟩

section Keeping

variable {P : Linker → Prop} {x : Linker × Draft}

theorem handling_keeps {a : List Char × Nat} (hv : Keeps P (L.visit (o.allowance - 1) o.ownChain))
    (hw : ∀ st window, P st → P { st with window := window }) (h : L.handling o x a = .ok y)
    (hP : P x.1) : P y.1 :=
  (advance_handle h).keeps hv hw hP

theorem run_keeps {l : List (List Char × Nat)}
    (hv : Keeps P (L.visit (o.allowance - 1) o.ownChain))
    (hw : ∀ st window, P st → P { st with window := window })
    (h : l.foldlM (L.handling o) x = .ok y) (hP : P x.1) : P y.1 :=
  foldlM_keeps (P := fun x => P x.1) (fun _ _ _ h hx => handling_keeps hv hw h hx) h hP

end Keeping

theorem visit_places (m : Nat) (chain : List Nat) (ps : List Place) :
    Keeps (fun st => ps <+: st.places) (L.visit m chain) := by
  induction m generalizing chain with
  | zero =>
    intro st p st' id h
    cases h
  | succ m ih =>
    intro st p st' id h hst
    obtain ⟨⟨st₁, pipe⟩, hread, h⟩ := Result.bind_eq_ok_iff.1 h
    obtain ⟨sheet, -, h⟩ := Result.bind_eq_ok_iff.1 h
    cases h
    have hst₁ : ps <+: st₁.places :=
      keeps_readLines (P := fun st => ps <+: st.places) (ih _) (fun _ _ h => h)
        (hst.trans (List.prefix_append _ _)) hread
    exact hst₁

theorem Reaches.places (h : L.Reaches o y line n) :
    o.linker.places ++ [o.place] <+: y.1.places := by
  obtain ⟨-, hbefore, -⟩ := h
  exact run_keeps (P := fun st => o.linker.places ++ [o.place] <+: st.places)
    (visit_places _ _ _) (fun _ _ h => h) hbefore (List.prefix_refl _)

theorem ReadsAll.places (h : L.ReadsAll o texts y) : o.linker.places ++ [o.place] <+: y.1.places :=
  run_keeps (P := fun st => o.linker.places ++ [o.place] <+: st.places)
    (visit_places _ _ _) (fun _ _ h => h) h.handled (List.prefix_refl _)

theorem outcome_places (hL : L.reader = .standard) {st : Linker} {id : Nat}
    (h : L.outcome o = .ok (st, id)) : id = o.id ∧ o.linker.places ++ [o.place] <+: st.places := by
  obtain ⟨-, texts, y, hall, rfl, rfl⟩ := readsAll_of_outcome hL h
  exact ⟨rfl, hall.places⟩

theorem fileAt_place (hL : L.reader = .standard) {m : Nat} {chain : List Nat} {st st' : Linker}
    {q : Place} {id : Nat} (h : fileAt (L.visit m chain) chain st q = .ok (st', id)) :
    st'.places[id]? = some q := by
  rcases fileAt_eq_ok h with ⟨-, hvisit⟩ | ⟨hplace, -, rfl⟩
  · obtain ⟨rfl, hplaces⟩ := outcome_places (o := ⟨m, chain, st, q⟩) hL hvisit
    exact Linker.getElem?_of_prefix hplaces
  · exact hplace

theorem Proceeds.places (h : L.Proceeds o y line n y') {q : Place}
    (hq : L.Asks o.place line q) (hnew : q ∉ y.1.places) :
    ∃ st id, L.visit (o.allowance - 1) o.ownChain y.1 q = .ok (st, id) ∧
      st.places <+: y'.1.places := by
  obtain ⟨z, rest, hz, hrest⟩ := h
  have hlater : z.1.places <+: y'.1.places :=
    run_keeps (P := fun st => z.1.places <+: st.places) (visit_places _ _ _)
      (fun _ _ h => h) hrest (List.prefix_refl _)
  rcases (advance_handle hz).asked hq with ⟨id, s, hplace, -⟩ | ⟨-, id, s, hvisit, -⟩
  · exact absurd (List.mem_of_getElem? hplace) hnew
  · exact ⟨z.1, id, hvisit, hlater⟩

end Loader

end CueSheet
