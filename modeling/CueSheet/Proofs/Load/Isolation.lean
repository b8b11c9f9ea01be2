import CueSheet.Proofs.Load.Graph
import CueSheet.Proofs.Load.Renumber

/-!
What a file amounts to does not depend on who loads it. The lines of a file have a meaning relative to
the tables of the files that they ask for, and nothing else of a load enters into it; so two loads
that finish a file leave the same table, but for the numbers of the files.
-/

namespace CueSheet

namespace Loader

section Meaning

variable (L : Loader) (tables : Place → Sheet → Prop) (here : Place)

inductive Obeys (n : Nat) (s : Sheet) : Directive → Sheet → Prop
  | device {d : DeviceDecl} {s' : Sheet} : Linker.declare here.path n d s = .ok s' →
    Obeys n s (.device d) s'
  | load {d : LoadDecl} {q : Place} {t s' : Sheet} :
    L.tree.canonical [] (Path.join (Place.path here.dropLast) d.path) = .ok q → tables q t →
    Linker.link here.path n t d.renames s = (.ok (), s') → Obeys n s (.load d) s'
  | priority (seconds : Int) : Obeys n s (.priority seconds) s

inductive Makes (d : Draft) (line : List Char) (n : Nat) : Draft → Prop
  | plain : Directive.isDirective (Text.trim line) = false →
    (d.read n (Text.trim line)).refusal = none → Makes d line n (d.read n (Text.trim line)).draft
  | directive {directive : Directive} {s : Sheet} : Directive.isDirective (Text.trim line) = true →
    Directive.read (Text.trim line) = .ok directive →
    L.Obeys tables here n d.sheet directive s → Makes d line n { d with sheet := s }

inductive MakesAll : Draft → List (List Char × Nat) → Draft → Prop
  | nil {d : Draft} : MakesAll d [] d
  | cons {d d' d'' : Draft} {line : List Char} {n : Nat} {rest : List (List Char × Nat)} :
    L.Makes tables here d line n d' → MakesAll d' rest d'' → MakesAll d ((line, n) :: rest) d''

/-- `s` is what the file at `here` amounts to under the number `i`. -/
def Means (i : Nat) (s : Sheet) : Prop :=
  ∃ texts d, (L.tree.lines here).zipIdx 1 = legible texts ∧
    L.MakesAll tables here ⟨{ file := i, path := here.path }, none⟩ texts d ∧ d.sheet = s

end Meaning

variable {L : Loader} {tables tables' : Place → Sheet → Prop} {here : Place} {line : List Char}
  {n : Nat}

section Mono

theorem Obeys.mono (hsub : ∀ q t, tables q t → tables' q t) {s s' : Sheet} {directive : Directive}
    (h : L.Obeys tables here n s directive s') : L.Obeys tables' here n s directive s' := by
  cases h with
  | device hd => exact .device hd
  | load hq ht hlink => exact .load hq (hsub _ _ ht) hlink
  | priority seconds => exact .priority seconds

theorem Makes.mono (hsub : ∀ q t, tables q t → tables' q t) {d d' : Draft}
    (h : L.Makes tables here d line n d') : L.Makes tables' here d line n d' := by
  cases h with
  | plain hd hr => exact .plain hd hr
  | directive hd hread hobeys => exact .directive hd hread (hobeys.mono hsub)

theorem MakesAll.mono (hsub : ∀ q t, tables q t → tables' q t) {d d' : Draft}
    {texts : List (List Char × Nat)} (h : L.MakesAll tables here d texts d') :
    L.MakesAll tables' here d texts d' := by
  induction h with
  | nil => exact .nil
  | cons hline _ ih => exact .cons (hline.mono hsub) ih

theorem Means.mono (hsub : ∀ q t, tables q t → tables' q t) {i : Nat} {s : Sheet}
    (h : L.Means tables here i s) : L.Means tables' here i s := by
  obtain ⟨texts, d, hlines, hall, hs⟩ := h
  exact ⟨texts, d, hlines, hall.mono hsub, hs⟩

end Mono

section Renumber

variable {ρ : Nat → Nat}

def Matches (L : Loader) (ρ : Nat → Nat) (tables tables' : Place → Sheet → Prop) (here : Place)
    (line : List Char) : Prop :=
  ∀ q t t', L.Asks here line q → tables q t → tables' q t' → t' = t.renumber ρ

theorem Obeys.renumber (hmatch : L.Matches ρ tables tables' here line) {s s₁ s₂ : Sheet}
    {directive : Directive} (hd : Directive.isDirective (Text.trim line) = true)
    (hread : Directive.read (Text.trim line) = .ok directive)
    (h : L.Obeys tables here n s directive s₁)
    (h' : L.Obeys tables' here n (s.renumber ρ) directive s₂) : s₂ = s₁.renumber ρ := by
  cases h with
  | device h =>
    cases h' with
    | device h' =>
      rw [Linker.renumber_declare, h] at h'
      exact (Except.ok.inj h').symm
  | @load d q t _ hq ht hlink =>
    cases h' with
    | @load _ q' t' _ hq' ht' hlink' =>
      obtain rfl : q = q' := Except.ok.inj (hq.symm.trans hq')
      rw [hmatch q t t' ⟨hd, d, hread, hq⟩ ht ht', Linker.renumber_link, hlink] at hlink'
      exact (Prod.mk.inj hlink').2.symm
  | priority seconds =>
    cases h' with
    | priority => rfl

theorem Makes.renumber (hmatch : L.Matches ρ tables tables' here line) {d d₁ d₂ : Draft}
    (h : L.Makes tables here d line n d₁) (h' : L.Makes tables' here (d.renumber ρ) line n d₂) :
    d₂ = d₁.renumber ρ := by
  cases h with
  | plain hd _ =>
    cases h' with
    | plain _ _ =>
      rw [Draft.renumber_read]
      rfl
    | directive hd' _ _ =>
      rw [hd] at hd'
      cases hd'
  | directive hd hread hobeys =>
    cases h' with
    | plain hd' _ =>
      rw [hd] at hd'
      cases hd'
    | directive _ hread' hobeys' =>
      obtain rfl := Except.ok.inj (hread.symm.trans hread')
      rw [hobeys.renumber hmatch hd hread hobeys']
      rfl

theorem MakesAll.renumber {texts : List (List Char × Nat)}
    (hmatch : ∀ a ∈ texts, L.Matches ρ tables tables' here a.1) {d d₁ d₂ : Draft}
    (h : L.MakesAll tables here d texts d₁)
    (h' : L.MakesAll tables' here (d.renumber ρ) texts d₂) : d₂ = d₁.renumber ρ := by
  induction h generalizing d₂ with
  | nil =>
    cases h'
    rfl
  | cons hline _ ih =>
    cases h' with
    | cons hline' hrest' =>
      obtain ⟨hfirst, hmatch⟩ := List.forall_mem_cons.1 hmatch
      rw [hline.renumber hfirst hline'] at hrest'
      exact ih hmatch hrest'

end Renumber

section Meant

def finishedAt (st : Linker) (q : Place) (t : Sheet) : Prop := ∃ i, st.Finished i q t

theorem finishedAt_later {st st' : Linker} (h : st.Later st') (q : Place) (t : Sheet)
    (hq : finishedAt st q t) : finishedAt st' q t := by
  obtain ⟨i, hi⟩ := hq
  exact ⟨i, h.finished hi⟩

variable {o : Opening} {x y : Linker × Draft}

theorem makes_of_handling (hL : L.reader = .standard) (h : L.handling o x (line, n) = .ok y) :
    L.Makes (finishedAt y.1) o.place x.2 line n y.2 := by
  cases handled_of_handle h with
  | plain hd hr => exact .plain hd hr
  | device hd hread hdeclare => exact .directive hd hread (.device hdeclare)
  | @priority seconds _ hd hread _ => exact .directive hd hread (.priority seconds)
  | load hd hread hq hfile hknown hlink =>
    exact .directive hd hread (.load hq ⟨_, fileAt_place hL hfile, hknown⟩ hlink)

theorem makesAll_of_run (hL : L.reader = .standard) {texts : List (List Char × Nat)}
    (hx : x.1.Sound) (h : texts.foldlM (L.handling o) x = .ok y) :
    L.MakesAll (finishedAt y.1) o.place x.2 texts y.2 := by
  induction texts generalizing x with
  | nil =>
    cases h
    exact .nil
  | cons a rest ih =>
    obtain ⟨line, n⟩ := a
    obtain ⟨z, hz, hrest⟩ := foldlM_cons_eq_ok h
    have hsound : z.1.Sound := (run_later (o := o) hL hx ((foldlM_one (line, n) x).trans hz)).1
    have hlater : z.1.Later y.1 := (run_later hL hsound hrest).2
    -- the tables that this line saw are still there when the last one is read
    exact .cons ((makes_of_handling hL hz).mono (finishedAt_later hlater)) (ih hsound hrest)

variable {place : Place} {st : Linker} {id : Nat}

theorem means_of_finished (hL : L.reader = .standard)
    (h : L.outcome (L.first place) = .ok (st, id)) {i : Nat} {q : Place} {s : Sheet}
    (hf : st.Finished i q s) : L.Means (finishedAt st) q i s := by
  refine finished_first hL (R := fun st i q s => L.Means (finishedAt st) q i s)
    (fun st st' i q s hlater hmeans => hmeans.mono (finishedAt_later hlater))
    (fun o texts y ho hall _ => ?_) h hf
  exact ⟨texts, y.2, hall.lines,
    makesAll_of_run hL (Linker.sound_opened ho o.place) hall.handled, rfl⟩

end Meant

section Isolation

variable {ρ : Nat → Nat} {place place' : Place} {st st' : Linker} {id id' : Nat}

theorem renumber_of_finished (hL : L.reader = .standard)
    (h : L.outcome (L.first place) = .ok (st, id))
    (h' : L.outcome (L.first place') = .ok (st', id'))
    (hρ : ∀ i j q, st.places[i]? = some q → st'.places[j]? = some q → ρ i = j)
    {i j : Nat} {q : Place} {s s' : Sheet} (hs : st.Finished i q s) (hs' : st'.Finished j q s') :
    s' = s.renumber ρ := by
  -- along the graph: what a file leads to was finished before it in both loads
  induction acc_of_finished hL h hs generalizing i j s s' with
  | intro q _ ih =>
    obtain ⟨texts, d, hlines, hall, rfl⟩ := means_of_finished hL h hs
    obtain ⟨texts', d', hlines', hall', rfl⟩ := means_of_finished hL h' hs'
    obtain rfl : texts = texts' := legible_injective (hlines.symm.trans hlines')
    have hmatch : ∀ a ∈ texts, L.Matches ρ (finishedAt st) (finishedAt st') q a.1 := by
      rintro a ha r t t' hasks ⟨k, ht⟩ ⟨k', ht'⟩
      exact ih r ((loads_iff hlines).2 ⟨a, ha, hasks⟩) ht ht'
    rw [← hρ i j q hs.1 hs'.1] at hall'
    rw [hall.renumber hmatch hall']
    rfl

/-- The number that file `i` of one load has in another; a file that the other does not know gets a
number behind all of its files. -/
def renumbering (places places' : List Place) (i : Nat) : Nat :=
  match (places[i]?).bind places'.idxOf? with
  | some j => j
  | none => places'.length + i

section Renumbering

variable {places places' : List Place} {i j : Nat} {q : Place}

theorem renumbering_cases (places places' : List Place) (i : Nat) :
    (∃ q, places[i]? = some q ∧ places'[renumbering places places' i]? = some q) ∨
      (∀ q, places[i]? = some q → q ∉ places') ∧
        renumbering places places' i = places'.length + i := by
  rw [renumbering]
  cases hq : places[i]? with
  | none => exact .inr ⟨by rintro q ⟨⟩, rfl⟩
  | some q =>
    rw [Option.bind_some]
    cases hidx : places'.idxOf? q with
    | none =>
      refine .inr ⟨?_, rfl⟩
      rintro _ ⟨⟩
      exact List.idxOf?_eq_none_iff.1 hidx
    | some j => exact .inl ⟨q, rfl, getElem?_of_idxOf? hidx⟩

theorem renumbering_eq_iff (hnodup' : places'.Nodup) {r : Place} (hq : places[i]? = some q)
    (hr : places'[j]? = some r) : renumbering places places' i = j ↔ q = r := by
  obtain ⟨hj, -⟩ := List.getElem?_eq_some_iff.1 hr
  rcases renumbering_cases places places' i with ⟨q', hq', hsame⟩ | ⟨hnot, hfar⟩
  · obtain rfl : q = q' := Option.some.inj (hq.symm.trans hq')
    constructor
    · rintro rfl
      exact Option.some.inj (hsame.symm.trans hr)
    · rintro rfl
      exact ((List.getElem?_inj hj hnodup').1 (hr.trans hsame.symm)).symm
  · constructor
    · intro he
      omega
    · rintro rfl
      exact absurd (List.mem_of_getElem? hr) (hnot q hq)

theorem renumbering_injective (hnodup : places.Nodup) :
    Function.Injective (renumbering places places') := by
  intro i j he
  rcases renumbering_cases places places' i with ⟨q, hq, hi⟩ | ⟨-, hi⟩ <;>
    rcases renumbering_cases places places' j with ⟨r, hr, hj⟩ | ⟨-, hj⟩
  · have hqr : q = r := Option.some.inj (hi.symm.trans (he ▸ hj))
    obtain ⟨hlt, -⟩ := List.getElem?_eq_some_iff.1 hq
    exact (List.getElem?_inj hlt hnodup).1 (hq.trans (hqr ▸ hr.symm))
  · obtain ⟨hlt, -⟩ := List.getElem?_eq_some_iff.1 hi
    omega
  · obtain ⟨hlt, -⟩ := List.getElem?_eq_some_iff.1 hj
    omega
  · omega

end Renumbering

end Isolation

variable {here here' : Place} {root root' : String} {p p' : Program}

/-- Two loads that both open a file leave the same table for it, whatever else they load: one change of
numbers takes all common files of the first to those of the second. -/
theorem program_isolated (hL : L.reader = .standard) (h : L.program here root = .ok p)
    (h' : L.program here' root' = .ok p') :
    ∃ ρ : Nat → Nat, Function.Injective ρ ∧ ∀ o o', L.Opened here root o → L.Opened here' root' o' →
      (ρ o.id = o'.id ↔ o.place = o'.place) ∧
        (o.place = o'.place → ∃ s, p.Holds o.id s ∧ p'.Holds o'.id (s.renumber ρ)) := by
  obtain ⟨place, st, id, hplace, houtcome, hsheets, -⟩ := program_eq_ok h
  obtain ⟨place', st', id', hplace', houtcome', hsheets', -⟩ := program_eq_ok h'
  have hnodup : st.places.Nodup := (underway_first hL houtcome).distinct
  have hnodup' : st'.places.Nodup := (underway_first hL houtcome').distinct
  refine ⟨renumbering st.places st'.places, renumbering_injective hnodup, fun o o' ho ho' => ?_⟩
  have hq := (getElem?_places_iff hL hplace houtcome).2 ⟨o, ho, rfl, rfl⟩
  have hq' := (getElem?_places_iff hL hplace' houtcome').2 ⟨o', ho', rfl, rfl⟩
  refine ⟨renumbering_eq_iff hnodup' hq hq', fun he => ?_⟩
  obtain ⟨s, hs⟩ := exists_finished_of_outcome hL houtcome hq
  obtain ⟨s', hs'⟩ := exists_finished_of_outcome hL houtcome' hq'
  have hsame : s' = s.renumber (renumbering st.places st'.places) :=
    renumber_of_finished hL houtcome houtcome'
      (fun i j q hi hj => (renumbering_eq_iff hnodup' hi hj).2 rfl) hs (he ▸ hs')
  exact ⟨s, (holds_iff hsheets).2 hs.2, (holds_iff hsheets').2 (hsame ▸ hs'.2)⟩

def swappedLoads : Loader where
  tree := ⟨[
    (["a"], .file "#load \"x\"\n#load \"f\"".toUTF8.toList),
    (["b"], .file "#load \"f\"".toUTF8.toList),
    (["f"], .file "#device fan\n#load \"x\"\nproc run \x7b\nfan\ngo\n\x7d".toUTF8.toList),
    (["x"], .file "proc go \x7b\n\x7d".toUTF8.toList)]⟩

theorem program_isolated_swappedLoads : ∃ p p',
    swappedLoads.program [] "/a" = .ok p ∧ swappedLoads.program [] "/b" = .ok p' ∧
      p.sheets.map (·.path) = ["/a", "/x", "/f"] ∧ p'.sheets.map (·.path) = ["/b", "/f", "/x"] ∧
      ∃ ρ : Nat → Nat, Function.Injective ρ ∧ ρ 2 = 1 ∧
        ∃ s, p.Holds 2 s ∧ p'.Holds 1 (s.renumber ρ) := by
  have hpaths : (swappedLoads.program [] "/a").map (·.sheets.map (·.path)) =
      .ok ["/a", "/x", "/f"] := by
    cbv
  have hpaths' : (swappedLoads.program [] "/b").map (·.sheets.map (·.path)) =
      .ok ["/b", "/f", "/x"] := by
    cbv
  obtain ⟨p, hp, hlist⟩ := Result.map_eq_ok_iff.1 hpaths
  obtain ⟨p', hp', hlist'⟩ := Result.map_eq_ok_iff.1 hpaths'
  obtain ⟨ρ, hinj, hρ⟩ := program_isolated rfl hp hp'
  have hf : Place.Plain ["f"] := by simp [Place.Plain]
  obtain ⟨o, ho, hid, hplace⟩ := exists_opened rfl Place.plain_nil hp (i := 2) hf (by rw [hlist]; rfl)
  obtain ⟨o', ho', hid', hplace'⟩ :=
    exists_opened rfl Place.plain_nil hp' (i := 1) hf (by rw [hlist']; rfl)
  obtain ⟨hnumber, hsheet⟩ := hρ o o' ho ho'
  have hsame : o.place = o'.place := hplace.trans hplace'.symm
  rw [hid, hid'] at hnumber hsheet
  exact ⟨p, p', hp, hp', hlist, hlist', ρ, hinj, hnumber.2 hsame, hsheet hsame⟩

end Loader

end CueSheet
