import CueSheet.Proofs.Load.Blame
import CueSheet.Proofs.Load.Underway

/-!
A load goes along an acyclic graph and opens each file once. The order in which files are opened is
read off the places that were seen when each was opened; that no directive leads back is read off the
order in which files are finished.
-/

namespace CueSheet

namespace Loader

variable {L : Loader} {o o' c : Opening} {y y' : Linker × Draft} {line line' : List Char} {n n' : Nat}

section Order

theorem Opens.fresh (h : L.Opens o c) : c.place ∉ c.linker.places := by
  obtain ⟨-, -, hnew⟩ := h
  exact hnew

theorem Opens.places (h : L.Opens o c) : o.linker.places ++ [o.place] <+: c.linker.places := by
  obtain ⟨hreach, -, -⟩ := h
  exact hreach.places

theorem OpensAll.eq_or_places (h : L.OpensAll o c) :
    c = o ∨ o.linker.places ++ [o.place] <+: c.linker.places := by
  induction h with
  | refl => exact .inl rfl
  | tail _ hopens ih =>
    rcases ih with rfl | ih
    · exact .inr hopens.places
    · exact .inr (ih.trans ((List.prefix_append _ _).trans hopens.places))

theorem OpensAll.places (h : L.OpensAll o c) :
    o.linker.places ++ [o.place] <+: c.linker.places ++ [c.place] := by
  rcases h.eq_or_places with rfl | h
  · exact List.prefix_refl _
  · exact h.trans (List.prefix_append _ _)

theorem OpensAll.linker_places (h : L.OpensAll o c) : o.linker.places <+: c.linker.places := by
  rcases h.eq_or_places with rfl | h
  · exact List.prefix_refl _
  · exact (List.prefix_append _ _).trans h

theorem OpensAll.fresh (h : L.OpensAll o c) (ho : o.place ∉ o.linker.places) :
    c.place ∉ c.linker.places := by
  rcases Relation.ReflTransGen.cases_tail h with rfl | ⟨b, -, hb⟩
  · exact ho
  · exact hb.fresh

theorem OpensAll.place_ne (hopens : L.Opens o c) (h : L.OpensAll c o') : o'.place ≠ o.place := by
  intro he
  have hseen : o.place ∈ o'.linker.places :=
    (hopens.places.trans h.linker_places).subset (by simp)
  exact h.fresh hopens.fresh (he ▸ hseen)

theorem OpensAll.outcome_places (hL : L.reader = .standard) (h : L.OpensAll o c) {st : Linker}
    {id : Nat} (ho : L.outcome o = .ok (st, id)) : c.linker.places ++ [c.place] <+: st.places := by
  induction h using Relation.ReflTransGen.head_induction_on generalizing st id with
  | refl => exact (Loader.outcome_places hL ho).2
  | @head a b hopens _ ih =>
    obtain ⟨hreach, hasks, hnew⟩ := hopens
    obtain ⟨-, texts, y, hall, rfl, rfl⟩ := readsAll_of_outcome hL ho
    obtain ⟨st₁, id₁, hvisit, hplaces⟩ := (hall.proceeds hreach).places hasks hnew
    exact (ih hvisit).trans hplaces

theorem Proceeds.place_ne (hL : L.reader = .standard) (h : L.Proceeds o y line n y') {q q' : Place}
    (hq : L.Asks o.place line q) (hnew : q ∉ y.1.places) (hnew' : q' ∉ y'.1.places)
    (hc : L.OpensAll ⟨o.allowance - 1, o.ownChain, y.1, q⟩ c)
    (ho' : L.OpensAll ⟨o.allowance - 1, o.ownChain, y'.1, q'⟩ o') : c.place ≠ o'.place := by
  intro he
  obtain ⟨st, id, hvisit, hplaces⟩ := h.places hq hnew
  have hseen : c.place ∈ y'.1.places :=
    ((hc.outcome_places hL hvisit).trans hplaces).subset (by simp)
  exact ho'.fresh hnew' (he ▸ ho'.linker_places.subset hseen)

theorem OpensAll.eq_of_place_eq (hL : L.reader = .standard) (h : L.OpensAll o c)
    (h' : L.OpensAll o o') (he : c.place = o'.place) : c = o' := by
  induction h using Relation.ReflTransGen.head_induction_on generalizing o' with
  | refl =>
    rcases Relation.ReflTransGen.cases_head h' with rfl | ⟨b, hopens, hb⟩
    · rfl
    · exact absurd he.symm (OpensAll.place_ne hopens hb)
  | @head a b hopens hb ih =>
    rcases Relation.ReflTransGen.cases_head h' with rfl | ⟨b', hopens', hb'⟩
    · exact absurd he (OpensAll.place_ne hopens hb)
    · obtain ⟨hreach, hasks, hnew⟩ := hopens
      obtain ⟨hreach', hasks', hnew'⟩ := hopens'
      -- what the earlier of two directives opens has been seen when the later one is obeyed
      rcases hreach.compare hreach' with ⟨rfl, rfl⟩ | hproceeds | hproceeds
      · obtain rfl := hasks.unique hasks'
        exact ih hb' he
      · exact absurd he (hproceeds.place_ne hL hasks hnew hnew' hb hb')
      · exact absurd he.symm (hproceeds.place_ne hL hasks' hnew' hnew hb' hb)

def Numbered (L : Loader) (o : Opening) (st : Linker) : Prop :=
  ∀ i, o.id ≤ i → i < st.places.length → ∃ c, L.OpensAll o c ∧ c.id = i

theorem numbered_handling {x z : Linker × Draft} (hx : L.Numbered o x.1)
    (hreach : ∀ q, L.Asks o.place line q → L.Reaches o x line n)
    (hbelow : ∀ c st id, L.Opens o c → L.outcome c = .ok (st, id) → L.Numbered c st)
    (h : L.handling o x (line, n) = .ok z) : L.Numbered o z.1 := by
  intro i hi hlt
  by_cases hix : i < x.1.places.length
  · exact hx i hi hix
  have hadvance : L.Advance (L.visit (o.allowance - 1) o.ownChain) o.ownChain o.place line x.1 z.1 :=
    advance_handle h
  generalize z.1 = st at hadvance hlt
  cases hadvance with
  | stay window _ => exact absurd hlt hix
  | reuse _ _ _ => exact absurd hlt hix
  | @visit _ q id _ hq hnew hvisit _ =>
    have hopens : L.Opens o ⟨o.allowance - 1, o.ownChain, x.1, q⟩ := .intro (hreach q hq) hq hnew
    obtain ⟨c, hc, hid⟩ := hbelow _ st id hopens hvisit i (Nat.le_of_not_lt hix) hlt
    exact ⟨c, hc.head hopens, hid⟩

theorem numbered_outcome (hL : L.reader = .standard) {st : Linker} {id : Nat}
    (h : L.outcome o = .ok (st, id)) : L.Numbered o st := by
  obtain ⟨allowance, chain, linker, place⟩ := o
  induction allowance generalizing chain linker place st id with
  | zero => cases h
  | succ m ih =>
    obtain ⟨-, texts, y, hall, rfl, rfl⟩ := readsAll_of_outcome hL h
    have hstart : L.Numbered ⟨m + 1, chain, linker, place⟩
        (Opening.start ⟨m + 1, chain, linker, place⟩).1 := by
      intro i hi hlt
      refine ⟨_, .refl, Nat.le_antisymm hi ?_⟩
      simp only [Opening.start, Linker.opened, List.length_append, List.length_singleton] at hlt
      exact Nat.le_of_lt_succ hlt
    refine hall.keeps (P := fun x => L.Numbered _ x.1) hstart fun x line n z hreach hz hx =>
      numbered_handling hx (fun q hq => hreach hq.1) ?_ hz
    rintro c st id ⟨-, -, -⟩ hc
    exact ih _ _ _ hc

end Order

section Chain

theorem OpensAll.exists_above (h : L.OpensAll o c) (ho : o.chain = []) {i : Nat}
    (hi : i ∈ c.ownChain) : ∃ a, L.OpensAll o a ∧ L.OpensAll a c ∧ a.id = i := by
  induction h with
  | refl =>
    rw [Opening.ownChain, ho, List.nil_append, List.mem_singleton] at hi
    exact ⟨o, .refl, .refl, hi.symm⟩
  | @tail b d hb hopens ih =>
    have hchain : d.chain = b.ownChain := by
      obtain ⟨-, -, -⟩ := hopens
      rfl
    rw [Opening.ownChain, hchain, List.mem_append, List.mem_singleton] at hi
    rcases hi with hi | hi
    · obtain ⟨a, ha, hab, hid⟩ := ih hi
      exact ⟨a, ha, hab.tail hopens, hid⟩
    · exact ⟨d, hb.tail hopens, .refl, hi.symm⟩

theorem OpensAll.getElem?_places (h : L.OpensAll o c) (hr : L.Reaches c y line n) :
    y.1.places[o.id]? = some o.place :=
  Linker.getElem?_of_prefix (h.places.trans hr.places)

theorem exists_above_of_cycle (hL : L.reader = .standard) {names : List String}
    (h : L.outcome o = .error (.cycle names)) :
    ∃ c y line n q, L.OpensAll o c ∧ L.Reaches c y line n ∧ L.Asks c.place line q ∧
      ∃ i ∈ c.ownChain, y.1.places[i]? = some q ∧
        names = c.ownChain.filterMap (fun i => (y.1.places[i]?).map Place.path) ++ [q.path] := by
  obtain ⟨c, hc, hblames⟩ := exists_blamed hL h
  cases hblames with
  | @disobeyed y line n _ hreach hfails =>
    cases hfails with
    | cycle hq hplace hi => exact ⟨c, y, line, n, _, hc, hreach, hq, _, hi, hplace, rfl⟩
    | link _ _ _ _ hrefuses => cases hrefuses

end Chain

section Underway

structure Ready (L : Loader) (o : Opening) : Prop where
  underway : o.linker.Underway L.tree o.chain
  fresh : o.place ∉ o.linker.places
  allowance : L.tree.nodes.length < o.allowance + o.chain.length

theorem Ready.allowance_pos (h : L.Ready o) : 0 < o.allowance := by
  have hchain := h.underway.chain_le
  have hallowance := h.allowance
  omega

theorem Ready.answers (hL : L.reader = .standard) (h : L.Ready o) :
    Answers L.tree o.ownChain (L.visit (o.allowance - 1) o.ownChain) := by
  have hpos := h.allowance_pos
  have hallowance := h.allowance
  refine visit_answers hL ?_
  rw [Opening.ownChain, List.length_append, List.length_singleton]
  omega

theorem underway_handling {visit : Visit} {chain : List Nat} {here : Place} {x : Linker × Draft}
    {a : List Char × Nat} (hv : Answers L.tree chain visit)
    (h : L.handle visit chain here x a = .ok y) (hx : x.1.Underway L.tree chain) :
    y.1.Underway L.tree chain := by
  cases handled_of_handle h with
  | plain _ _ => exact hx
  | device _ _ _ => exact hx
  | priority window _ _ _ => exact hx.window window
  | @load _ q _ _ _ _ _ _ _ hfile _ _ =>
    have hserved := served_fileAt hv hx q
    rw [hfile] at hserved
    exact hserved.1

/-- While a directive is obeyed, exactly the files of the chain are without a table. -/
theorem Ready.reaches (hL : L.reader = .standard) (h : L.Ready o) (hr : L.Reaches o y line n) :
    y.1.Underway L.tree o.ownChain := by
  obtain @⟨before, _, hlines, hbefore, -⟩ := hr
  have hnode : o.place ∈ L.tree.nodes.map (·.1) := by
    by_contra hno
    obtain ⟨e, he⟩ := lines_of_not_mem hno
    rw [he] at hlines
    cases before <;> cases hlines
  have hopened : o.start.1.Underway L.tree o.ownChain := h.underway.opened h.fresh hnode
  exact foldlM_keeps (P := fun x => x.1.Underway L.tree o.ownChain)
    (fun _ _ _ hx => underway_handling (h.answers hL) hx) hbefore hopened

theorem Ready.opens (hL : L.reader = .standard) (h : L.Ready o) (hc : L.Opens o c) :
    L.Ready c := by
  obtain ⟨hreach, -, hnew⟩ := hc
  have hpos := h.allowance_pos
  have hallowance := h.allowance
  refine ⟨h.reaches hL hreach, hnew, ?_⟩
  simp only [Opening.ownChain, List.length_append, List.length_singleton]
  omega

theorem Ready.opensAll (hL : L.reader = .standard) (h : L.Ready o) (hc : L.OpensAll o c) :
    L.Ready c := by
  induction hc with
  | refl => exact h
  | tail _ hopens ih => exact ih.opens hL hopens

theorem Ready.served (hL : L.reader = .standard) (h : L.Ready o) :
    Served (fun y => y.1.Underway L.tree o.chain ∧ ∃ s, y.1.Known y.2 s) (L.outcome o) :=
  visit_answers hL h.allowance o.linker o.place h.underway h.fresh

end Underway

section Finished

theorem run_sound (hL : L.reader = .standard) {texts : List (List Char × Nat)}
    (ho : o.linker.Sound) (h : texts.foldlM (L.handling o) o.start = .ok y) :
    y.1.Sound ∧ y.1.sheets[o.id]? = some none := by
  have hkeeps : Keeps (fun st => st.Sound ∧ o.start.1.Extends st)
      (L.visit (o.allowance - 1) o.ownChain) := by
    rintro st p st' id hvisit ⟨hst, hext⟩
    obtain ⟨hst', hext'⟩ := visit_sure hL _ _ st p st' id hvisit hst
    exact ⟨hst', hext.trans hext'⟩
  obtain ⟨hsound, hext⟩ := run_keeps (P := fun st => st.Sound ∧ o.start.1.Extends st) hkeeps
    (fun st window h => ⟨⟨h.1.length, h.1.finished⟩, h.2⟩) h
    ⟨Linker.sound_opened ho o.place, List.prefix_refl _⟩
  exact ⟨hsound, hext.get (Linker.getElem?_opened ho o.place)⟩

theorem visit_finished (hL : L.reader = .standard) {R : Linker → Nat → Place → Sheet → Prop}
    (hlater : ∀ st st' i p s, st.Later st' → R st i p s → R st' i p s)
    (hfinish : ∀ o texts y, o.linker.Sound → L.ReadsAll o texts y →
      (∀ i p s, y.1.Finished i p s → R y.1 i p s) → R y.1 o.id o.place y.2.sheet)
    (m : Nat) (chain : List Nat) :
    Keeps (fun st => st.Sound ∧ ∀ i p s, st.Finished i p s → R st i p s) (L.visit m chain) := by
  induction m generalizing chain with
  | zero =>
    intro st p st' id h
    cases h
  | succ m ih =>
    rintro st p st' id h ⟨hst, hR⟩
    refine ⟨(visit_sure hL _ _ st p st' id h hst).1, ?_⟩
    obtain ⟨-, texts, y, hall, rfl, rfl⟩ :=
      readsAll_of_outcome (o := ⟨m + 1, chain, st, p⟩) hL h
    obtain ⟨-, hnone⟩ := run_sound hL hst hall.handled
    have hopened : ∀ i q s, (st.opened p).Finished i q s → R (st.opened p) i q s := by
      rintro i q s ⟨hplace, hknown⟩
      have hk : st.Known i s := Linker.known_of_opened hst hknown
      have hi : i < st.places.length := hst.length ▸ (List.getElem?_eq_some_iff.1 hk).1
      refine hlater st _ i q s (Linker.later_opened st p) (hR i q s ⟨?_, hk⟩)
      exact (List.getElem?_append_left hi).symm.trans hplace
    obtain ⟨-, hrun⟩ := run_keeps (P := fun st => st.Sound ∧ ∀ i p s, st.Finished i p s → R st i p s)
      (ih _) (fun st window h => ⟨⟨h.1.length, h.1.finished⟩, fun i p s hf =>
        hlater st _ i p s ⟨List.prefix_refl _, fun _ _ hk => hk⟩ (h.2 i p s hf)⟩) hall.handled
      ⟨Linker.sound_opened hst p, hopened⟩
    have hself := hfinish _ texts y hst hall hrun
    have hset := Linker.later_set hnone y.2.sheet
    rintro i q s ⟨hplace, hknown⟩
    rcases Linker.known_set hknown with ⟨rfl, rfl⟩ | hknown
    · have hp : y.1.places[st.places.length]? = some p := Linker.getElem?_of_prefix hall.places
      obtain rfl : p = q := Option.some.inj (hp.symm.trans hplace)
      exact hlater _ _ _ _ _ hset hself
    · exact hlater _ _ _ _ _ hset (hrun i q s ⟨hplace, hknown⟩)

theorem visit_later (hL : L.reader = .standard) (st₀ : Linker) (m : Nat) (chain : List Nat) :
    Keeps (fun st => st.Sound ∧ st₀.Later st) (L.visit m chain) := by
  rintro st p st' id h ⟨hst, hlater⟩
  obtain ⟨hst', hext⟩ := visit_sure hL m chain st p st' id h hst
  have hplaces : st.places <+: st'.places := visit_places m chain _ st p st' id h (List.prefix_refl _)
  exact ⟨hst', hlater.trans ⟨hplaces, fun _ _ => hext.known⟩⟩

theorem run_later (hL : L.reader = .standard) {lines : List (List Char × Nat)}
    {x : Linker × Draft} (hx : x.1.Sound) (h : lines.foldlM (L.handling o) x = .ok y) :
    y.1.Sound ∧ x.1.Later y.1 :=
  run_keeps (P := fun st => st.Sound ∧ x.1.Later st) (visit_later hL x.1 _ _)
    (fun _ _ h => ⟨⟨h.1.length, h.1.finished⟩, h.2.places, h.2.known⟩) h ⟨hx, .refl x.1⟩

theorem asked_finished (hL : L.reader = .standard) {x z : Linker × Draft} {q : Place}
    (h : L.handling o x (line, n) = .ok z) (hq : L.Asks o.place line q) :
    ∃ i s, z.1.Finished i q s := by
  rcases (advance_handle h).asked hq with ⟨i, s, hplace, hknown, hz⟩ | ⟨-, i, s, hvisit, hknown⟩
  · rw [hz]
    exact ⟨i, s, hplace, hknown⟩
  · obtain ⟨rfl, hplaces⟩ :=
      outcome_places (o := ⟨o.allowance - 1, o.ownChain, x.1, q⟩) hL hvisit
    exact ⟨_, s, Linker.getElem?_of_prefix hplaces, hknown⟩

theorem ReadsAll.exists_finished (hL : L.reader = .standard) (ho : o.linker.Sound)
    {texts : List (List Char × Nat)} (h : L.ReadsAll o texts y) (hmem : (line, n) ∈ texts)
    {q : Place} (hq : L.Asks o.place line q) : ∃ i s, y.1.Finished i q s := by
  obtain ⟨before, after, rfl⟩ := List.append_of_mem hmem
  obtain ⟨x, hx, hrest⟩ := foldlM_append_eq_ok h.handled
  obtain ⟨z, hz, hafter⟩ := foldlM_cons_eq_ok hrest
  have hx₁ : x.1.Sound := (run_sound hL ho hx).1
  have hz₁ : z.1.Sound := (run_later (o := o) hL hx₁ ((foldlM_one (line, n) x).trans hz)).1
  obtain ⟨i, s, hfinished⟩ := asked_finished hL hz hq
  exact ⟨i, s, (run_later hL hz₁ hafter).2.finished hfinished⟩

theorem OpensAll.exists_readsAll (hL : L.reader = .standard) (h : L.OpensAll o c)
    (ho : o.linker.Sound) {st : Linker} {id : Nat} (hst : L.outcome o = .ok (st, id)) :
    ∃ texts y, L.ReadsAll c texts y ∧ st.Known c.id y.2.sheet := by
  induction h using Relation.ReflTransGen.head_induction_on generalizing st id with
  | refl =>
    obtain ⟨-, texts, y, hall, rfl, rfl⟩ := readsAll_of_outcome hL hst
    obtain ⟨-, hnone⟩ := run_sound hL ho hall.handled
    obtain ⟨hlt, -⟩ := List.getElem?_eq_some_iff.1 hnone
    exact ⟨texts, y, hall, List.getElem?_set_self hlt⟩
  | @head a b hopens _ ih =>
    obtain @⟨x, line, n, q, hreach, hasks, hnew⟩ := hopens
    obtain ⟨-, texts, y, hall, rfl, rfl⟩ := readsAll_of_outcome hL hst
    obtain ⟨-, hnone⟩ := run_sound hL ho hall.handled
    obtain ⟨z, rest, hz, hrest⟩ := hall.proceeds hreach
    obtain ⟨-, hbefore, -⟩ := hreach
    have hx : x.1.Sound := (run_sound hL ho hbefore).1
    have hz₁ : z.1.Sound := (run_later (o := a) hL hx ((foldlM_one (line, n) x).trans hz)).1
    rcases (advance_handle hz).asked hasks with ⟨id, s, hplace, -⟩ | ⟨-, id, s, hvisit, -⟩
    · exact absurd (List.mem_of_getElem? hplace) hnew
    · obtain ⟨texts', y', hall', hknown⟩ := ih hx hvisit
      have hlater := (run_later hL hz₁ hrest).2.trans (Linker.later_set hnone y.2.sheet)
      exact ⟨texts', y', hall', hlater.known _ _ hknown⟩

end Finished

end Loader

end CueSheet
