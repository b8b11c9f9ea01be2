import CueSheet.Load.Basic
import CueSheet.Proofs.Load.Draft

/-!
Loading keeps finished files finished. While a file is read its own place in the list of sheets is
empty, so whatever its directives load or link to is another file. A visit only adds at the end of
the list; the sheet that it leaves at its own place is sound and has no pending name.
-/

namespace CueSheet

namespace Linker

section Directives

variable {known known' : Nat → Sheet → Prop} {i j : Nat} {path : String} {line : Nat}
  {s s' target : Sheet}

theorem declare_ok {d : DeviceDecl} (hs : s.Sound known i) (h : declare path line d s = .ok s') :
    s'.Sound known i ∧ s.Grows s' := by
  simp only [declare] at h
  split at h
  · next id s₁ hd =>
    cases h
    exact ⟨Sheet.sound_declare? hs hd, Sheet.grows_declare? hd⟩
  · cases h

theorem bind_ok (ht : target.Sound known' j) (hs : s.Sound known i) {seen : List String}
    {renames : List (String × String)} {pairs : Bind}
    (h : bind path line target s seen renames = .ok pairs) :
    (∀ x ∈ pairs, target.Declares x.1 ∧ s.Declares x.2) ∧ (pairs.map (·.1)).Nodup ∧
      ∀ x ∈ pairs, ∀ d ∈ target.devices, d.id = x.1 → d.name ∉ seen := by
  -- the last part carries the second: a name that was seen once is bound no more
  induction renames generalizing seen pairs with
  | nil =>
    obtain rfl : [] = pairs := by simpa [bind] using h
    simp
  | cons rename rest ih =>
    obtain ⟨old, new⟩ := rename
    simp only [bind] at h
    split_ifs at h with hold
    split at h
    · obtain ⟨h1, h2, h3⟩ := ih h
      exact ⟨h1, h2, fun x hx d hd he hm => h3 x hx d hd he (List.mem_cons_of_mem _ hm)⟩
    · next d hd =>
      split at h
      · cases h
      · next e he =>
        obtain ⟨ps, hps, hpairs⟩ := Result.map_eq_ok_iff.1 h
        subst hpairs
        obtain ⟨h1, h2, h3⟩ := ih hps
        obtain ⟨hdt, hname⟩ := Sheet.declares_of_device? ht hd
        have hes := (Sheet.declares_of_device? hs he).1
        have hdm : d ∈ target.devices := List.mem_of_find?_eq_some hd
        refine ⟨List.forall_mem_cons.2 ⟨⟨hdt, hes⟩, h1⟩, ?_, List.forall_mem_cons.2 ⟨?_, ?_⟩⟩
        · refine List.nodup_cons.2 ⟨fun hm => ?_, h2⟩
          obtain ⟨x, hx, hxd⟩ := List.mem_map.1 hm
          exact h3 x hx d hdm hxd.symm (hname ▸ List.mem_cons_self)
        · intro d' hd' hid hm
          have hsame : d' = d := Sheet.eq_of_id_eq ht hd' hdm hid
          rw [hsame, hname] at hm
          exact hold hm
        · intro x hx d' hd' hid hm
          exact h3 x hx d' hd' hid (List.mem_cons_of_mem _ hm)

theorem addAliases_ok {file : Nat} {renames : List (String × String)} {bind : Bind}
    {ps : List Procedure} (hs : s.Sound known i)
    (hps : ∀ q ∈ ps, Sheet.Imports known s ⟨file, q.name⟩ bind)
    (h : addAliases path line file renames bind ps s = (.ok (), s')) :
    s'.Sound known i ∧ s.Grows s' := by
  induction ps generalizing s with
  | nil =>
    obtain rfl : s = s' := by simpa [addAliases] using h
    exact ⟨hs, .refl s⟩
  | cons q r ih =>
    obtain ⟨hq, hr⟩ := List.forall_mem_cons.1 hps
    simp only [addAliases] at h
    split_ifs at h with hn
    · simp at h
    · have hg := Sheet.grows_put s ⟨newName renames q.name, .alias ⟨file, q.name⟩ bind⟩
      have hput := Sheet.sound_put (q := ⟨newName renames q.name, .alias ⟨file, q.name⟩ bind⟩) hs
        (by simp [Procedure.body]) (fun _ _ hd => by cases hd; exact hq)
      obtain ⟨h1, h2⟩ := ih hput (fun x hx => (hr x hx).grow hg) h
      exact ⟨h1, hg.trans h2⟩

theorem exports_body (ht : target.Sound known' j) (hd : ∀ q ∈ target.procedures, q.isDefined = true)
    {q : Procedure} (hq : q ∈ exports target) :
    target.procedure? q.name = some q ∧ ∃ es, q.definition = .body es := by
  obtain ⟨hm, ho⟩ := List.mem_filter.1 hq
  refine ⟨Sheet.procedure?_of_mem ht.sorted hm, ?_⟩
  have hdef := hd q hm
  cases hq : q.definition with
  | pending => simp [Procedure.isDefined, hq] at hdef
  | body es => exact ⟨es, rfl⟩
  | «alias» origin bind => simp [Procedure.origin?, hq] at ho

theorem link_ok {renames : List (String × String)} (hs : s.Sound known i) (hij : j ≠ i)
    (hk : known j target) (ht : target.Sound known j)
    (hd : ∀ q ∈ target.procedures, q.isDefined = true)
    (h : link path line target renames s = (.ok (), s')) : s'.Sound known i ∧ s.Grows s' := by
  simp only [link] at h
  split at h
  · simp at h
  · next pairs hpairs =>
    obtain ⟨h1, h2, -⟩ := bind_ok ht hs hpairs
    rw [ht.file] at h
    refine addAliases_ok hs (fun q hq => ?_) h
    obtain ⟨hfind, hbody⟩ := exports_body ht hd hq
    obtain ⟨es, hes⟩ := hbody
    exact ⟨hs.file ▸ hij, ⟨target, hk, ⟨q, es, hfind, hes⟩, h1⟩, h2⟩

end Directives

def Known (st : Linker) (i : Nat) (t : Sheet) : Prop := st.sheets[i]? = some (some t)

structure Sound (st : Linker) : Prop where
  length : st.places.length = st.sheets.length
  finished : ∀ i t, st.Known i t → t.Sound st.Known i ∧ ∀ q ∈ t.procedures, q.isDefined = true

def Extends (st st' : Linker) : Prop := st.sheets <+: st'.sheets

variable {st st' : Linker}

theorem Extends.get {x : Option Sheet} {i : Nat} (h : st.Extends st')
    (hx : st.sheets[i]? = some x) : st'.sheets[i]? = some x := by
  obtain ⟨r, hr⟩ := h
  obtain ⟨hi, -⟩ := List.getElem?_eq_some_iff.1 hx
  rw [← hr, List.getElem?_append_left hi, hx]

theorem Extends.known {i : Nat} {t : Sheet} (h : st.Extends st') (hk : st.Known i t) :
    st'.Known i t := h.get hk

theorem sound_empty : Sound {} := ⟨rfl, fun i t hk => by simp [Known] at hk⟩

def opened (st : Linker) (p : Place) : Linker :=
  { st with places := st.places ++ [p], sheets := st.sheets ++ [none] }

theorem getElem?_opened (hs : st.Sound) (p : Place) :
    (st.opened p).sheets[st.places.length]? = some none := by
  rw [hs.length]
  exact List.getElem?_concat_length

theorem extends_opened (st : Linker) (p : Place) : st.Extends (st.opened p) :=
  List.prefix_append _ _

theorem known_of_opened {p : Place} {i : Nat} {t : Sheet} (hs : st.Sound)
    (hk : (st.opened p).Known i t) : st.Known i t := by
  rcases Nat.lt_trichotomy i st.sheets.length with hi | hi | hi
  · exact (List.getElem?_append_left hi).symm.trans hk
  · rw [hi, Known, ← hs.length, getElem?_opened hs] at hk
    cases hk
  · have hend : (st.opened p).sheets.length ≤ i := by
      simp only [opened, List.length_append, List.length_singleton]
      omega
    rw [Known, List.getElem?_eq_none hend] at hk
    cases hk

theorem sound_opened (hs : st.Sound) (p : Place) : (st.opened p).Sound := by
  refine ⟨by simp [opened, hs.length], fun i t hk => ?_⟩
  obtain ⟨ht, hd⟩ := hs.finished i t (known_of_opened hs hk)
  exact ⟨ht.mono fun _ _ => (st.extends_opened p).known, hd⟩

theorem sound_set {i : Nat} {s : Sheet} (hs : st.Sound) (hi : st.sheets[i]? = some none)
    (h : s.Sound st.Known i) (hd : ∀ q ∈ s.procedures, q.isDefined = true) :
    Sound { st with sheets := st.sheets.set i (some s) } := by
  have hlt : i < st.sheets.length := (List.getElem?_eq_some_iff.1 hi).1
  have hknown : ∀ j t, st.Known j t →
      Known { st with sheets := st.sheets.set i (some s) } j t := by
    intro j t hk
    have hne : i ≠ j := by
      intro he
      rw [← he, Known, hi] at hk
      cases hk
    exact (List.getElem?_set_ne hne).trans hk
  refine ⟨by simp [hs.length], fun j t hk => ?_⟩
  by_cases hj : i = j
  · subst hj
    obtain rfl : s = t := by simpa [Known, List.getElem?_set_self hlt] using hk
    exact ⟨h.mono hknown, hd⟩
  · obtain ⟨ht, hd⟩ := hs.finished j t ((List.getElem?_set_ne hj).symm.trans hk)
    exact ⟨ht.mono hknown, hd⟩

theorem setWindow_ok {chain : List Nat} {path : String} {line : Nat} {seconds : Int}
    (hs : st.Sound) (h : setWindow chain path line seconds st = .ok st') :
    st'.Sound ∧ st.Extends st' := by
  simp only [setWindow] at h
  split_ifs at h <;> cases h
  · exact ⟨hs, List.prefix_refl _⟩
  · exact ⟨⟨hs.length, hs.finished⟩, List.prefix_refl _⟩

end Linker

namespace Loader

def Sure (visit : Visit) : Prop :=
  ∀ st p st' id, visit st p = .ok (st', id) → st.Sound → st'.Sound ∧ st.Extends st'

variable {L : Loader} {visit : Visit} {chain : List Nat} {here : Place} {st st' : Linker} {i : Nat}

theorem fileAt_ok (hv : Sure visit) {p : Place} {id : Nat} (hs : st.Sound)
    (h : fileAt visit chain st p = .ok (st', id)) : st'.Sound ∧ st.Extends st' := by
  simp only [fileAt] at h
  split at h
  · exact hv st p st' id h hs
  · split_ifs at h
    cases h
    exact ⟨hs, List.prefix_refl _⟩

theorem load_ok (hv : Sure visit) {line : Nat} {d : LoadDecl} {s s' : Sheet} (hst : st.Sound)
    (hi : st.sheets[i]? = some none) (hs : s.Sound st.Known i)
    (h : L.load visit chain here line d st s = .ok (st', s')) :
    st'.Sound ∧ st.Extends st' ∧ s'.Sound st'.Known i ∧ s.Grows s' := by
  obtain ⟨p, -, h⟩ := Result.bind_eq_ok_iff.1 h
  obtain ⟨⟨st₁, id⟩, hfile, h⟩ := Result.bind_eq_ok_iff.1 h
  obtain ⟨h1, h2⟩ := fileAt_ok hv hst hfile
  simp only at h
  split at h
  · next sheet hid =>
    obtain ⟨⟨⟩, hlink, he⟩ := Result.map_eq_ok_iff.1 h
    cases he
    have hne : id ≠ i := by
      intro he
      have hnone := h2.get hi
      rw [← he, hid] at hnone
      cases hnone
    obtain ⟨ht, hd⟩ := h1.finished id sheet hid
    have hs₁ := hs.mono fun i t => h2.known
    obtain ⟨h3, h4⟩ := Linker.link_ok hs₁ hne hid ht hd (Prod.ext hlink rfl)
    exact ⟨h1, h2, h3, h4⟩
  · cases h

theorem obey_ok (hv : Sure visit) {line : Nat} {text : List Char} {s s' : Sheet} (hst : st.Sound)
    (hi : st.sheets[i]? = some none) (hs : s.Sound st.Known i)
    (h : L.obey visit chain here line text st s = .ok (st', s')) :
    st'.Sound ∧ st.Extends st' ∧ s'.Sound st'.Known i ∧ s.Grows s' := by
  obtain ⟨directive, -, h⟩ := Result.bind_eq_ok_iff.1 h
  cases directive with
  | device d =>
    obtain ⟨s₁, hd, he⟩ := Result.bind_eq_ok_iff.1 h
    cases he
    obtain ⟨h1, h2⟩ := Linker.declare_ok hs hd
    exact ⟨hst, List.prefix_refl _, h1, h2⟩
  | load d => exact load_ok hv hst hi hs h
  | priority seconds =>
    obtain ⟨st₁, hw, he⟩ := Result.bind_eq_ok_iff.1 h
    cases he
    obtain ⟨h1, h2⟩ := Linker.setWindow_ok hst hw
    exact ⟨h1, h2, hs.mono fun i t => h2.known, .refl s⟩

theorem readLines_ok (hL : L.reader = .standard) (hv : Sure visit)
    {lines : List (Except FileError (List Char) × Nat)} {pipe pipe' : Pipe} (hst : st.Sound)
    (hi : st.sheets[i]? = some none) (hp : pipe.draft.Sound st.Known i)
    (h : L.readLines visit chain here lines st pipe = .ok (st', pipe')) :
    st'.Sound ∧ st.Extends st' ∧ pipe'.draft.Sound st'.Known i := by
  induction lines generalizing st pipe with
  | nil =>
    cases h
    exact ⟨hst, List.prefix_refl _, hp⟩
  | cons entry rest ih =>
    obtain ⟨read, n⟩ := entry
    cases read with
    | error e => cases h
    | ok line =>
      simp only [readLines, hL] at h
      split_ifs at h
      · split at h
        · cases h
        · next paused hpause =>
          have hpaused := Pipe.keeps_pause? (Pipe.keeps_standard st.Known i) hp hpause
          split_ifs at h
          · cases h
            exact ⟨hst, List.prefix_refl _, hpaused⟩
          · obtain ⟨⟨st₁, sheet⟩, hobey, h⟩ := Result.bind_eq_ok_iff.1 h
            obtain ⟨h1, h2, h3, h4⟩ := obey_ok hv hst hi hpaused.sheet hobey
            have hdraft := (hpaused.mono fun i t => h2.known).grow h3 h4
            obtain ⟨h5, h6, h7⟩ := ih h1 (h2.get hi)
              (Pipe.keeps_resume (Pipe.keeps_standard st₁.Known i) hdraft) h
            exact ⟨h5, h2.trans h6, h7⟩
      · split at h
        · cases h
        · next fed hfeed =>
          exact ih hst hi (Pipe.keeps_feed? (Pipe.keeps_standard st.Known i) hp hfeed) h

theorem finish_ok {pipe : Pipe} {s : Sheet} (h : finish here pipe = .ok s) :
    s = pipe.draft.sheet ∧ ∀ q ∈ s.procedures, q.isDefined = true := by
  simp only [finish] at h
  split at h
  · cases h
  · cases h
  · split at h
    · cases h
    · next hu =>
      cases h
      refine ⟨rfl, fun q hq => ?_⟩
      have hn := List.find?_eq_none.1 (Option.map_eq_none_iff.1 hu) q hq
      simpa using hn

/-- The place of a visited file is filled last, when nothing behind it is open any more. -/
theorem visit_sure (hL : L.reader = .standard) (n : Nat) (chain : List Nat) :
    Sure (L.visit n chain) := by
  induction n generalizing chain with
  | zero =>
    intro st p st' id h
    cases h
  | succ n ih =>
    intro st p st' id h hst
    obtain ⟨⟨st₁, pipe⟩, hread, h⟩ := Result.bind_eq_ok_iff.1 h
    obtain ⟨sheet, hfinish, h⟩ := Result.bind_eq_ok_iff.1 h
    cases h
    obtain ⟨hst₁, hext₁, hdraft⟩ := readLines_ok hL (ih _) (Linker.sound_opened hst p)
      (Linker.getElem?_opened hst p) (Draft.sound_no_block (Sheet.sound_empty _ _ _)) hread
    obtain ⟨rfl, hdef⟩ := finish_ok hfinish
    have hopen := hext₁.get (Linker.getElem?_opened hst p)
    refine ⟨Linker.sound_set hst₁ hopen hdraft.sheet hdef, ?_⟩
    obtain ⟨r, hr⟩ := hext₁
    refine ⟨(none :: r).set 0 (some pipe.draft.sheet), ?_⟩
    have hlist : st₁.sheets = st.sheets ++ none :: r := by
      rw [← hr, Linker.opened, List.append_assoc, List.singleton_append]
    simp [hlist, hst.length]

end Loader

end CueSheet
