import CueSheet.Proofs.Load.Closed

/-!
Files have ranks in the order in which they are finished. An alias stands for a procedure of a file
that was finished before its own, so aliases lead to lower ranks, and no way through aliases comes
back to a file that it has left.
-/

namespace CueSheet

def Sheet.Descends (rank : Nat → Nat) (i : Nat) (s : Sheet) : Prop :=
  ∀ q ∈ s.procedures, ∀ origin bind, q.definition = .alias origin bind →
    rank origin.file < rank i

namespace Linker

variable {st : Linker}

def Ranked (st : Linker) : Prop :=
  ∃ (rank : Nat → Nat) (bound : Nat), ∀ i s, st.Known i s → rank i < bound ∧ s.Descends rank i

theorem ranked_empty : Ranked {} := ⟨fun _ => 0, 0, fun i s hk => by simp [Known] at hk⟩

theorem ranked_opened (hs : st.Sound) (h : st.Ranked) (p : Place) : (st.opened p).Ranked := by
  obtain ⟨rank, bound, hr⟩ := h
  exact ⟨rank, bound, fun i s hk => hr i s (known_of_opened hs hk)⟩

theorem ranked_set {i : Nat} {s : Sheet} (hst : st.Sound) (h : st.Ranked)
    (hi : st.sheets[i]? = some none) (hs : s.Sound st.Known i) :
    Ranked { st with sheets := st.sheets.set i (some s) } := by
  obtain ⟨rank, bound, hr⟩ := h
  have hlt : i < st.sheets.length := (List.getElem?_eq_some_iff.1 hi).1
  have hne : ∀ j t, st.Known j t → j ≠ i := by
    intro j t hk he
    rw [he, Known, hi] at hk
    cases hk
  -- the file that is finished now comes above all others
  refine ⟨fun j => if j = i then bound else rank j, bound + 1, fun j t hk => ?_⟩
  by_cases hj : j = i
  · subst hj
    obtain rfl : s = t := by simpa [Known, List.getElem?_set_self hlt] using hk
    refine ⟨by simp, fun q hq origin bind hd => ?_⟩
    obtain ⟨t, ht, -⟩ := (hs.aliases q hq origin bind hd).target
    have hbound := (hr _ t ht).1
    simpa [hne _ t ht] using hbound
  · have hold : st.Known j t := (List.getElem?_set_ne (Ne.symm hj)).symm.trans hk
    obtain ⟨hbound, hdown⟩ := hr j t hold
    refine ⟨by simp only [hj, if_false]; omega, fun q hq origin bind hd => ?_⟩
    obtain ⟨u, hu, -⟩ := ((hst.finished j t hold).1.aliases q hq origin bind hd).target
    have hrank := hdown q hq origin bind hd
    simpa [hj, hne _ u hu] using hrank

end Linker

namespace Loader

section Keeps

variable {L : Loader} {visit : Visit} {chain : List Nat} {here : Place} {line : Nat}
  {st st' : Linker} {P : Linker → Prop}

def Keeps (P : Linker → Prop) (visit : Visit) : Prop :=
  ∀ st p st' id, visit st p = .ok (st', id) → P st → P st'

theorem keeps_fileAt (hv : Keeps P visit) {p : Place} {id : Nat} (hP : P st)
    (h : fileAt visit chain st p = .ok (st', id)) : P st' := by
  simp only [fileAt] at h
  split at h
  · exact hv st p st' id h hP
  · split_ifs at h
    cases h
    exact hP

theorem keeps_load (hv : Keeps P visit) {d : LoadDecl} {s s' : Sheet} (hP : P st)
    (h : L.load visit chain here line d st s = .ok (st', s')) : P st' := by
  obtain ⟨p, -, h⟩ := Result.bind_eq_ok_iff.1 h
  obtain ⟨⟨st₁, id⟩, hfile, h⟩ := Result.bind_eq_ok_iff.1 h
  have h₁ : P st₁ := keeps_fileAt hv hP hfile
  simp only at h
  split at h
  · obtain ⟨⟨⟩, -, he⟩ := Result.map_eq_ok_iff.1 h
    cases he
    exact h₁
  · cases h

theorem keeps_obey (hv : Keeps P visit) (hw : ∀ st window, P st → P { st with window := window })
    {text : List Char} {s s' : Sheet} (hP : P st)
    (h : L.obey visit chain here line text st s = .ok (st', s')) : P st' := by
  obtain ⟨directive, -, h⟩ := Result.bind_eq_ok_iff.1 h
  cases directive with
  | device d =>
    obtain ⟨_, -, he⟩ := Result.bind_eq_ok_iff.1 h
    cases he
    exact hP
  | load d => exact keeps_load hv hP h
  | priority seconds =>
    obtain ⟨st₁, hset, he⟩ := Result.bind_eq_ok_iff.1 h
    cases he
    simp only [Linker.setWindow] at hset
    split_ifs at hset <;> cases hset
    · exact hP
    · exact hw st seconds hP

/-- Between its visits a file leaves the list of files alone. -/
theorem keeps_readLines (hv : Keeps P visit)
    (hw : ∀ st window, P st → P { st with window := window })
    {lines : List (Except FileError (List Char) × Nat)} {pipe pipe' : Pipe} (hP : P st)
    (h : L.readLines visit chain here lines st pipe = .ok (st', pipe')) : P st' := by
  induction lines generalizing st pipe with
  | nil =>
    cases h
    exact hP
  | cons entry rest ih =>
    obtain ⟨read, n⟩ := entry
    cases read with
    | error e => cases h
    | ok line =>
      simp only [readLines] at h
      split_ifs at h
      · split at h
        · cases h
        · split_ifs at h
          · cases h
            exact hP
          · obtain ⟨⟨st₁, sheet⟩, hobey, h⟩ := Result.bind_eq_ok_iff.1 h
            exact ih (keeps_obey hv hw hP hobey) h
      · split at h
        · cases h
        · exact ih hP h

end Keeps

variable {L : Loader}

theorem visit_ranked (hL : L.reader = .standard) (n : Nat) (chain : List Nat) :
    Keeps (fun st => st.Sound ∧ st.Ranked) (L.visit n chain) := by
  induction n generalizing chain with
  | zero =>
    intro st p st' id h
    cases h
  | succ n ih =>
    rintro st p st' id h ⟨hst, hrank⟩
    have hsure := (visit_sure hL (n + 1) chain st p st' id h hst).1
    refine ⟨hsure, ?_⟩
    obtain ⟨⟨st₁, pipe⟩, hread, h⟩ := Result.bind_eq_ok_iff.1 h
    obtain ⟨sheet, hfinish, h⟩ := Result.bind_eq_ok_iff.1 h
    cases h
    have hopen := Linker.sound_opened hst p
    obtain ⟨-, hext₁, hdraft⟩ := readLines_ok hL (visit_sure hL n _) hopen
      (Linker.getElem?_opened hst p) (Draft.sound_no_block (Sheet.sound_empty _ _ _)) hread
    obtain ⟨hst₁, hrank₁⟩ := keeps_readLines (P := fun st => st.Sound ∧ st.Ranked) (ih _)
      (fun st window h => ⟨⟨h.1.length, h.1.finished⟩, h.2⟩)
      ⟨hopen, Linker.ranked_opened hst hrank p⟩ hread
    obtain ⟨rfl, -⟩ := finish_ok hfinish
    exact Linker.ranked_set hst₁ hrank₁ (hext₁.get (Linker.getElem?_opened hst p)) hdraft.sheet

theorem exists_rank {here : Place} {root : String} {p : Program} (hL : L.reader = .standard)
    (h : L.program here root = .ok p) :
    ∃ rank : Nat → Nat, ∀ i s, p.Holds i s → s.Descends rank i := by
  obtain ⟨place, st, id, hv, hiff⟩ := exists_visit h
  obtain ⟨-, rank, bound, hr⟩ := visit_ranked hL _ [] {} place st id hv
    ⟨Linker.sound_empty, Linker.ranked_empty⟩
  exact ⟨rank, fun i s hs => (hr i s ((hiff i s).1 hs)).2⟩

end Loader

end CueSheet
