import CueSheet.Proofs.Load.Opening

/-!
Who is to blame for a load that fails. It is one of the files that were opened: a line of it, all lines
before which are handled, or what is wanting at its end.
-/

namespace CueSheet

namespace Loader

section Definitions

variable (L : Loader)

inductive Comes (o : Opening) (y : Linker × Draft) (line : List Char) (n : Nat) : Prop
  | intro {before : List (List Char × Nat)} {after : List FileLine} :
    (L.tree.lines o.place).zipIdx 1 = legible before ++ (.ok line, n) :: after →
    before.foldlM (L.handling o) o.start = .ok y → Comes o y line n

inductive Blames (o : Opening) : LoadError → Prop
  | refused {y : Linker × Draft} {line : List Char} {n : Nat} {e : SyntaxError} : L.Comes o y line n →
    Directive.isDirective (Text.trim line) = false →
    (y.2.read n (Text.trim line)).refusal = some e → Blames o (.malformed o.place.path e)
  | disobeyed {y : Linker × Draft} {line : List Char} {n : Nat} {e : LoadError} :
    L.Reaches o y line n →
    Fails L (L.visit (o.allowance - 1) o.ownChain) o.ownChain o.place y line n e → Blames o e
  | unclosed {d : Draft} {e : SyntaxError} : d.finish = .error e → Blames o (.malformed o.place.path e)
  | unreadable (e : FileError) : Blames o (.unreadable o.place.path e)
  | undefined (name : String) : Blames o (.undefinedProcedure o.place.path name)
  | stopped (path : String) : Blames o (.readerStopped path)

end Definitions

variable {L : Loader} {o o' : Opening} {y y' : Linker × Draft} {line line' : List Char} {n : Nat}
  {e : LoadError}

theorem number_of_zipIdx {lines : List (Except FileError (List Char))}
    {before : List (List Char × Nat)} {after : List FileLine}
    (h : lines.zipIdx 1 = legible before ++ (.ok line, n) :: after) : n = 1 + before.length := by
  have hlength : (legible before).length = before.length := List.length_map _
  have hnth : (lines.zipIdx 1)[before.length]? = some (.ok line, n) := by
    rw [h, List.getElem?_append_right (Nat.le_of_eq hlength), hlength, Nat.sub_self]
    rfl
  rw [List.getElem?_zipIdx] at hnth
  obtain ⟨_, -, he⟩ := Option.map_eq_some_iff.1 hnth
  exact (Prod.mk.inj he).2.symm

theorem Comes.unique (h : L.Comes o y line n) (h' : L.Comes o y' line' n) : y = y' ∧ line = line' := by
  obtain @⟨before, after, hlines, hbefore⟩ := h
  obtain @⟨before', after', hlines', hbefore'⟩ := h'
  have hnumber := number_of_zipIdx hlines
  have hnumber' := number_of_zipIdx hlines'
  have hlength : (legible before).length = (legible before').length := by
    rw [legible, legible, List.length_map, List.length_map]
    omega
  obtain ⟨hsame, hrest⟩ := List.append_inj (hlines.symm.trans hlines') hlength
  rw [legible_injective hsame, hbefore'] at hbefore
  obtain ⟨hline, -⟩ := List.cons.inj hrest
  exact ⟨(Except.ok.inj hbefore).symm, Except.ok.inj (Prod.mk.inj hline).1⟩

theorem blames_or_opens (hL : L.reader = .standard) (h : L.outcome o = .error e) :
    L.Blames o e ∨ ∃ c, L.Opens o c ∧ c.allowance < o.allowance ∧ L.outcome c = .error e := by
  rcases Nat.eq_zero_or_pos o.allowance with hzero | hpos
  · rw [outcome_zero hzero] at h
    cases h
    exact .inl (.stopped o.place.path)
  obtain ⟨r, hending, houtcome⟩ := exists_ending (L := L) hL hpos
  obtain rfl := Result.map_eq_error_iff.1 (houtcome.symm.trans h)
  cases hending with
  | @disobeyed before line n after y e hlines hfold hd hobey =>
    have hreach : L.Reaches o y line n := .intro hlines hfold hd
    rcases fails_of_obey hd hobey with hfails | ⟨q, hq, hnew, hvisit⟩
    · exact .inl (.disobeyed hreach hfails)
    · exact .inr ⟨_, .intro hreach hq hnew, Nat.sub_lt hpos Nat.one_pos, hvisit⟩
  | refused hlines hfold hd hr => exact .inl (.refused (.intro hlines hfold) hd hr)
  | unclosed hfinish => exact .inl (.unclosed hfinish)
  | unreadable e => exact .inl (.unreadable e)
  | undefined name => exact .inl (.undefined name)

/-- An error is handed up, unchanged, from a file that is to blame for it. -/
theorem exists_blamed (hL : L.reader = .standard) (h : L.outcome o = .error e) :
    ∃ c, L.OpensAll o c ∧ L.Blames c e := by
  induction hn : o.allowance using Nat.strongRecOn generalizing o with
  | ind m ih =>
    rcases blames_or_opens hL h with hblames | ⟨c, hopens, hlt, hc⟩
    · exact ⟨o, .refl, hblames⟩
    · obtain ⟨c', hc', hblames⟩ := ih _ (hn ▸ hlt) hc rfl
      exact ⟨c', hc'.head hopens, hblames⟩

end Loader

end CueSheet
