import CueSheet.Proofs.Text.Cutting

/-!
Texts that differ in their blanks alone: where one of them has a run of blanks, the other has a run as
well. They have the same words, and to cut them gives texts of this kind.
-/

namespace CueSheet.Text

/-- Where one text has blanks the other has blanks, and nothing else is different. At the end of the texts
blanks count for nothing. -/
inductive Loose : List Char → List Char → Prop
  | ending {a b : List Char} : Blanks a → Blanks b → Loose a b
  | char {c : Char} {s t : List Char} : isBlank c = false → Loose s t → Loose (c :: s) (c :: t)
  | gap {a b s t : List Char} : Blanks a → a ≠ [] → Blanks b → b ≠ [] → Loose s t →
    Loose (a ++ s) (b ++ t)

/-- Runs of blanks are replaced by other runs, except inside double quotes. `quoted` says whether the
texts begin inside of them. -/
inductive Respaced : Bool → List Char → List Char → Prop
  | nil {quoted : Bool} : Respaced quoted [] []
  | quote {quoted : Bool} {s t : List Char} : Respaced (!quoted) s t →
    Respaced quoted ('"' :: s) ('"' :: t)
  | inside {c : Char} {s t : List Char} : c ≠ '"' → Respaced true s t →
    Respaced true (c :: s) (c :: t)
  | outside {c : Char} {s t : List Char} : c ≠ '"' → isBlank c = false → Respaced false s t →
    Respaced false (c :: s) (c :: t)
  | gap {a b s t : List Char} : Blanks a → a ≠ [] → Blanks b → b ≠ [] → Respaced false s t →
    Respaced false (a ++ s) (b ++ t)

def Solid (s : List Char) : Prop := ∀ c ∈ s, isBlank c = false

variable {a b r s t w : List Char} {c sep : Char} {quoted : Bool}

section Words

theorem trimmed_trim (s : List Char) : Trimmed (trim s) where
  first c hc := by
    rcases blanks_or s with hs | ⟨a, d, t, ha, hd, rfl⟩
    · rw [trim_of_blanks hs] at hc
      cases hc
    · rw [trim_blanks ha, trim_cons hd] at hc
      cases hc
      exact hd
  last c hc := by
    rw [trim, trimRight, List.getLast?_reverse] at hc
    exact not_of_head?_dropWhile hc

theorem Parted.append_parted (hs : Parted s) (hr : Parted r) : Parted (s ++ r) := by
  cases s with
  | nil => exact hr
  | cons c s => exact hs

theorem words_append_parted (hr : Parted r) (s : List Char) :
    words (s ++ r) = words s ++ words r := by
  induction hws : words s generalizing s with
  | nil => rw [words_blanks (words_eq_nil_iff.1 hws), List.nil_append]
  | cons w ws ih =>
    obtain ⟨a, q, ha, hw, hq, hrest, rfl⟩ := words_eq_cons hws
    rw [List.append_assoc, List.append_assoc, words_blanks ha,
      words_append hw (hq.append_parted hr), ih q hrest, List.cons_append]

theorem words_trim (s : List Char) : words (trim s) = words s := by
  obtain ⟨a, b, ha, hb, hs⟩ := exists_trim s
  conv_rhs => rw [hs, words_blanks ha, words_append_parted hb.parted, words_eq_nil_iff.2 hb,
    List.append_nil]

theorem trim_eq_nil_iff : trim s = [] ↔ Blanks s := by
  rw [← words_eq_nil_iff, ← words_trim, words_eq_nil_iff]
  constructor
  · intro h
    rw [h]
    exact List.forall_mem_nil _
  · intro h
    rw [← (trimmed_trim s).trim, trim_of_blanks h]

theorem Solid.trimmed (h : Solid s) : Trimmed s :=
  ⟨fun c hc => h c (List.mem_of_head? hc), fun c hc => h c (List.mem_of_getLast? hc)⟩

theorem words_of_solid (h : Solid s) (hne : s ≠ []) : words s = [s] := by
  have hwords := words_append ⟨hne, h⟩ (Blanks.parted (b := []) (List.forall_mem_nil _))
  rwa [List.append_nil, words_eq_nil_iff.2 (List.forall_mem_nil _)] at hwords

theorem Solid.blanks_left (h : Solid (trim (s ++ t))) (ht : Parted t) (hne : ¬ Blanks t) :
    Blanks s := by
  have hnotempty : trim (s ++ t) ≠ [] := fun hempty =>
    hne (List.forall_mem_append.1 (trim_eq_nil_iff.1 hempty)).2
  have hwords := words_of_solid h hnotempty
  rw [words_trim, words_append_parted ht, List.append_eq_singleton_iff] at hwords
  rcases hwords with ⟨hs, -⟩ | ⟨-, hnil⟩
  · exact words_eq_nil_iff.1 hs
  · exact absurd (words_eq_nil_iff.1 hnil) hne

theorem words_eq_append {vs ws : List (List Char)} (h : words s = vs ++ w :: ws) :
    ∃ p e q, s = p ++ (e ++ (w ++ q)) ∧ words p = vs ∧ Blanks e ∧
      (vs = [] → p = []) ∧ (vs ≠ [] → e ≠ []) ∧ IsWord w := by
  induction vs generalizing s with
  | nil =>
    obtain ⟨a, q, ha, hw, -, -, rfl⟩ := words_eq_cons h
    exact ⟨[], a, q, rfl, rfl, ha, fun _ => rfl, fun hne => absurd rfl hne, hw⟩
  | cons v vs ih =>
    obtain ⟨a, r, ha, hv, hr, hrest, rfl⟩ := words_eq_cons h
    obtain ⟨p, e, q, rfl, hp, he, hnil, hne, hw⟩ := ih hrest
    have hparted : Parted p := by
      cases p with
      | nil => rintro c ⟨⟩
      | cons c p => exact hr
    refine ⟨a ++ (v ++ p), e, q, by simp, ?_, he, fun hnot => ?_, fun _ => ?_, hw⟩
    · rw [words_blanks ha, words_append hv hparted, hp]
    · cases hnot
    · by_cases hvs : vs = []
      · rw [hnil hvs, List.nil_append] at hr
        cases w with
        | nil => exact absurd rfl hw.ne_nil
        | cons c w => exact hr.ne_nil (hw.solid c List.mem_cons_self)
      · exact hne hvs

theorem trim_eq_of_words (h : words s = words t) (hs : Solid (trim s)) : trim t = trim s := by
  by_cases hempty : trim s = []
  · rw [hempty, trim_eq_nil_iff, ← words_eq_nil_iff, ← h, words_eq_nil_iff, ← trim_eq_nil_iff]
    exact hempty
  · have hword := words_of_solid hs hempty
    rw [words_trim, h] at hword
    obtain ⟨a, r, ha, -, -, hr, rfl⟩ := words_eq_cons hword
    exact hs.trimmed.trim_between ha (words_eq_nil_iff.1 hr)

end Words

section Loose

theorem Loose.symm (h : Loose s t) : Loose t s := by
  induction h with
  | ending ha hb => exact .ending hb ha
  | char hc _ ih => exact .char hc ih
  | gap ha hane hb hbne _ ih => exact .gap hb hbne ha hane ih

theorem Loose.parted_iff (h : Loose s t) : Parted s ↔ Parted t := by
  cases h with
  | ending ha hb => exact iff_of_true ha.parted hb.parted
  | char hc _ => exact Iff.rfl
  | gap ha hane hb hbne _ => exact iff_of_true (ha.parted.append hane _) (hb.parted.append hbne _)

theorem parted_iff_startsBlank : Parted s ↔ (s.isEmpty || startsBlank s) = true := by
  cases s with
  | nil => exact iff_of_true (by rintro c ⟨⟩) rfl
  | cons c s => exact ⟨fun h => h c rfl, fun h d hd => by cases hd; exact h⟩

theorem Loose.words_eq (h : Loose s t) : words s = words t := by
  induction h with
  | ending ha hb => rw [words_eq_nil_iff.2 ha, words_eq_nil_iff.2 hb]
  | @char c s t hc h ih =>
    have hsame : (s.isEmpty || startsBlank s) = (t.isEmpty || startsBlank t) :=
      Bool.eq_iff_iff.2
        (parted_iff_startsBlank.symm.trans (h.parted_iff.trans parted_iff_startsBlank))
    rw [words, words, hsame, ih]
  | gap ha _ hb _ _ ih => rw [words_blanks ha, words_blanks hb, ih]

theorem Loose.append_left (hw : Solid w) (h : Loose s t) : Loose (w ++ s) (w ++ t) := by
  induction w with
  | nil => exact h
  | cons c w ih =>
    obtain ⟨hc, hw⟩ := List.forall_mem_cons.1 hw
    exact .char hc (ih hw)

theorem loose_of_parted (hs : Parted s) (ht : Parted t) (h : words s = words t) : Loose s t := by
  induction hws : words s generalizing s t with
  | nil => exact .ending (words_eq_nil_iff.1 hws) (words_eq_nil_iff.1 (h.symm.trans hws))
  | cons w ws ih =>
    obtain ⟨a, s, ha, hw, hs', hwords, rfl⟩ := words_eq_cons hws
    obtain ⟨b, t, hb, -, ht', hwords', rfl⟩ := words_eq_cons (h.symm.trans hws)
    have hrest := ih hs' ht' (hwords.trans hwords'.symm) hwords
    cases w with
    | nil => exact absurd rfl hw.ne_nil
    | cons c w =>
      have hc := hw.solid c List.mem_cons_self
      exact .gap ha (hs.ne_nil hc) hb (ht.ne_nil hc) (hrest.append_left hw.solid)

theorem eq_nil_of_trimmed (h : Trimmed (a ++ s)) (ha : Blanks a) : a = [] := by
  cases a with
  | nil => rfl
  | cons c a => cases (h.first c rfl).symm.trans (ha c List.mem_cons_self)

theorem eq_nil_of_trimmed_right (h : Trimmed (s ++ b)) (hb : Blanks b) : b = [] := by
  rcases List.eq_nil_or_concat' b with rfl | ⟨b, c, rfl⟩
  · rfl
  · have hc := h.last c (by simp)
    cases hc.symm.trans (hb c (List.mem_append_right b List.mem_cons_self))

theorem loose_of_trimmed (hs : Trimmed s) (ht : Trimmed t) (h : words s = words t) : Loose s t := by
  cases hws : words s with
  | nil => exact .ending (words_eq_nil_iff.1 hws) (words_eq_nil_iff.1 (h.symm.trans hws))
  | cons w ws =>
    obtain ⟨a, s, ha, hw, hs', hwords, rfl⟩ := words_eq_cons hws
    obtain ⟨b, t, hb, -, ht', hwords', rfl⟩ := words_eq_cons (h.symm.trans hws)
    obtain rfl := eq_nil_of_trimmed hs ha
    obtain rfl := eq_nil_of_trimmed ht hb
    rw [List.nil_append, List.nil_append]
    exact (loose_of_parted hs' ht' (hwords.trans hwords'.symm)).append_left hw.solid

theorem Loose.trim (h : Loose s t) : Loose (trim s) (Text.trim t) :=
  loose_of_trimmed (trimmed_trim s) (trimmed_trim t) (by rw [words_trim, words_trim, h.words_eq])

theorem Loose.of_cons (h : Loose (c :: s) t) (hc : isBlank c = false) :
    ∃ t', t = c :: t' ∧ Loose s t' := by
  generalize hs : c :: s = u at h
  cases h with
  | ending ha _ =>
    rw [← hs] at ha
    cases hc.symm.trans (ha c List.mem_cons_self)
  | char _ h =>
    cases hs
    exact ⟨_, rfl, h⟩
  | @gap a _ _ _ ha hane _ _ _ =>
    cases a with
    | nil => exact absurd rfl hane
    | cons d a =>
      cases hs
      cases hc.symm.trans (ha c List.mem_cons_self)

theorem Loose.of_append (hw : Solid w) (h : Loose (w ++ s) t) : ∃ t', t = w ++ t' ∧ Loose s t' := by
  induction w generalizing t with
  | nil => exact ⟨t, rfl, h⟩
  | cons c w ih =>
    obtain ⟨hc, hw⟩ := List.forall_mem_cons.1 hw
    obtain ⟨u, rfl, hu⟩ := Loose.of_cons h hc
    obtain ⟨t', rfl, ht'⟩ := ih hw hu
    exact ⟨t', rfl, ht'⟩

theorem loose_nil : Loose [] [] := .ending (List.forall_mem_nil _) (List.forall_mem_nil _)

theorem Loose.pieces (hsep : isBlank sep = false) (h : Loose s t) :
    List.Forall₂ Loose (pieces sep s) (Text.pieces sep t) := by
  induction h with
  | ending ha hb =>
    rw [pieces_of_not_mem (ha.not_mem hsep), pieces_of_not_mem (hb.not_mem hsep)]
    exact .cons (.ending ha hb) .nil
  | @char c s t hc _ ih =>
    by_cases hcsep : c = sep
    · rw [Text.pieces, Text.pieces, if_pos hcsep, if_pos hcsep]
      exact .cons loose_nil ih
    · have hnot : sep ∉ [c] := by simpa using Ne.symm hcsep
      obtain ⟨p, ps, hs⟩ := List.exists_cons_of_ne_nil (pieces_ne_nil sep s)
      obtain ⟨q, qs, ht⟩ := List.exists_cons_of_ne_nil (pieces_ne_nil sep t)
      rw [hs, ht, List.forall₂_cons] at ih
      have hs' := pieces_append_left hnot hs
      have ht' := pieces_append_left hnot ht
      rw [List.singleton_append] at hs' ht'
      rw [hs', ht']
      exact .cons (.char hc ih.1) ih.2
  | @gap a b s t ha hane hb hbne _ ih =>
    obtain ⟨p, ps, hs⟩ := List.exists_cons_of_ne_nil (pieces_ne_nil sep s)
    obtain ⟨q, qs, ht⟩ := List.exists_cons_of_ne_nil (pieces_ne_nil sep t)
    rw [hs, ht, List.forall₂_cons] at ih
    rw [pieces_append_left (ha.not_mem hsep) hs, pieces_append_left (hb.not_mem hsep) ht]
    exact .cons (.gap ha hane hb hbne ih.1) ih.2

theorem Loose.cut? (hsep : isBlank sep = false) (h : Loose s t) {key value : List Char}
    (hcut : cut? sep s = some (key, value)) : ∃ key' value', Text.cut? sep t = some (key', value') ∧
      Loose key key' ∧ Loose value value' := by
  induction h generalizing key with
  | ending ha _ =>
    rw [(cut?_eq_some_iff.1 hcut).1] at ha
    exact absurd (List.mem_append_right _ List.mem_cons_self) (ha.not_mem hsep)
  | @char c s t hc h ih =>
    by_cases hcsep : c = sep
    · rw [Text.cut?, if_pos hcsep] at hcut ⊢
      cases hcut
      exact ⟨_, _, rfl, loose_nil, h⟩
    · rw [Text.cut?, if_neg hcsep] at hcut ⊢
      obtain ⟨⟨k, v⟩, hrest, hkey⟩ := Option.map_eq_some_iff.1 hcut
      obtain ⟨rfl, rfl⟩ := Prod.mk.inj hkey
      obtain ⟨k', v', hcut', hk, hv⟩ := ih hrest
      exact ⟨c :: k', v', by rw [hcut']; rfl, .char hc hk, hv⟩
  | gap ha hane hb hbne _ ih =>
    rw [cut?_append_left (ha.not_mem hsep)] at hcut
    rw [cut?_append_left (hb.not_mem hsep)]
    obtain ⟨⟨k, v⟩, hrest, hkey⟩ := Option.map_eq_some_iff.1 hcut
    obtain ⟨rfl, rfl⟩ := Prod.mk.inj hkey
    obtain ⟨k', v', hcut', hk, hv⟩ := ih hrest
    exact ⟨_, v', by rw [hcut']; rfl, .gap ha hane hb hbne hk, hv⟩

theorem splitWord_of_words (h : words s = words t) :
    (splitWord s).1 = (splitWord t).1 ∧ Loose (splitWord s).2 (splitWord t).2 := by
  cases hws : words s with
  | nil =>
    have hs : trimLeft s = [] := List.dropWhile_eq_nil_iff.2 (words_eq_nil_iff.1 hws)
    have ht : trimLeft t = [] := List.dropWhile_eq_nil_iff.2 (words_eq_nil_iff.1 (h.symm.trans hws))
    simp only [splitWord, hs, ht]
    exact ⟨trivial, loose_nil⟩
  | cons w ws =>
    obtain ⟨a, s, ha, hw, hs', hwords, rfl⟩ := words_eq_cons hws
    obtain ⟨b, t, hb, -, ht', hwords', rfl⟩ := words_eq_cons (h.symm.trans hws)
    rw [splitWord_append ha hw hs', splitWord_append hb hw ht']
    exact ⟨rfl, (loose_of_parted hs' ht' (hwords.trans hwords'.symm)).trim⟩

theorem Respaced.loose (h : Respaced quoted s t) : Loose s t := by
  induction h with
  | nil => exact loose_nil
  | quote _ ih => exact .char rfl ih
  | @inside c s t _ _ ih =>
    cases hc : isBlank c with
    | false => exact .char hc ih
    | true =>
      have hblank := blanks_singleton hc
      exact .gap hblank (List.cons_ne_nil _ _) hblank (List.cons_ne_nil _ _) ih
  | outside _ hc _ ih => exact .char hc ih
  | gap ha hane hb hbne _ ih => exact .gap ha hane hb hbne ih

theorem Loose.of_concat (h : Loose (s ++ [c]) t) (hc : isBlank c = false) :
    ∃ t' b, t = t' ++ c :: b ∧ Blanks b ∧ Loose s t' := by
  generalize hu : s ++ [c] = u at h
  induction h generalizing s with
  | ending ha _ =>
    rw [← hu] at ha
    exact absurd (List.mem_append_right s List.mem_cons_self) (ha.not_mem hc)
  | @char d u t hd h ih =>
    cases s with
    | nil =>
      obtain ⟨rfl, rfl⟩ := List.cons.inj hu
      exact ⟨[], t, rfl, words_eq_nil_iff.1 h.words_eq.symm, loose_nil⟩
    | cons e s =>
      obtain ⟨rfl, hs⟩ := List.cons.inj hu
      obtain ⟨t', b, rfl, hb, hloose⟩ := ih hs
      exact ⟨e :: t', b, rfl, hb, .char hd hloose⟩
  | @gap a b u t ha hane hb hbne _ ih =>
    rcases List.append_eq_append_iff.1 hu with ⟨r, rfl, hr⟩ | ⟨r, rfl, hr⟩
    · cases r with
      | nil =>
        obtain ⟨t', e, rfl, he, hloose⟩ := ih (s := []) hr
        exact ⟨b ++ t', e, by simp, he, by simpa using Loose.gap ha hane hb hbne hloose⟩
      | cons d r =>
        obtain ⟨rfl, -⟩ := List.cons.inj hr
        exact absurd (List.mem_append_right s List.mem_cons_self) (ha.not_mem hc)
    · obtain ⟨t', e, rfl, he, hloose⟩ := ih hr.symm
      exact ⟨b ++ t', e, by simp, he, .gap ha hane hb hbne hloose⟩

end Loose

section Quotes

variable {p z v l : List Char}

theorem Respaced.append_left (hw : '"' ∉ w) (h : Respaced false s t) :
    Respaced false (w ++ s) (w ++ t) := by
  induction w with
  | nil => exact h
  | cons c w ih =>
    obtain ⟨hne, hw⟩ : '"' ≠ c ∧ '"' ∉ w := by simpa using hw
    cases hc : isBlank c with
    | false => exact .outside (Ne.symm hne) hc (ih hw)
    | true =>
      have hblank := blanks_singleton hc
      exact .gap (a := [c]) (b := [c]) hblank (List.cons_ne_nil _ _) hblank (List.cons_ne_nil _ _)
        (ih hw)

theorem respaced_refl (hw : '"' ∉ w) : Respaced false w w := by
  have h := Respaced.nil.append_left hw
  rwa [List.append_nil] at h

theorem respaced_gap (front back : List Char) (hfront : '"' ∉ front) (hback : '"' ∉ back)
    (ha : Blanks a) (hane : a ≠ []) (hb : Blanks b) (hbne : b ≠ []) :
    Respaced false (front ++ (a ++ back)) (front ++ (b ++ back)) :=
  .append_left hfront (.gap ha hane hb hbne (respaced_refl hback))

/-- Up to the first quote only blanks are replaced. -/
theorem Respaced.of_quote (h : Respaced false (z ++ '"' :: v) t) (hz : '"' ∉ z) :
    ∃ z' v', t = z' ++ '"' :: v' ∧ '"' ∉ z' ∧ Respaced true v v' := by
  generalize hq : false = quoted at h
  generalize hu : z ++ '"' :: v = u at h
  induction h generalizing z with
  | nil => simp at hu
  | @quote _ s t h _ =>
    cases z with
    | nil =>
      cases hu
      subst hq
      exact ⟨[], t, rfl, hz, h⟩
    | cons c z =>
      obtain ⟨rfl, -⟩ := List.cons.inj hu
      exact absurd List.mem_cons_self hz
  | inside _ _ _ => cases hq
  | @outside c s t hc hblank _ ih =>
    cases z with
    | nil => exact absurd (List.cons.inj hu).1.symm hc
    | cons d z =>
      obtain ⟨rfl, hs⟩ := List.cons.inj hu
      obtain ⟨hd, hz⟩ : '"' ≠ d ∧ '"' ∉ z := by simpa using hz
      obtain ⟨z', v', rfl, hz', h⟩ := ih hz rfl hs
      exact ⟨d :: z', v', rfl, by simp [hd, hz'], h⟩
  | @gap a b s t ha hane hb hbne _ ih =>
    have hquote : isBlank '"' = false := rfl
    rcases List.append_eq_append_iff.1 hu with ⟨r, rfl, hr⟩ | ⟨r, rfl, hr⟩
    · cases r with
      | nil =>
        obtain ⟨z', v', rfl, hz', h⟩ := ih (z := []) List.not_mem_nil rfl hr
        exact ⟨b ++ z', v', by simp, by simp [hb.not_mem hquote, hz'], h⟩
      | cons d r =>
        obtain ⟨rfl, -⟩ := List.cons.inj hr
        exact absurd (List.mem_append_right z List.mem_cons_self) (ha.not_mem hquote)
    · obtain ⟨z', v', rfl, hz', h⟩ := ih (fun hmem => hz (List.mem_append_right a hmem)) rfl hr.symm
      exact ⟨b ++ z', v', by simp, by simp [hb.not_mem hquote, hz'], h⟩

theorem Respaced.of_closing (h : Respaced true (p ++ '"' :: l) t) (hp : '"' ∉ p) :
    ∃ l', t = p ++ '"' :: l' ∧ Respaced false l l' := by
  induction p generalizing t with
  | nil =>
    cases h with
    | quote h => exact ⟨_, rfl, h⟩
    | inside hc _ => exact absurd rfl hc
  | cons c p ih =>
    obtain ⟨hc, hp⟩ : '"' ≠ c ∧ '"' ∉ p := by simpa using hp
    cases h with
    | quote _ => exact absurd rfl hc
    | inside _ h =>
      obtain ⟨l', rfl, hl⟩ := ih h hp
      exact ⟨l', rfl, hl⟩

end Quotes

end CueSheet.Text
