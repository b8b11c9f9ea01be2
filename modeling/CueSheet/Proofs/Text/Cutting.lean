import CueSheet.Proofs.Source.Lexing
import CueSheet.Text
import Mathlib.Data.List.Basic
import Mathlib.Data.List.TakeWhile

/-!
A text that was cut is put together again: the blanks that were cut off an end, the blanks between two
words, and the separators between pieces.
-/

namespace CueSheet.Text

def Blanks (s : List Char) : Prop := ∀ c ∈ s, isBlank c = true

structure Trimmed (s : List Char) : Prop where
  first : ∀ c, s.head? = some c → isBlank c = false
  last : ∀ c, s.getLast? = some c → isBlank c = false

structure IsWord (w : List Char) : Prop where
  ne_nil : w ≠ []
  solid : ∀ c ∈ w, isBlank c = false

/-- No word goes on at the front of the text. -/
def Parted (s : List Char) : Prop := ∀ c, s.head? = some c → isBlank c = true

variable {a b s t w r : List Char} {c : Char}

theorem blanks_singleton (hc : isBlank c = true) : Blanks [c] := List.forall_mem_singleton.2 hc

theorem Blanks.append (ha : Blanks a) (hb : Blanks b) : Blanks (a ++ b) :=
  List.forall_mem_append.2 ⟨ha, hb⟩

theorem Blanks.parted (hb : Blanks b) : Parted b := fun c hc => hb c (List.mem_of_head? hc)

theorem Parted.append (h : Parted b) (hne : b ≠ []) (s : List Char) : Parted (b ++ s) := by
  cases b with
  | nil => exact absurd rfl hne
  | cons c b => exact h

theorem Blanks.not_mem (hb : Blanks b) (hc : isBlank c = false) : c ∉ b := fun hmem => by
  cases hc.symm.trans (hb c hmem)

theorem Parted.ne_nil (h : Parted (b ++ c :: s)) (hc : isBlank c = false) : b ≠ [] := by
  rintro rfl
  rw [h c rfl] at hc
  cases hc

theorem not_of_head?_dropWhile {p : Char → Bool} (h : (s.dropWhile p).head? = some c) :
    p c = false := by
  have hnot := List.head?_dropWhile_not p s
  rwa [h] at hnot

section Ends

theorem exists_trimLeft (s : List Char) : ∃ a, Blanks a ∧ s = a ++ trimLeft s :=
  ⟨s.takeWhile isBlank, fun _ => List.mem_takeWhile_imp, List.takeWhile_append_dropWhile.symm⟩

theorem trimRight_append_cons (hc : isBlank c = false) (s r : List Char) :
    trimRight (s ++ c :: r) = s ++ c :: trimRight r := by
  have hkeep : List.dropWhile isBlank (c :: s.reverse) = c :: s.reverse :=
    List.dropWhile_cons_of_neg (by simp [hc])
  simp only [trimRight, List.reverse_append, List.reverse_cons, List.append_assoc,
    List.singleton_append]
  rw [List.dropWhile_append]
  split
  · next hempty => simp [hkeep, List.isEmpty_iff.1 hempty]
  · simp

theorem exists_trimRight (s : List Char) : ∃ b, Blanks b ∧ s = trimRight s ++ b := by
  obtain ⟨b, hb, hs⟩ := exists_trimLeft s.reverse
  refine ⟨b.reverse, fun c hc => hb c (List.mem_reverse.1 hc), ?_⟩
  calc s = s.reverse.reverse := (List.reverse_reverse s).symm
    _ = (b ++ trimLeft s.reverse).reverse := congrArg List.reverse hs
    _ = trimRight s ++ b.reverse := List.reverse_append

theorem trimRight_append_blanks (hb : Blanks b) (s : List Char) : trimRight (s ++ b) = trimRight s := by
  have hb : ∀ c ∈ b.reverse, isBlank c = true := fun c hc => hb c (List.mem_reverse.1 hc)
  rw [trimRight, List.reverse_append, List.dropWhile_append_of_pos hb, trimRight]

theorem trim_blanks (ha : Blanks a) (s : List Char) : trim (a ++ s) = trim s := by
  rw [trim, trimLeft_blanks ha, trim]

theorem trim_space (s : List Char) : trim (' ' :: s) = trim s := trim_blanks (blanks_singleton rfl) s

theorem trim_cons (hc : isBlank c = false) (s : List Char) : trim (c :: s) = c :: trimRight s := by
  rw [trim, trimLeft_cons hc]
  exact trimRight_append_cons hc [] s

theorem blanks_or (s : List Char) :
    Blanks s ∨ ∃ a c t, Blanks a ∧ isBlank c = false ∧ s = a ++ c :: t := by
  obtain ⟨a, ha, hs⟩ := exists_trimLeft s
  cases ht : trimLeft s with
  | nil =>
    rw [ht, List.append_nil] at hs
    exact .inl (hs ▸ ha)
  | cons c t =>
    have hc : isBlank c = false := not_of_head?_dropWhile (by rw [← trimLeft, ht]; rfl)
    exact .inr ⟨a, c, t, ha, hc, ht ▸ hs⟩

theorem trim_of_blanks (hb : Blanks b) : trim b = [] := by
  have h := trim_blanks hb []
  rwa [List.append_nil] at h

theorem trim_append_blanks (hb : Blanks b) (s : List Char) : trim (s ++ b) = trim s := by
  rcases blanks_or s with hs | ⟨a, c, t, ha, hc, rfl⟩
  · rw [trim_of_blanks hs, trim_of_blanks (hs.append hb)]
  · rw [List.append_assoc, trim_blanks ha, trim_blanks ha, List.cons_append, trim_cons hc,
      trim_cons hc, trimRight_append_blanks hb]

theorem trim_trimRight (s : List Char) : trim (trimRight s) = trim s := by
  obtain ⟨b, hb, hs⟩ := exists_trimRight s
  have htrim := trim_append_blanks hb (trimRight s)
  rwa [← hs, eq_comm] at htrim

theorem trimRight_eq_self (h : ∀ c, s.getLast? = some c → isBlank c = false) : trimRight s = s := by
  rcases List.eq_nil_or_concat' s with rfl | ⟨t, c, rfl⟩
  · rfl
  · exact trimRight_append_cons (h c (by simp)) t []

theorem Trimmed.trim (h : Trimmed s) : trim s = s := by
  have hleft : trimLeft s = s := by
    cases s with
    | nil => rfl
    | cons c t => exact trimLeft_cons (h.first c rfl) t
  rw [Text.trim, hleft, trimRight_eq_self h.last]

theorem trimmed_singleton (hc : isBlank c = false) : Trimmed [c] where
  first d hd := by
    cases hd
    exact hc
  last d hd := by
    cases hd
    exact hc

theorem Trimmed.append (hs : Trimmed s) (hs' : s ≠ []) (ht : Trimmed t) (ht' : t ≠ [])
    (m : List Char) : Trimmed (s ++ (m ++ t)) where
  first c hc := by
    rw [List.head?_append_of_ne_nil s hs'] at hc
    exact hs.first c hc
  last c hc := by
    rw [← List.append_assoc, List.getLast?_append_of_ne_nil _ ht'] at hc
    exact ht.last c hc

theorem Trimmed.trim_between (h : Trimmed s) (ha : Blanks a) (hb : Blanks b) :
    Text.trim (a ++ (s ++ b)) = s := by
  rw [trim_blanks ha, trim_append_blanks hb, h.trim]

theorem exists_trim (s : List Char) : ∃ a b, Blanks a ∧ Blanks b ∧ s = a ++ (trim s ++ b) := by
  obtain ⟨a, ha, hleft⟩ := exists_trimLeft s
  obtain ⟨b, hb, hright⟩ := exists_trimRight (trimLeft s)
  exact ⟨a, b, ha, hb, by rw [trim, ← hright, ← hleft]⟩

end Ends

section Words

theorem takeWhile_append_parted (hw : IsWord w) (hr : Parted r) :
    (w ++ r).takeWhile (!isBlank ·) = w ∧ (w ++ r).dropWhile (!isBlank ·) = r := by
  have hsolid : ∀ c ∈ w, (!isBlank c) = true := fun c hc => by simp [hw.solid c hc]
  rw [List.takeWhile_append_of_pos hsolid, List.dropWhile_append_of_pos hsolid]
  cases r with
  | nil => simp
  | cons c r => simp [hr c rfl]

theorem IsWord.trimLeft (hw : IsWord w) (s : List Char) : trimLeft (w ++ s) = w ++ s := by
  cases w with
  | nil => exact absurd rfl hw.ne_nil
  | cons c w => exact trimLeft_cons (hw.solid c List.mem_cons_self) (w ++ s)

theorem splitWord_append (ha : Blanks a) (hw : IsWord w) (hr : Parted r) :
    splitWord (a ++ (w ++ r)) = (w, trim r) := by
  obtain ⟨htake, hdrop⟩ := takeWhile_append_parted hw hr
  simp only [splitWord, trimLeft_blanks ha, hw.trimLeft, htake, hdrop]

theorem blanks_or_word (s : List Char) :
    Blanks s ∨ ∃ a w r, Blanks a ∧ IsWord w ∧ Parted r ∧ s = a ++ (w ++ r) := by
  rcases blanks_or s with hs | ⟨a, c, t, ha, hc, rfl⟩
  · exact .inl hs
  · refine .inr ⟨a, (c :: t).takeWhile (!isBlank ·), (c :: t).dropWhile (!isBlank ·), ha,
      ⟨by simp [hc], fun d hd => ?_⟩, fun d hd => ?_, ?_⟩
    · simpa using List.mem_takeWhile_imp hd
    · simpa using not_of_head?_dropWhile hd
    · rw [List.takeWhile_append_dropWhile]

theorem exists_splitWord (h : splitWord s = (w, r)) (hw : w ≠ []) :
    ∃ a t, Blanks a ∧ IsWord w ∧ Parted t ∧ trim t = r ∧ s = a ++ (w ++ t) := by
  rcases blanks_or_word s with hs | ⟨a, v, t, ha, hv, ht, rfl⟩
  · have hempty : trimLeft s = [] := List.dropWhile_eq_nil_iff.2 hs
    simp only [splitWord, hempty] at h
    cases h
    exact absurd rfl hw
  · rw [splitWord_append ha hv ht] at h
    cases h
    exact ⟨a, t, ha, hv, ht, rfl, rfl⟩

theorem words_blanks (ha : Blanks a) (s : List Char) : words (a ++ s) = words s := by
  induction a with
  | nil => rfl
  | cons c a ih =>
    obtain ⟨hc, ha⟩ := List.forall_mem_cons.1 ha
    rw [List.cons_append, words, if_pos hc, ih ha]

theorem words_append (hw : IsWord w) (hr : Parted r) : words (w ++ r) = w :: words r := by
  induction w with
  | nil => exact absurd rfl hw.ne_nil
  | cons c w ih =>
    obtain ⟨hc, hsolid⟩ := List.forall_mem_cons.1 hw.solid
    rw [List.cons_append, words, if_neg (by simp [hc])]
    cases w with
    | nil =>
      have hend : (r.isEmpty || startsBlank r) = true := by
        cases r with
        | nil => rfl
        | cons d r => exact hr d rfl
      rw [List.nil_append, if_pos hend]
    | cons d w =>
      have hgoes : ((d :: w ++ r).isEmpty || startsBlank (d :: w ++ r)) = false :=
        hsolid d List.mem_cons_self
      rw [if_neg (Bool.eq_false_iff.1 hgoes), ih ⟨List.cons_ne_nil d w, hsolid⟩]

theorem words_eq_nil_iff : words s = [] ↔ Blanks s := by
  constructor
  · intro h
    rcases blanks_or_word s with hs | ⟨a, w, r, ha, hw, hr, rfl⟩
    · exact hs
    · rw [words_blanks ha, words_append hw hr] at h
      cases h
  · intro hs
    have h := words_blanks hs []
    rwa [List.append_nil] at h

theorem words_eq_cons {ws : List (List Char)} (h : words s = w :: ws) :
    ∃ a r, Blanks a ∧ IsWord w ∧ Parted r ∧ words r = ws ∧ s = a ++ (w ++ r) := by
  rcases blanks_or_word s with hs | ⟨a, v, r, ha, hv, hr, rfl⟩
  · rw [words_eq_nil_iff.2 hs] at h
    cases h
  · rw [words_blanks ha, words_append hv hr] at h
    cases h
    exact ⟨a, r, ha, hv, hr, rfl, rfl⟩

end Words

section Pieces

variable {sep : Char}

theorem pieces_of_not_mem (h : sep ∉ s) : pieces sep s = [s] := by
  induction s with
  | nil => rfl
  | cons c s ih =>
    obtain ⟨hc, hs⟩ : sep ≠ c ∧ sep ∉ s := by simpa using h
    rw [pieces, if_neg (Ne.symm hc), ih hs]

theorem pieces_append (h : sep ∉ t) (r : List Char) :
    pieces sep (t ++ sep :: r) = t :: pieces sep r := by
  induction t with
  | nil => simp [pieces]
  | cons c t ih =>
    obtain ⟨hc, ht⟩ : sep ≠ c ∧ sep ∉ t := by simpa using h
    rw [List.cons_append, pieces, if_neg (Ne.symm hc), ih ht]

theorem pieces_append_left {p : List Char} {ps : List (List Char)} (h : sep ∉ t)
    (hs : pieces sep s = p :: ps) : pieces sep (t ++ s) = (t ++ p) :: ps := by
  induction t with
  | nil => exact hs
  | cons c t ih =>
    obtain ⟨hc, ht⟩ : sep ≠ c ∧ sep ∉ t := by simpa using h
    rw [List.cons_append, pieces, if_neg (Ne.symm hc), ih ht, List.cons_append]

theorem exists_pieces_append (sep : Char) (s : List Char) : ∃ front last,
    pieces sep s = front ++ [last] ∧ ∀ t p ps, pieces sep t = p :: ps →
      pieces sep (s ++ t) = front ++ (last ++ p) :: ps := by
  induction s with
  | nil => exact ⟨[], [], rfl, fun t p ps ht => ht⟩
  | cons c s ih =>
    obtain ⟨front, last, hs, happend⟩ := ih
    by_cases hc : c = sep
    · refine ⟨[] :: front, last, by rw [pieces, if_pos hc, hs]; rfl, fun t p ps ht => ?_⟩
      rw [List.cons_append, pieces, if_pos hc, happend t p ps ht]
      rfl
    · have hnot : sep ∉ [c] := by simpa using Ne.symm hc
      cases front with
      | nil =>
        exact ⟨[], c :: last, pieces_append_left hnot hs, fun t p ps ht =>
          pieces_append_left hnot (happend t p ps ht)⟩
      | cons q front =>
        exact ⟨(c :: q) :: front, last, pieces_append_left hnot hs, fun t p ps ht =>
          pieces_append_left hnot (happend t p ps ht)⟩

theorem cut?_append_left (h : sep ∉ t) (s : List Char) :
    cut? sep (t ++ s) = (cut? sep s).map fun p => (t ++ p.1, p.2) := by
  induction t with
  | nil => simp
  | cons c t ih =>
    obtain ⟨hc, ht⟩ : sep ≠ c ∧ sep ∉ t := by simpa using h
    rw [List.cons_append, cut?, if_neg (Ne.symm hc), ih ht, Option.map_map]
    rfl

end Pieces

section Names

theorem startsWord_of_isName (h : isName w = true) : ∀ c ∈ w, Token.startsWord c := by
  cases w with
  | nil => cases h
  | cons c r =>
    simp only [isName, Bool.and_eq_true, List.all_eq_true] at h
    refine List.forall_mem_cons.2 ⟨.inr h.1, fun d hd => ?_⟩
    have hd := h.2 d hd
    simp only [continuesName, Char.isAlphanum, Bool.or_eq_true] at hd
    simp only [Token.startsWord, startsName, Bool.or_eq_true]
    tauto

theorem isWord_of_isName (h : isName w = true) : IsWord w := by
  refine ⟨?_, fun c hc => (startsWord_of_isName h c hc).not_blank⟩
  rintro rfl
  cases h

theorem not_mem_of_isName (h : isName w = true) (hc : ¬ Token.startsWord c) : c ∉ w :=
  fun hmem => hc (startsWord_of_isName h c hmem)

theorem comma_not_mem_of_isName (h : isName w = true) : ',' ∉ w := by
  refine not_mem_of_isName h ?_
  rintro (h | h) <;> cases h

theorem Blanks.comma_not_mem (hb : Blanks b) : ',' ∉ b := hb.not_mem rfl

structure Framed (t : List Char) : Prop where
  ne_nil : t ≠ []
  first : ∀ c, t.head? = some c → Token.startsWord c
  last : ∀ c, t.getLast? = some c → Token.startsWord c

theorem framed_of_isName (h : isName w = true) : Framed w where
  ne_nil := (isWord_of_isName h).ne_nil
  first _ hc := startsWord_of_isName h _ (List.mem_of_head? hc)
  last _ hc := startsWord_of_isName h _ (List.mem_of_getLast? hc)

theorem Framed.append (ht : Framed t) (hr : Framed r) (m : List Char) :
    Framed (t ++ (m ++ r)) where
  ne_nil := List.append_ne_nil_of_left_ne_nil ht.ne_nil _
  first c hc := ht.first c (by rwa [List.head?_append_of_ne_nil t ht.ne_nil] at hc)
  last c hc := by
    rw [← List.append_assoc, List.getLast?_append_of_ne_nil _ hr.ne_nil] at hc
    exact hr.last c hc

theorem Framed.trimmed (h : Framed t) : Trimmed t :=
  ⟨fun c hc => (h.first c hc).not_blank, fun c hc => (h.last c hc).not_blank⟩

theorem Framed.behind?_paren (h : Framed t) : behind? '(' t = none := by
  cases t with
  | nil => rfl
  | cons c t =>
    refine if_neg ?_
    rintro rfl
    rcases h.first '(' rfl with h | h <;> cases h

end Names

end CueSheet.Text
