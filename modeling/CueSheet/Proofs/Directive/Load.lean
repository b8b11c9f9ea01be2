import CueSheet.Proofs.Directive.Word
import CueSheet.Proofs.Text.Cutting

/-!
The grammar of the directive that loads a file. The path stands between double quotes and may hold
everything but a double quote; the renames may stand in parentheses. A text is read as such a
directive just where the grammar derives it.
-/

namespace CueSheet

open Text

/-- A rename: two names, and between them the word `as` with blanks around it. -/
inductive RenameText : String × String → List Char → Prop
  | intro {old new : String} {a b : List Char} : isName old.toList = true →
    isName new.toList = true → Blanks a → a ≠ [] → Blanks b → b ≠ [] →
    RenameText (old, new) (old.toList ++ (a ++ ("as".toList ++ (b ++ new.toList))))

inductive RenamesText : List (String × String) → List Char → Prop
  | one {x : String × String} {t : List Char} : RenameText x t → RenamesText [x] t
  | more {x : String × String} {xs : List (String × String)} {t r a b : List Char} :
    RenameText x t → Blanks a → Blanks b → RenamesText xs r →
    RenamesText (x :: xs) (t ++ (a ++ ',' :: (b ++ r)))

inductive ItemsText : List (String × String) → List Char → Prop
  | empty : ItemsText [] []
  | listed {xs : List (String × String)} {t : List Char} : RenamesText xs t → ItemsText xs t

inductive ListText : List (String × String) → List Char → Prop
  | bare {xs : List (String × String)} {t : List Char} : ItemsText xs t → ListText xs t
  | enclosed {xs : List (String × String)} {t a b : List Char} : Blanks a → Blanks b →
    ItemsText xs t → ListText xs ('(' :: (a ++ (t ++ b) ++ [')']))

/-- A line that loads a file. There may be blanks at its ends, behind the number sign and behind the
path; behind the word there have to be some. -/
inductive LoadText (d : LoadDecl) : List Char → Prop
  | intro {t a b c e f : List Char} : d.path ≠ "" → '"' ∉ d.path.toList → ListText d.renames t →
    Blanks a → Blanks b → Blanks c → c ≠ [] → Blanks e → Blanks f →
    LoadText d (a ++ '#' :: (b ++ ("load".toList ++
      (c ++ '"' :: (d.path.toList ++ '"' :: (e ++ (t ++ f)))))))

section Renames

variable {x : String × String} {xs : List (String × String)} {s t : List Char}

theorem isWord_as : IsWord ['a', 's'] := isWord_of_isName (by decide)

theorem RenameText.comma_not_mem (h : RenameText x t) : ',' ∉ t := by
  cases h with
  | intro hold hnew ha _ hb _ =>
    simp only [List.mem_append, not_or]
    exact ⟨comma_not_mem_of_isName hold, ha.comma_not_mem, by decide, hb.comma_not_mem,
      comma_not_mem_of_isName hnew⟩

theorem RenameText.framed (h : RenameText x t) : Framed t := by
  cases h with
  | @intro old new b c hold hnew _ _ _ _ =>
    have hframed := (framed_of_isName hold).append (framed_of_isName hnew) (b ++ ("as".toList ++ c))
    rwa [List.append_assoc, List.append_assoc] at hframed

theorem RenamesText.framed (h : RenamesText xs t) : Framed t := by
  induction h with
  | one h => exact h.framed
  | @more _ _ t r a b h _ _ _ ih =>
    have hframed := h.framed.append ih (a ++ ',' :: b)
    rwa [List.append_assoc, List.cons_append] at hframed

theorem rename_eq_ok_iff : Directive.rename s = .ok x ↔
    ∃ a t b, Blanks a ∧ Blanks b ∧ RenameText x t ∧ s = a ++ (t ++ b) := by
  constructor
  · intro h
    simp only [Directive.rename] at h
    split at h
    · next old new hwords =>
      split_ifs at h with hnames
      cases h
      obtain ⟨hold, hnew⟩ := Bool.and_eq_true_iff.1 hnames
      obtain ⟨a, r, ha, -, hr, hwords', rfl⟩ := words_eq_cons hwords
      obtain ⟨b, r', hb, -, hr', hwords'', rfl⟩ := words_eq_cons hwords'
      obtain ⟨c, d, hc, hword, -, hnone, rfl⟩ := words_eq_cons hwords''
      have hbne : b ≠ [] := hr.ne_nil rfl
      have hcne : c ≠ [] := by
        cases new with
        | nil => cases hnew
        | cons n _ => exact hr'.ne_nil (hword.solid n List.mem_cons_self)
      refine ⟨a, _, d, ha, words_eq_nil_iff.1 hnone, .intro ?_ ?_ hb hbne hc hcne, ?_⟩
      · rwa [String.toList_ofList]
      · rwa [String.toList_ofList]
      · simp [String.toList_ofList]
    · cases h
  · rintro ⟨a, t, e, ha, he, hrename, rfl⟩
    cases hrename with
    | @intro old new b c hold hnew hb hbne hc hcne =>
      have hwords : words (a ++ (old.toList ++ (b ++ (['a', 's'] ++ (c ++ (new.toList ++ e)))))) =
          [old.toList, ['a', 's'], new.toList] := by
        rw [words_blanks ha, words_append (isWord_of_isName hold) (hb.parted.append hbne _),
          words_blanks hb, words_append isWord_as (hc.parted.append hcne _), words_blanks hc,
          words_append (isWord_of_isName hnew) he.parted, words_eq_nil_iff.2 he]
      have hassoc : a ++ (old.toList ++ (b ++ ("as".toList ++ (c ++ new.toList))) ++ e) =
          a ++ (old.toList ++ (b ++ (['a', 's'] ++ (c ++ (new.toList ++ e))))) := by
        simp
      simp only [Directive.rename, hassoc, hwords, hold, hnew, Bool.and_self, if_true,
        String.ofList_toList]

theorem renames_eq_ok_iff : (pieces ',' s).mapM Directive.rename = .ok xs ↔
    ∃ a t b, Blanks a ∧ Blanks b ∧ RenamesText xs t ∧ s = a ++ (t ++ b) := by
  rw [Result.mapM_eq_ok_iff]
  constructor
  · intro h
    induction xs generalizing s with
    | nil => exact absurd (List.forall₂_nil_right_iff.1 h) (pieces_ne_nil ',' s)
    | cons x xs ih =>
      by_cases hcomma : ',' ∈ s
      · obtain ⟨p, r, rfl, hp⟩ := List.eq_append_cons_of_mem hcomma
        rw [pieces_append hp, List.forall₂_cons] at h
        obtain ⟨a, t, b, ha, hb, ht, rfl⟩ := rename_eq_ok_iff.1 h.1
        obtain ⟨c, u, d, hc, hd, hu, rfl⟩ := ih h.2
        refine ⟨a, _, d, ha, hd, .more ht hb hc hu, ?_⟩
        simp
      · rw [pieces_of_not_mem hcomma, List.forall₂_cons] at h
        obtain rfl := List.forall₂_nil_left_iff.1 h.2
        obtain ⟨a, t, b, ha, hb, ht, rfl⟩ := rename_eq_ok_iff.1 h.1
        exact ⟨a, t, b, ha, hb, .one ht, rfl⟩
  · rintro ⟨a, t, b, ha, hb, ht, rfl⟩
    induction ht generalizing a with
    | @one x t ht =>
      have hcomma : ',' ∉ a ++ (t ++ b) := by
        simp only [List.mem_append, not_or]
        exact ⟨ha.comma_not_mem, ht.comma_not_mem, hb.comma_not_mem⟩
      rw [pieces_of_not_mem hcomma]
      exact .cons (rename_eq_ok_iff.2 ⟨a, t, b, ha, hb, ht, rfl⟩) .nil
    | @more x xs t r c d ht hc hd hr ih =>
      have hcomma : ',' ∉ a ++ (t ++ c) := by
        simp only [List.mem_append, not_or]
        exact ⟨ha.comma_not_mem, ht.comma_not_mem, hc.comma_not_mem⟩
      have hassoc : a ++ (t ++ (c ++ ',' :: (d ++ r)) ++ b) =
          a ++ (t ++ c) ++ ',' :: (d ++ (r ++ b)) := by
        simp
      rw [hassoc, pieces_append hcomma]
      exact .cons (rename_eq_ok_iff.2 ⟨a, t, c, ha, hc, ht, rfl⟩) (ih d hd)

end Renames

section List

variable {xs : List (String × String)} {s t : List Char}

def Directive.items (s : List Char) : Except LoadFault (List (String × String)) :=
  if s.isEmpty then pure [] else (pieces ',' s).mapM rename

def Directive.listing (s : List Char) : Except LoadFault (List (String × String)) :=
  match behind? '(' s with
  | none => items s
  | some inner => match before? ')' inner with
    | some inner => items (trim inner)
    | none => throw .parenthesis

theorem ItemsText.trimmed (h : ItemsText xs t) : Trimmed t := by
  cases h with
  | empty => exact ⟨by rintro c ⟨⟩, by rintro c ⟨⟩⟩
  | listed h => exact h.framed.trimmed

theorem ItemsText.behind?_paren (h : ItemsText xs t) : behind? '(' t = none := by
  cases h with
  | empty => rfl
  | listed h => exact h.framed.behind?_paren

theorem ListText.trimmed (h : ListText xs t) : Trimmed t := by
  cases h with
  | bare h => exact h.trimmed
  | enclosed _ _ _ =>
    rw [← List.cons_append]
    exact ⟨by rintro c ⟨⟩; rfl, fun c hc => by
      rw [List.getLast?_concat] at hc
      cases hc
      rfl⟩

theorem items_eq_ok_iff : Directive.items (trim s) = .ok xs ↔
    ∃ a t b, Blanks a ∧ Blanks b ∧ ItemsText xs t ∧ s = a ++ (t ++ b) := by
  constructor
  · intro h
    obtain ⟨a, b, ha, hb, hs⟩ := exists_trim s
    rw [Directive.items] at h
    split_ifs at h with hempty
    · cases h
      rw [List.isEmpty_iff.1 hempty] at hs
      exact ⟨a, [], b, ha, hb, .empty, hs⟩
    · obtain ⟨c, t, d, hc, hd, ht, htrim⟩ := renames_eq_ok_iff.1 h
      refine ⟨a ++ c, t, d ++ b, ha.append hc, hd.append hb, .listed ht, ?_⟩
      rw [hs, htrim]
      simp
  · rintro ⟨a, t, b, ha, hb, ht, rfl⟩
    rw [ht.trimmed.trim_between ha hb, Directive.items]
    cases ht with
    | empty => rfl
    | listed ht =>
      have hnone : Blanks [] := List.forall_mem_nil _
      rw [if_neg (by simpa using ht.framed.ne_nil)]
      exact renames_eq_ok_iff.2 ⟨[], t, [], hnone, hnone, ht, by simp⟩

theorem listing_eq_ok_iff : Directive.listing (trim s) = .ok xs ↔
    ∃ a t b, Blanks a ∧ Blanks b ∧ ListText xs t ∧ s = a ++ (t ++ b) := by
  constructor
  · intro h
    rw [Directive.listing] at h
    split at h
    · obtain ⟨a, t, b, ha, hb, ht, hs⟩ := items_eq_ok_iff.1 h
      exact ⟨a, t, b, ha, hb, .bare ht, hs⟩
    · next inner hinner =>
      split at h
      · next inside hinside =>
        obtain ⟨a, b, ha, hb, hs⟩ := exists_trim s
        obtain ⟨c, t, d, hc, hd, ht, rfl⟩ := items_eq_ok_iff.1 h
        refine ⟨a, _, b, ha, hb, .enclosed hc hd ht, ?_⟩
        rw [hs, behind?_eq_some_iff.1 hinner, before?_eq_some_iff.1 hinside]
      · cases h
  · rintro ⟨a, t, b, ha, hb, ht, rfl⟩
    cases ht with
    | bare ht =>
      have hread := items_eq_ok_iff.2 ⟨a, t, b, ha, hb, ht, rfl⟩
      rw [ht.trimmed.trim_between ha hb] at hread ⊢
      rwa [Directive.listing, ht.behind?_paren]
    | enclosed hc hd ht =>
      rw [(ListText.enclosed hc hd ht).trimmed.trim_between ha hb, Directive.listing,
        behind?_eq_some_iff.2 rfl]
      simp only [before?_eq_some_iff.2 rfl]
      exact items_eq_ok_iff.2 ⟨_, _, _, hc, hd, ht, rfl⟩

end List

section Line

variable {d : LoadDecl} {rest line : List Char}

theorem loadDecl_quoted {path l : List Char} (h : '"' ∉ path) (hne : path ≠ []) :
    Directive.loadDecl ('"' :: (path ++ '"' :: l)) =
      (Directive.listing (trim l)).map fun renames => ⟨String.ofList path, renames⟩ := by
  have hcut : cut? '"' (path ++ '"' :: l) = some (path, l) := cut?_eq_some_iff.2 ⟨rfl, h⟩
  have hempty : path.isEmpty = false := by simpa using hne
  have hitems : ∀ s, (do
      if s.isEmpty then
        let renames ← pure []
        return ⟨String.ofList path, renames⟩
      else
        let renames ← (pieces ',' s).mapM Directive.rename
        return ⟨String.ofList path, renames⟩) =
      (Directive.items s).map fun renames => (⟨String.ofList path, renames⟩ : LoadDecl) := by
    intro s
    rw [Directive.items]
    split
    · rfl
    · cases (pieces ',' s).mapM Directive.rename <;> rfl
  simp only [Directive.loadDecl, behind?_eq_some_iff.2 rfl, hcut, hempty, Bool.false_eq_true,
    if_false, Directive.listing]
  cases behind? '(' (trim l) with
  | none => exact hitems (trim l)
  | some inner =>
    cases hinside : before? ')' inner with
    | none =>
      simp only [hinside]
      rfl
    | some inside =>
      simp only [hinside]
      exact hitems (trim inside)

theorem loadDecl_eq_ok_iff : Directive.loadDecl rest = .ok d ↔
    ∃ l, rest = '"' :: (d.path.toList ++ '"' :: l) ∧ d.path ≠ "" ∧ '"' ∉ d.path.toList ∧
      Directive.listing (trim l) = .ok d.renames := by
  constructor
  · intro h
    cases hquote : behind? '"' rest with
    | none =>
      rw [Directive.loadDecl, hquote] at h
      cases h
    | some body =>
      cases hcut : cut? '"' body with
      | none =>
        simp only [Directive.loadDecl, hquote, hcut] at h
        cases h
      | some parts =>
        obtain ⟨path, l⟩ := parts
        obtain ⟨rfl, hpath⟩ := cut?_eq_some_iff.1 hcut
        obtain rfl := behind?_eq_some_iff.1 hquote
        cases path with
        | nil => cases h
        | cons c path =>
          rw [loadDecl_quoted hpath (List.cons_ne_nil c path)] at h
          obtain ⟨renames, hrenames, rfl⟩ := Result.map_eq_ok_iff.1 h
          refine ⟨l, ?_, ?_, ?_, hrenames⟩
          · rw [String.toList_ofList]
          · simp
          · rwa [String.toList_ofList]
  · rintro ⟨l, rfl, hne, hpath, hlist⟩
    rw [loadDecl_quoted hpath (by simpa using hne), hlist]
    simp only [Except.map, String.ofList_toList]

theorem loadText_of_read (h : Directive.read line = .ok (.load d)) : LoadText d line := by
  obtain ⟨body, word, rest, hline, hword, hobtains⟩ := Directive.read_eq_ok_iff.1 h
  cases hobtains with
  | load h =>
    obtain ⟨l, rfl, hne, hpath, hlist⟩ := loadDecl_eq_ok_iff.1 h
    obtain ⟨e, t, f, he, hf, ht, rfl⟩ := listing_eq_ok_iff.1 hlist
    obtain ⟨b, r, hb, -, hparted, hr, rfl⟩ := exists_splitWord hword (by decide)
    obtain ⟨c, g, hc, hg, hcore⟩ := exists_trim r
    obtain ⟨a, i, ha, hi, hends⟩ := exists_trim line
    rw [hr] at hcore
    rw [hline] at hends
    have hcne : c ≠ [] := by
      rw [hcore] at hparted
      exact hparted.ne_nil rfl
    have htext := LoadText.intro hne hpath ht ha hb hc hcne he (hf.append (hg.append hi))
    have hassoc : line = a ++ '#' :: (b ++ ("load".toList ++ (c ++ '"' :: (d.path.toList ++ '"' ::
        (e ++ (t ++ (f ++ (g ++ i)))))))) := by
      rw [hends, hcore]
      simp
    rwa [← hassoc] at htext

theorem LoadText.read (h : LoadText d line) : Directive.read line = .ok (.load d) := by
  cases h with
  | @intro t a b c e f hne hpath ht ha hb hc hcne he hf =>
    have hload : IsWord "load".toList := isWord_of_isName (by decide)
    have hlist := listing_eq_ok_iff.2 ⟨e, t, f, he, hf, ht, rfl⟩
    generalize e ++ (t ++ f) = l at hlist ⊢
    -- blanks at the end of the line are cut off more than once, but the path ends with its quote
    have hbody : trimRight (b ++ ("load".toList ++ (c ++ '"' :: (d.path.toList ++ '"' :: l)))) =
        b ++ ("load".toList ++ (c ++ '"' :: (d.path.toList ++ '"' :: trimRight l))) := by
      have h := trimRight_append_cons (c := '"') rfl
        (b ++ ("load".toList ++ (c ++ '"' :: d.path.toList))) l
      simpa using h
    have hrest : trim (c ++ '"' :: (d.path.toList ++ '"' :: trimRight l)) =
        '"' :: (d.path.toList ++ '"' :: trimRight (trimRight l)) := by
      rw [trim_blanks hc, trim_cons rfl, trimRight_append_cons rfl]
    have hword := splitWord_append hb hload
      (hc.parted.append hcne ('"' :: (d.path.toList ++ '"' :: trimRight l)))
    rw [hrest] at hword
    refine Directive.read_eq_ok_iff.2 ⟨_, _, _, ?_, hword,
      .load (loadDecl_eq_ok_iff.2 ⟨_, rfl, hne, hpath, ?_⟩)⟩
    · rw [trim_blanks ha, trim_cons rfl, hbody]
    · rwa [trim_trimRight, trim_trimRight]

/-- A line is read as a directive that loads a file just where the grammar derives it from what is read:
what the grammar derives is read back, and nothing else is read. -/
theorem Directive.read_eq_load_iff : Directive.read line = .ok (.load d) ↔ LoadText d line :=
  ⟨loadText_of_read, LoadText.read⟩

end Line

example : Directive.read " # load\t\"a, (b) as #\"( x as y ,as  as as ) ".toList =
    .ok (.load ⟨"a, (b) as #", [("x", "y"), ("as", "as")]⟩) := by
  decide +kernel

end CueSheet
