import CueSheet.Proofs.Directive.Device
import CueSheet.Proofs.Directive.Load
import CueSheet.Proofs.Text.Breaking
import CueSheet.Proofs.Text.Respaced

/-!
Blanks in directives. Every kind of blank parts words, names and values, so other blanks in their place
make no difference. The keyword alone is looked for with a space on either side.
-/

namespace CueSheet

open Text

structure SerialSpec.Solid (spec : SerialSpec) : Prop where
  port : Text.Solid spec.port.toList
  parity : ∀ p, spec.parity = some p → Text.Solid p.toList
  stopBits : ∀ b, spec.stopBits = some b → Text.Solid b.toList

namespace Directive

/-- No blank stands in the port and the values. -/
def Solid : Directive → Prop
  | .device d => (∀ spec, d.serial = some spec → spec.Solid) ∧
    ∀ x ∈ d.properties, Text.Solid x.2.toList
  | .load _ | .priority _ => True

def behindName (line : List Char) : List Char :=
  (splitWord (splitWord ((trim line).drop 1)).2).2

def place? (s : List Char) : Option Nat :=
  (breakAt? " with ".toList s).map fun parts => (words parts.1).length

def keywordPlace? (line : List Char) : Option Nat := place? (behindName line)

variable {s t f f' list list' : List Char} {spec : SerialSpec} {xs : List (String × String)}

section Values

theorem unquote_cases (s : List Char) :
    (∃ v, s = '"' :: (v ++ ['"']) ∧ unquote s = v) ∨ unquote s = s := by
  rw [unquote]
  cases hfirst : behind? '"' s with
  | none => exact .inr rfl
  | some r =>
    cases hlast : before? '"' r with
    | none => exact .inr (by simp [hlast])
    | some v =>
      refine .inl ⟨v, ?_, by simp [hlast]⟩
      rw [behind?_eq_some_iff.1 hfirst, before?_eq_some_iff.1 hlast]

theorem solid_of_unquote (h : Text.Solid (unquote s)) : Text.Solid s := by
  rcases unquote_cases s with ⟨v, rfl, hv⟩ | hs
  · rw [hv] at h
    have hquote : isBlank '"' = false := rfl
    simpa [Text.Solid, hquote, or_imp, forall_and] using h
  · rwa [hs] at h

theorem solid_of_digits? {n : Nat} (h : Decimal.digits? s = some n) : Text.Solid s := by
  rw [Decimal.digits?] at h
  split_ifs at h with hdigits
  simp only [Bool.or_eq_true, Bool.not_eq_true', not_or, Bool.not_eq_false, List.all_eq_true]
    at hdigits
  exact fun c hc => Token.startsWord.not_blank (.inl (hdigits.2 c hc))

theorem solid_cons {c : Char} (hc : isBlank c = false) (h : Text.Solid s) : Text.Solid (c :: s) :=
  List.forall_mem_cons.2 ⟨hc, h⟩

theorem solid_of_natural? {max n : Nat} (h : Decimal.natural? max s = some n) : Text.Solid s := by
  obtain ⟨hdigits, -⟩ := Option.filter_eq_some_iff.1 h
  split at hdigits
  · exact solid_cons rfl (solid_of_digits? hdigits)
  · exact solid_of_digits? hdigits

theorem solid_of_integer? {max : Nat} {n : Int} (h : Decimal.integer? max s = some n) :
    Text.Solid s := by
  unfold Decimal.integer? at h
  split at h
  · obtain ⟨m, hm, -⟩ := Option.map_eq_some_iff.1 h
    obtain ⟨k, hk, -⟩ := Option.bind_eq_some_iff.1 hm
    exact solid_cons rfl (solid_of_digits? (Option.filter_eq_some_iff.1 hk).1)
  · obtain ⟨m, hm, -⟩ := Option.map_eq_some_iff.1 h
    exact solid_of_natural? hm

theorem solid_of_isName (h : isName s = true) : Text.Solid s := (isWord_of_isName h).solid

end Values

section Fields

theorem solid_of_serialSpec (h : serialSpec s = .ok spec) (hspec : spec.Solid) :
    ∀ p ∈ pieces ',' s, Text.Solid (trim p) := by
  obtain ⟨port, baud, more, hfields, hmore, -, hport, hbaud, hparity, hbits, hstop⟩ :=
    serialSpec_eq_ok_iff.1 h
  have hparity : ∀ p, more[0]? = some p → Text.Solid p := fun p hp => by
    have h := hspec.parity (String.ofList p) (by rw [hparity, hp]; rfl)
    rwa [String.toList_ofList] at h
  have hbits : ∀ b, more[1]? = some b → Text.Solid b := fun b hb => by
    rw [hb, Option.map_some, eq_comm, Option.map_eq_some_iff] at hbits
    obtain ⟨n, -, hn⟩ := hbits
    exact solid_of_natural? hn.symm
  have hstop : ∀ b, more[2]? = some b → Text.Solid b := fun b hb => by
    have h := hspec.stopBits (String.ofList b) (by rw [hstop, hb]; rfl)
    rwa [String.toList_ofList] at h
  have hmore : ∀ x ∈ more, Text.Solid x := fun x hx => by
    obtain ⟨i, hi, rfl⟩ := List.mem_iff_getElem.1 hx
    have hget := List.getElem?_eq_getElem hi
    obtain rfl | rfl | rfl : i = 0 ∨ i = 1 ∨ i = 2 := by omega
    · exact hparity _ hget
    · exact hbits _ hget
    · exact hstop _ hget
  have hall : ∀ x ∈ (pieces ',' s).map trim, Text.Solid x := by
    rw [hfields]
    refine List.forall_mem_cons.2 ⟨solid_of_unquote ?_, List.forall_mem_cons.2
      ⟨solid_of_natural? hbaud, hmore⟩⟩
    have hsolid := hspec.port
    rwa [hport, String.toList_ofList] at hsolid
  exact fun p hp => hall _ (List.mem_map_of_mem hp)

theorem map_trim_of_loose {ps qs : List (List Char)} (h : List.Forall₂ Loose ps qs)
    (hsolid : ∀ p ∈ ps, Text.Solid (trim p)) : qs.map trim = ps.map trim := by
  induction h with
  | nil => rfl
  | cons hpq _ ih =>
    obtain ⟨hp, hps⟩ := List.forall_mem_cons.1 hsolid
    rw [List.map_cons, List.map_cons, trim_eq_of_words hpq.words_eq hp, ih hps]

theorem serialSpec_of_loose (h : serialSpec f = .ok spec) (hspec : spec.Solid)
    (hloose : Loose f f') : serialSpec f' = .ok spec := by
  have hfields := map_trim_of_loose (hloose.pieces rfl) (solid_of_serialSpec h hspec)
  rw [← h]
  simp only [serialSpec, hfields]

theorem property_of_loose {x : String × String} (h : property s = .ok x)
    (hx : Text.Solid x.2.toList) (hloose : Loose s t) : property t = .ok x := by
  obtain ⟨key, value, hcut, hname, rfl⟩ := property_eq_ok_iff.1 h
  obtain ⟨key', value', hcut', hkey, hvalue⟩ := hloose.cut? rfl hcut
  rw [String.toList_ofList] at hx
  have hkey := trim_eq_of_words hkey.words_eq (solid_of_isName hname)
  have hvalue := trim_eq_of_words hvalue.words_eq (solid_of_unquote hx)
  exact property_eq_ok_iff.2 ⟨key', value', hcut', by rwa [hkey], by rw [hkey, hvalue]⟩

theorem properties_of_loose (h : properties (some list) = .ok xs)
    (hxs : ∀ x ∈ xs, Text.Solid x.2.toList) (hloose : Loose list list') :
    properties (some list') = .ok xs := by
  rw [properties] at h ⊢
  exact Result.mapM_of_forall₂ h (hloose.pieces rfl) fun p q x hpq hx hp =>
    property_of_loose hp (hxs x hx) hpq.trim

end Fields

section Keyword

variable {more more' : List Char}

theorem splitWith_with {r : List Char} (hr : Parted r) (ht : Trimmed ("with".toList ++ r)) :
    splitWith ("with".toList ++ r) = ([], some (trim r)) := by
  have hprefix : "with".toList.isPrefixOf? ("with".toList ++ r) = some r :=
    List.isPrefixOf?_eq_some_iff_append_eq.2 rfl
  simp only [splitWith, ht.trim, hprefix, parted_iff_startsBlank.1 hr, if_true]

theorem splitWith_cases (ht : Trimmed s) :
    (∃ r, Parted r ∧ s = "with".toList ++ r ∧ splitWith s = ([], some (trim r))) ∨
      splitWith s = match breakAt? " with ".toList s with
        | some (a, b) => (trim a, some (trim b))
        | none => (s, none) := by
  cases hprefix : "with".toList.isPrefixOf? s with
  | none =>
    refine .inr ?_
    cases hbreak : breakAt? " with ".toList s <;> simp only [splitWith, ht.trim, hprefix, hbreak]
  | some r =>
    by_cases hr : Parted r
    · obtain rfl := List.isPrefixOf?_eq_some_iff_append_eq.1 hprefix
      exact .inl ⟨r, hr, rfl, splitWith_with hr ht⟩
    · refine .inr ?_
      rw [parted_iff_startsBlank] at hr
      cases hbreak : breakAt? " with ".toList s <;>
        simp only [splitWith, ht.trim, hprefix, if_neg hr, hbreak]

theorem splitWith_eq_nil (ht : Trimmed more) {list : Option (List Char)}
    (h : splitWith more = ([], list)) :
    (more = [] ∧ list = none) ∨
      ∃ r, Parted r ∧ more = "with".toList ++ r ∧ list = some (trim r) := by
  rcases splitWith_cases ht with ⟨r, hr, hmore, hsplit⟩ | hsplit
  · rw [h] at hsplit
    exact .inr ⟨r, hr, hmore, (Prod.mk.inj hsplit).2⟩
  · rw [h] at hsplit
    cases hbreak : breakAt? " with ".toList more with
    | none =>
      rw [hbreak] at hsplit
      obtain ⟨hmore, hlist⟩ := Prod.mk.inj hsplit
      exact .inl ⟨hmore.symm, hlist⟩
    | some parts =>
      obtain ⟨a, b⟩ := parts
      rw [hbreak] at hsplit
      have ha : Blanks (a ++ [' ']) :=
        (trim_eq_nil_iff.1 (Prod.mk.inj hsplit).1.symm).append (blanks_singleton rfl)
      have hmore : more = a ++ [' '] ++ ("with ".toList ++ b) := by
        rw [eq_of_breakAt? hbreak, List.append_assoc]
        rfl
      rw [hmore] at ht
      exact absurd (eq_nil_of_trimmed ht ha) (List.append_ne_nil_of_right_ne_nil a (by simp))

theorem splitWith_eq_equals (ht : Trimmed more) {list : Option (List Char)}
    (h : splitWith more = ('=' :: f, list)) :
    (breakAt? " with ".toList more = none ∧ more = '=' :: f ∧ list = none) ∨
      ∃ a b, breakAt? " with ".toList more = some (a, b) ∧ trim a = '=' :: f ∧
        list = some (trim b) := by
  rcases splitWith_cases ht with ⟨r, -, -, hsplit⟩ | hsplit
  · cases h.symm.trans hsplit
  · rw [h] at hsplit
    cases hbreak : breakAt? " with ".toList more with
    | none =>
      rw [hbreak] at hsplit
      obtain ⟨hmore, hlist⟩ := Prod.mk.inj hsplit
      exact .inl ⟨rfl, hmore.symm, hlist⟩
    | some parts =>
      obtain ⟨a, b⟩ := parts
      rw [hbreak] at hsplit
      obtain ⟨ha, hlist⟩ := Prod.mk.inj hsplit
      exact .inr ⟨a, b, rfl, ha.symm, hlist⟩

theorem words_of_breakAt? {a b : List Char} (h : breakAt? " with ".toList s = some (a, b)) :
    words s = words a ++ "with".toList :: words b := by
  have hspace : Blanks [' '] := blanks_singleton rfl
  have hword : IsWord "with".toList := isWord_of_isName (by decide)
  have hs : s = a ++ ([' '] ++ ("with".toList ++ ([' '] ++ b))) := by
    rw [eq_of_breakAt? h]
    rfl
  rw [hs, words_append_parted (hspace.parted.append (List.cons_ne_nil _ _) _), words_blanks hspace,
    words_append hword (hspace.parted.append (List.cons_ne_nil _ _) _), words_blanks hspace]

theorem place?_eq_none_iff : place? s = none ↔ breakAt? " with ".toList s = none :=
  Option.map_eq_none_iff

theorem place?_eq_some_iff {n : Nat} : place? s = some n ↔
    ∃ a b, breakAt? " with ".toList s = some (a, b) ∧ (words a).length = n := by
  simp only [place?, Option.map_eq_some_iff, Prod.exists]

theorem exists_equals {a b : List Char} (ht : Trimmed s)
    (hbreak : breakAt? " with ".toList s = some (a, b)) (ha : trim a = '=' :: f) :
    ∃ m, s = '=' :: m := by
  obtain ⟨x, y, hx, -, hends⟩ := exists_trim a
  rw [eq_of_breakAt? hbreak, hends, List.append_assoc] at ht ⊢
  obtain rfl := eq_nil_of_trimmed ht hx
  exact ⟨_, by rw [ha]; rfl⟩

theorem exists_words_of_lt {a b a' b' : List Char} (h : words s = words t)
    (hbreak : breakAt? " with ".toList s = some (a, b))
    (hbreak' : breakAt? " with ".toList t = some (a', b'))
    (hlt : (words a').length < (words a).length) :
    ∃ ws, words a = words a' ++ "with".toList :: ws := by
  rw [words_of_breakAt? hbreak, words_of_breakAt? hbreak'] at h
  rcases List.append_eq_append_iff.1 h with ⟨vs, hvs, -⟩ | ⟨vs, hvs, hrest⟩
  · rw [hvs, List.length_append] at hlt
    omega
  · cases vs with
    | nil =>
      rw [hvs, List.append_nil] at hlt
      exact absurd hlt (Nat.lt_irrefl _)
    | cons v vs =>
      obtain ⟨rfl, -⟩ := List.cons.inj hrest
      exact ⟨vs, hvs⟩

theorem loose_of_place {a b a' b' : List Char} (h : Loose more more')
    (hbreak : breakAt? " with ".toList more = some (a, b))
    (hbreak' : breakAt? " with ".toList more' = some (a', b'))
    (hplace : (words a).length = (words a').length) :
    Loose (trim a) (trim a') ∧ Loose (trim b) (trim b') := by
  have hwords := h.words_eq
  rw [words_of_breakAt? hbreak, words_of_breakAt? hbreak'] at hwords
  obtain ⟨ha, hb⟩ := List.append_inj hwords hplace
  obtain ⟨-, hb⟩ := List.cons.inj hb
  refine ⟨loose_of_trimmed (trimmed_trim a) (trimmed_trim a') ?_,
    loose_of_trimmed (trimmed_trim b) (trimmed_trim b') ?_⟩
  · rw [words_trim, words_trim, ha]
  · rw [words_trim, words_trim, hb]

end Keyword

section Device

variable {rest rest' more more' name positional : List Char} {d : DeviceDecl}

theorem trimmed_splitWord (s : List Char) : Trimmed (splitWord s).2 := trimmed_trim _

theorem splitWith_of_loose_nil (h : Loose more more') (ht : Trimmed more) (ht' : Trimmed more')
    {list : Option (List Char)} (hwith : splitWith more = ([], list))
    (hlist : properties list = .ok xs) (hxs : ∀ x ∈ xs, Text.Solid x.2.toList) :
    ∃ list', splitWith more' = ([], list') ∧ properties list' = .ok xs := by
  rcases splitWith_eq_nil ht hwith with ⟨rfl, rfl⟩ | ⟨r, hr, rfl, rfl⟩
  · have hmore' : more' = [] := by
      rw [← ht'.trim, trim_eq_nil_iff, ← words_eq_nil_iff, ← h.words_eq]
      rfl
    exact ⟨none, by rw [hmore']; rfl, hlist⟩
  · obtain ⟨r', rfl, hloose⟩ := h.of_append (solid_of_isName (by decide))
    exact ⟨_, splitWith_with (hloose.parted_iff.1 hr) ht',
      properties_of_loose hlist hxs hloose.trim⟩

theorem splitWith_of_loose_equals (h : Loose more more') (ht : Trimmed more) (ht' : Trimmed more')
    {list : Option (List Char)} (hwith : splitWith more = ('=' :: f, list))
    (hplace : place? more = place? more')
    (hspec : serialSpec f = .ok spec) (hsolid : spec.Solid)
    (hlist : properties list = .ok xs) (hxs : ∀ x ∈ xs, Text.Solid x.2.toList) :
    ∃ f' list', splitWith more' = ('=' :: f', list') ∧ serialSpec f' = .ok spec ∧
      properties list' = .ok xs := by
  have hequals : isBlank '=' = false := rfl
  rcases splitWith_eq_equals ht hwith with ⟨hbreak, rfl, rfl⟩ | ⟨a, b, hbreak, ha, rfl⟩
  · obtain ⟨f', rfl, hloose⟩ := h.of_cons hequals
    rw [place?_eq_none_iff.2 hbreak, eq_comm, place?_eq_none_iff] at hplace
    refine ⟨f', none, ?_, serialSpec_of_loose hspec hsolid hloose, hlist⟩
    rw [splitWith_equals ht', hplace]
  · rw [place?_eq_some_iff.2 ⟨a, b, hbreak, rfl⟩, eq_comm, place?_eq_some_iff] at hplace
    obtain ⟨a', b', hbreak', hlength⟩ := hplace
    obtain ⟨hfront, hback⟩ := loose_of_place h hbreak hbreak' hlength.symm
    rw [ha] at hfront
    obtain ⟨f', ha', hloose⟩ := hfront.of_cons hequals
    refine ⟨f', some (trim b'), ?_, serialSpec_of_loose hspec hsolid hloose,
      properties_of_loose hlist hxs hback⟩
    obtain ⟨m, rfl⟩ := exists_equals ht' hbreak' ha'
    rw [splitWith_equals ht', hbreak', ← ha']

theorem deviceDecl_of_loose (h : deviceDecl rest = .ok d) (hsolid : (Directive.device d).Solid)
    (hloose : Loose rest rest')
    (hplace : d.serial.isSome = true →
      place? (splitWord rest).2 = place? (splitWord rest').2) :
    deviceDecl rest' = .ok d := by
  obtain ⟨name, more, positional, list, hword, hname, hwith, hd, hfields, hlist⟩ :=
    deviceDecl_eq_ok_iff.1 h
  obtain ⟨hfirst, hmore⟩ := splitWord_of_words hloose.words_eq
  have ht := trimmed_splitWord rest
  have ht' := trimmed_splitWord rest'
  rcases hword' : splitWord rest' with ⟨name', more'⟩
  rw [hword, hword'] at hfirst hmore hplace
  rw [hword] at ht
  rw [hword'] at ht'
  obtain rfl : name = name' := hfirst
  obtain ⟨hserial, hprops⟩ := hsolid
  refine deviceDecl_eq_ok_iff.2 ?_
  cases hd' : d.serial with
  | none =>
    rw [hd'] at hfields
    obtain rfl := fields_eq_none hfields
    obtain ⟨list', hwith', hlist'⟩ := splitWith_of_loose_nil hmore ht ht' hwith hlist hprops
    exact ⟨name, more', [], list', hword', hname, hwith', hd, rfl, hlist'⟩
  | some spec =>
    rw [hd'] at hfields
    obtain ⟨f, rfl, hspec⟩ := fields_eq_some hfields
    obtain ⟨f', list', hwith', hspec', hlist'⟩ := splitWith_of_loose_equals hmore ht ht' hwith
      (hplace (by rw [hd']; rfl)) hspec (hserial spec hd') hlist hprops
    exact ⟨name, more', '=' :: f', list', hword', hname, hwith', hd,
      fields_equals_iff.2 ⟨spec, hspec', rfl⟩, hlist'⟩

end Device

section Place

variable {spec : SerialSpec}

theorem exists_last_of_forall₂ {α β : Type} {R : α → β → Prop} {front : List α} {last : α}
    {l : List β} (h : List.Forall₂ R (front ++ [last]) l) :
    ∃ front' last', l = front' ++ [last'] ∧ R last last' := by
  induction front generalizing l with
  | nil =>
    cases h with
    | cons hlast hnil =>
      cases hnil
      exact ⟨[], _, rfl, hlast⟩
  | cons a front ih =>
    cases h with
    | cons _ hrest =>
      obtain ⟨front', last', rfl, hlast⟩ := ih hrest
      exact ⟨_ :: front', last', rfl, hlast⟩

theorem length_fields_eq (h : serialSpec f = .ok spec) (h' : serialSpec f' = .ok spec) :
    (pieces ',' f).length = (pieces ',' f').length := by
  obtain ⟨port, baud, more, hfields, hmore, -, -, -, hparity, hbits, hstop⟩ :=
    serialSpec_eq_ok_iff.1 h
  obtain ⟨port', baud', more', hfields', hmore', -, -, -, hparity', hbits', hstop'⟩ :=
    serialSpec_eq_ok_iff.1 h'
  have hfirst := congrArg (· = none) (hparity.symm.trans hparity')
  have hsecond := congrArg (· = none) (hbits.trans hbits'.symm)
  have hthird := congrArg (· = none) (hstop.symm.trans hstop')
  simp only [Option.map_eq_none_iff, List.getElem?_eq_none_iff, eq_iff_iff]
    at hfirst hsecond hthird
  have hlength : ((pieces ',' f).map trim).length = ((pieces ',' f').map trim).length := by
    rw [hfields, hfields', List.length_cons, List.length_cons, List.length_cons, List.length_cons]
    omega
  rwa [List.length_map, List.length_map] at hlength

theorem last_field_eq_nil (h : serialSpec f = .ok spec) (h' : serialSpec f' = .ok spec)
    {x : List Char} (hlast : ((pieces ',' f).map trim).getLast? = some x)
    (hlast' : ((pieces ',' f').map trim).getLast? = some []) : x = [] := by
  have hlength := length_fields_eq h h'
  rw [← List.length_map trim, ← @List.length_map _ _ (pieces ',' f') trim] at hlength
  obtain ⟨port, baud, more, hfields, hmore, -, -, -, hparity, hbits, hstop⟩ :=
    serialSpec_eq_ok_iff.1 h
  obtain ⟨port', baud', more', hfields', hmore', -, -, hbaud', hparity', hbits', hstop'⟩ :=
    serialSpec_eq_ok_iff.1 h'
  rw [hfields] at hlast hlength
  rw [hfields'] at hlast' hlength
  obtain hlength : more.length = more'.length := by simpa using hlength
  have hnone : ∀ max, Decimal.natural? max [] = none := fun max => rfl
  have hinj : ∀ {y : List Char}, some (String.ofList y) = some (String.ofList []) → y = [] :=
    fun hy => by simpa using congrArg String.toList (Option.some.inj hy)
  match more, more', hmore, hlength with
  | [], [], _, _ =>
    cases hlast'
    cases (hnone _).symm.trans hbaud'
  | [p], [p'], _, _ =>
    cases hlast
    cases hlast'
    exact hinj (hparity.symm.trans hparity')
  | [p, b], [p', b'], _, _ =>
    cases hlast'
    obtain ⟨n, -, hn⟩ := Option.map_eq_some_iff.1 hbits'.symm
    cases hn.trans (hnone _)
  | [p, b, z], [p', b', z'], _, _ =>
    cases hlast
    cases hlast'
    exact hinj (hstop.symm.trans hstop')

theorem not_serialSpec_append {g e q : List Char} (hg : Loose g f') (he : Blanks e) (hne : e ≠ [])
    (h : serialSpec (g ++ (e ++ ("with".toList ++ q))) = .ok spec)
    (h' : serialSpec f' = .ok spec) : ¬ spec.Solid := by
  intro hsolid
  obtain ⟨front, last, hpieces, happend⟩ := exists_pieces_append ',' g
  obtain ⟨p, ps, hq⟩ := List.exists_cons_of_ne_nil (pieces_ne_nil ',' q)
  have hrest : pieces ',' (e ++ ("with".toList ++ q)) = (e ++ ("with".toList ++ p)) :: ps :=
    pieces_append_left he.comma_not_mem (pieces_append_left (by decide) hq)
  have hall := happend _ _ _ hrest
  -- there is no further comma, for the number of fields is the same
  have hloose := hg.pieces (show isBlank ',' = false from rfl)
  have hlength := length_fields_eq h h'
  rw [← hloose.length_eq, hall, hpieces] at hlength
  obtain rfl : ps = [] := by
    simp only [List.length_append, List.length_cons, List.length_nil] at hlength
    exact List.length_eq_zero_iff.1 (by omega)
  rw [hpieces] at hloose
  obtain ⟨front', last', hpieces', hlast⟩ := exists_last_of_forall₂ hloose
  generalize hy : e ++ ("with".toList ++ p) = y at hall
  have hsolidlast : Text.Solid (trim (last ++ y)) :=
    solid_of_serialSpec h hsolid _ (by rw [hall]; simp)
  have hblank : ¬ Blanks y := fun hblank => by
    rw [← hy] at hblank
    exact absurd (List.mem_append_right e (List.mem_append_left p (by decide)))
      (hblank.not_mem (c := 'w') rfl)
  -- so what was the last field before is blank, and is read as an empty one
  have hempty := hsolidlast.blanks_left (hy ▸ he.parted.append hne _) hblank
  have hempty' : trim last' = [] := by
    rwa [trim_eq_nil_iff, ← words_eq_nil_iff, ← hlast.words_eq, words_eq_nil_iff]
  have hnotempty : trim (last ++ y) ≠ [] := fun hnil =>
    hblank (List.forall_mem_append.1 (trim_eq_nil_iff.1 hnil)).2
  refine hnotempty (last_field_eq_nil h h' ?_ ?_)
  · rw [hall]
    simp
  · rw [hpieces']
    simp [hempty']

variable {more more' a b a' b' : List Char}

theorem not_place_lt (hwords : words more = words more')
    (hbreak : breakAt? " with ".toList more = some (a, b))
    (hbreak' : breakAt? " with ".toList more' = some (a', b')) (ha : trim a = '=' :: f)
    (ha' : trim a' = '=' :: f') (h : serialSpec f = .ok spec) (h' : serialSpec f' = .ok spec)
    (hsolid : spec.Solid) : ¬ (words a').length < (words a).length := by
  intro hlt
  obtain ⟨ws, hws⟩ := exists_words_of_lt hwords hbreak hbreak' hlt
  rw [← words_trim a, ha] at hws
  obtain ⟨p, e, q, hp, hpwords, he, -, hene, -⟩ := words_eq_append hws
  have hne : words a' ≠ [] := by
    rw [← words_trim, ha', ne_eq, words_eq_nil_iff]
    intro hblank
    cases hblank '=' List.mem_cons_self
  cases p with
  | nil => exact hne hpwords.symm
  | cons c g =>
    obtain rfl : '=' = c := (List.cons.inj hp).1
    have hf : f = g ++ (e ++ ("with".toList ++ q)) := (List.cons.inj hp).2
    obtain ⟨e', he', hg⟩ := exists_trimRight g
    have hloose : Loose ('=' :: trimRight g) ('=' :: f') := by
      rw [← trim_cons rfl, ← ha']
      refine loose_of_trimmed (trimmed_trim _) (trimmed_trim _) ?_
      rw [words_trim, words_trim, hpwords]
    obtain ⟨_, hcons, hloose⟩ := hloose.of_cons rfl
    obtain rfl := (List.cons.inj hcons).2
    rw [hf, hg, List.append_assoc, ← List.append_assoc e' e] at h
    exact not_serialSpec_append hloose (he'.append he)
      (List.append_ne_nil_of_right_ne_nil e' (hene hne)) h h' hsolid

theorem ne_nil_of_properties {list : List Char} (h : properties (some list) = .ok xs) : xs ≠ [] := by
  rw [properties, Result.mapM_eq_ok_iff] at h
  rintro rfl
  exact pieces_ne_nil ',' list (List.forall₂_nil_right_iff.1 h)

/-- Where the same is read for the same words, the keyword stands at the same place. -/
theorem place_eq (hloose : Loose more more') (ht : Trimmed more) (ht' : Trimmed more')
    {list list' : Option (List Char)} (hwith : splitWith more = ('=' :: f, list))
    (hwith' : splitWith more' = ('=' :: f', list')) (h : serialSpec f = .ok spec)
    (h' : serialSpec f' = .ok spec) (hsolid : spec.Solid) (hlist : properties list = .ok xs)
    (hlist' : properties list' = .ok xs) : place? more = place? more' := by
  have hwords := hloose.words_eq
  rcases splitWith_eq_equals ht hwith with ⟨hbreak, -, rfl⟩ | ⟨a, b, hbreak, ha, rfl⟩ <;>
    rcases splitWith_eq_equals ht' hwith' with ⟨hbreak', -, rfl⟩ | ⟨a', b', hbreak', ha', rfl⟩
  · rw [place?_eq_none_iff.2 hbreak, place?_eq_none_iff.2 hbreak']
  · cases hlist
    exact absurd rfl (ne_nil_of_properties hlist')
  · cases hlist'
    exact absurd rfl (ne_nil_of_properties hlist)
  · have hle := not_place_lt hwords hbreak hbreak' ha ha' h h' hsolid
    have hge := not_place_lt hwords.symm hbreak' hbreak ha' ha h' h hsolid
    rw [place?_eq_some_iff.2 ⟨a, b, hbreak, rfl⟩, place?_eq_some_iff.2 ⟨a', b', hbreak', rfl⟩,
      Nat.le_antisymm (Nat.not_lt.1 hle) (Nat.not_lt.1 hge)]

theorem place_eq_of_deviceDecl {rest rest' : List Char} {d : DeviceDecl}
    (h : deviceDecl rest = .ok d) (h' : deviceDecl rest' = .ok d)
    (hsolid : ∀ spec, d.serial = some spec → spec.Solid) (hloose : Loose rest rest')
    (hserial : d.serial.isSome = true) : place? (splitWord rest).2 = place? (splitWord rest').2 := by
  obtain ⟨spec, hspec⟩ := Option.isSome_iff_exists.1 hserial
  obtain ⟨name, more, positional, list, hword, -, hwith, -, hfields, hlist⟩ :=
    deviceDecl_eq_ok_iff.1 h
  obtain ⟨name', more', positional', list', hword', -, hwith', -, hfields', hlist'⟩ :=
    deviceDecl_eq_ok_iff.1 h'
  have hmore := (splitWord_of_words hloose.words_eq).2
  have ht := trimmed_splitWord rest
  have ht' := trimmed_splitWord rest'
  rw [hword, hword'] at hmore
  rw [hword] at ht
  rw [hword'] at ht'
  rw [hspec] at hfields hfields'
  obtain ⟨f, rfl, hf⟩ := fields_eq_some hfields
  obtain ⟨f', rfl, hf'⟩ := fields_eq_some hfields'
  rw [hword, hword']
  exact place_eq hmore ht ht' hwith hwith' hf hf' (hsolid spec hspec) hlist hlist'

end Place

section Load

variable {rest rest' : List Char} {d : LoadDecl}

theorem rename_of_words {x : String × String} (h : rename s = .ok x) (hwords : words s = words t) :
    rename t = .ok x := by
  rw [rename] at h ⊢
  rw [← hwords]
  split at h
  · next old new hs =>
    split_ifs at h with hnames
    simp only [if_pos hnames, h]
  · cases h

theorem items_of_loose (h : items s = .ok xs) (hloose : Loose s t) (hs : Trimmed s)
    (ht : Trimmed t) : items t = .ok xs := by
  have hempty : s = [] ↔ t = [] := by
    rw [← hs.trim, ← ht.trim, trim_eq_nil_iff, trim_eq_nil_iff, ← words_eq_nil_iff,
      hloose.words_eq, words_eq_nil_iff]
  rw [items] at h ⊢
  by_cases hnil : s = []
  · rw [if_pos (List.isEmpty_iff.2 hnil)] at h
    rwa [if_pos (List.isEmpty_iff.2 (hempty.1 hnil))]
  · rw [if_neg (mt List.isEmpty_iff.1 hnil)] at h
    rw [if_neg fun ht => hnil (hempty.2 (List.isEmpty_iff.1 ht))]
    exact Result.mapM_of_forall₂ h (hloose.pieces rfl) fun p q x hpq _ hp =>
      rename_of_words hp hpq.words_eq

theorem listing_of_loose (h : listing s = .ok xs) (hloose : Loose s t) (hs : Trimmed s)
    (ht : Trimmed t) : listing t = .ok xs := by
  have hparen : isBlank '(' = false := rfl
  have hclose : isBlank ')' = false := rfl
  rw [listing] at h ⊢
  split at h
  · next hnone =>
    have hnone' : behind? '(' t = none := by
      cases hinner : behind? '(' t with
      | none => rfl
      | some inner =>
        rw [behind?_eq_some_iff.1 hinner] at hloose
        obtain ⟨_, rfl, -⟩ := hloose.symm.of_cons hparen
        cases hnone
    rw [hnone']
    exact items_of_loose h hloose hs ht
  · next inner hinner =>
    obtain rfl := behind?_eq_some_iff.1 hinner
    obtain ⟨inner', rfl, hloose'⟩ := hloose.of_cons hparen
    split at h
    · next inside hinside =>
      obtain rfl := before?_eq_some_iff.1 hinside
      obtain ⟨inside', b, rfl, hb, hloose''⟩ := hloose'.of_concat hclose
      have hends : '(' :: (inside' ++ ')' :: b) = '(' :: (inside' ++ [')']) ++ b := by simp
      rw [hends] at ht
      obtain rfl := eq_nil_of_trimmed_right ht hb
      rw [behind?_eq_some_iff.2 rfl]
      simp only [before?_eq_some_iff.2 rfl]
      exact items_of_loose h hloose''.trim (trimmed_trim _) (trimmed_trim _)
    · cases h

theorem suffix_of_splitWord {w body : List Char} (hline : trim s = '#' :: body)
    (hword : splitWord body = (w, rest)) (hw : w ≠ []) (hquote : '"' ∉ w) :
    ∃ z b, s = z ++ (rest ++ b) ∧ '"' ∉ z ∧ Blanks b := by
  obtain ⟨a, b, ha, hb, hs⟩ := exists_trim s
  obtain ⟨c, r, hc, -, -, hr, rfl⟩ := exists_splitWord hword hw
  obtain ⟨e, g, he, hg, hrest⟩ := exists_trim r
  have hblank : isBlank '"' = false := rfl
  refine ⟨a ++ '#' :: (c ++ (w ++ e)), g ++ b, ?_, ?_, hg.append hb⟩
  · rw [hs, hline, hrest, hr]
    simp
  · simp [ha.not_mem hblank, hc.not_mem hblank, he.not_mem hblank, hquote]

theorem eq_of_append_cons {c : Char} {a b a' b' : List Char} (h : a ++ c :: b = a' ++ c :: b')
    (ha : c ∉ a) (ha' : c ∉ a') : a = a' ∧ b = b' := by
  have hcut := (cut?_eq_some_iff.2 ⟨h, ha'⟩).symm.trans (cut?_eq_some_iff.2 ⟨rfl, ha⟩)
  exact ⟨(Prod.mk.inj (Option.some.inj hcut)).1.symm, (Prod.mk.inj (Option.some.inj hcut)).2.symm⟩

/-- The path stands between the first two quotes of the line, where no blank was replaced. -/
theorem loadDecl_of_respaced {body body' : List Char} (hst : Respaced false s t)
    (hline : trim s = '#' :: body) (hline' : trim t = '#' :: body')
    (hword : splitWord body = ("load".toList, rest))
    (hword' : splitWord body' = ("load".toList, rest')) (hloose : Loose rest rest')
    (h : loadDecl rest = .ok d) : loadDecl rest' = .ok d := by
  have hquote : isBlank '"' = false := rfl
  obtain ⟨l, rfl, hne, hpath, hlist⟩ := loadDecl_eq_ok_iff.1 h
  obtain ⟨y, rfl, hy⟩ := hloose.of_cons hquote
  obtain ⟨z, b, hs, hz, hb⟩ := suffix_of_splitWord hline hword (by decide) (by decide)
  obtain ⟨x, e, ht, hx, he⟩ := suffix_of_splitWord hline' hword' (by decide) (by decide)
  rw [hs, List.cons_append, List.append_assoc, List.cons_append] at hst
  rw [List.cons_append] at ht
  obtain ⟨z', v, htz, hz', hv⟩ := hst.of_quote hz
  obtain ⟨l', rfl, hl⟩ := hv.of_closing hpath
  obtain ⟨-, hrest⟩ := eq_of_append_cons (ht.symm.trans htz) hx hz'
  obtain ⟨p, m, rfl, hp⟩ : ∃ p m, y = p ++ '"' :: m ∧ '"' ∉ p := by
    have hmem : '"' ∈ y ++ e := by
      rw [hrest]
      exact List.mem_append_right _ List.mem_cons_self
    refine List.eq_append_cons_of_mem ((List.mem_append.1 hmem).resolve_right ?_)
    exact he.not_mem hquote
  rw [List.append_assoc, List.cons_append] at hrest
  obtain ⟨rfl, rfl⟩ := eq_of_append_cons hrest hp hpath
  have hwords := hl.loose.words_eq
  rw [words_append_parted hb.parted, words_append_parted he.parted, words_eq_nil_iff.2 hb,
    words_eq_nil_iff.2 he, List.append_nil, List.append_nil] at hwords
  refine loadDecl_eq_ok_iff.2 ⟨m, rfl, hne, hpath, ?_⟩
  have hm : Loose (trim l) (trim m) :=
    loose_of_trimmed (trimmed_trim l) (trimmed_trim m) (by rw [words_trim, words_trim, hwords])
  exact listing_of_loose hlist hm (trimmed_trim l) (trimmed_trim m)

end Load

section Line

theorem seconds_of_loose {rest rest' : List Char} {n : Int} (h : seconds rest = .ok n)
    (hloose : Loose rest rest') : seconds rest' = .ok n := by
  rw [seconds] at h ⊢
  split at h
  · next m hm =>
    rw [trim_eq_of_words hloose.words_eq (solid_of_integer? hm), hm]
    exact h
  · cases h

variable {x : Directive}

theorem exists_rest_of_loose {body word rest : List Char} (hloose : Loose s t)
    (hline : trim s = '#' :: body) (hword : splitWord body = (word, rest)) :
    ∃ body' rest', trim t = '#' :: body' ∧ splitWord body' = (word, rest') ∧ Loose rest rest' := by
  have htrim := hloose.trim
  rw [hline] at htrim
  obtain ⟨body', hline', hbody⟩ := htrim.of_cons rfl
  obtain ⟨hfirst, hrest⟩ := splitWord_of_words hbody.words_eq
  rw [hword] at hfirst hrest
  exact ⟨body', (splitWord body').2, hline', Prod.ext hfirst.symm rfl, hrest⟩

theorem behindName_eq {body word rest : List Char} (hline : trim s = '#' :: body)
    (hword : splitWord body = (word, rest)) : behindName s = (splitWord rest).2 := by
  simp only [behindName, hline, List.drop_succ_cons, List.drop_zero, hword]

/-- An accepted line, without blanks in its port and its values, may be given other blanks: the same is
read, provided that the keyword behind the fields of a serial device is found where it was found
before, or still is not found. -/
theorem read_respaced_iff (h : read s = .ok x) (hx : x.Solid) (hst : Respaced false s t) :
    read t = .ok x ↔
      ∀ d, x = .device d → d.serial.isSome = true → keywordPlace? s = keywordPlace? t := by
  obtain ⟨body, word, rest, hline, hword, hobtains⟩ := read_eq_ok_iff.1 h
  obtain ⟨body', rest', hline', hword', hrest⟩ := exists_rest_of_loose hst.loose hline hword
  rw [keywordPlace?, keywordPlace?, behindName_eq hline hword, behindName_eq hline' hword']
  constructor
  · rintro h' d rfl hserial
    obtain ⟨body₂, word₂, rest₂, hline₂, hword₂, hobtains₂⟩ := read_eq_ok_iff.1 h'
    obtain rfl : body' = body₂ := (List.cons.inj (hline'.symm.trans hline₂)).2
    obtain ⟨rfl, rfl⟩ := Prod.mk.inj (hword'.symm.trans hword₂)
    cases hobtains with
    | device hd =>
      cases hobtains₂ with
      | device hd' => exact place_eq_of_deviceDecl hd hd' hx.1 hrest hserial
  · intro hplace
    refine read_eq_ok_iff.2 ⟨body', word, rest', hline', hword', ?_⟩
    cases hobtains with
    | device hd => exact .device (deviceDecl_of_loose hd hx hrest (hplace _ rfl))
    | load hd => exact .load (loadDecl_of_respaced hst hline hline' hword hword' hrest hd)
    | priority hn => exact .priority (seconds_of_loose hn hrest)

def withProperty : DeviceDecl := ⟨"Pump", some ⟨"COM3", 9600, none, none, none⟩, [("new_line", "x")]⟩

theorem read_withProperty : read "#device Pump = COM3, 9600 with new_line = x".toList =
    .ok (.device withProperty) := by
  decide +kernel

theorem solid_withProperty : (Directive.device withProperty).Solid := by
  refine ⟨?_, List.forall_mem_singleton.2 (List.forall_mem_singleton.2 rfl)⟩
  rintro spec ⟨⟩
  exact ⟨solid_of_isName (by decide), by rintro p ⟨⟩, by rintro b ⟨⟩⟩

/-- A tab behind the word is as good as a space; the keyword keeps its own. -/
theorem read_respaced_tab : ∃ t, t = "#device\tPump = COM3, 9600 with new_line = x".toList ∧
    Respaced false "#device Pump = COM3, 9600 with new_line = x".toList t ∧
    keywordPlace? "#device Pump = COM3, 9600 with new_line = x".toList = keywordPlace? t ∧
    read t = .ok (.device withProperty) := by
  have hst : Respaced false "#device Pump = COM3, 9600 with new_line = x".toList
      "#device\tPump = COM3, 9600 with new_line = x".toList :=
    respaced_gap (a := [' ']) (b := ['\t']) "#device".toList
      "Pump = COM3, 9600 with new_line = x".toList (by decide) (by decide)
      (blanks_singleton rfl) (by decide) (blanks_singleton rfl) (by decide)
  have hplace : keywordPlace? "#device Pump = COM3, 9600 with new_line = x".toList =
      keywordPlace? "#device\tPump = COM3, 9600 with new_line = x".toList := by
    decide +kernel
  have hiff := read_respaced_iff read_withProperty solid_withProperty hst
  exact ⟨_, rfl, hst, hplace, hiff.2 fun _ _ _ => hplace⟩

/-- Behind a tab the keyword is not found. -/
theorem read_not_always_respaced : ¬ ∀ s t x, read s = .ok x → x.Solid → Respaced false s t →
    read t = .ok x := by
  intro h
  have hst : Respaced false "#device Pump = COM3, 9600 with new_line = x".toList
      "#device Pump = COM3, 9600\twith new_line = x".toList :=
    respaced_gap (a := [' ']) (b := ['\t']) "#device Pump = COM3, 9600".toList
      "with new_line = x".toList (by decide) (by decide)
      (blanks_singleton rfl) (by decide) (blanks_singleton rfl) (by decide)
  have hread : read "#device Pump = COM3, 9600\twith new_line = x".toList =
      .error (.device (.baud "9600\twith new_line = x")) := by
    decide +kernel
  cases hread.symm.trans (h _ _ _ read_withProperty solid_withProperty hst)

end Line

end Directive

end CueSheet
