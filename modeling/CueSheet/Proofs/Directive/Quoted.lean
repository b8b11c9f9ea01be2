import CueSheet.Proofs.Directive.Device
import CueSheet.Proofs.Source.Number
import CueSheet.Proofs.Text.Breaking

/-!
A device whose port and values stand in double quotes. The quotes are taken away only after the line
was cut at the keyword and at the commas, so they do not keep a comma or the keyword from being found.
-/

namespace CueSheet.Directive

open Text

def quotedPair (x : String × String) : List Char :=
  x.1.toList ++ ' ' :: '=' :: ' ' :: '"' :: (x.2.toList ++ ['"'])

def quotedPairs : List (String × String) → List Char
  | [] => []
  | [x] => quotedPair x
  | x :: xs => quotedPair x ++ ',' :: ' ' :: quotedPairs xs

def quotedFields (port : String) (baud : Nat) (xs : List (String × String)) : List Char :=
  '=' :: ' ' :: '"' :: (port.toList ++ '"' :: ',' :: ' ' :: ((toString baud).toList ++
    if xs = [] then [] else " with ".toList ++ quotedPairs xs))

/-- A line that declares a serial device, with its port and the values of its properties in quotes. -/
def quotedLine (name port : String) (baud : Nat) (xs : List (String × String)) : List Char :=
  "#device ".toList ++ (name.toList ++ ' ' :: quotedFields port baud xs)

variable {name port : String} {baud : Nat} {x : String × String} {xs : List (String × String)}
  {s t : List Char}

section Quotes

theorem unquote_quoted (v : List Char) : unquote ('"' :: (v ++ ['"'])) = v := by
  rw [unquote, behind?_eq_some_iff.2 rfl]
  simp [before?_eq_some_iff.2 rfl]

theorem unquote_open (h : '"' ∉ t) : unquote ('"' :: t) = '"' :: t := by
  have hnone : before? '"' t = none := by
    cases hb : before? '"' t with
    | none => rfl
    | some r =>
      rw [before?_eq_some_iff.1 hb] at h
      simp at h
  rw [unquote, behind?_eq_some_iff.2 rfl]
  simp [hnone]

theorem trimmed_quoted (v : List Char) : Trimmed ('"' :: (v ++ ['"'])) :=
  have hquote : Trimmed ['"'] := trimmed_singleton rfl
  hquote.append (List.cons_ne_nil _ _) hquote (List.cons_ne_nil _ _) v

end Quotes

section Properties

theorem trimmed_quotedPair (hname : isName x.1.toList = true) : Trimmed (quotedPair x) := by
  have hkey := framed_of_isName hname
  exact hkey.trimmed.append hkey.ne_nil (trimmed_singleton (c := '"') rfl) (List.cons_ne_nil _ _)
    (' ' :: '=' :: ' ' :: '"' :: x.2.toList)

theorem property_quotedPair (hname : isName x.1.toList = true) :
    property (quotedPair x) = .ok x := by
  have hequals : '=' ∉ x.1.toList ++ [' '] := by
    have hkey : '=' ∉ x.1.toList := by
      refine not_mem_of_isName hname ?_
      rintro (h | h) <;> cases h
    simpa using hkey
  have hcut : cut? '=' (quotedPair x) =
      some (x.1.toList ++ [' '], ' ' :: '"' :: (x.2.toList ++ ['"'])) :=
    cut?_eq_some_iff.2 ⟨by simp [quotedPair], hequals⟩
  have hkey : trim (x.1.toList ++ [' ']) = x.1.toList := by
    rw [trim_append_blanks (blanks_singleton rfl), (framed_of_isName hname).trimmed.trim]
  have hvalue : trim (' ' :: '"' :: (x.2.toList ++ ['"'])) = '"' :: (x.2.toList ++ ['"']) :=
    (trim_space _).trans (trimmed_quoted _).trim
  refine property_eq_ok_iff.2 ⟨_, _, hcut, ?_, ?_⟩
  · rwa [hkey]
  · rw [hkey, hvalue, unquote_quoted, String.ofList_toList, String.ofList_toList]

theorem comma_not_mem_quotedPair (hname : isName x.1.toList = true) (hvalue : ',' ∉ x.2.toList) :
    ',' ∉ quotedPair x := by
  have hkey := comma_not_mem_of_isName hname
  simp [quotedPair, hkey, hvalue]

theorem forall₂_pieces_quotedPairs (hne : xs ≠ []) (hnames : ∀ x ∈ xs, isName x.1.toList = true)
    (hvalues : ∀ x ∈ xs, ',' ∉ x.2.toList) {a : List Char} (ha : Blanks a) :
    List.Forall₂ (fun p x => property (trim p) = .ok x) (pieces ',' (a ++ quotedPairs xs)) xs := by
  -- behind a comma stands a space, which is cut off
  induction xs generalizing a with
  | nil => exact absurd rfl hne
  | cons x xs ih =>
    obtain ⟨hname, hnames⟩ := List.forall_mem_cons.1 hnames
    obtain ⟨hvalue, hvalues⟩ := List.forall_mem_cons.1 hvalues
    have hcomma : ',' ∉ a ++ quotedPair x := by
      simp [ha.comma_not_mem, comma_not_mem_quotedPair hname hvalue]
    have hread : property (trim (a ++ quotedPair x)) = .ok x := by
      rw [trim_blanks ha, (trimmed_quotedPair hname).trim, property_quotedPair hname]
    cases xs with
    | nil =>
      rw [quotedPairs, pieces_of_not_mem hcomma]
      exact .cons hread .nil
    | cons y ys =>
      rw [quotedPairs, ← List.append_assoc, pieces_append hcomma]
      · exact .cons hread (ih (List.cons_ne_nil y ys) hnames hvalues (blanks_singleton rfl))
      · exact List.cons_ne_nil y ys

theorem count_quotedPairs (hne : xs ≠ []) (hnames : ∀ x ∈ xs, isName x.1.toList = true) :
    (quotedPairs xs).count ',' + 1 = (xs.map (·.2.toList.count ',')).sum + xs.length := by
  induction xs with
  | nil => exact absurd rfl hne
  | cons x xs ih =>
    obtain ⟨hname, hnames⟩ := List.forall_mem_cons.1 hnames
    have hpair : (quotedPair x).count ',' = x.2.toList.count ',' := by
      simp [quotedPair, List.count_eq_zero.2 (comma_not_mem_of_isName hname)]
    cases xs with
    | nil => simp [quotedPairs, hpair]
    | cons y ys =>
      have hrest := ih (List.cons_ne_nil y ys) hnames
      simp only [quotedPairs, List.count_append, List.count_cons, hpair, List.map_cons,
        List.sum_cons, List.length_cons] at hrest ⊢
      simp
      omega

/-- The values are read back just where there is no comma in them: each comma makes a property more. -/
theorem properties_quotedPairs_iff (hne : xs ≠ []) (hnames : ∀ x ∈ xs, isName x.1.toList = true) :
    properties (some (quotedPairs xs)) = .ok xs ↔ ∀ x ∈ xs, ',' ∉ x.2.toList := by
  rw [properties, Result.mapM_eq_ok_iff]
  constructor
  · intro h x hx
    have hlength := h.length_eq
    have hcount := count_quotedPairs hne hnames
    rw [length_pieces] at hlength
    have hzero : (xs.map (·.2.toList.count ',')).sum = 0 := by omega
    exact List.count_eq_zero.1 (List.sum_eq_zero_iff.1 hzero _ (List.mem_map_of_mem hx))
  · intro hvalues
    exact forall₂_pieces_quotedPairs hne hnames hvalues (List.forall_mem_nil _)

end Properties

section Port

theorem quote_mem_port {spec : SerialSpec} (h : serialSpec (' ' :: '"' :: t) = .ok spec)
    (hquote : '"' ∉ t.takeWhile (· ≠ ',')) : '"' ∈ spec.port.toList := by
  obtain ⟨port, baud, more, hfields, -, -, hport, -⟩ := serialSpec_eq_ok_iff.1 h
  have hhead := congrArg List.head? hfields
  rw [List.head?_map, head?_pieces, List.head?_cons] at hhead
  have hopen : trim (' ' :: '"' :: t.takeWhile (· ≠ ',')) = port := Option.some.inj hhead
  have htrim : port = '"' :: trimRight (t.takeWhile (· ≠ ',')) := by
    rw [← hopen]
    exact (trim_space _).trans (trim_cons rfl _)
  have hnone : '"' ∉ trimRight (t.takeWhile (· ≠ ',')) := by
    obtain ⟨b, -, hb⟩ := exists_trimRight (t.takeWhile (· ≠ ','))
    exact fun hmem => hquote (hb ▸ List.mem_append_left b hmem)
  rw [hport, htrim, unquote_open hnone, String.toList_ofList]
  exact List.mem_cons_self

theorem framed_toString (n : Nat) : Framed (toString n).toList where
  ne_nil := Decimal.toString_ne_nil n
  first _ hc := .inl (Decimal.isDigit_of_mem_toString (List.mem_of_head? hc))
  last _ hc := .inl (Decimal.isDigit_of_mem_toString (List.mem_of_getLast? hc))

theorem serialSpec_quoted (hne : port ≠ "") (hbaud : baud ≤ Decimal.maxHalf)
    (hcomma : ',' ∉ port.toList) :
    serialSpec (' ' :: '"' :: (port.toList ++ '"' :: ',' :: ' ' :: (toString baud).toList)) =
      .ok ⟨port, baud, none, none, none⟩ := by
  have hdigits := fun c => Decimal.isDigit_of_mem_toString (n := baud) (c := c)
  have hport : ',' ∉ ' ' :: '"' :: (port.toList ++ ['"']) := by simpa using hcomma
  have hrate : ',' ∉ ' ' :: (toString baud).toList := by
    intro hmem
    rcases List.mem_cons.1 hmem with h | h
    · cases h
    · cases hdigits _ h
  have hpieces : pieces ',' (' ' :: '"' :: (port.toList ++ '"' :: ',' :: ' ' ::
      (toString baud).toList)) =
      [' ' :: '"' :: (port.toList ++ ['"']), ' ' :: (toString baud).toList] := by
    have h := pieces_append hport (' ' :: (toString baud).toList)
    rw [pieces_of_not_mem hrate] at h
    simpa using h
  refine serialSpec_eq_ok_iff.2 ⟨_, _, [], congrArg (List.map trim) hpieces, Nat.zero_le 3, ?_⟩
  rw [trim_space, trim_space, (trimmed_quoted _).trim, (framed_toString baud).trimmed.trim,
    unquote_quoted, Decimal.natural?_toString, if_pos hbaud, String.ofList_toList]
  exact ⟨by simpa using hne, rfl, rfl, rfl, rfl, rfl⟩

end Port

section Keyword

theorem exists_quotedPairs (x : String × String) (xs : List (String × String)) :
    ∃ m, quotedPairs (x :: xs) = x.1.toList ++ (m ++ ['"']) := by
  induction xs generalizing x with
  | nil => exact ⟨' ' :: '=' :: ' ' :: '"' :: x.2.toList, by simp [quotedPairs, quotedPair]⟩
  | cons y ys ih =>
    obtain ⟨m, hm⟩ := ih y
    exact ⟨' ' :: '=' :: ' ' :: '"' :: (x.2.toList ++ '"' :: ',' :: ' ' :: (y.1.toList ++ m)), by
      simp [quotedPairs, quotedPair, hm]⟩

theorem trimmed_quotedPairs (hnames : ∀ x ∈ xs, isName x.1.toList = true) :
    Trimmed (quotedPairs xs) := by
  cases xs with
  | nil => exact ⟨by rintro c ⟨⟩, by rintro c ⟨⟩⟩
  | cons x xs =>
    obtain ⟨m, hm⟩ := exists_quotedPairs x xs
    have hkey := framed_of_isName (hnames x List.mem_cons_self)
    rw [hm]
    exact hkey.trimmed.append hkey.ne_nil (trimmed_singleton rfl) (List.cons_ne_nil _ _) m

theorem trimmed_quotedFields (port : String) (baud : Nat) (xs : List (String × String)) :
    Trimmed (quotedFields port baud xs) := by
  have hequals : Trimmed ['='] := trimmed_singleton rfl
  cases xs with
  | nil =>
    have hbaud := framed_toString baud
    have h := hequals.append (List.cons_ne_nil _ _) hbaud.trimmed hbaud.ne_nil
      (' ' :: '"' :: (port.toList ++ ['"', ',', ' ']))
    simpa [quotedFields] using h
  | cons x xs =>
    obtain ⟨m, hm⟩ := exists_quotedPairs x xs
    have h := hequals.append (List.cons_ne_nil _ _) (trimmed_singleton (c := '"') rfl)
      (List.cons_ne_nil _ _) (' ' :: '"' :: (port.toList ++ '"' :: ',' :: ' ' ::
        ((toString baud).toList ++ (" with ".toList ++ (x.1.toList ++ m)))))
    simpa [quotedFields, hm] using h

theorem breakAt?_digits (n : Nat) (t : List Char) :
    breakAt? " with ".toList (',' :: ' ' :: ((toString n).toList ++ t)) =
      (breakAt? " with ".toList t).map fun p => (',' :: ' ' :: ((toString n).toList ++ p.1), p.2) := by
  have hmark : ∀ c ∈ (toString n).toList, c ∉ " with ".toList := by
    intro c hc hmem
    have hdigit := Decimal.isDigit_of_mem_toString hc
    have hnone : ∀ c ∈ " with ".toList, c.isDigit = false := by simp
    rw [hnone c hmem] at hdigit
    cases hdigit
  have hne : " with ".toList ≠ [] := by decide
  cases hdigits : (toString n).toList with
  | nil => exact absurd hdigits (Decimal.toString_ne_nil n)
  | cons d ds =>
    rw [hdigits] at hmark
    obtain ⟨hd, hds⟩ := List.forall_mem_cons.1 hmark
    have hcons := breakAt?_append_cons hd hne [',', ' '] (ds ++ t)
    rw [breakAt?_append_of_forall hds hne] at hcons
    have hstart : breakAt? " with ".toList [',', ' '] = none := by decide
    rw [hstart, Option.map_map] at hcons
    exact hcons

theorem breakAt?_quotedFields (port : String) (baud : Nat) (xs : List (String × String)) :
    breakAt? " with ".toList (quotedFields port baud xs) =
      match breakAt? " with ".toList port.toList with
      | some (a, b) => some ('=' :: ' ' :: '"' :: a,
          b ++ '"' :: ',' :: ' ' :: ((toString baud).toList ++
            if xs = [] then [] else " with ".toList ++ quotedPairs xs))
      | none => if xs = [] then none else
          some ('=' :: ' ' :: '"' :: (port.toList ++ '"' :: ',' :: ' ' :: (toString baud).toList),
            quotedPairs xs) := by
  have hquote : '"' ∉ " with ".toList := by decide
  have hne : " with ".toList ≠ [] := by decide
  have hstart : breakAt? " with ".toList ['=', ' '] = none := by decide
  have hend : breakAt? " with ".toList [] = none := rfl
  have hfront := breakAt?_append_cons hquote hne ['=', ' '] (port.toList ++ '"' :: ',' :: ' ' ::
    ((toString baud).toList ++ if xs = [] then [] else " with ".toList ++ quotedPairs xs))
  rw [hstart, breakAt?_append_cons hquote hne port.toList] at hfront
  refine hfront.trans ?_
  cases breakAt? " with ".toList port.toList with
  | some parts => rfl
  | none =>
    dsimp only
    rw [breakAt?_digits]
    by_cases hxs : xs = []
    · simp only [if_pos hxs, hend]
      rfl
    · simp only [if_neg hxs, breakAt?_mark hne]
      simp

theorem splitWith_open (baud : Nat) (xs : List (String × String)) {a b : List Char}
    (h : breakAt? " with ".toList port.toList = some (a, b)) :
    ∃ list, splitWith (quotedFields port baud xs) =
      ('=' :: ' ' :: '"' :: trimRight a, some list) := by
  have htrim : trim ('=' :: ' ' :: '"' :: a) = '=' :: ' ' :: '"' :: trimRight a := by
    rw [trim_cons rfl]
    exact congrArg (List.cons '=') (trimRight_append_cons rfl [' '] a)
  have hbreak := breakAt?_quotedFields port baud xs
  rw [h] at hbreak
  have hsplit := splitWith_equals (trimmed_quotedFields port baud xs)
  rw [← quotedFields, hbreak] at hsplit
  dsimp only at hsplit
  rw [htrim] at hsplit
  exact ⟨_, hsplit⟩

theorem splitWith_closed (baud : Nat) (h : breakAt? " with ".toList port.toList = none)
    (hnames : ∀ x ∈ xs, isName x.1.toList = true) :
    splitWith (quotedFields port baud xs) =
      ('=' :: ' ' :: '"' :: (port.toList ++ '"' :: ',' :: ' ' :: (toString baud).toList),
        if xs = [] then none else some (quotedPairs xs)) := by
  have hbreak := breakAt?_quotedFields port baud xs
  rw [h] at hbreak
  have hsplit := splitWith_equals (trimmed_quotedFields port baud xs)
  rw [← quotedFields, hbreak] at hsplit
  refine hsplit.trans ?_
  by_cases hxs : xs = []
  · simp [hxs, quotedFields]
  · have hfields := (trimmed_quotedFields port baud []).trim
    simp only [quotedFields, if_true, List.append_nil] at hfields
    simp only [if_neg hxs, hfields, (trimmed_quotedPairs hnames).trim]

end Keyword

section Line

theorem splitWord_space {w r : List Char} (hw : IsWord w) (hr : Trimmed r) :
    splitWord (w ++ ' ' :: r) = (w, r) := by
  have hparted : Parted (' ' :: r) := by
    rintro c ⟨⟩
    rfl
  have h := splitWord_append (List.forall_mem_nil _) hw hparted
  rwa [List.nil_append, trim_space, hr.trim] at h

theorem read_quotedLine_iff {d : DeviceDecl} (hname : isName name.toList = true) :
    read (quotedLine name port baud xs) = .ok (.device d) ↔ ∃ positional list,
      splitWith (quotedFields port baud xs) = (positional, list) ∧ d.name = name ∧
      fields name.toList positional = .ok d.serial ∧ properties list = .ok d.properties := by
  have hkey := framed_of_isName hname
  have hfields := trimmed_quotedFields port baud xs
  have hne : quotedFields port baud xs ≠ [] := List.cons_ne_nil _ _
  have hrest : Trimmed (name.toList ++ ' ' :: quotedFields port baud xs) :=
    hkey.trimmed.append hkey.ne_nil hfields hne [' ']
  have heq : quotedLine name port baud xs =
      '#' :: ("device".toList ++ ' ' :: (name.toList ++ ' ' :: quotedFields port baud xs)) := rfl
  have hline : trim (quotedLine name port baud xs) = quotedLine name port baud xs := by
    have hmark : Trimmed ['#'] := trimmed_singleton rfl
    have h := hmark.append (List.cons_ne_nil _ _) hrest (by simp) ("device".toList ++ [' '])
    rw [List.append_assoc] at h
    rw [heq]
    exact h.trim
  have hword := splitWord_space (isWord_of_isName (w := "device".toList) (by decide)) hrest
  have hsplit := splitWord_space (isWord_of_isName hname) hfields
  constructor
  · intro h
    obtain ⟨body, word, rest, hbody, hbodyword, hobtains⟩ := read_eq_ok_iff.1 h
    obtain rfl := (List.cons.inj ((heq.symm.trans hline.symm).trans hbody)).2
    obtain ⟨rfl, rfl⟩ := Prod.mk.inj (hword.symm.trans hbodyword)
    cases hobtains with
    | device hd =>
      obtain ⟨_, _, positional, list, hsplit', -, hwith, hd, hserial, hproperties⟩ :=
        deviceDecl_eq_ok_iff.1 hd
      obtain ⟨rfl, rfl⟩ := Prod.mk.inj (hsplit.symm.trans hsplit')
      exact ⟨positional, list, hwith, by rw [hd, String.ofList_toList], hserial, hproperties⟩
  · rintro ⟨positional, list, hwith, hd, hserial, hproperties⟩
    refine read_eq_ok_iff.2 ⟨_, _, _, hline.trans heq, hword, .device ?_⟩
    refine deviceDecl_eq_ok_iff.2 ⟨_, _, positional, list, hsplit, hname, hwith, ?_, hserial,
      hproperties⟩
    rw [hd, String.ofList_toList]

theorem properties_list_iff (hkeys : ∀ x ∈ xs, isName x.1.toList = true) :
    properties (if xs = [] then none else some (quotedPairs xs)) = .ok xs ↔
      ∀ x ∈ xs, ',' ∉ x.2.toList := by
  by_cases hxs : xs = []
  · simp [hxs, properties, pure, Except.pure]
  · rw [if_neg hxs]
    exact properties_quotedPairs_iff hxs hkeys

theorem uncut_of_read {d : DeviceDecl} {spec : SerialSpec} (hname : isName name.toList = true)
    (hquote : '"' ∉ port.toList) (hkeys : ∀ x ∈ xs, isName x.1.toList = true)
    (h : read (quotedLine name port baud xs) = .ok (.device d)) (hserial : d.serial = some spec)
    (hport : '"' ∉ spec.port.toList) :
    ',' ∉ port.toList ∧ breakAt? " with ".toList port.toList = none := by
  obtain ⟨positional, list, hwith, -, hfields, -⟩ := (read_quotedLine_iff hname).1 h
  rw [hserial] at hfields
  cases hbreak : breakAt? " with ".toList port.toList with
  | some parts =>
    obtain ⟨a, b⟩ := parts
    obtain ⟨list', hopen⟩ := splitWith_open baud xs hbreak
    obtain ⟨rfl, -⟩ := Prod.mk.inj (hopen.symm.trans hwith)
    obtain ⟨spec', hspec, hsome⟩ := fields_equals_iff.1 hfields
    obtain rfl := Option.some.inj hsome
    refine absurd (quote_mem_port hspec fun hmem => hquote ?_) hport
    obtain ⟨c, -, hc⟩ := exists_trimRight a
    rw [eq_of_breakAt? hbreak, hc, List.append_assoc]
    exact List.mem_append_left _ ((List.takeWhile_sublist _).subset hmem)
  | none =>
    refine ⟨fun hcomma => ?_, rfl⟩
    obtain ⟨rfl, -⟩ := Prod.mk.inj ((splitWith_closed _ hbreak hkeys).symm.trans hwith)
    obtain ⟨spec', hspec, hsome⟩ := fields_equals_iff.1 hfields
    obtain rfl := Option.some.inj hsome
    obtain ⟨u, v, hsplit, hu⟩ := List.eq_append_cons_of_mem hcomma
    refine absurd (quote_mem_port hspec fun hmem => hquote ?_) hport
    have hkeep : ∀ c ∈ u, decide (c ≠ ',') = true := fun c hc =>
      decide_eq_true (ne_of_mem_of_not_mem hc hu)
    rw [hsplit, List.append_assoc, List.takeWhile_append_of_pos hkeep, List.cons_append,
      List.takeWhile_cons_of_neg (by simp), List.append_nil] at hmem
    rw [hsplit]
    exact List.mem_append_left _ hmem

/-- The port and the values of a quoted line are read back just where no comma stands in them and the port
does not hold the keyword. -/
theorem read_quoted_iff (hname : isName name.toList = true) (hport : port ≠ "")
    (hbaud : baud ≤ Decimal.maxHalf) (hkeys : ∀ x ∈ xs, isName x.1.toList = true)
    (hquote : '"' ∉ port.toList) :
    ((∃ d spec, read (quotedLine name port baud xs) = .ok (.device d) ∧ d.serial = some spec ∧
        spec.port = port ∧ d.properties = xs) ↔
      ',' ∉ port.toList ∧ ¬ " with ".toList <:+: port.toList ∧ ∀ x ∈ xs, ',' ∉ x.2.toList) ∧
    (',' ∉ port.toList → ¬ " with ".toList <:+: port.toList → (∀ x ∈ xs, ',' ∉ x.2.toList) →
      read (quotedLine name port baud xs) =
        .ok (.device ⟨name, some ⟨port, baud, none, none, none⟩, xs⟩)) := by
  have hread (hcomma : ',' ∉ port.toList) (hkeyword : ¬ " with ".toList <:+: port.toList)
      (hvalues : ∀ x ∈ xs, ',' ∉ x.2.toList) : read (quotedLine name port baud xs) =
        .ok (.device ⟨name, some ⟨port, baud, none, none, none⟩, xs⟩) := by
    have hclosed := splitWith_closed baud (breakAt?_eq_none_iff.2 hkeyword) hkeys
    refine (read_quotedLine_iff hname).2 ⟨_, _, hclosed, rfl, ?_, ?_⟩
    · exact fields_equals_iff.2 ⟨_, serialSpec_quoted hport hbaud hcomma, rfl⟩
    · exact (properties_list_iff hkeys).2 hvalues
  refine ⟨⟨?_, fun ⟨hcomma, hkeyword, hvalues⟩ => ?_⟩, hread⟩
  · rintro ⟨d, spec, hd, hserial, rfl, hproperties⟩
    obtain ⟨hcomma, hkeyword⟩ := uncut_of_read hname hquote hkeys hd hserial hquote
    obtain ⟨positional, list, hwith, -, -, hlist⟩ := (read_quotedLine_iff hname).1 hd
    obtain ⟨-, rfl⟩ := Prod.mk.inj ((splitWith_closed _ hkeyword hkeys).symm.trans hwith)
    rw [hproperties, properties_list_iff hkeys] at hlist
    exact ⟨hcomma, breakAt?_eq_none_iff.1 hkeyword, hlist⟩
  · exact ⟨_, _, hread hcomma hkeyword hvalues, rfl, rfl, rfl⟩

/-- Spaces, equals signs and the keyword are no harm to a value. -/
theorem read_quoted_keywordInValue : quotedLine "Pump" "COM 3" 9600 [("new_line", "a = b with c")] =
      "#device Pump = \"COM 3\", 9600 with new_line = \"a = b with c\"".toList ∧
    read (quotedLine "Pump" "COM 3" 9600 [("new_line", "a = b with c")]) =
      .ok (.device ⟨"Pump", some ⟨"COM 3", 9600, none, none, none⟩,
        [("new_line", "a = b with c")]⟩) := by
  have hkeys : ∀ x ∈ [("new_line", "a = b with c")], isName x.1.toList = true :=
    List.forall_mem_singleton.2 (by decide +kernel)
  have hiff := read_quoted_iff (show isName "Pump".toList = true by decide)
    (show "COM 3" ≠ "" by decide) (show 9600 ≤ Decimal.maxHalf by decide) hkeys (by decide)
  exact ⟨by decide +kernel, hiff.2 (by decide) (by decide) (by decide)⟩

/-- A comma in a value cuts it in two, and both parts are read. -/
theorem read_not_always_quoted : ¬ ∀ (name port : String) (baud : Nat) (xs : List (String × String)),
    isName name.toList = true → port ≠ "" → baud ≤ Decimal.maxHalf →
    (∀ x ∈ xs, isName x.1.toList = true) → '"' ∉ port.toList → (∀ x ∈ xs, '"' ∉ x.2.toList) →
    ∃ d spec, read (quotedLine name port baud xs) = .ok (.device d) ∧ d.serial = some spec ∧
      spec.port = port ∧ d.properties = xs := by
  intro h
  have hread : read (quotedLine "Pump" "COM3" 9600 [("new_line", "ok, write_timeout = 50")]) =
      .ok (.device ⟨"Pump", some ⟨"COM3", 9600, none, none, none⟩,
        [("new_line", "\"ok"), ("write_timeout", "50\"")]⟩) := by
    decide +kernel
  obtain ⟨d, spec, hd, -, -, hproperties⟩ :=
    h "Pump" "COM3" 9600 [("new_line", "ok, write_timeout = 50")] (by decide) (by decide)
      (by decide) (List.forall_mem_singleton.2 (by decide +kernel)) (by decide)
      (List.forall_mem_singleton.2 (by decide +kernel))
  rw [hread] at hd
  cases hd
  exact absurd hproperties (by decide)

end Line

end CueSheet.Directive
