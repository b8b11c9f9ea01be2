import CueSheet.Proofs.Basic
import CueSheet.Proofs.Source.Lexing

/-!
Tokens that are written one after another, with blanks of any kind between them, are the tokens of the
line. A text may be written in several ways: what has an escape can stand for itself, but for the quote
and the backslash. Two slashes inside a text are a part of it; behind the tokens they begin a comment,
which only a slash has to be kept apart from.
-/

namespace CueSheet.Token

section Rest

variable {s r : List Char} {t : Token}

theorem length_quoted {u : List Char} (h : quoted s = .ok (u, r)) : r.length < s.length := by
  fun_induction quoted s generalizing u with
  | case1 | case3 | case4 => cases h
  | case2 =>
    cases h
    exact Nat.lt_succ_self _
  | case5 _ _ _ _ ih | case6 _ _ _ _ _ ih =>
    obtain ⟨⟨u', r'⟩, hrest, he⟩ := Result.map_eq_ok_iff.1 h
    cases he
    have hlength := ih hrest
    simp only [List.length_cons]
    omega

theorem length_dropWhile_lt {p : Char → Bool} {c : Char} (hc : p c = true) (s : List Char) :
    ((c :: s).dropWhile p).length < (c :: s).length := by
  rw [List.dropWhile_cons_of_pos hc]
  exact Nat.lt_succ_of_le (List.dropWhile_sublist p).length_le

theorem length_numeral {c : Char} (hc : c.isDigit = true) :
    (numeral (c :: s)).2.length < (c :: s).length := by
  have hwhole := length_dropWhile_lt hc s
  simp only [numeral]
  split
  · next r hr =>
    have hfraction := (List.dropWhile_sublist Char.isDigit (l := r)).length_le
    rw [hr, List.length_cons] at hwhole
    exact Nat.lt_of_le_of_lt hfraction (Nat.lt_of_succ_lt hwhole)
  · exact hwhole

theorem length_first? (h : first? s = .ok (some (t, r))) : r.length < s.length := by
  have htrim : (Text.trimLeft s).length ≤ s.length := (List.dropWhile_sublist _).length_le
  refine Nat.lt_of_lt_of_le ?_ htrim
  simp only [first?] at h
  split at h
  · cases h
  · cases h
  · next r' hs =>
    obtain ⟨⟨u, r''⟩, hquoted, he⟩ := Result.map_eq_ok_iff.1 h
    cases he
    rw [hs]
    exact Nat.lt_succ_of_lt (length_quoted hquoted)
  · next c r' hs =>
    rw [hs]
    split at h
    · cases h
      exact Nat.lt_succ_self _
    · split_ifs at h with hdigit hname
      · cases h
        exact length_numeral hdigit
      · cases h
        exact Nat.lt_succ_of_le (List.dropWhile_sublist _).length_le

theorem scanUpTo_nil (n : Nat) : scanUpTo n [] = .ok [] := by
  cases n <;> rfl

theorem scanUpTo_eq_of_le {n m : Nat} (hn : s.length ≤ n) (hm : s.length ≤ m) :
    scanUpTo n s = scanUpTo m s := by
  induction n generalizing m s with
  | zero =>
    obtain rfl := List.eq_nil_of_length_eq_zero (Nat.le_zero.1 hn)
    rw [scanUpTo_nil, scanUpTo_nil]
  | succ n ih =>
    cases m with
    | zero =>
      obtain rfl := List.eq_nil_of_length_eq_zero (Nat.le_zero.1 hm)
      rw [scanUpTo_nil, scanUpTo_nil]
    | succ m =>
      rw [scanUpTo, scanUpTo]
      cases hfirst : first? s with
      | error e => rfl
      | ok next? =>
        cases next? with
        | none => rfl
        | some next =>
          have hrest := length_first? hfirst
          dsimp only
          rw [ih (by omega) (by omega : next.2.length ≤ m)]

/-- The tokens of a line are its first token and those of the rest; the allowance is never used up. -/
theorem scan_eq (s : List Char) : scan s = match first? s with
    | .error e => .error e
    | .ok none => .ok []
    | .ok (some (t, r)) => (scan r).map (t :: ·) := by
  rw [scan, scanUpTo_eq_of_le (Nat.le_refl _) (Nat.le_succ s.length), scanUpTo]
  cases hfirst : first? s with
  | error e => rfl
  | ok next? =>
    cases next? with
    | none => rfl
    | some next =>
      dsimp only
      rw [scan, scanUpTo_eq_of_le (Nat.le_of_lt (length_first? hfirst)) (Nat.le_refl _)]

theorem scan_of_first? (h : first? s = .ok (some (t, r))) : scan s = (scan r).map (t :: ·) := by
  rw [scan_eq, h]

theorem scan_blanks {b : List Char} (hb : ∀ c ∈ b, Text.isBlank c = true) (s : List Char) :
    scan (b ++ s) = scan s := by
  rw [scan_eq, first?_blanks hb, ← scan_eq]

end Rest

section Written

variable {s r w : List Char} {t : Token}

inductive Quotes : List Char → List Char → Prop
  | nil : Quotes [] []
  | plain {c : Char} {t s : List Char} : c ≠ '"' → c ≠ '\\' → Quotes t s → Quotes (c :: t) (c :: s)
  | escaped {e c : Char} {t s : List Char} : escape? e = some c → Quotes t s →
    Quotes (c :: t) ('\\' :: e :: s)

inductive Written : Token → List Char → Prop
  | name {s : String} : Text.isName s.toList = true → Written (.name s) s.toList
  | number {n : Numeral} : (Token.number n).Spellable → Written (.number n) n.spelling.toList
  | text {s : String} {q : List Char} : Quotes s.toList q → Written (.text s) ('"' :: (q ++ ['"']))
  | symbol (s : Symbol) : Written (.symbol s) [s.char]

theorem Quotes.quoted {t q : List Char} (h : Quotes t q) (r : List Char) :
    Token.quoted (q ++ '"' :: r) = .ok (t, r) := by
  induction h with
  | nil => rfl
  | @plain c t s hquote hslash _ ih =>
    have hstep := quoted.eq_5 c (s ++ '"' :: r) hquote (fun h _ => hslash h) (fun _ _ h _ => hslash h)
    rw [List.cons_append, hstep, ih]
    rfl
  | @escaped e c t s he _ ih =>
    rw [List.cons_append, List.cons_append, Token.quoted, he, ih]
    rfl

theorem first?_written (h : Written t w) (hr : ∀ c, r.head? = some c → t.EndsBefore c) :
    first? (w ++ r) = .ok (some (t, r)) := by
  cases h with
  | name hs => exact first?_spelling (t := .name _) hs hr
  | number hn => exact first?_spelling hn hr
  | symbol s => exact first?_spelling (t := .symbol s) trivial hr
  | @text s q hq =>
    rw [List.cons_append, List.append_assoc, List.singleton_append, first?, Text.trimLeft_cons (by decide)]
    simp only [hq.quoted, Except.map, String.ofList_toList]

end Written

section Spread

/-- The tokens are written one after another, with blanks between them. -/
inductive Spread : List Token → List Char → Prop
  | nil : Spread [] []
  | last {t : Token} {w : List Char} : Written t w → Spread [t] w
  | cons {t : Token} {ts : List Token} {w b s : List Char} : Written t w → b ≠ [] →
    (∀ c ∈ b, Text.isBlank c = true) → Spread ts s → Spread (t :: ts) (w ++ (b ++ s))

variable {ts : List Token} {s : List Char}

theorem endsBefore_of_isBlank {c : Char} (h : Text.isBlank c = true) (t : Token) : t.EndsBefore c := by
  have hword : ¬ startsWord c := by
    intro hc
    rw [hc.not_blank] at h
    cases h
  have hdigit : c.isDigit = false := by
    by_contra hc
    exact hword (.inl (by simpa using hc))
  cases t with
  | name s =>
    have halpha : Text.startsName c = false := by
      by_contra hc
      exact hword (.inr (by simpa using hc))
    simp only [Text.startsName, Bool.or_eq_false_iff] at halpha
    simp [EndsBefore, Text.continuesName, Char.isAlphanum, halpha, hdigit]
  | number n =>
    refine ⟨hdigit, fun _ => ?_⟩
    rintro rfl
    cases h
  | text s => trivial
  | symbol s =>
    cases s with
    | slash =>
      rintro rfl
      cases h
    | _ => trivial

theorem endsBefore_slash {t : Token} (h : t ≠ .symbol .slash) : t.EndsBefore '/' := by
  cases t with
  | name s => exact (by decide : Text.continuesName '/' = false)
  | number n => exact ⟨by decide, fun _ => by decide⟩
  | text s => trivial
  | symbol s =>
    cases s with
    | slash => exact absurd rfl h
    | _ => trivial

theorem Spread.scan_append (h : Spread ts s) {z : List Char} (hz : scan z = .ok [])
    (hlast : ∀ t c, ts.getLast? = some t → z.head? = some c → t.EndsBefore c) :
    scan (s ++ z) = .ok ts := by
  induction h with
  | nil => exact hz
  | @last t w ht =>
    rw [scan_of_first? (first?_written ht fun c => hlast t c rfl), hz]
    rfl
  | @cons t ts w b s ht hb hblank hs ih =>
    obtain ⟨c, b', rfl⟩ := List.exists_cons_of_ne_nil hb
    have hfirst : first? (w ++ (c :: b' ++ (s ++ z))) = .ok (some (t, c :: b' ++ (s ++ z))) := by
      refine first?_written ht ?_
      rintro _ ⟨⟩
      exact endsBefore_of_isBlank (hblank c List.mem_cons_self) t
    have hrest : scan (s ++ z) = .ok ts := by
      refine ih fun t' c' ht' => hlast t' c' ?_
      rw [List.getLast?_cons, ht']
      rfl
    rw [List.append_assoc, List.append_assoc, scan_of_first? hfirst, scan_blanks hblank, hrest]
    rfl

/-- Tokens that are written with blanks between them are read back, whatever blanks stand around them
and whatever comment behind them; the comment may follow at once, unless the last token is a slash. -/
theorem scan_spread (h : Spread ts s) {a b : List Char} (ha : ∀ c ∈ a, Text.isBlank c = true)
    (hb : ∀ c ∈ b, Text.isBlank c = true) :
    scan (a ++ (s ++ b)) = .ok ts ∧
      ((b = [] → ts.getLast? ≠ some (.symbol .slash)) →
        ∀ remark, scan (a ++ (s ++ (b ++ '/' :: '/' :: remark))) = .ok ts) := by
  rw [scan_blanks ha]
  refine ⟨h.scan_append ?_ fun t c _ hc => ?_, fun hslash remark => ?_⟩
  · have hnone : scan (b ++ []) = .ok [] := scan_blanks hb []
    rwa [List.append_nil] at hnone
  · exact endsBefore_of_isBlank (hb c (List.mem_of_head? hc)) t
  · rw [scan_blanks ha]
    refine h.scan_append ((scan_blanks hb _).trans ?_) fun t c ht hc => ?_
    · rfl
    · cases b with
      | nil =>
        obtain rfl := Option.some.inj hc
        refine endsBefore_slash ?_
        rintro rfl
        exact hslash rfl ht
      | cons c' b =>
        obtain rfl := Option.some.inj hc
        exact endsBefore_of_isBlank (hb c' List.mem_cons_self) t

def textWithComment : List Token := [.name "fan", .text "a//\n\"", .symbol .slash]

theorem scan_spread_textWithComment :
    Spread textWithComment "fan\t\"a//\n\\\"\" /".toList ∧
      scan "fan\t\"a//\n\\\"\" / // \"".toList = .ok textWithComment := by
  have hfan : Written (.name "fan") "fan".toList := .name (by decide)
  have htext : Written (.text "a//\n\"") "\"a//\n\\\"\"".toList := by
    refine .text (q := ['a', '/', '/', '\n', '\\', '"']) ?_
    change Quotes ['a', '/', '/', '\n', '"'] ['a', '/', '/', '\n', '\\', '"']
    exact .plain (by decide) (by decide) (.plain (by decide) (by decide)
      (.plain (by decide) (by decide) (.plain (by decide) (by decide) (.escaped rfl .nil))))
  have hblank : ∀ b, Text.isBlank b = true → ∀ c ∈ [b], Text.isBlank c = true :=
    fun _ hb => List.forall_mem_singleton.2 hb
  have hspread : Spread textWithComment "fan\t\"a//\n\\\"\" /".toList :=
    .cons hfan (List.cons_ne_nil '\t' []) (hblank '\t' rfl)
      (.cons htext (List.cons_ne_nil ' ' []) (hblank ' ' rfl) (.last (.symbol .slash)))
  have hscan := (scan_spread hspread (List.forall_mem_nil _) (hblank ' ' rfl)).2 (by simp) [' ', '"']
  exact ⟨hspread, hscan⟩

/-- A slash and two more are a comment. -/
theorem not_apart_from_comment : ¬ ∀ (ts : List Token) (s remark : List Char), Spread ts s →
    scan (s ++ '/' :: '/' :: remark) = .ok ts := by
  intro h
  have hslash := h [.symbol .slash] ['/'] [] (.last (.symbol .slash))
  cases hslash

end Spread

end CueSheet.Token
