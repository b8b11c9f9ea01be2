import CueSheet.Writer
import Mathlib

/-!
Tokens that were written are read back. What follows a token must not be taken for a part of it; a
blank never is.
-/

namespace CueSheet

namespace Token

def Spellable : Token → Prop
  | .name s => Text.isName s.toList = true
  | .number n => n.whole ≠ [] ∧ (∀ c ∈ n.whole, c.isDigit = true) ∧
      ∀ f, n.fraction = some f → ∀ c ∈ f, c.isDigit = true
  | .text _ | .symbol _ => True

def EndsBefore (t : Token) (c : Char) : Prop :=
  match t with
  | .name _ => Text.continuesName c = false
  | .number n => c.isDigit = false ∧ (n.fraction = none → c ≠ '.')
  | .symbol .slash => c ≠ '/'
  | .text _ | .symbol _ => True

theorem endsBefore_blank (t : Token) : t.EndsBefore ' ' := by
  cases t with
  | name s => exact (by decide : Text.continuesName ' ' = false)
  | number n => exact ⟨by decide, fun _ => by decide⟩
  | text s => trivial
  | symbol s => cases s <;> first | trivial | (change ' ' ≠ '/'; decide)

section Quoted

variable {r : List Char}

theorem quoted_escape (c : Char) (s : List Char) :
    quoted (escape c ++ s) = (quoted s).map fun (t, r) => (c :: t, r) := by
  by_cases hn : c = '\n'
  · subst hn
    rfl
  by_cases hr : c = '\r'
  · subst hr
    rfl
  by_cases ht : c = '\t'
  · subst ht
    rfl
  by_cases hq : c = '"'
  · subst hq
    rfl
  by_cases hb : c = '\\'
  · subst hb
    rfl
  have hplain : escape c = [c] := by
    unfold escape
    split <;> first | contradiction | rfl
  rw [hplain, List.singleton_append]
  exact quoted.eq_5 c s hq (fun h _ => hb h) (fun _ _ h _ => hb h)

theorem quoted_spelling (s r : List Char) :
    quoted (s.flatMap escape ++ '"' :: r) = .ok (s, r) := by
  induction s with
  | nil => rfl
  | cons c s ih =>
    rw [List.flatMap_cons, List.append_assoc, quoted_escape, ih]
    rfl

end Quoted

section Characters

theorem char_of_ofChar? {c : Char} {s : Symbol} (h : Symbol.ofChar? c = some s) : c = s.char := by
  unfold Symbol.ofChar? at h
  split at h <;> cases h <;> rfl

def startsWord (c : Char) : Prop := c.isDigit = true ∨ Text.startsName c = true

theorem startsWord.val {c : Char} (h : startsWord c) : 48 ≤ c.val.toNat ∧ c.val.toNat ≤ 122 := by
  rcases h with h | h
  · simp only [Char.isDigit, Bool.and_eq_true, decide_eq_true_eq, UInt32.le_iff_toNat_le,
      ge_iff_le] at h
    exact ⟨h.1, Nat.le_trans h.2 (by decide)⟩
  · simp only [Text.startsName, Char.isAlpha, Char.isUpper, Char.isLower, Bool.or_eq_true,
      Bool.and_eq_true, decide_eq_true_eq, UInt32.le_iff_toNat_le, beq_iff_eq, ge_iff_le] at h
    rcases h with (h | h) | rfl
    · exact ⟨Nat.le_trans (by decide) h.1, Nat.le_trans h.2 (by decide)⟩
    · exact ⟨Nat.le_trans (by decide) h.1, h.2⟩
    · decide

theorem startsWord.not_blank {c : Char} (h : startsWord c) : Text.isBlank c = false := by
  obtain ⟨hlow, hhigh⟩ := h.val
  simp only [Text.isBlank, Bool.or_eq_false_iff, Bool.and_eq_false_iff, decide_eq_false_iff_not,
    beq_eq_false_iff_ne]
  omega

theorem startsWord.not_symbol {c : Char} (h : startsWord c) : Symbol.ofChar? c = none := by
  cases hs : Symbol.ofChar? c with
  | none => rfl
  | some s =>
    obtain rfl := char_of_ofChar? hs
    cases s <;> rcases h with h | h <;> cases h

theorem startsWord.ne {c : Char} (h : startsWord c) : c ≠ '"' ∧ c ≠ '/' := by
  constructor
  · rintro rfl
    rcases h with h | h <;> cases h
  · rintro rfl
    rcases h with h | h <;> cases h

theorem not_isDigit_of_startsName {c : Char} (h : Text.startsName c = true) :
    c.isDigit = false := by
  simp only [Text.startsName, Char.isAlpha, Char.isUpper, Char.isLower, Bool.or_eq_true,
    Bool.and_eq_true, decide_eq_true_eq, UInt32.le_iff_toNat_le, beq_iff_eq, ge_iff_le] at h
  have hval : 58 ≤ c.val.toNat := by
    rcases h with (h | h) | rfl
    · exact Nat.le_trans (by decide) h.1
    · exact Nat.le_trans (by decide) h.1
    · decide
  simp only [Char.isDigit, Bool.and_eq_false_iff, decide_eq_false_iff_not, UInt32.le_iff_toNat_le]
  exact .inr (Nat.not_le_of_gt hval)

end Characters

section First

variable {r : List Char}

theorem first?_blanks {b : List Char} (hb : ∀ c ∈ b, Text.isBlank c = true) (s : List Char) :
    first? (b ++ s) = first? s := by
  simp only [first?, Text.trimLeft_blanks hb]

theorem first?_word {c : Char} (h : startsWord c) :
    first? (c :: r) =
      if c.isDigit then .ok (some (.number (numeral (c :: r)).1, (numeral (c :: r)).2))
      else .ok (some (.name (String.ofList (c :: r.takeWhile Text.continuesName)),
        r.dropWhile Text.continuesName)) := by
  obtain ⟨hquote, hslash⟩ := h.ne
  rw [first?, Text.trimLeft_cons h.not_blank]
  split
  · next he => cases he
  · next he => exact absurd (List.cons.inj he).1 hslash
  · next he => exact absurd (List.cons.inj he).1 hquote
  · next he =>
    obtain ⟨rfl, rfl⟩ := List.cons.inj he
    rw [h.not_symbol]
    dsimp only
    split
    · rfl
    · next hdigit =>
      have hname : Text.startsName c = true := h.resolve_left hdigit
      simp only [hname, if_true]

theorem takeWhile_append_stop {p : Char → Bool} {l : List Char} (hl : ∀ c ∈ l, p c = true)
    (hr : ∀ c, r.head? = some c → p c = false) :
    (l ++ r).takeWhile p = l ∧ (l ++ r).dropWhile p = r := by
  rw [List.takeWhile_append_of_pos hl, List.dropWhile_append_of_pos hl]
  cases r with
  | nil => exact ⟨List.append_nil l, rfl⟩
  | cons c r =>
    have hc : ¬ p c = true := by simp [hr c rfl]
    rw [List.takeWhile_cons_of_neg hc, List.dropWhile_cons_of_neg hc]
    exact ⟨List.append_nil l, rfl⟩

theorem numeral_spelling {n : Numeral} (h : (number n).Spellable)
    (hr : ∀ c, r.head? = some c → (number n).EndsBefore c) :
    numeral (n.spelling.toList ++ r) = (n, r) := by
  obtain ⟨whole, fraction⟩ := n
  obtain ⟨-, hwhole, hfraction⟩ := h
  cases fraction with
  | none =>
    have hstop := takeWhile_append_stop hwhole fun c hc => (hr c hc).1
    simp only [numeral, Numeral.spelling, String.toList_ofList, hstop]
    cases r with
    | nil => rfl
    | cons c r =>
      have hpoint : c ≠ '.' := (hr c rfl).2 rfl
      split
      · next he => exact absurd (List.cons.inj he).1 hpoint
      · rfl
  | some f =>
    have hstop := takeWhile_append_stop (r := '.' :: (f ++ r)) hwhole (by rintro c ⟨⟩; rfl)
    have hrest := takeWhile_append_stop (hfraction f rfl) fun c hc => (hr c hc).1
    simp only [numeral, Numeral.spelling, String.toList_ofList, List.append_assoc,
      List.cons_append, hstop, hrest]

theorem first?_spelling {t : Token} (h : t.Spellable)
    (hr : ∀ c, r.head? = some c → t.EndsBefore c) : first? (t.spelling ++ r) = .ok (some (t, r)) := by
  cases t with
  | name s =>
    have hs : Text.isName s.toList = true := h
    cases hl : s.toList with
    | nil =>
      rw [hl] at hs
      cases hs
    | cons c cs =>
      rw [hl, Text.isName, Bool.and_eq_true, List.all_eq_true] at hs
      obtain ⟨hstart, hrest⟩ := hs
      have hstop := takeWhile_append_stop hrest hr
      rw [spelling, hl, List.cons_append, first?_word (.inr hstart), not_isDigit_of_startsName hstart,
        hstop.1, hstop.2, ← hl, String.ofList_toList]
      rfl
  | number n =>
    obtain ⟨hne, hwhole, -⟩ := id h
    obtain ⟨c, cs, hc⟩ := List.exists_cons_of_ne_nil hne
    have hdigit : c.isDigit = true := hwhole c (by rw [hc]; exact List.mem_cons_self)
    have hhead : ∃ tail, n.spelling.toList ++ r = c :: tail := by
      cases hf : n.fraction <;> simp [Numeral.spelling, hf, hc]
    obtain ⟨tail, htail⟩ := hhead
    rw [spelling, htail, first?_word (.inl hdigit), ← htail, numeral_spelling h hr]
    simp only [hdigit, if_true]
  | text s =>
    rw [spelling, List.cons_append, List.append_assoc, List.singleton_append, first?,
      Text.trimLeft_cons (by decide)]
    simp only [quoted_spelling]
    rw [Except.map, String.ofList_toList]
  | symbol s =>
    cases s with
    | slash =>
      rw [spelling, List.singleton_append, Symbol.char, first?, Text.trimLeft_cons (by decide)]
      cases r with
      | nil => rfl
      | cons c r =>
        -- a second slash would make a comment of the rest
        have hc : c ≠ '/' := hr c rfl
        split
        · next he => cases he
        · next he => exact absurd (List.cons.inj (List.cons.inj he).2).1 hc
        · next he => cases he
        · next he =>
          cases he
          rfl
    | _ => rfl

end First

section Scan

/-- The tokens stand in the text, with blanks around them and perhaps a comment behind them. -/
inductive Laid : List Token → List Char → Prop
  | blank {b : List Char} : (∀ c ∈ b, Text.isBlank c = true) → Laid [] b
  | comment {b r : List Char} : (∀ c ∈ b, Text.isBlank c = true) → Laid [] (b ++ '/' :: '/' :: r)
  | token {b s : List Char} {t : Token} {ts : List Token} : (∀ c ∈ b, Text.isBlank c = true) →
    t.Spellable → (∀ c, s.head? = some c → t.EndsBefore c) → Laid ts s →
    Laid (t :: ts) (b ++ (t.spelling ++ s))

variable {ts : List Token} {s : List Char}

theorem Laid.behind {b : List Char} (hb : ∀ c ∈ b, Text.isBlank c = true) (h : Laid ts s) :
    Laid ts (b ++ s) := by
  cases h with
  | blank h => exact .blank (List.forall_mem_append.2 ⟨hb, h⟩)
  | comment h =>
    rw [← List.append_assoc]
    exact .comment (List.forall_mem_append.2 ⟨hb, h⟩)
  | token h ht hr hrest =>
    rw [← List.append_assoc]
    exact .token (List.forall_mem_append.2 ⟨hb, h⟩) ht hr hrest

theorem spelling_ne_nil {t : Token} (h : t.Spellable) : t.spelling ≠ [] := by
  cases t with
  | name s =>
    intro he
    have hs : Text.isName s.toList = true := h
    rw [show s.toList = [] from he] at hs
    cases hs
  | number n =>
    have hne : n.whole ≠ [] := h.1
    cases hf : n.fraction <;> simp [spelling, Numeral.spelling, hf, hne]
  | text s => simp [spelling]
  | symbol s => simp [spelling]

theorem Laid.length_le (h : Laid ts s) : ts.length ≤ s.length := by
  induction h with
  | blank _ => exact Nat.zero_le _
  | comment _ => exact Nat.zero_le _
  | @token b s t ts _ ht _ _ ih =>
    have hpos : 0 < t.spelling.length := List.length_pos_iff.2 (spelling_ne_nil ht)
    simp only [List.length_cons, List.length_append]
    omega

theorem Laid.scanUpTo (h : Laid ts s) {n : Nat} (hn : ts.length ≤ n) :
    Token.scanUpTo n s = .ok ts := by
  induction h generalizing n with
  | @blank b hb =>
    cases n with
    | zero => rfl
    | succ n =>
      have hfirst : first? b = .ok none := by
        rw [← List.append_nil b, first?_blanks hb]
        rfl
      rw [Token.scanUpTo, hfirst]
  | @comment b r hb =>
    cases n with
    | zero => rfl
    | succ n =>
      have hfirst : first? (b ++ '/' :: '/' :: r) = .ok none := by
        rw [first?_blanks hb]
        rfl
      rw [Token.scanUpTo, hfirst]
  | @token b s t ts hb ht hr _ ih =>
    cases n with
    | zero => cases hn
    | succ n =>
      rw [Token.scanUpTo, first?_blanks hb, first?_spelling ht hr]
      dsimp only
      rw [ih (Nat.le_of_succ_le_succ hn)]
      rfl

theorem Laid.scan (h : Laid ts s) : Token.scan s = .ok ts := h.scanUpTo h.length_le

theorem laid_line (h : ∀ t ∈ ts, t.Spellable) : Laid ts (line ts) := by
  induction ts with
  | nil => exact .blank (List.forall_mem_nil _)
  | cons t rest ih =>
    obtain ⟨ht, hrest⟩ := List.forall_mem_cons.1 h
    cases rest with
    | nil =>
      rw [line, List.map_singleton, List.intercalate_singleton, ← List.append_nil t.spelling]
      exact .token (b := []) (by simp) ht (by simp) (.blank (by simp))
    | cons t' rest =>
      rw [line, List.map_cons, List.map_cons, List.intercalate_cons_cons, List.append_assoc]
      refine .token (b := []) (by simp) ht (by rintro c ⟨⟩; exact endsBefore_blank t) ?_
      exact (ih hrest).behind (b := [' ']) (List.forall_mem_singleton.2 rfl)

theorem scan_line (h : ∀ t ∈ ts, t.Spellable) : Token.scan (line ts) = .ok ts := (laid_line h).scan

theorem no_break_spelling {t : Token} (h : t.Spellable) : '\n' ∉ t.spelling := by
  cases t with
  | name s =>
    have hs : Text.isName s.toList = true := h
    change '\n' ∉ s.toList
    cases hl : s.toList with
    | nil => exact List.not_mem_nil
    | cons c cs =>
      rw [hl, Text.isName, Bool.and_eq_true, List.all_eq_true] at hs
      rintro (_ | ⟨_, hc⟩)
      · cases hs.1
      · cases hs.2 _ hc
  | number n =>
    obtain ⟨-, hwhole, hfraction⟩ := h
    have hw : '\n' ∉ n.whole := fun hc => by cases hwhole _ hc
    cases hf : n.fraction with
    | none => simpa [spelling, Numeral.spelling, hf] using hw
    | some f =>
      have hd : '\n' ∉ f := fun hc => by cases hfraction f hf _ hc
      simpa [spelling, Numeral.spelling, hf, hw] using hd
  | text s =>
    have hescape : ∀ c, '\n' ∉ escape c := by
      intro c
      unfold escape
      split <;> simp_all [eq_comm]
    simp [spelling, hescape]
  | symbol s => cases s <;> decide

theorem no_break_line (h : ∀ t ∈ ts, t.Spellable) : '\n' ∉ line ts := by
  induction ts with
  | nil => exact List.not_mem_nil
  | cons t rest ih =>
    obtain ⟨ht, hrest⟩ := List.forall_mem_cons.1 h
    cases rest with
    | nil =>
      rw [line, List.map_singleton, List.intercalate_singleton]
      exact no_break_spelling ht
    | cons t' rest =>
      have hmore : '\n' ∉ [' '].intercalate ((t' :: rest).map spelling) := ih hrest
      rw [line, List.map_cons, List.map_cons, List.intercalate_cons_cons]
      simpa [no_break_spelling ht] using hmore

end Scan

end Token

end CueSheet
