import CueSheet.Proofs.Directive.Word
import CueSheet.Proofs.Text.Cutting

/-!
Where the fields of a device end and its properties begin, and what is read for them.
-/

namespace CueSheet.Directive

open Text

variable {s : List Char}

theorem splitWith_equals (h : Trimmed ('=' :: s)) : splitWith ('=' :: s) =
    match breakAt? " with ".toList ('=' :: s) with
    | some (a, b) => (trim a, some (trim b))
    | none => ('=' :: s, none) := by
  simp only [splitWith, h.trim]
  rfl

theorem fields_equals_iff {name : List Char} {serial : Option SerialSpec} :
    fields name ('=' :: s) = .ok serial ↔ ∃ spec, serialSpec s = .ok spec ∧ some spec = serial :=
  Result.map_eq_ok_iff

theorem fields_eq_none {name positional : List Char} (h : fields name positional = .ok none) :
    positional = [] := by
  cases positional with
  | nil => rfl
  | cons c f =>
    by_cases hc : c = '='
    · rw [hc] at h
      obtain ⟨_, _, hspec⟩ := fields_equals_iff.1 h
      cases hspec
    · rw [fields, behind?, if_neg hc] at h
      cases h

theorem fields_eq_some {name positional : List Char} {spec : SerialSpec}
    (h : fields name positional = .ok (some spec)) :
    ∃ f, positional = '=' :: f ∧ serialSpec f = .ok spec := by
  cases positional with
  | nil => cases h
  | cons c f =>
    by_cases hc : c = '='
    · rw [hc] at h
      obtain ⟨_, hspec, hsome⟩ := fields_equals_iff.1 h
      cases hsome
      exact ⟨f, by rw [hc], hspec⟩
    · rw [fields, behind?, if_neg hc] at h
      cases h

theorem serialSpec_eq_ok_iff {spec : SerialSpec} : serialSpec s = .ok spec ↔
    ∃ port baud more, (pieces ',' s).map trim = port :: baud :: more ∧ more.length ≤ 3 ∧
      unquote port ≠ [] ∧ spec.port = String.ofList (unquote port) ∧
      Decimal.natural? Decimal.maxHalf baud = some spec.baud ∧
      spec.parity = more[0]?.map String.ofList ∧
      more[1]?.map (Decimal.natural? Decimal.maxByte) = spec.dataBits.map some ∧
      spec.stopBits = more[2]?.map String.ofList := by
  constructor
  · intro h
    simp only [serialSpec] at h
    split at h
    · next port baud more hfields =>
      split_ifs at h with hmore hport hport
      · cases h
      · cases h
      · cases h
      · split at h
        · next rate hrate =>
          refine ⟨port, baud, more, hfields, Nat.le_of_not_gt hmore, by simpa using hport, ?_⟩
          split at h
          · next hbits =>
            cases h
            exact ⟨rfl, hrate, rfl, by rw [hbits]; rfl, rfl⟩
          · next raw hbits =>
            split at h
            · next n hn =>
              cases h
              exact ⟨rfl, hrate, rfl, by simp [hbits, hn], rfl⟩
            · cases h
        · cases h
    · cases h
  · rintro ⟨port, baud, more, hfields, hmore, hport, hspec, hrate, hparity, hbits, hstop⟩
    obtain ⟨_, rate, parity, bits, stop⟩ := spec
    dsimp only at hspec hrate hparity hbits hstop
    subst hspec hparity hstop
    have hlong : ¬ more.length > 3 := Nat.not_lt.2 hmore
    have hempty : (unquote port).isEmpty = false := by simpa using hport
    simp only [serialSpec, hfields, hlong, hempty, hrate, if_false, Bool.false_eq_true]
    cases hraw : more[1]? with
    | none =>
      rw [hraw] at hbits
      cases bits with
      | none => rfl
      | some n => cases hbits
    | some raw =>
      rw [hraw] at hbits
      cases bits with
      | none => cases hbits
      | some n =>
        have hn : Decimal.natural? Decimal.maxByte raw = some n := Option.some.inj hbits
        simp only [hn]
        rfl

theorem property_eq_ok_iff {x : String × String} : property s = .ok x ↔
    ∃ key value, cut? '=' s = some (key, value) ∧ isName (trim key) = true ∧
      x = (String.ofList (trim key), String.ofList (unquote (trim value))) := by
  cases hcut : cut? '=' s with
  | none => simp [property, hcut]
  | some parts =>
    obtain ⟨key, value⟩ := parts
    simp only [property, hcut]
    constructor
    · intro h
      split_ifs at h with hname
      cases h
      exact ⟨key, value, rfl, hname, rfl⟩
    · rintro ⟨_, _, h, hname, rfl⟩
      cases h
      exact if_pos hname

end CueSheet.Directive
