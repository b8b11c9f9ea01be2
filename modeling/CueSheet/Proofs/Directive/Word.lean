import CueSheet.Directive.Reader
import CueSheet.Proofs.Basic

/-!
The word behind the number sign, and the reading that goes with it. What a directive declares is a name.
-/

namespace CueSheet.Directive

open Text

inductive Obtains (rest : List Char) : List Char → Directive → Prop
  | device {d : DeviceDecl} : deviceDecl rest = .ok d → Obtains rest "device".toList (.device d)
  | load {d : LoadDecl} : loadDecl rest = .ok d → Obtains rest "load".toList (.load d)
  | priority {n : Int} : seconds rest = .ok n → Obtains rest "priority".toList (.priority n)

variable {line : List Char}

theorem read_eq_ok_iff {x : Directive} : read line = .ok x ↔ ∃ body word rest,
    trim line = '#' :: body ∧ splitWord body = (word, rest) ∧ Obtains rest word x := by
  constructor
  · intro h
    unfold read at h
    split at h
    · cases h
    · next body hbody =>
      refine ⟨body, (splitWord body).1, (splitWord body).2, behind?_eq_some_iff.1 hbody, rfl, ?_⟩
      dsimp only at h
      split at h
      · next hword =>
        rw [← String.toList_ofList (l := (splitWord body).1), hword]
        rw [Result.mapError_eq_ok_iff] at h
        obtain ⟨d, hd, rfl⟩ := Result.map_eq_ok_iff.1 h
        exact .device hd
      · next hword =>
        rw [← String.toList_ofList (l := (splitWord body).1), hword]
        rw [Result.mapError_eq_ok_iff] at h
        obtain ⟨d, hd, rfl⟩ := Result.map_eq_ok_iff.1 h
        exact .load hd
      · next hword =>
        rw [← String.toList_ofList (l := (splitWord body).1), hword]
        obtain ⟨n, hn, rfl⟩ := Result.map_eq_ok_iff.1 h
        exact .priority hn
      · cases h
  · rintro ⟨body, word, rest, hline, hword, hobtains⟩
    rw [read, behind?_eq_some_iff.2 hline]
    cases hobtains with
    | device h | load h | priority h =>
      simp only [hword, String.ofList_toList, h]
      rfl

def fields (name positional : List Char) : Except DeviceFault (Option SerialSpec) :=
  match behind? '=' positional with
  | some spec => some <$> serialSpec spec
  | none =>
    if positional.isEmpty then pure none
    else throw (.positional (String.ofList name) (String.ofList positional))

def properties : Option (List Char) → Except DeviceFault (List (String × String))
  | some list => (pieces ',' list).mapM fun p => property (trim p)
  | none => pure []

theorem deviceDecl_of_isName {rest name more positional : List Char} {list : Option (List Char)}
    (hword : splitWord rest = (name, more)) (hwith : splitWith more = (positional, list))
    (hname : isName name = true) : deviceDecl rest = (do
      let serial ← fields name positional
      let properties ← properties list
      return ⟨String.ofList name, serial, properties⟩) := by
  simp only [deviceDecl, hword, hwith, hname, Bool.not_true, Bool.false_eq_true, if_false, fields]
  cases behind? '=' positional with
  | some spec => cases list <;> rfl
  | none =>
    dsimp only
    split <;> cases list <;> rfl

theorem deviceDecl_eq_ok_iff {rest : List Char} {d : DeviceDecl} : deviceDecl rest = .ok d ↔
    ∃ name more positional list, splitWord rest = (name, more) ∧ isName name = true ∧
      splitWith more = (positional, list) ∧ d.name = String.ofList name ∧
      fields name positional = .ok d.serial ∧ properties list = .ok d.properties := by
  constructor
  · intro h
    rcases hword : splitWord rest with ⟨name, more⟩
    rcases hwith : splitWith more with ⟨positional, list⟩
    cases hname : isName name with
    | false =>
      simp only [deviceDecl, hword, hname] at h
      cases h
    | true =>
      rw [deviceDecl_of_isName hword hwith hname] at h
      obtain ⟨serial, hserial, h⟩ := Result.bind_eq_ok_iff.1 h
      obtain ⟨ps, hps, h⟩ := Result.bind_eq_ok_iff.1 h
      cases h
      exact ⟨name, more, positional, list, rfl, hname, hwith, rfl, hserial, hps⟩
  · rintro ⟨name, more, positional, list, hword, hname, hwith, hd, hserial, hps⟩
    rw [deviceDecl_of_isName hword hwith hname, hserial, hps, ← hd]
    rfl

theorem isName_of_read {d : DeviceDecl} (h : read line = .ok (.device d)) :
    isName d.name.toList = true := by
  obtain ⟨body, word, rest, -, -, hobtains⟩ := read_eq_ok_iff.1 h
  cases hobtains with
  | device h =>
    obtain ⟨name, -, -, -, -, hname, -, hd, -⟩ := deviceDecl_eq_ok_iff.1 h
    rwa [hd, String.toList_ofList]

end CueSheet.Directive
