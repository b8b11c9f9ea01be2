import CueSheet.Proofs.Basic
import CueSheet.Serial.Config

/-!
The keys of a serial line. A key names one setting: to write it changes that setting and no other. So the
settings that a list of entries comes to are those of the last entry for each key, entries for
different keys may change places, and what stops the reading is the first entry that is wrong.
-/

namespace CueSheet

inductive SerialKey
  | baudRate
  | parity
  | dataBits
  | stopBits
  | handshake
  | writeTimeout
  | newLine
deriving DecidableEq

namespace SerialKey

def text : SerialKey → String
  | .baudRate => "baud_rate"
  | .parity => "parity"
  | .dataBits => "data_bits"
  | .stopBits => "stop_bits"
  | .handshake => "handshake"
  | .writeTimeout => "write_timeout"
  | .newLine => "new_line"

abbrev Value : SerialKey → Type
  | .baudRate => Nat
  | .parity => Parity
  | .dataBits => Nat
  | .stopBits => StopBits
  | .handshake => Handshake
  | .writeTimeout => Option Nat
  | .newLine => String

/-- What a written value stands for under the key, if it is valid there. -/
def read? : (k : SerialKey) → String → Option k.Value
  | .baudRate, s => (Decimal.natural? Decimal.maxHalf s.toList).filter fun n : Nat => 0 < n
  | .parity, s => Parity.ofText? s
  | .dataBits, s =>
    (Decimal.natural? Decimal.maxByte s.toList).filter fun n : Nat => 5 ≤ n && n ≤ 8
  | .stopBits, s => StopBits.ofText? s
  | .handshake, s => Handshake.ofText? s
  | .writeTimeout, s =>
    (Decimal.natural? Decimal.maxWord s.toList).map fun n => if n = 0 then none else some n
  | .newLine, s => some (String.ofList (SerialConfig.unescape s.toList))

def rule? : SerialKey → Option PropertyRule
  | .baudRate => some .positive
  | .parity => some .parity
  | .dataBits => some .dataBits
  | .stopBits => some .stopBits
  | .handshake => some .handshake
  | .writeTimeout => some .timeout
  | .newLine => none

def get : (k : SerialKey) → SerialConfig → k.Value
  | .baudRate, c => c.baud
  | .parity, c => c.parity
  | .dataBits, c => c.dataBits
  | .stopBits, c => c.stopBits
  | .handshake, c => c.handshake
  | .writeTimeout, c => c.writeTimeout
  | .newLine, c => c.newLine

def put : (k : SerialKey) → k.Value → SerialConfig → SerialConfig
  | .baudRate, x, c => { c with baud := x }
  | .parity, x, c => { c with parity := x }
  | .dataBits, x, c => { c with dataBits := x }
  | .stopBits, x, c => { c with stopBits := x }
  | .handshake, x, c => { c with handshake := x }
  | .writeTimeout, x, c => { c with writeTimeout := x }
  | .newLine, x, c => { c with newLine := x }

def Last (k : SerialKey) (entries : List (String × String)) (s : String) : Prop :=
  ∃ before after, entries = before ++ (k.text, s) :: after ∧ ∀ y ∈ after, y.1 ≠ k.text

variable {k k' : SerialKey} {s : String} {c : SerialConfig}

theorem text_injective (h : k.text = k'.text) : k = k' := by
  cases k <;> cases k' <;> first | rfl | exact absurd h (by decide)

theorem Last.mem {entries : List (String × String)} (h : k.Last entries s) :
    (k.text, s) ∈ entries := by
  obtain ⟨before, after, rfl, -⟩ := h
  simp

theorem last_or (k : SerialKey) (entries : List (String × String)) :
    (∃ s, k.Last entries s) ∨ ∀ y ∈ entries, y.1 ≠ k.text := by
  induction entries with
  | nil => exact .inr (List.forall_mem_nil _)
  | cons x entries ih =>
    rcases ih with ⟨s, before, after, rfl, hafter⟩ | hnone
    · exact .inl ⟨s, x :: before, after, rfl, hafter⟩
    · obtain ⟨key, s⟩ := x
      by_cases hkey : key = k.text
      · exact .inl ⟨s, [], entries, by rw [hkey]; rfl, hnone⟩
      · exact .inr (List.forall_mem_cons.2 ⟨hkey, hnone⟩)

theorem get_put (k : SerialKey) (x : k.Value) (c : SerialConfig) : k.get (k.put x c) = x := by
  cases k <;> rfl

theorem get_put_of_ne (h : k' ≠ k) (x : k.Value) (c : SerialConfig) :
    k'.get (k.put x c) = k'.get c := by
  cases k <;> cases k' <;> first | rfl | exact absurd rfl h

theorem put_comm (h : k' ≠ k) (x : k.Value) (x' : k'.Value) (c : SerialConfig) :
    k'.put x' (k.put x c) = k.put x (k'.put x' c) := by
  cases k <;> cases k' <;> first | rfl | exact absurd rfl h

theorem port_put (k : SerialKey) (x : k.Value) (c : SerialConfig) : (k.put x c).port = c.port := by
  cases k <;> rfl

theorem set_text (k : SerialKey) (s : String) (c : SerialConfig) : c.set k.text s =
    match k.read? s, k.rule? with
    | some x, _ => .ok (k.put x c)
    | none, some rule => .error (.value rule)
    | none, none => .error .key := by
  cases k with
  | newLine => rfl
  | writeTimeout =>
    simp only [SerialConfig.set, text, read?, rule?]
    cases Decimal.natural? Decimal.maxWord s.toList <;> rfl
  | baudRate | parity | dataBits | stopBits | handshake =>
    simp only [SerialConfig.set, text, read?, rule?, put]
    split <;> next h => simp only [h]

theorem exists_rule?_of_read? (h : k.read? s = none) : ∃ rule, k.rule? = some rule := by
  cases k with
  | newLine => cases h
  | _ => exact ⟨_, rfl⟩

theorem set_of_unknown {key : String} (h : ∀ k : SerialKey, key ≠ k.text) :
    c.set key s = .error .key := by
  unfold SerialConfig.set
  split
  · exact absurd rfl (h .baudRate)
  · exact absurd rfl (h .parity)
  · exact absurd rfl (h .dataBits)
  · exact absurd rfl (h .stopBits)
  · exact absurd rfl (h .handshake)
  · exact absurd rfl (h .writeTimeout)
  · exact absurd rfl (h .newLine)
  · rfl

end SerialKey

namespace SerialConfig

def Valid (x : String × String) : Prop :=
  ∃ (k : SerialKey) (v : k.Value), x.1 = k.text ∧ k.read? x.2 = some v

inductive Blames (device : String) : String × String → DeviceError → Prop
  | key {key s : String} : (∀ k : SerialKey, key ≠ k.text) →
    Blames device (key, s) (.unknownKey device key)
  | value {k : SerialKey} {s : String} {rule : PropertyRule} : k.read? s = none →
    k.rule? = some rule → Blames device (k.text, s) (.invalidValue device k.text s rule)

/-- Each setting is what the last entry for its key says, or what `start` has where no entry is for it. -/
structure Follows (entries : List (String × String)) (start c : SerialConfig) : Prop where
  port : c.port = start.port
  written : ∀ k s, SerialKey.Last k entries s → k.read? s = some (k.get c)
  unwritten : ∀ k : SerialKey, (∀ y ∈ entries, y.1 ≠ k.text) → k.get c = k.get start

def apply (device : String) (c : SerialConfig) (x : String × String) :
    Except DeviceError SerialConfig :=
  (c.set x.1 x.2).mapError (·.blame device x.1 x.2)

variable {device port : String} {x y : String × String} {c c' : SerialConfig} {e : DeviceError}
  {entries before after : List (String × String)}

theorem ofProperties_eq (device port : String) (entries : List (String × String)) :
    ofProperties device port entries = entries.foldlM (apply device) { port := port } := rfl

theorem apply_cases (device : String) (x : String × String) :
    (∃ (k : SerialKey) (v : k.Value), x.1 = k.text ∧ k.read? x.2 = some v ∧
      ∀ c, apply device c x = .ok (k.put v c)) ∨
    ∃ e, Blames device x e ∧ ∀ c, apply device c x = .error e := by
  obtain ⟨key, s⟩ := x
  by_cases hkey : ∃ k : SerialKey, key = k.text
  · obtain ⟨k, rfl⟩ := hkey
    cases hread : k.read? s with
    | some v =>
      refine .inl ⟨k, v, rfl, hread, fun c => ?_⟩
      simp only [apply, SerialKey.set_text, hread]
      rfl
    | none =>
      obtain ⟨rule, hrule⟩ := SerialKey.exists_rule?_of_read? hread
      refine .inr ⟨_, .value hread hrule, fun c => ?_⟩
      simp only [apply, SerialKey.set_text, hread, hrule]
      rfl
  · have hunknown : ∀ k : SerialKey, key ≠ k.text := fun k hk => hkey ⟨k, hk⟩
    refine .inr ⟨_, .key hunknown, fun c => ?_⟩
    simp only [apply, SerialKey.set_of_unknown hunknown]
    rfl

theorem valid_iff {k : SerialKey} {s : String} : Valid (k.text, s) ↔ ∃ v, k.read? s = some v := by
  constructor
  · rintro ⟨k', v, hk, hv⟩
    obtain rfl := SerialKey.text_injective hk
    exact ⟨v, hv⟩
  · rintro ⟨v, hv⟩
    exact ⟨k, v, rfl, hv⟩

theorem valid_or_blames (device : String) (x : String × String) :
    Valid x ∨ ∃ e, Blames device x e := by
  rcases apply_cases device x with ⟨k, v, hk, hv, -⟩ | ⟨e, he, -⟩
  · exact .inl ⟨k, v, hk, hv⟩
  · exact .inr ⟨e, he⟩

theorem Blames.unique (h : Blames device x e) : ¬ Valid x ∧ ∀ e', Blames device x e' → e' = e := by
  cases h with
  | key hunknown =>
    refine ⟨fun hv => ?_, fun e' h' => ?_⟩
    · obtain ⟨k, -, hk, -⟩ := hv
      exact hunknown k hk
    · cases h' with
      | key _ => rfl
      | value _ _ => exact absurd rfl (hunknown _)
  | @value k s rule hread hrule =>
    refine ⟨fun hv => ?_, fun e' h' => ?_⟩
    · obtain ⟨k', v, hk, hv⟩ := hv
      obtain rfl := SerialKey.text_injective hk
      cases hread.symm.trans hv
    · generalize hx : (k.text, s) = z at h'
      cases h' with
      | key hunknown => exact absurd (congrArg Prod.fst hx).symm (hunknown k)
      | value _ hrule' =>
        obtain ⟨hk, rfl⟩ := Prod.mk.inj hx
        obtain rfl := SerialKey.text_injective hk
        obtain rfl := Option.some.inj (hrule.symm.trans hrule')
        rfl

theorem apply_of_valid (h : Valid x) (device : String) : ∃ (k : SerialKey) (v : k.Value),
    x.1 = k.text ∧ k.read? x.2 = some v ∧ ∀ c, apply device c x = .ok (k.put v c) := by
  rcases apply_cases device x with hput | ⟨e, he, -⟩
  · exact hput
  · exact absurd h he.unique.1

theorem apply_of_blames (h : Blames device x e) (c : SerialConfig) :
    apply device c x = .error e := by
  rcases apply_cases device x with ⟨k, v, hk, hv, -⟩ | ⟨e', he', happly⟩
  · exact absurd ⟨k, v, hk, hv⟩ h.unique.1
  · rw [happly, h.unique.2 e' he']

theorem follows_nil (c : SerialConfig) : Follows [] c c where
  port := rfl
  written k s h := by
    obtain ⟨before, after, h, -⟩ := h
    cases before <;> cases h
  unwritten _ _ := rfl

theorem Follows.cons {k : SerialKey} {s : String} {v : k.Value} (h : Follows entries (k.put v c) c')
    (hv : k.read? s = some v) : Follows ((k.text, s) :: entries) c c' where
  port := h.port.trans (SerialKey.port_put k v c)
  written k' s' hlast := by
    obtain ⟨before, after, hsplit, hafter⟩ := hlast
    cases before with
    | nil =>
      obtain ⟨hx, rfl⟩ := List.cons.inj hsplit
      obtain ⟨hk, rfl⟩ := Prod.mk.inj hx
      obtain rfl := SerialKey.text_injective hk
      rw [h.unwritten k hafter, SerialKey.get_put]
      exact hv
    | cons _ before =>
      obtain ⟨-, rfl⟩ := List.cons.inj hsplit
      exact h.written k' s' ⟨before, after, rfl, hafter⟩
  unwritten k' hnone := by
    obtain ⟨hne, hnone⟩ := List.forall_mem_cons.1 hnone
    have hk : k' ≠ k := fun hk => hne (congrArg SerialKey.text hk).symm
    rw [h.unwritten k' hnone, SerialKey.get_put_of_ne hk]

theorem exists_follows (h : ∀ x ∈ entries, Valid x) (device : String) (c : SerialConfig) :
    ∃ c', entries.foldlM (apply device) c = .ok c' ∧ Follows entries c c' := by
  induction entries generalizing c with
  | nil => exact ⟨c, rfl, follows_nil c⟩
  | cons x entries ih =>
    obtain ⟨hx, hrest⟩ := List.forall_mem_cons.1 h
    obtain ⟨k, v, hk, hv, happly⟩ := apply_of_valid hx device
    obtain ⟨c', hfold, hfollows⟩ := ih hrest (k.put v c)
    refine ⟨c', ?_, ?_⟩
    · rw [List.foldlM_cons, happly]
      exact hfold
    · obtain ⟨key, s⟩ := x
      obtain rfl : key = k.text := hk
      exact hfollows.cons hv

/-- The reading ends at the first entry that is not valid. -/
theorem foldlM_of_blames (hbefore : ∀ y ∈ before, Valid y) (hx : Blames device x e)
    (after : List (String × String)) (c : SerialConfig) :
    (before ++ x :: after).foldlM (apply device) c = .error e := by
  obtain ⟨c', hfold, -⟩ := exists_follows hbefore device c
  rw [List.foldlM_append, hfold]
  change (x :: after).foldlM (apply device) c' = .error e
  rw [List.foldlM_cons, apply_of_blames hx]
  rfl

theorem valid_or_first (device : String) (entries : List (String × String)) :
    (∀ x ∈ entries, Valid x) ∨ ∃ before x after e, entries = before ++ x :: after ∧
      (∀ y ∈ before, Valid y) ∧ Blames device x e := by
  induction entries with
  | nil => exact .inl (List.forall_mem_nil _)
  | cons x entries ih =>
    rcases valid_or_blames device x with hx | ⟨e, he⟩
    · rcases ih with hall | ⟨before, y, after, e, rfl, hbefore, he⟩
      · exact .inl (List.forall_mem_cons.2 ⟨hx, hall⟩)
      · exact .inr ⟨x :: before, y, after, e, rfl, List.forall_mem_cons.2 ⟨hx, hbefore⟩, he⟩
    · exact .inr ⟨[], x, entries, e, rfl, List.forall_mem_nil _, he⟩

theorem ofProperties_eq_ok (h : ofProperties device port entries = .ok c) :
    (∀ x ∈ entries, Valid x) ∧ Follows entries { port := port } c := by
  rw [ofProperties_eq] at h
  rcases valid_or_first device entries with hall | ⟨before, x, after, e, rfl, hbefore, he⟩
  · obtain ⟨c', hfold, hfollows⟩ := exists_follows hall device { port := port }
    obtain rfl := Except.ok.inj (h.symm.trans hfold)
    exact ⟨hall, hfollows⟩
  · rw [foldlM_of_blames hbefore he] at h
    cases h

theorem ofProperties_eq_error_iff : ofProperties device port entries = .error e ↔
    ∃ before x after, entries = before ++ x :: after ∧ (∀ y ∈ before, Valid y) ∧
      Blames device x e := by
  rw [ofProperties_eq]
  constructor
  · intro h
    rcases valid_or_first device entries with hall | ⟨before, x, after, e', rfl, hbefore, he⟩
    · obtain ⟨c', hfold, -⟩ := exists_follows hall device { port := port }
      cases h.symm.trans hfold
    · rw [foldlM_of_blames hbefore he] at h
      cases h
      exact ⟨before, x, after, rfl, hbefore, he⟩
  · rintro ⟨before, x, after, rfl, hbefore, he⟩
    exact foldlM_of_blames hbefore he after _

theorem apply_comm (hkey : x.1 ≠ y.1) (hvalid : Valid x ∨ Valid y) (device : String)
    (c : SerialConfig) : (apply device c x >>= fun c => apply device c y) =
      (apply device c y >>= fun c => apply device c x) := by
  rcases apply_cases device x with ⟨k, v, hk, hv, hx⟩ | ⟨e, he, hx⟩ <;>
    rcases apply_cases device y with ⟨k', v', hk', hv', hy⟩ | ⟨e', he', hy⟩ <;>
    simp only [hx, hy, bind, Except.bind]
  · have hne : k' ≠ k := fun h => hkey (by rw [hk, hk', h])
    rw [SerialKey.put_comm hne]
  · rcases hvalid with hvalid | hvalid
    · exact absurd hvalid he.unique.1
    · exact absurd hvalid he'.unique.1

theorem Blames.eq_or (h : Blames device x e) :
    e = .unknownKey device x.1 ∨ ∃ rule, e = .invalidValue device x.1 x.2 rule := by
  cases h with
  | key _ => exact .inl rfl
  | value _ _ => exact .inr ⟨_, rfl⟩

theorem Blames.key_eq (hx : Blames device x e) (hy : Blames device y e) : x.1 = y.1 := by
  rcases hx.eq_or with rfl | ⟨rule, rfl⟩ <;> rcases hy.eq_or with he | ⟨rule', he⟩
  · exact (DeviceError.unknownKey.inj he).2
  · cases he
  · cases he
  · exact (DeviceError.invalidValue.inj he).2.1

theorem ofProperties_append (hwrong : ∃ b ∈ before, ¬ Valid b) (device port : String)
    (after : List (String × String)) :
    ofProperties device port (before ++ after) = ofProperties device port before := by
  rcases valid_or_first device before with hall | ⟨front, x, rest, e, rfl, hfront, he⟩
  · obtain ⟨b, hb, hnot⟩ := hwrong
    exact absurd (hall b hb) hnot
  · rw [ofProperties_eq, ofProperties_eq, List.append_assoc, List.cons_append,
      foldlM_of_blames hfront he, foldlM_of_blames hfront he]

/-- Two neighbours for different keys may change places, unless both of them are wrong and all before
them is right: then it is the first of them that is to blame. -/
theorem ofProperties_exchange (hkey : x.1 ≠ y.1) (device port : String)
    (before after : List (String × String)) :
    (Valid x ∨ Valid y ∨ ∃ b ∈ before, ¬ Valid b) ∧
        ofProperties device port (before ++ y :: x :: after) =
          ofProperties device port (before ++ x :: y :: after) ∨
      ¬ (Valid x ∨ Valid y ∨ ∃ b ∈ before, ¬ Valid b) ∧ ∃ e e', e' ≠ e ∧
        ofProperties device port (before ++ y :: x :: after) = .error e' ∧
        ofProperties device port (before ++ x :: y :: after) = .error e := by
  by_cases hright : Valid x ∨ Valid y ∨ ∃ b ∈ before, ¬ Valid b
  · refine .inl ⟨hright, ?_⟩
    rw [← or_assoc] at hright
    rcases hright with hvalid | hwrong
    · simp only [ofProperties_eq, List.foldlM_append, List.foldlM_cons]
      congr 1
      funext c
      have hcomm := apply_comm hkey hvalid device c
      simp only [← bind_assoc]
      rw [hcomm]
    · rw [ofProperties_append hwrong, ofProperties_append hwrong]
  · refine .inr ⟨hright, ?_⟩
    simp only [not_or, not_exists, not_and, not_not] at hright
    obtain ⟨hx, hy, hbefore⟩ := hright
    obtain ⟨e, he⟩ := (valid_or_blames device x).resolve_left hx
    obtain ⟨e', he'⟩ := (valid_or_blames device y).resolve_left hy
    refine ⟨e, e', fun hsame => ?_, foldlM_of_blames hbefore he' _ _,
      foldlM_of_blames hbefore he _ _⟩
    subst hsame
    exact hkey (he.key_eq he')

end SerialConfig

end CueSheet
