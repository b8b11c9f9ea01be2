import CueSheet.Device.Instance
import CueSheet.Load.Basic
import CueSheet.Proofs.Directive.Device
import CueSheet.Proofs.Load.Sheet
import CueSheet.Proofs.Serial.Keys
import CueSheet.Proofs.Source.Number

/-!
The settings of a declared serial device. The fields of the declaration become texts under their keys,
in front of the properties, and are read back from there: what was written is what the port is
opened with, unless a property says otherwise.
-/

namespace CueSheet

open SerialConfig (Valid Blames Follows)

/-- The settings that have a field of their own are those of the fields, unless a property is written
for the key. -/
structure SerialSpec.Sets (spec : SerialSpec) (properties : List (String × String))
    (c : SerialConfig) : Prop where
  port : c.port = spec.port
  baud : (∀ y ∈ properties, y.1 ≠ "baud_rate") → c.baud = spec.baud
  parity : (∀ y ∈ properties, y.1 ≠ "parity") →
    some c.parity = spec.parity.elim (some .none) Parity.ofText?
  dataBits : (∀ y ∈ properties, y.1 ≠ "data_bits") → c.dataBits = spec.dataBits.getD 8
  stopBits : (∀ y ∈ properties, y.1 ≠ "stop_bits") →
    some c.stopBits = spec.stopBits.elim (some .one) StopBits.ofText?

namespace SerialKey

def field? (spec : SerialSpec) : SerialKey → Option String
  | .baudRate => some (toString spec.baud)
  | .parity => spec.parity
  | .dataBits => spec.dataBits.map toString
  | .stopBits => spec.stopBits
  | .handshake | .writeTimeout | .newLine => none

variable {k : SerialKey} {d : DeviceDecl} {spec : SerialSpec} {s : String} {start c : SerialConfig}

theorem mem_configuration_iff (h : d.serial = some spec)
    (hprops : ∀ y ∈ d.properties, y.1 ≠ k.text) :
    (k.text, s) ∈ d.configuration ↔ field? spec k = some s := by
  have hnot : (k.text, s) ∉ d.properties := fun hmem => hprops _ hmem rfl
  simp only [DeviceDecl.configuration, h, List.mem_append, hnot, or_false, Option.mem_toList,
    Option.map_eq_some_iff, List.mem_singleton, Prod.mk.injEq]
  cases k <;> simp [text, field?, eq_comm]

theorem read?_field (h : d.serial = some spec) (hfollows : Follows d.configuration start c)
    (hprops : ∀ y ∈ d.properties, y.1 ≠ k.text) :
    (field? spec k).elim (some (k.get start)) k.read? = some (k.get c) := by
  rcases k.last_or d.configuration with ⟨s, hlast⟩ | hnone
  · rw [(mem_configuration_iff h hprops).1 hlast.mem]
    exact hfollows.written k s hlast
  · cases hfield : field? spec k with
    | some s => exact absurd rfl (hnone _ ((mem_configuration_iff h hprops).2 hfield))
    | none => exact congrArg some (hfollows.unwritten k hnone).symm

end SerialKey

namespace SerialSpec

variable {d : DeviceDecl} {spec : SerialSpec} {c : SerialConfig}

theorem natural?_filter {bound n m : Nat} {q : Nat → Bool}
    (h : (Decimal.natural? bound (toString n).toList).filter q = some m) : m = n := by
  obtain ⟨hnat, -⟩ := Option.filter_eq_some_iff.1 h
  rw [Decimal.natural?_toString] at hnat
  split_ifs at hnat
  exact (Option.some.inj hnat).symm

theorem sets_of_follows (h : d.serial = some spec)
    (hfollows : Follows d.configuration { port := spec.port } c) : spec.Sets d.properties c where
  port := hfollows.port
  baud hprops := natural?_filter (SerialKey.read?_field (k := .baudRate) h hfollows hprops)
  parity hprops := (SerialKey.read?_field (k := .parity) h hfollows hprops).symm
  dataBits hprops := by
    have hread := SerialKey.read?_field (k := .dataBits) h hfollows hprops
    cases hbits : spec.dataBits with
    | none =>
      rw [SerialKey.field?, hbits] at hread
      exact (Option.some.inj hread).symm
    | some n =>
      rw [SerialKey.field?, hbits] at hread
      exact natural?_filter hread
  stopBits hprops := (SerialKey.read?_field (k := .stopBits) h hfollows hprops).symm

end SerialSpec

namespace Directive

variable {line : List Char} {d : DeviceDecl} {spec : SerialSpec}

theorem bounds_of_read (hread : read line = .ok (.device d)) (h : d.serial = some spec) :
    spec.baud ≤ Decimal.maxHalf ∧ ∀ n, spec.dataBits = some n → n ≤ Decimal.maxByte := by
  obtain ⟨body, word, rest, -, -, hobtains⟩ := read_eq_ok_iff.1 hread
  cases hobtains with
  | device hd =>
    obtain ⟨name, more, positional, list, -, -, -, -, hfields, -⟩ := deviceDecl_eq_ok_iff.1 hd
    rw [h] at hfields
    obtain ⟨f, -, hspec⟩ := fields_eq_some hfields
    obtain ⟨port, baud, more, -, -, -, -, hbaud, -, hbits, -⟩ := serialSpec_eq_ok_iff.1 hspec
    refine ⟨Decimal.le_of_natural? hbaud, fun n hn => ?_⟩
    rw [hn] at hbits
    obtain ⟨raw, -, hraw⟩ := Option.map_eq_some_iff.1 hbits
    exact Decimal.le_of_natural? hraw

end Directive

theorem SerialConfig.valid_number_iff {k : SerialKey} {n bound : Nat} {q : Nat → Bool}
    (hread : ∀ s, (k.read? s).isSome = ((Decimal.natural? bound s.toList).filter q).isSome)
    (h : n ≤ bound) : Valid (k.text, toString n) ↔ q n = true := by
  rw [valid_iff, ← Option.isSome_iff_exists, hread, Decimal.natural?_toString, if_pos h]
  cases hq : q n <;> simp [hq]

namespace Instance

variable {τ : Type} {spec : SerialSpec}

theorem create_serial (w : Workshop τ) (dev : Device) (hkind : dev.kind = .serial)
    (hserial : dev.serial = some spec) :
    create w dev = (SerialConfig.ofProperties dev.name spec.port dev.configuration).map fun c =>
      .transport { name := dev.name, config := c, port := w.port c } := by
  simp only [create, hkind, hserial, Option.map_some, Option.getD_some]

theorem create_serial_ok_iff (w : Workshop τ) (dev : Device) (hkind : dev.kind = .serial)
    (hserial : dev.serial = some spec) :
    (∃ i, create w dev = .ok i) ↔ ∀ x ∈ dev.configuration, Valid x := by
  rw [create_serial w dev hkind hserial]
  constructor
  · rintro ⟨i, h⟩
    obtain ⟨c, hc, -⟩ := Result.map_eq_ok_iff.1 h
    exact (SerialConfig.ofProperties_eq_ok hc).1
  · intro hvalid
    obtain ⟨c, hc, -⟩ := SerialConfig.exists_follows hvalid dev.name { port := spec.port }
    exact ⟨_, Result.map_eq_ok_iff.2 ⟨c, hc, rfl⟩⟩

end Instance

variable {τ : Type} {line : List Char} {path : String} {n : Nat} {d : DeviceDecl}
  {spec : SerialSpec} {s s' : Sheet}

theorem Linker.declare_serial (hserial : d.serial = some spec)
    (hdeclare : Linker.declare path n d s = .ok s') :
    s'.devices = s.devices ++ [⟨⟨s.file, s.devices.length⟩, d.name, .serial, d.configuration,
      some spec⟩] := by
  simp only [Linker.declare, hserial, Option.isSome_some, if_true] at hdeclare
  split at hdeclare
  · next hs =>
    cases hdeclare
    rw [Sheet.declare?_eq_some hs]
  · cases hdeclare

/-- Neighbours for different keys may change places. Only where both of them are wrong and all before them
is right, it is the other one that is to blame. -/
theorem Instance.create_exchange {w : Workshop τ} {dev : Device} {x y : String × String}
    {before after : List (String × String)} (hkind : dev.kind = .serial)
    (hserial : dev.serial = some spec) (hsplit : dev.configuration = before ++ x :: y :: after)
    (hkey : x.1 ≠ y.1) :
    (∀ i, create w { dev with configuration := before ++ y :: x :: after } = .ok i ↔
      create w dev = .ok i) ∧
    (create w { dev with configuration := before ++ y :: x :: after } = create w dev ↔
      Valid x ∨ Valid y ∨ ∃ b ∈ before, ¬ Valid b) := by
  rw [create_serial w { dev with configuration := before ++ y :: x :: after } hkind hserial,
    create_serial w dev hkind hserial, hsplit]
  rcases SerialConfig.ofProperties_exchange hkey dev.name spec.port before after with
    ⟨hright, hsame⟩ | ⟨hwrong, e, e', hne, he', he⟩
  · rw [hsame]
    exact ⟨fun i => Iff.rfl, iff_of_true rfl hright⟩
  · rw [he, he']
    exact ⟨fun i => iff_of_false nofun nofun, iff_of_false (fun h => hne (Except.error.inj h)) hwrong⟩

/-- A serial device that a line declares is made just where every entry of its configuration is valid; its
settings are then those of the last entry for each key, so without properties for their keys those
of the fields. Otherwise the first entry that is wrong is to blame. The order of the entries counts for
no more than that: two neighbours for different keys may change places, unless they are the first two
that are wrong. -/
theorem Instance.create_declared (w : Workshop τ) (hread : Directive.read line = .ok (.device d))
    (hserial : d.serial = some spec) (hdeclare : Linker.declare path n d s = .ok s') :
    ∃ dev, s'.devices = s.devices ++ [dev] ∧ dev.name = d.name ∧
      dev.configuration = d.configuration ∧
      (Valid ("baud_rate", toString spec.baud) ↔ 0 < spec.baud) ∧
      (∀ bits, spec.dataBits = some bits →
        (Valid ("data_bits", toString bits) ↔ 5 ≤ bits ∧ bits ≤ 8)) ∧
      ((∃ i, create w dev = .ok i) ↔ ∀ x ∈ d.configuration, Valid x) ∧
      (∀ i, create w dev = .ok i → ∃ c, i = .transport ⟨d.name, c, w.port c, false⟩ ∧
        Follows d.configuration { port := spec.port } c ∧ spec.Sets d.properties c) ∧
      (∀ e, create w dev = .error e ↔ ∃ before x after, d.configuration = before ++ x :: after ∧
        (∀ y ∈ before, Valid y) ∧ Blames d.name x e) ∧
      ∀ before x y after, d.configuration = before ++ x :: y :: after → x.1 ≠ y.1 →
        (∀ i, create w { dev with configuration := before ++ y :: x :: after } = .ok i ↔
          create w dev = .ok i) ∧
        (create w { dev with configuration := before ++ y :: x :: after } = create w dev ↔
          Valid x ∨ Valid y ∨ ∃ b ∈ before, ¬ Valid b) := by
  obtain ⟨hbaud, hbits⟩ := Directive.bounds_of_read hread hserial
  refine ⟨_, Linker.declare_serial hserial hdeclare, rfl, rfl, ?_, fun bits h => ?_,
    create_serial_ok_iff w _ rfl rfl, fun i hi => ?_, fun e => ?_,
    fun before x y after hsplit hkey => ?_⟩
  · have hvalid := SerialConfig.valid_number_iff (k := .baudRate) (q := fun n => 0 < n)
      (fun _ => rfl) hbaud
    rwa [decide_eq_true_iff] at hvalid
  · have hvalid := SerialConfig.valid_number_iff (k := .dataBits) (q := fun n => 5 ≤ n && n ≤ 8)
      (fun _ => rfl) (hbits bits h)
    rwa [Bool.and_eq_true, decide_eq_true_iff, decide_eq_true_iff] at hvalid
  · rw [create_serial w _ rfl rfl] at hi
    obtain ⟨c, hc, rfl⟩ := Result.map_eq_ok_iff.1 hi
    have hfollows := (SerialConfig.ofProperties_eq_ok hc).2
    exact ⟨c, rfl, hfollows, SerialSpec.sets_of_follows hserial hfollows⟩
  · rw [create_serial w _ rfl rfl, Result.map_eq_error_iff]
    exact SerialConfig.ofProperties_eq_error_iff
  · exact create_exchange rfl rfl hsplit hkey

/-- What `#device Lamp = COM3, 9600, Even, 7 with baud_rate = 19200, new_line = "\r"` declares. -/
def overridden : DeviceDecl :=
  ⟨"Lamp", some ⟨"COM3", 9600, some "Even", some 7, none⟩,
    [("baud_rate", "19200"), ("new_line", "\\r")]⟩

theorem Instance.create_declared_overridden : ∃ spec s' dev c,
    Directive.read ("#device Lamp = COM3, 9600, Even, 7 with baud_rate = 19200, " ++
      "new_line = \"\\r\"").toList = .ok (.device overridden) ∧
    overridden.serial = some spec ∧ Linker.declare "a.cue" 1 overridden ⟨0, "a.cue", [], []⟩ = .ok s' ∧
    s'.devices = [dev] ∧
    create (τ := SerialConfig) ⟨id, "", false⟩ dev = .ok (.transport ⟨"Lamp", c, c, false⟩) ∧
    Follows overridden.configuration { port := "COM3" } c ∧ spec.Sets overridden.properties c ∧
    c = ⟨"COM3", 19200, .even, 7, .one, .none, none, "\r"⟩ := by
  have hread : Directive.read ("#device Lamp = COM3, 9600, Even, 7 with baud_rate = 19200, " ++
      "new_line = \"\\r\"").toList = .ok (.device overridden) := by
    decide +kernel
  have hdeclare : Linker.declare "a.cue" 1 overridden ⟨0, "a.cue", [], []⟩ =
      .ok ⟨0, "a.cue",
        [⟨⟨0, 0⟩, "Lamp", .serial, overridden.configuration, overridden.serial⟩], []⟩ := rfl
  have hcreate : create (τ := SerialConfig) ⟨id, "", false⟩
      ⟨⟨0, 0⟩, "Lamp", .serial, overridden.configuration, overridden.serial⟩ =
      .ok (.transport ⟨"Lamp", ⟨"COM3", 19200, .even, 7, .one, .none, none, "\r"⟩,
        ⟨"COM3", 19200, .even, 7, .one, .none, none, "\r"⟩, false⟩) := by
    cbv
  obtain ⟨dev, hdevices, -, -, -, -, -, hok, -⟩ :=
    create_declared (τ := SerialConfig) ⟨id, "", false⟩ hread rfl hdeclare
  obtain rfl := List.singleton_inj.1 hdevices
  obtain ⟨c, hc, hfollows, hsets⟩ := hok _ hcreate
  cases hc
  exact ⟨_, _, _, _, hread, rfl, hdeclare, rfl, hcreate, hfollows, hsets, rfl⟩

/-- What `#device Lamp = COM3, 9600 with data_bits = 9, parity = weird` declares. -/
def misread : DeviceDecl :=
  ⟨"Lamp", some ⟨"COM3", 9600, none, none, none⟩, [("data_bits", "9"), ("parity", "weird")]⟩

/-- Where two neighbours are both wrong, the error tells which of them is first. -/
theorem Instance.exchange_not_always_same : ¬ ∀ (line : List Char) (d : DeviceDecl) (spec : SerialSpec)
    (path : String) (n : Nat) (s s' : Sheet) (dev : Device) (w : Workshop Unit)
    (before : List (String × String)) (x y : String × String) (after : List (String × String)),
    Directive.read line = .ok (.device d) → d.serial = some spec →
    Linker.declare path n d s = .ok s' → s'.devices = s.devices ++ [dev] →
    d.configuration = before ++ x :: y :: after → x.1 ≠ y.1 →
    create w { dev with configuration := before ++ y :: x :: after } = create w dev := by
  intro h
  have hread : Directive.read "#device Lamp = COM3, 9600 with data_bits = 9, parity = weird".toList =
      .ok (.device misread) := by
    decide +kernel
  have hsame := h _ misread _ "a.cue" 1 ⟨0, "a.cue", [], []⟩ _ _ ⟨fun _ => (), "", false⟩
    [("baud_rate", "9600")] ("data_bits", "9") ("parity", "weird") [] hread rfl rfl rfl rfl (by decide)
  have hmade : create (τ := Unit) ⟨fun _ => (), "", false⟩
      ⟨⟨0, 0⟩, "Lamp", .serial, misread.configuration, misread.serial⟩ =
      .error (.invalidValue "Lamp" "data_bits" "9" .dataBits) := by
    cbv
  have hexchanged : create (τ := Unit) ⟨fun _ => (), "", false⟩ ⟨⟨0, 0⟩, "Lamp", .serial,
      [("baud_rate", "9600"), ("parity", "weird"), ("data_bits", "9")], misread.serial⟩ =
      .error (.invalidValue "Lamp" "parity" "weird" .parity) := by
    cbv
  have hkeys := Except.error.inj (hexchanged.symm.trans (hsame.trans hmade))
  exact absurd (DeviceError.invalidValue.inj hkeys).2.1 (by decide)

end CueSheet
