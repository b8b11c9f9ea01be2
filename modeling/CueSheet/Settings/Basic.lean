import CueSheet.Decimal
import CueSheet.Files.Tree
import CueSheet.Settings.Yaml
import CueSheet.Text

/-!
The settings of a run, read from a file in which every section and every field may be missing.
-/

namespace CueSheet

structure Settings where
  lineBuffer : Nat := 64
  /-- In microseconds. -/
  spinThreshold : Nat := 2000
  elevatedNice : Int := -20
  timestampFormat : String := "%H:%M:%S%.3f"
deriving DecidableEq, Repr

structure SettingsFile where
  lineBuffer : Option Nat := none
  spinThreshold : Option Nat := none
  elevatedNice : Option Int := none
  timestampFormat : Option String := none

inductive SettingsFault
  | lineBuffer
  | nice (found : Int)
  | timestampFormat (found : String)
deriving DecidableEq, Repr

def SettingsFault.message : SettingsFault → String
  | .lineBuffer => "loader.line_buffer must be at least 1"
  | .nice found => s!"executor.elevated_nice must be between -20 and 19, got {found}"
  | .timestampFormat found => s!"devices.timestamp_format '{found}' is not a valid chrono format"

inductive SettingsError
  | unreadable (path : String) (e : FileError)
  | malformed
  | invalid (path : String) (fault : SettingsFault)
deriving DecidableEq, Repr

def SettingsError.message : SettingsError → String
  | .unreadable path e => s!"Cannot open configuration file: {path}: {e.message}"
  | .malformed => "Failed to parse YAML file"
  | .invalid path fault => s!"Invalid configuration in {path}: {fault.message}"

namespace SettingsFile

open Yaml (Node)

def isNull (s : List Char) : Bool :=
  ["", "~", "null", "Null", "NULL"].contains (String.ofList s)

/-- A number in base 10, or behind `0x`, `0o` or `0b` in that base. Leading zeros make a text of it. -/
def magnitude? (s : List Char) : Option Nat :=
  let inBase (base : Nat) (r : List Char) : Option Nat := do
    let ds ← r.mapM Yaml.hexDigit?
    if ds.isEmpty || ds.any (base ≤ ·) then none else some (ds.foldl (base * · + ·) 0)
  match s with
  | '0' :: 'x' :: r => inBase 16 r
  | '0' :: 'o' :: r => inBase 8 r
  | '0' :: 'b' :: r => inBase 2 r
  | '0' :: _ :: _ => none
  | s => Decimal.digits? s

def unsigned? (s : List Char) : Option Nat :=
  (magnitude? (if s.head? == some '+' then s.tail else s)).filter (· ≤ Decimal.maxWord)

def signed? (s : List Char) : Option Int :=
  let n? := match s with
    | '-' :: r => (magnitude? r).map fun n => -(n : Int)
    | '+' :: r => (magnitude? r).map Int.ofNat
    | s => (magnitude? s).map Int.ofNat
  n?.filter fun n => -(Decimal.maxSignedHalf : Int) - 1 ≤ n && n ≤ Decimal.maxSignedHalf

def numberOf? {α : Type} (number? : List Char → Option α) : Node → Option (Option α)
  | .scalar true s => if isNull s then some none else (number? s).map some
  | _ => none

def textOf? : Node → Option (Option String)
  | .scalar plain s => if plain && isNull s then some none else some (some (String.ofList s))
  | .mapping _ => none

def entries? : Node → Option (List (List Char × Node))
  | .mapping es => some es
  | .scalar true [] => some []
  | .scalar _ _ => none

def field? (f : SettingsFile) (section_ key : String) (v : Node) : Option SettingsFile :=
  match section_, key with
  | "loader", "line_buffer" => (numberOf? unsigned? v).map ({ f with lineBuffer := · })
  | "executor", "spin_threshold_us" => (numberOf? unsigned? v).map ({ f with spinThreshold := · })
  | "executor", "elevated_nice" => (numberOf? signed? v).map ({ f with elevatedNice := · })
  | "devices", "timestamp_format" => (textOf? v).map ({ f with timestampFormat := · })
  | _, _ => none

def sections : List String := ["loader", "executor", "devices"]

def section? (f : SettingsFile) (name : String) (v : Node) : Option SettingsFile := do
  guard (name ∈ sections)
  let es ← entries? v
  guard (es.map (·.1)).Nodup
  es.foldlM (fun f (k, v) => f.field? name (String.ofList k) v) f

def ofNode? (v : Node) : Option SettingsFile := do
  let es ← entries? v
  guard (es.map (·.1)).Nodup
  es.foldlM (fun f (k, v) => f.section? (String.ofList k) v) {}

def read? (content : String) : Option SettingsFile :=
  if (Text.trim content.toList).isEmpty then some {} else (Yaml.read? content.toList).bind ofNode?

def settings (isFormat : String → Bool) (f : SettingsFile) : Except SettingsFault Settings :=
  let d : Settings := {}
  let lineBuffer := f.lineBuffer.getD d.lineBuffer
  let nice := f.elevatedNice.getD d.elevatedNice
  let format := f.timestampFormat.getD d.timestampFormat
  if lineBuffer = 0 then .error .lineBuffer
  else if nice < -20 || 19 < nice then .error (.nice nice)
  else if !isFormat format then .error (.timestampFormat format)
  else .ok ⟨lineBuffer, f.spinThreshold.getD d.spinThreshold, nice, format⟩

end SettingsFile

def Settings.load (isFormat : String → Bool) (t : FileTree) (here : Place) (path : String) :
    Except SettingsError Settings := do
  let content ← ((t.find here path).bind t.text).mapError (.unreadable path)
  match SettingsFile.read? content with
  | none => throw .malformed
  | some f => (f.settings isFormat).mapError (.invalid path)

end CueSheet
