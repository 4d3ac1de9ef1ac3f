import CssUrls.Number.Layout
import CssUrls.Text.Printable

/-! Values of configuration data.

A value is what a data file may hold. `describe` says which sort of value it is, and shows the
simple ones; it is what a refusal names. -/
namespace CssUrls.Data

inductive Value
  | null
  | boolean (b : Bool)
  | integer (i : Int)
  | float (x : Double)
  | string (s : String)
  | sequence (items : List Value)
  /-- Keys and what they stand for, in the order of the keys. -/
  | map (entries : List (String × Value))

/-- Floats are shown with all their digits, and with a power of ten if the point would stand more
than four zeros before the digits or past the sixteenth. -/
def floatStyle : DecimalStyle := ⟨-4, 16, 17, true⟩

def Value.describe : Value → String
  | null => "null"
  | boolean b => "boolean `" ++ toString b ++ "`"
  | integer i => "integer `" ++ toString i ++ "`"
  | float x => "floating point `" ++ floatStyle.text x ++ "`"
  | string s => "string " ++ Text.shown s
  | sequence _ => "sequence"
  | map _ => "map"

/-- What a value has to be. -/
inductive Shape
  | map
  | nameOrMap
  | null
  deriving DecidableEq

def Shape.phrase : Shape → String
  | map => "a map"
  | nameOrMap => "string or map"
  | null => "unit"

/-- Why a value was refused. -/
inductive Mismatch
  | wrongShape (found : Value) (expected : Shape)
  | unknownName (name : String) (known : List String)
  /-- A map that stands for a name has one key. -/
  | notOneKey

def Mismatch.message : Mismatch → String
  | wrongShape found expected => "invalid type: " ++ found.describe ++ ", expected " ++ expected.phrase
  | unknownName name known =>
    "unknown variant `" ++ name ++ "`, expected one of " ++
      ", ".intercalate (known.map fun k => "`" ++ k ++ "`")
  | notOneKey => "invalid value: map, expected map with a single key"

end CssUrls.Data
