import CrossCall.Value

/-!
Why a value cannot be loaded as a bound or as a worker's specification, and the message of each
cause.
-/

namespace CrossCall

inductive LoadError where
  /-- A value of a kind that is never accepted here. -/
  | wrongKind (found : Value) (expected : String)
  /-- A value of the right kind outside the range. -/
  | outOfRange (found : Value) (expected : String)
  | unknownField (name : String) (known : List String)
  | duplicateField (name : String)
  /-- More items than there are positions. -/
  | tooLong (length : Nat)
  deriving Inhabited

namespace LoadError

/-- How a message names what it found. -/
def describe : Value → String
  | .null => "null"
  | .bool b => s!"boolean `{b}`"
  | .int n => s!"integer `{n}`"
  | .float negative size => "floating point `" ++ Value.floatText negative size ++ "`"
  | .text s => "string " ++ Text.quoted s
  | .list _ => "sequence"
  | .record _ => "map"

def message : LoadError → String
  | .wrongKind found expected => s!"invalid type: {describe found}, expected {expected}"
  | .outOfRange found expected => s!"invalid value: {describe found}, expected {expected}"
  | .unknownField name known =>
    s!"unknown field `{name}`, expected " ++ " or ".intercalate (known.map fun k => s!"`{k}`")
  | .duplicateField name => s!"duplicate field `{name}`"
  | .tooLong length => s!"invalid length {length}, expected fewer elements in array"

end LoadError
end CrossCall
