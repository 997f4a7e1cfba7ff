import CrossCall.Binary
import CrossCall.Text.Quoted
import CrossCall.Word

/-!
Data values: what calls take as arguments and give back, and what logs and answers hold. A record
keeps its fields in ascending order of their names, each name once, so a value has one compact
text.
-/

namespace CrossCall

inductive Value where
  | null
  | bool (b : Bool)
  | int (n : Int)
  /-- A binary number; also zero has a sign. -/
  | float (negative : Bool) (size : Binary)
  | text (s : String)
  | list (items : List Value)
  | record (fields : List (String × Value))
  deriving Inhabited

namespace Value

/-- Puts a field in its place; a field of the same name is replaced. -/
def insertField (name : String) (value : Value) :
    List (String × Value) → List (String × Value)
  | [] => [(name, value)]
  | (n, v) :: rest =>
    if name < n then (name, value) :: (n, v) :: rest
    else if name = n then (name, value) :: rest
    else (n, v) :: insertField name value rest

/-- The record of the given fields; of several fields of one name the last counts. -/
def ofFields (fields : List (String × Value)) : Value :=
  .record (fields.foldl (fun r f => insertField f.1 f.2 r) [])

def field? (name : String) : Value → Option Value
  | .record fields => fields.lookup name
  | _ => none

/-- The 64-bit signed integer a value holds. -/
def int64? : Value → Option Int
  | .int n => if FitsSigned n then some n else none
  | _ => none

/-- The text of a binary number with its sign. -/
def floatText (negative : Bool) (size : Binary) : String :=
  (if negative then "-" else "") ++ size.text

/-! ### Compact text -/

def escapeCompact (c : Char) : String :=
  match c with
  | '"' => "\\\""
  | '\\' => "\\\\"
  | '\n' => "\\n"
  | '\t' => "\\t"
  | '\r' => "\\r"
  | '\x08' => "\\b"
  | '\x0c' => "\\f"
  | _ =>
    if c.toNat < 16 then "\\u000" ++ Text.hex c.toNat
    else if c.toNat < 32 then "\\u00" ++ Text.hex c.toNat
    else c.toString

def compactText (s : String) : String :=
  "\"" ++ String.join (s.toList.map escapeCompact) ++ "\""

mutual

/-- The text of a value without blanks, fields in the record's order. -/
def compact : Value → String
  | .null => "null"
  | .bool b => if b then "true" else "false"
  | .int n => toString n
  | .float negative size => floatText negative size
  | .text s => compactText s
  | .list items => "[" ++ ",".intercalate (compactItems items) ++ "]"
  | .record fields => "\x7b" ++ ",".intercalate (compactFields fields) ++ "\x7d"

def compactItems : List Value → List String
  | [] => []
  | v :: rest => v.compact :: compactItems rest

def compactFields : List (String × Value) → List String
  | [] => []
  | (n, v) :: rest => (compactText n ++ ":" ++ v.compact) :: compactFields rest

end

end Value
end CrossCall
