import CrossCall.Text.Unprintable

/-!
Quoted text: a text between quotation marks that shows every character visibly. The marks, the
backslash and four control characters have short escapes; any other unprintable character is
written by its code point.
-/

namespace CrossCall.Text

/-- The code point in lower-case hexadecimal, without leading zeros. -/
def hex (n : Nat) : String := String.ofList (Nat.toDigits 16 n)

def escape (c : Char) : String :=
  match c with
  | '\x00' => "\\0"
  | '\t' => "\\t"
  | '\r' => "\\r"
  | '\n' => "\\n"
  | '"' => "\\\""
  | '\\' => "\\\\"
  | _ => if isUnprintable c then "\\u\x7b" ++ hex c.toNat ++ "\x7d" else c.toString

def quoted (s : String) : String :=
  "\"" ++ String.join (s.toList.map escape) ++ "\""

end CrossCall.Text
