import CrossCall.Decimal
import CrossCall.Value

/-!
Reading a value from its text. Every reader takes the characters left and gives what it read with
the characters that follow; the readers of nested values carry a depth that the length of the text
bounds. An integer beyond 64 bits, or a zero with a sign, is read as a binary number. Of the digits
of a number only those count that fit 64 bits together.
-/

namespace CrossCall.Value

abbrev Reader (α : Type) := List Char → Option (α × List Char)

def skipBlanks (cs : List Char) : List Char :=
  cs.dropWhile fun c => c = ' ' || c = '\n' || c = '\t' || c = '\r'

def hexDigit? (c : Char) : Option Nat :=
  if '0' ≤ c ∧ c ≤ '9' then some (c.toNat - 48)
  else if 'a' ≤ c ∧ c ≤ 'f' then some (c.toNat - 87)
  else if 'A' ≤ c ∧ c ≤ 'F' then some (c.toNat - 55)
  else none

/-- The number of an escape by four hexadecimal digits. -/
def unit? (a b c d : Char) : Option Nat := do
  some ((((← hexDigit? a) * 16 + (← hexDigit? b)) * 16 + (← hexDigit? c)) * 16 + (← hexDigit? d))

def simpleEscape? : Char → Option Char
  | '"' => some '"'
  | '\\' => some '\\'
  | '/' => some '/'
  | 'b' => some '\x08'
  | 'f' => some '\x0c'
  | 'n' => some '\n'
  | 'r' => some '\r'
  | 't' => some '\t'
  | _ => none

/-- The rest of a text after its opening mark. A character beyond the first plane may be written
as two escapes, its high and its low half. -/
def readText : Reader (List Char)
  | '"' :: rest => some ([], rest)
  | '\\' :: 'u' :: a :: b :: c :: d :: rest => do
    let high ← unit? a b c d
    if 0xD800 ≤ high ∧ high < 0xDC00 then
      match rest with
      | '\\' :: 'u' :: e :: f :: g :: h :: rest => do
        let low ← unit? e f g h
        if 0xDC00 ≤ low ∧ low < 0xE000 then do
          let (s, rest) ← readText rest
          some (Char.ofNat (0x10000 + (high - 0xD800) * 0x400 + (low - 0xDC00)) :: s, rest)
        else none
      | _ => none
    else if 0xDC00 ≤ high ∧ high < 0xE000 then none
    else do
      let (s, rest) ← readText rest
      some (Char.ofNat high :: s, rest)
  | '\\' :: e :: rest => do
    let c ← simpleEscape? e
    let (s, rest) ← readText rest
    some (c :: s, rest)
  | c :: rest =>
    if c.toNat < 32 then none
    else do
      let (s, rest) ← readText rest
      some (c :: s, rest)
  | [] => none

def natOfDigits (digits : List Char) : Nat :=
  digits.foldl (fun n c => n * 10 + (c.toNat - 48)) 0

def digitsOf (cs : List Char) : List Char × List Char :=
  cs.span fun c => '0' ≤ c && c ≤ '9'

/-- The exponent after an `e`, if there is one. -/
def readExponent (cs : List Char) : Option (Option Int × List Char) :=
  match cs with
  | 'e' :: rest | 'E' :: rest =>
    let (negative, rest) := match rest with
      | '-' :: rest => (true, rest)
      | '+' :: rest => (false, rest)
      | _ => (false, rest)
    match digitsOf rest with
    | ([], _) => none
    | (digits, rest) =>
      let n : Int := natOfDigits digits
      some (some (if negative then -n else n), rest)
  | _ => some (none, cs)

/-- Takes digits into a number as long as it keeps to 64 bits; gives the digits left, too. -/
def takeDigits (n : Nat) : List Char → Nat × List Char
  | [] => (n, [])
  | c :: rest =>
    let longer := n * 10 + (c.toNat - 48)
    if FitsUnsigned longer then takeDigits longer rest else (n, c :: rest)

/-- A number of digits before and after the point: whole digits that do not fit raise the exponent,
and decimals that do not fit are left out. -/
def decimal (whole fraction : List Char) (exponent : Int) : Decimal :=
  let (n, unread) := takeDigits 0 whole
  let (n, dropped) := takeDigits n fraction
  ⟨n, exponent + unread.length - (fraction.length - dropped.length : Nat)⟩

def float? (negative : Bool) (d : Decimal) : Option Value := d.toBinary?.map (.float negative)

def integer? (negative : Bool) (digits : List Char) : Option Value :=
  let n := natOfDigits digits
  if negative then
    if 0 < n ∧ FitsSigned (-n) then some (.int (-n)) else float? true (decimal digits [] 0)
  else if FitsUnsigned n then some (.int n)
  else float? false (decimal digits [] 0)

def readNumber (cs : List Char) : Option (Value × List Char) := do
  let (negative, cs) := match cs with
    | '-' :: rest => (true, rest)
    | _ => (false, cs)
  let (whole, cs) := digitsOf cs
  if whole.isEmpty || (whole.length > 1 && whole.head? = some '0') then none
  let (fraction, cs) ← match cs with
    | '.' :: rest => match digitsOf rest with
      | ([], _) => none
      | (digits, rest) => some (digits, rest)
    | _ => some ([], cs)
  let (exponent, cs) ← readExponent cs
  let value ← if fraction.isEmpty && exponent.isNone then integer? negative whole
    else float? negative (decimal whole fraction (exponent.getD 0))
  some (value, cs)

mutual

def readValue : Nat → Reader Value
  | 0, _ => none
  | depth + 1, cs =>
    match skipBlanks cs with
    | 'n' :: 'u' :: 'l' :: 'l' :: rest => some (.null, rest)
    | 't' :: 'r' :: 'u' :: 'e' :: rest => some (.bool true, rest)
    | 'f' :: 'a' :: 'l' :: 's' :: 'e' :: rest => some (.bool false, rest)
    | '"' :: rest => (readText rest).map fun (s, rest) => (.text (String.ofList s), rest)
    | '[' :: rest =>
      match skipBlanks rest with
      | ']' :: rest => some (.list [], rest)
      | rest => (readItems depth rest).map fun (items, rest) => (.list items, rest)
    | '\x7b' :: rest =>
      match skipBlanks rest with
      | '\x7d' :: rest => some (.record [], rest)
      | rest => (readFields depth rest).map fun (fields, rest) => (ofFields fields, rest)
    | rest => readNumber rest

def readItems : Nat → Reader (List Value)
  | 0, _ => none
  | depth + 1, cs => do
    let (v, rest) ← readValue depth cs
    match skipBlanks rest with
    | ',' :: rest => do
      let (items, rest) ← readItems depth rest
      some (v :: items, rest)
    | ']' :: rest => some ([v], rest)
    | _ => none

def readFields : Nat → Reader (List (String × Value))
  | 0, _ => none
  | depth + 1, cs =>
    match skipBlanks cs with
    | '"' :: rest => do
      let (name, rest) ← readText rest
      match skipBlanks rest with
      | ':' :: rest => do
        let (v, rest) ← readValue depth rest
        match skipBlanks rest with
        | ',' :: rest => do
          let (fields, rest) ← readFields depth rest
          some ((String.ofList name, v) :: fields, rest)
        | '\x7d' :: rest => some ([(String.ofList name, v)], rest)
        | _ => none
      | _ => none
    | _ => none

end

/-- The value a text holds, with nothing but blanks around it. -/
def ofText? (s : String) : Option Value := do
  let cs := s.toList
  let (v, rest) ← readValue (2 * cs.length + 1) cs
  if (skipBlanks rest).isEmpty then some v else none

end CrossCall.Value
