/-!
What a panic carries while it unwinds. Only text, fixed in the program or made by it, is readable
by whoever catches the panic.
-/

namespace CrossCall

inductive Payload where
  /-- Text that stands in the program. -/
  | literal (text : String)
  /-- Text made at run time. -/
  | made (text : String)
  /-- A value of any other type. -/
  | foreign (type : String)
  deriving DecidableEq, Inhabited

def Payload.message : Payload → String
  | .literal text => text
  | .made text => text
  | .foreign _ => "non-string panic payload"

end CrossCall
