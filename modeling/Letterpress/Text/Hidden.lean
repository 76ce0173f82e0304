import Letterpress.Text.Hidden.Table

/-!
# Quoting a text

Quoted, a text shows every character: by a name or by its code if it has no shape.
-/

namespace Letterpress.Text

def isHidden (c : Char) : Bool := hidden.any fun r => r.1 ≤ c.toNat && c.toNat ≤ r.2

/-- A character between quotes. -/
def shown (c : Char) : List Char :=
  match c with
  | '\x00' => ['\\', '0']
  | '\t' => ['\\', 't']
  | '\r' => ['\\', 'r']
  | '\n' => ['\\', 'n']
  | '"' => ['\\', '"']
  | '\\' => ['\\', '\\']
  | c =>
    if isHidden c then ['\\', 'u', '\x7b'] ++ Nat.toDigits 16 c.toNat ++ ['\x7d'] else [c]

def quoted (s : String) : String := String.ofList ('"' :: s.toList.flatMap shown ++ ['"'])

end Letterpress.Text
