import Letterpress.Text.Lowercase.Table

/-!
# Lowercase text

Full lowercasing: one letter becomes one letter, except that the dotted capital I becomes two, and
a capital sigma that ends a word takes its final form.
-/

namespace Letterpress.Text

namespace Lowercase

def within (ranges : List (Nat × Nat)) (c : Char) : Bool :=
  ranges.any fun r => r.1 ≤ c.toNat && c.toNat ≤ r.2

/-- The first character that is not ignorable is a letter with case. -/
def meetsCased (cs : List Char) : Bool :=
  match cs.dropWhile (within ignorable) with
  | [] => false
  | c :: _ => within cased c

def letter (c : Char) : List Char :=
  if c = 'İ' then ['i', '\u0307']
  else
    match shifts.find? fun r =>
        r.1 ≤ c.toNat && c.toNat ≤ r.2.1 && (c.toNat - r.1) % r.2.2.1 == 0 with
    | some r => [Char.ofNat (c.toNat + r.2.2.2).toNat]
    | none => [c]

/-- Lowercases a text that stands after `before`, given last character first. -/
def after (before : List Char) : List Char → List Char
  | [] => []
  | c :: rest =>
    (if c = 'Σ' then [if meetsCased before && !meetsCased rest then 'ς' else 'σ']
      else letter c) ++ after (c :: before) rest

end Lowercase

def lowercase (s : String) : String := String.ofList (Lowercase.after [] s.toList)

end Letterpress.Text
