/-!
# Blank characters

The Unicode property `White_Space`, and the trimming and line splitting built on it.
-/

namespace Letterpress.Text

/-- Unicode `White_Space`. -/
def isBlank (c : Char) : Bool :=
  let n := c.toNat
  (9 ≤ n && n ≤ 13) || n == 0x20 || n == 0x85 || n == 0xA0 || n == 0x1680 ||
    (0x2000 ≤ n && n ≤ 0x200A) || n == 0x2028 || n == 0x2029 || n == 0x202F ||
    n == 0x205F || n == 0x3000

def trimStart (cs : List Char) : List Char := cs.dropWhile isBlank

def trimEnd (cs : List Char) : List Char := (cs.reverse.dropWhile isBlank).reverse

def trim (cs : List Char) : List Char := trimEnd (trimStart cs)

/-- The first word and the trimmed text after it. -/
def splitWord (cs : List Char) : List Char × List Char :=
  let cs := trimStart cs
  (cs.takeWhile (!isBlank ·), trim (cs.dropWhile (!isBlank ·)))

/-- The lines of a text whose current line has the characters `seen`, last first. -/
def linesFrom (seen : List Char) : List Char → List (List Char)
  | [] => if seen.isEmpty then [] else [seen.reverse]
  | c :: rest =>
    if c = '\n' then
      (match seen with
        | '\r' :: seen => seen.reverse
        | seen => seen.reverse) :: linesFrom [] rest
    else linesFrom (c :: seen) rest

/-- A line ends at a newline, with the one carriage return before it; the last one needs no
newline. -/
def lines (s : String) : List String := (linesFrom [] s.toList).map String.ofList

/-- No character, or blank ones only. -/
def allBlank (s : String) : Bool := s.toList.all isBlank

end Letterpress.Text
