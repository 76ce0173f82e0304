import Letterpress.Text.Blank

/-!
# Tags

What can stand between the braces of a tag. Everything else between braces is plain text.
-/

namespace Letterpress.Template

/-- The keywords of the tags that come in pairs. -/
inductive Keyword where
  | condition
  | loop
  | block
  deriving DecidableEq, Repr

namespace Keyword

def word : Keyword → String
  | condition => "if"
  | loop => "each"
  | block => "block"

def ofWord? (s : String) : Option Keyword := [condition, loop, block].find? (·.word = s)

end Keyword

inductive Tag where
  | placeholder (name : String)
  | opens (keyword : Keyword) (argument : String)
  | closes (keyword : Keyword)
  | inherits (parent : String)
  deriving DecidableEq, Repr

def isWordChar (c : Char) : Bool := c.isAlphanum || c = '_'

def isPlainName (cs : List Char) : Bool := !cs.isEmpty && cs.all isWordChar

/-- A name may begin with an at sign. -/
def isName : List Char → Bool
  | '@' :: rest => isPlainName rest
  | cs => isPlainName cs

/-- The text between two quotes, if there is any and no quote is in it. -/
def quoted? : List Char → Option String
  | '"' :: rest =>
    let inner := rest.dropLast
    if rest.getLast? = some '"' ∧ inner ≠ [] ∧ '"' ∉ inner then some (String.ofList inner) else none
  | _ => none

/-- Conditions and lists are given by name, blocks by a quoted text. -/
def Keyword.argument? (cs : List Char) : Keyword → Option String
  | condition => if isName cs then some (String.ofList cs) else none
  | loop => if isPlainName cs then some (String.ofList cs) else none
  | block => quoted? cs

namespace Tag

def isPlaceholder : Tag → Bool
  | placeholder _ => true
  | _ => false

/-- The tag with `content` between its braces. -/
def ofContent? (content : List Char) : Option Tag :=
  match Text.trim content with
  | '#' :: rest =>
    let (word, arg) := Text.splitWord rest
    (Keyword.ofWord? (String.ofList word)).bind fun k => (k.argument? arg).map (opens k)
  | '/' :: rest => (Keyword.ofWord? (String.ofList (Text.trim rest))).map closes
  | cs =>
    let (word, arg) := Text.splitWord cs
    if word = "extends".toList then (quoted? arg).map inherits
    else if isName cs then some (placeholder (String.ofList cs))
    else none

end Tag

end Letterpress.Template
