import Letterpress.Text.Utf8

/-!
# Faults of a marked-up text
-/

namespace Letterpress.Markup

/-- What the text ends inside of. -/
inductive Unclosed where
  | tag
  | instruction
  | comment
  | cdata
  | doctype
  deriving DecidableEq, Repr

/-- Why a numeric reference names no character. -/
inductive BadNumber where
  | sign
  | empty
  | digit
  | large
  | zero
  | noCharacter (code : Nat)
  deriving DecidableEq, Repr

/-- Offsets are counted in bytes from the start of the text between two tags. -/
inductive Fault where
  | unclosed (what : Unclosed)
  | unknownMarkup
  | mismatched (expected found : String)
  | unmatched (name : String)
  | namelessDoctype
  | unterminated (start stop : Nat)
  | unknownEntity (start stop : Nat) (name : String)
  | badNumber (why : BadNumber)
  | notText (why : Text.Broken)
  deriving DecidableEq, Repr

def Unclosed.message : Unclosed → String
  | .tag => "tag not closed: `>` not found before end of input"
  | .instruction =>
    "processing instruction or xml declaration not closed: `?>` not found before end of input"
  | .comment => "comment not closed: `-->` not found before end of input"
  | .cdata => "CDATA not closed: `]]>` not found before end of input"
  | .doctype => "DOCTYPE not closed: `>` not found before end of input"

def BadNumber.message : BadNumber → String
  | .sign => "unexpected number sign"
  | .empty => "cannot parse integer from empty string"
  | .digit => "invalid digit found in string"
  | .large => "number too large to fit in target type"
  | .zero => "0x0 character is not permitted in XML"
  | .noCharacter code => "`" ++ toString code ++ "` is not a valid codepoint"

def range (start stop : Nat) : String := toString start ++ ".." ++ toString stop

def brokenMessage : Text.Broken → String
  | ⟨offset, some length⟩ =>
    "invalid utf-8 sequence of " ++ toString length ++ " bytes from index " ++ toString offset
  | ⟨offset, none⟩ => "incomplete utf-8 byte sequence from index " ++ toString offset

namespace Fault

def message : Fault → String
  | unclosed what => "syntax error: " ++ what.message
  | unknownMarkup => "syntax error: unknown or missed symbol in markup"
  | mismatched expected found =>
    "ill-formed document: expected `</" ++ expected ++ ">`, but `</" ++ found ++ ">` was found"
  | unmatched name =>
    "ill-formed document: close tag `</" ++ name ++ ">` does not match any open tag"
  | namelessDoctype =>
    "ill-formed document: `<!DOCTYPE>` declaration does not contain a name of a document type"
  | unterminated start stop =>
    "Error while escaping character at range " ++ range start stop ++ ": Cannot find ';' after '&'"
  | unknownEntity start stop name =>
    "at " ++ range start stop ++ ": unrecognized entity `" ++ name ++ "`"
  | badNumber why => "invalid character reference: " ++ why.message
  | notText why => "cannot decode input using UTF-8: " ++ brokenMessage why

end Fault

end Letterpress.Markup
