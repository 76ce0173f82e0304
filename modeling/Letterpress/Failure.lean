import Letterpress.Body.Writing
import Letterpress.Package.Ids

/-!
# Failures of document operations
-/

namespace Letterpress

inductive FileFault where
  | missing
  | notText
  deriving DecidableEq, Repr

def FileFault.message : FileFault → String
  | missing => "No such file or directory (os error 2)"
  | notText => "stream did not contain valid UTF-8"

inductive Failure where
  | archive
  | file (fault : FileFault)
  | part (path : String) (fault : PartFault)
  | missingPart (path : String)
  | outOfRange (what : OutOfRange)
  | exhausted (space : IdSpace)
  | unwritable (why : Unwritable)
  /-- A failure and the operation it befell. -/
  | during (operation context : String) (cause : Failure)
  deriving DecidableEq, Repr

namespace Failure

def message : Failure → String
  | archive => "Archive error"
  | file fault => "IO error: " ++ fault.message
  | part path fault => fault.message path
  | missingPart path => "Required part not found: " ++ path
  | outOfRange o =>
    o.what ++ " index " ++ toString o.index ++ " out of range (len " ++ toString o.size ++ ")"
  | exhausted space => "No " ++ space.name ++ " ids left to allocate"
  | unwritable why => "Cannot serialize: " ++ why.message
  | during operation context cause =>
    "document operation failed: " ++ operation ++ " (" ++ context ++ "): " ++ cause.message

/-- The failure without the operations around it. -/
def root : Failure → Failure
  | during _ _ cause => cause.root
  | f => f

end Failure

end Letterpress
