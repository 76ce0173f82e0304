import Letterpress.Failure
import Letterpress.Json.Reader

/-!
# Failures of template operations
-/

namespace Letterpress

/-- A field with a value it may not have. -/
structure Invalid where
  field : String
  value : String
  message : String
  deriving DecidableEq, Repr

inductive TemplateFailure where
  | notFound (name : String)
  | noBlock (template block : String)
  | invalid (why : Invalid)
  | document (cause : Failure)
  | data (fault : Json.Fault)
  | settings
  | file (fault : FileFault)
  /-- A failure and the operation it befell. -/
  | during (operation context : String) (cause : TemplateFailure)
  deriving DecidableEq, Repr

namespace TemplateFailure

def message : TemplateFailure → String
  | notFound name => "Template not found: " ++ name
  | noBlock template block => "Block \"" ++ block ++ "\" not found in template " ++ template
  | invalid why =>
    "Validation error in " ++ why.field ++ ": " ++ why.message ++ " (" ++ why.value ++ ")"
  | document cause => "Document error: " ++ cause.message
  | data _ => "Data error"
  | settings => "Config error"
  | file fault => "IO error: " ++ fault.message
  | during operation context cause =>
    "template operation failed: " ++ operation ++ " (" ++ context ++ "): " ++ cause.message

/-- The failure without the operations around it. -/
def root : TemplateFailure → TemplateFailure
  | during _ _ cause => cause.root
  | f => f

end TemplateFailure

end Letterpress
