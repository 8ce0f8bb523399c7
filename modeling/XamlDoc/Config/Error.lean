import XamlDoc.Dialect.Kind
import XamlDoc.Files.Access

/-!
# What may be wrong with a configuration

A file that is missing, cannot be read or is not written as it should be, and values that are not
allowed.
-/

namespace XamlDoc

inductive InvalidValue where
  | dialect (name : String)
  | indent (limit : Nat)
  | empty (field : String)
  | notPositive (field : String)
  | negative (field : String)
  | thickness (field text : String)
  deriving DecidableEq, Repr

def InvalidValue.message : InvalidValue → String
  | .dialect name => "dialect: " ++ DialectKind.unknownMessage name
  | .indent limit => "output.indent cannot exceed " ++ toString limit
  | .empty field => field ++ " cannot be empty"
  | .notPositive field => field ++ " must be greater than 0"
  | .negative field => field ++ " cannot be negative"
  | .thickness field text => field ++ ": " ++ Thickness.invalidMessage text

inductive ConfigError where
  | notFound (path : String)
  | unreadable
  | malformed
  | invalid (v : InvalidValue)
  deriving DecidableEq, Repr

namespace ConfigError

/-- The message of an error that says more than that reading failed. -/
def message? : ConfigError → Option String
  | .notFound path => some ("Configuration file not found: " ++ path)
  | .unreadable | .malformed => none
  | .invalid v => some ("Configuration error: " ++ v.message)

end ConfigError

end XamlDoc
