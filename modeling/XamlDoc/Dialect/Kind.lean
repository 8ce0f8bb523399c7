import XamlDoc.Dialect.Profile

/-!
# Kinds of dialect

The two vocabularies that documents are rendered in.
-/

namespace XamlDoc

inductive DialectKind where
  | maui
  | xamarinForms
  deriving DecidableEq, Repr, Inhabited

namespace DialectKind

def name : DialectKind → String
  | .maui => "maui"
  | .xamarinForms => "xamarin-forms"

def ofName? (s : String) : Option DialectKind :=
  match s.toLower with
  | "maui" => some .maui
  | "xamarin-forms" | "xamarin" | "xamarinforms" => some .xamarinForms
  | _ => none

def unknownMessage (s : String) : String :=
  "unknown dialect `" ++ s ++ "` (expected `maui` or `xamarin-forms`)"

def defaultProfile : DialectKind → Profile
  | .maui => .ofTheme
  | .xamarinForms => .plain

end DialectKind

end XamlDoc
