/-!
# Raised and lowered characters

The Unicode forms of superscript and subscript characters. A character without such a form
stays as it is.
-/

namespace XamlDoc.Text

def raisedForms : List (Char × Char) :=
  ("0123456789+-=()abcdefghijklmnoprstuvwxyz".toList).zip
    ("⁰¹²³⁴⁵⁶⁷⁸⁹⁺⁻⁼⁽⁾ᵃᵇᶜᵈᵉᶠᵍʰⁱʲᵏˡᵐⁿᵒᵖʳˢᵗᵘᵛʷˣʸᶻ".toList)

def loweredForms : List (Char × Char) :=
  ("0123456789+-=()aehijklmnoprstuvx".toList).zip
    ("₀₁₂₃₄₅₆₇₈₉₊₋₌₍₎ₐₑₕᵢⱼₖₗₘₙₒₚᵣₛₜᵤᵥₓ".toList)

def raise (c : Char) : Char := (raisedForms.lookup c).getD c

def lower (c : Char) : Char := (loweredForms.lookup c).getD c

/-- Text with every character raised that has a raised form. -/
def superscript (s : String) : String := s.map raise

/-- Text with every character lowered that has a lowered form. -/
def subscript (s : String) : String := s.map lower

end XamlDoc.Text
