import Rematch.Text.Bytes
import Rematch.Unicode.Category
import Rematch.Unicode.CodeSet
import Rematch.Unicode.Script

/-!
Named sets of code points: categories, scripts, and the long names of categories. Names are
compared without regard to case, blanks, hyphens and underscores.
-/

namespace Rematch.Unicode

def assignedCodes : CodeSet :=
  CodeSet.ofSpans (GeneralCategory.assigned.flatMap GeneralCategory.assignedSpans)

def GeneralCategory.codes : GeneralCategory → CodeSet
  | .unassigned => assignedCodes.complement
  | category => category.assignedSpans

def Category.codes (category : Category) : CodeSet :=
  CodeSet.ofSpans (category.members.flatMap GeneralCategory.codes)

namespace Property

def longNames : List (String × String) := [
  ("Cased_Letter", "LC"), ("Close_Punctuation", "Pe"), ("Combining_Mark", "M"),
  ("Connector_Punctuation", "Pc"), ("Control", "Cc"), ("Currency_Symbol", "Sc"),
  ("Dash_Punctuation", "Pd"), ("Decimal_Number", "Nd"), ("Enclosing_Mark", "Me"),
  ("Final_Punctuation", "Pf"), ("Format", "Cf"), ("Initial_Punctuation", "Pi"),
  ("Letter", "L"), ("Letter_Number", "Nl"), ("Line_Separator", "Zl"),
  ("Lowercase_Letter", "Ll"), ("Mark", "M"), ("Math_Symbol", "Sm"), ("Modifier_Letter", "Lm"),
  ("Modifier_Symbol", "Sk"), ("Nonspacing_Mark", "Mn"), ("Number", "N"),
  ("Open_Punctuation", "Ps"), ("Other", "C"), ("Other_Letter", "Lo"), ("Other_Number", "No"),
  ("Other_Punctuation", "Po"), ("Other_Symbol", "So"), ("Paragraph_Separator", "Zp"),
  ("Private_Use", "Co"), ("Punctuation", "P"), ("Separator", "Z"), ("Space_Separator", "Zs"),
  ("Spacing_Mark", "Mc"), ("Surrogate", "Cs"), ("Symbol", "S"), ("Titlecase_Letter", "Lt"),
  ("Unassigned", "Cn"), ("Uppercase_Letter", "Lu"), ("cntrl", "Cc"), ("digit", "Nd"),
  ("punct", "P")]

/-- What counts when names are compared: all but blanks, hyphens and underscores, in lower case. -/
def looseForm (name : Bytes) : Bytes :=
  (name.filter fun byte => byte != 0x20 && byte != 0x2D && byte != 0x5F).map fun byte =>
    if 0x41 ≤ byte && byte ≤ 0x5A then byte + 0x20 else byte

def sameName (name : Bytes) (known : String) : Bool :=
  looseForm name == looseForm (Bytes.ofString known)

def category? (name : Bytes) : Option Category :=
  Category.all.find? fun category => sameName name category.name

def codes? (name : Bytes) : Option CodeSet :=
  if sameName name "Any" then some CodeSet.full
  else if sameName name "Assigned" then some assignedCodes
  else if sameName name "ASCII" then some [⟨0, 0x7F⟩]
  else
    match category? name with
    | some category => some category.codes
    | none =>
      match Script.all.find? fun script => sameName name script.name with
      | some script => some script.spans
      | none =>
        (longNames.find? fun entry => sameName name entry.1).bind fun entry =>
          (category? (Bytes.ofString entry.2)).map Category.codes

end Property

end Rematch.Unicode
