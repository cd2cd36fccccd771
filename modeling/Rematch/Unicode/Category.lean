import Rematch.Unicode.GeneralCategory

/-!
Named categories: each general category by its two-letter name, and the seven classes and the
cased letters that group them. A category's number is its place in the order of names.
-/

namespace Rematch.Unicode

namespace GeneralCategory

def lists (category : GeneralCategory) (code : Nat) : Bool :=
  category.assignedSpans.any (·.contains code)

def of (code : Nat) : GeneralCategory :=
  (assigned.find? (·.lists code)).getD .unassigned

end GeneralCategory

structure Category where
  name : String
  members : List GeneralCategory

namespace Category

def all : List Category := [
  ⟨"C", [.control, .format, .unassigned, .privateUse, .surrogate]⟩,
  ⟨"Cc", [.control]⟩,
  ⟨"Cf", [.format]⟩,
  ⟨"Cn", [.unassigned]⟩,
  ⟨"Co", [.privateUse]⟩,
  ⟨"Cs", [.surrogate]⟩,
  ⟨"L", [.lowercaseLetter, .modifierLetter, .otherLetter, .titlecaseLetter, .uppercaseLetter]⟩,
  ⟨"LC", [.lowercaseLetter, .titlecaseLetter, .uppercaseLetter]⟩,
  ⟨"Ll", [.lowercaseLetter]⟩,
  ⟨"Lm", [.modifierLetter]⟩,
  ⟨"Lo", [.otherLetter]⟩,
  ⟨"Lt", [.titlecaseLetter]⟩,
  ⟨"Lu", [.uppercaseLetter]⟩,
  ⟨"M", [.spacingMark, .enclosingMark, .nonspacingMark]⟩,
  ⟨"Mc", [.spacingMark]⟩,
  ⟨"Me", [.enclosingMark]⟩,
  ⟨"Mn", [.nonspacingMark]⟩,
  ⟨"N", [.decimalNumber, .letterNumber, .otherNumber]⟩,
  ⟨"Nd", [.decimalNumber]⟩,
  ⟨"Nl", [.letterNumber]⟩,
  ⟨"No", [.otherNumber]⟩,
  ⟨"P", [.connectorPunctuation, .dashPunctuation, .closePunctuation, .finalPunctuation,
    .initialPunctuation, .otherPunctuation, .openPunctuation]⟩,
  ⟨"Pc", [.connectorPunctuation]⟩,
  ⟨"Pd", [.dashPunctuation]⟩,
  ⟨"Pe", [.closePunctuation]⟩,
  ⟨"Pf", [.finalPunctuation]⟩,
  ⟨"Pi", [.initialPunctuation]⟩,
  ⟨"Po", [.otherPunctuation]⟩,
  ⟨"Ps", [.openPunctuation]⟩,
  ⟨"S", [.currencySymbol, .modifierSymbol, .mathSymbol, .otherSymbol]⟩,
  ⟨"Sc", [.currencySymbol]⟩,
  ⟨"Sk", [.modifierSymbol]⟩,
  ⟨"Sm", [.mathSymbol]⟩,
  ⟨"So", [.otherSymbol]⟩,
  ⟨"Z", [.lineSeparator, .paragraphSeparator, .spaceSeparator]⟩,
  ⟨"Zl", [.lineSeparator]⟩,
  ⟨"Zp", [.paragraphSeparator]⟩,
  ⟨"Zs", [.spaceSeparator]⟩]

def count : Nat := all.length

def ofNumber? (number : Nat) : Option Category := all[number]?

def numberOf? (name : String) : Option Nat := all.findIdx? (·.name == name)

def contains (category : Category) (code : Nat) : Bool :=
  category.members.contains (GeneralCategory.of code)

end Category

/-- Whether a code point is shown as itself in quoted text: letters, marks, numbers, punctuation,
symbols and the ASCII blank. -/
def isPrintable (code : Nat) : Bool :=
  code == 0x20 ||
    match GeneralCategory.of code with
    | .control | .format | .privateUse | .surrogate | .unassigned
    | .lineSeparator | .paragraphSeparator | .spaceSeparator => false
    | _ => true

end Rematch.Unicode
