import Rematch.Text.Utf8
import Rematch.Unicode.Category

/-!
The category table as a Go source file: the names of the categories in the order of their numbers,
and the range table of each.
-/

namespace Rematch.Unicode.CategoryFile

def keywords : List String := [
  "break", "case", "chan", "const", "continue", "default", "defer", "else", "fallthrough", "for",
  "func", "go", "goto", "if", "import", "interface", "map", "package", "range", "return", "select",
  "struct", "switch", "type", "var"]

def isLetter (code : Nat) : Bool :=
  code = 0x5F || (Category.all.find? (·.name == "L")).any (·.contains code)

def isLetterOrDigit (code : Nat) : Bool := isLetter code || GeneralCategory.decimalNumber.lists code

def isIdentifier (text : Bytes) : Bool :=
  match Utf8.codes text with
  | [] => false
  | first :: rest =>
    isLetter first && rest.all isLetterOrDigit &&
      keywords.all fun keyword => Bytes.ofString keyword != text

def isBlank (byte : UInt8) : Bool := byte = 0x20 || byte = 0x09 || byte = 0x0A || byte = 0x0D

def trim (text : Bytes) : Bytes := ((text.dropWhile isBlank).reverse.dropWhile isBlank).reverse

def array (comment name type : String) (elements : List String) : String :=
  s!"// {name} {comment}\nvar {name} = [...]{type}\x7b\n" ++
    String.join (elements.map fun element => s!"\t{element},\n") ++ "\x7d\n"

def body : String :=
  let names := Category.all.map (·.name)
  "\n\nimport \"unicode\"\n\n" ++
    array "lists the Unicode general categories by id." "categoryNames" "string"
      (names.map fun name => s!"\"{name}\"") ++
    "\n" ++
    array "holds the range table of each entry in categoryNames." "categoryTables"
      "*unicode.RangeTable" (names.map fun name => s!"unicode.{name}")

def render? (package : Bytes) : Option Bytes :=
  let package := trim package
  if isIdentifier package then
    some (Bytes.ofString "// Code generated by gencategories; DO NOT EDIT.\n\npackage " ++
      package ++ Bytes.ofString body)
  else none

end Rematch.Unicode.CategoryFile
