import Rematch.Text.Quoted

/-!
Why a text in YAML holds no settings. Lines count from zero. A fault is placed at the line where the
construct around it begins, else at its own line, and not at all if that is the first one.
-/

namespace Rematch.Config.Yaml

inductive TypeFault where
  | mistyped (line : Nat) (tag content : Bytes) (target : String)
  | duplicateKey (line : Nat) (key : Bytes) (firstLine : Nat)

inductive YamlError where
  | reading (problem : String)
  | scanning (contextLine problemLine : Nat) (problem : String)
  | parsing (contextLine problemLine : Nat) (problem : String)
  | unknownAnchor (name : Bytes)
  | selfReference (name : Bytes)
  | excessiveAliases
  | mergeOfNoMapping
  | malformedBinary
  | mistagged (found content tag : Bytes)
  | invalidKey (key : String)
  | unhashableKey (kind : String)
  | mistyped (faults : List TypeFault)

def excerpt (text : Bytes) : Bytes :=
  if 10 < text.length then text.take 7 ++ Bytes.ofString "..." else text

def TypeFault.message : TypeFault → Bytes
  | .mistyped line tag content target =>
    let isCollection := tag == Bytes.ofString "!!seq" || tag == Bytes.ofString "!!map"
    let shown :=
      if isCollection then content
      else Bytes.ofString " `" ++ excerpt content ++ Bytes.ofString "`"
    Bytes.ofString s!"line {line + 1}: cannot unmarshal " ++ tag ++ shown ++
      Bytes.ofString s!" into {target}"
  | .duplicateKey line key firstLine =>
    Bytes.ofString (s!"line {line + 1}: mapping key {Quoted.encode key}" ++
      s!" already defined at line {firstLine + 1}")

def place (contextLine problemLine advance : Nat) : String :=
  let line := if contextLine = 0 then problemLine else contextLine
  if line = 0 then "" else s!"line {line + advance}: "

def YamlError.reason : YamlError → Bytes
  | .reading problem => Bytes.ofString problem
  | .scanning contextLine problemLine problem =>
    Bytes.ofString (place contextLine problemLine 1 ++ problem)
  | .parsing contextLine problemLine problem =>
    Bytes.ofString (place contextLine problemLine 0 ++ problem)
  | .unknownAnchor name =>
    Bytes.ofString "unknown anchor '" ++ name ++ Bytes.ofString "' referenced"
  | .selfReference name =>
    Bytes.ofString "anchor '" ++ name ++ Bytes.ofString "' value contains itself"
  | .excessiveAliases => Bytes.ofString "document contains excessive aliasing"
  | .mergeOfNoMapping =>
    Bytes.ofString "map merge requires map or sequence of maps as the value"
  | .malformedBinary => Bytes.ofString "!!binary value contains invalid base64 data"
  | .mistagged found content tag =>
    Bytes.ofString "cannot decode " ++ found ++ Bytes.ofString " `" ++ content ++
      Bytes.ofString "` as a " ++ tag
  | .invalidKey key => Bytes.ofString s!"invalid map key: {key}"
  | .unhashableKey kind => Bytes.ofString s!"runtime error: hash of unhashable type {kind}"
  | .mistyped faults =>
    Bytes.ofString "unmarshal errors:" ++
      faults.flatMap fun fault => Bytes.ofString "\n  " ++ fault.message

def YamlError.message (error : YamlError) : Bytes := Bytes.ofString "yaml: " ++ error.reason

end Rematch.Config.Yaml
