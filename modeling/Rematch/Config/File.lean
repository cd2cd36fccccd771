import Rematch.Config.Dotenv
import Rematch.Config.Json
import Rematch.Config.Toml.Document
import Rematch.Config.Yaml.Decoding

/-!
Files of settings. The extension of a file's name says in which format it is written.
-/

namespace Rematch.Config

inductive PathFault where
  | malformed
  | tooLong
  | noFile
  deriving DecidableEq

namespace PathFault

def message : PathFault → String
  | malformed => "invalid argument"
  | tooLong => "file name too long"
  | noFile => "no such file or directory"

def pathLimit : Nat := 4096

def maxComponent : Nat := 255

def firstComponent : Nat → Bytes → Bytes
  | 0, path => path
  | fuel + 1, path =>
    let component := path.takeWhile (· ≠ Bytes.ascii '/')
    let names := [Bytes.ofString "", Bytes.ofString ".", Bytes.ofString ".."]
    if names.contains component && component.length < path.length then
      firstComponent fuel (path.drop (component.length + 1))
    else component

def ofPath (path : Bytes) : PathFault :=
  if path.contains 0 then malformed
  else if pathLimit ≤ path.length then tooLong
  else if maxComponent < (firstComponent path.length path).length then tooLong
  else noFile

end PathFault

inductive FileError where
  | unsupported (extension : Bytes)
  | missing (path : Bytes)
  | malformed (reason : Bytes)

def FileError.message : FileError → Bytes
  | .unsupported extension =>
    Bytes.ofString s!"Unsupported Config Type {Quoted.encode extension}"
  | .missing path =>
    Bytes.ofString "open " ++ path ++ Bytes.ofString s!": {(PathFault.ofPath path).message}"
  | .malformed reason => Bytes.ofString "While parsing config: " ++ reason

def extension (path : Bytes) : Bytes :=
  let name := (path.reverse.takeWhile (· ≠ Bytes.ascii '/')).reverse
  if Bytes.ascii '.' ∈ name then (name.reverse.takeWhile (· ≠ Bytes.ascii '.')).reverse else []

inductive Format where
  | json
  | toml
  | yaml
  | dotenv
  | other
  deriving DecidableEq

namespace Format

def extensions : List (Format × List String) := [
  (.json, ["json"]),
  (.toml, ["toml"]),
  (.yaml, ["yaml", "yml"]),
  (.dotenv, ["dotenv", "env"]),
  (.other, ["properties", "props", "prop", "hcl", "tfvars", "ini"])]

def ofExtension? (extension : Bytes) : Option Format :=
  (extensions.find? fun (_, names) => names.any (Bytes.ofString · == extension)).map (·.1)

def decode (format : Format) (environment : List (String × Bytes)) (text : Bytes) :
    Except Bytes Table :=
  match format with
  | .json => (Json.decode text).mapError (·.message)
  | .toml => (Toml.decode text).mapError (·.message)
  | .yaml => (Yaml.decode text).mapError (·.message)
  | .dotenv => (Dotenv.decode environment text).mapError (·.message)
  | .other => .error (Bytes.ofString "decoder not found for this format")

end Format

def readFile (path : Bytes) (environment : List (String × Bytes)) (content? : Option Bytes) :
    Except FileError Table :=
  match Format.ofExtension? (extension path) with
  | none => .error (.unsupported (extension path))
  | some format =>
    match content? with
    | none => .error (.missing path)
    | some text => (format.decode environment text).mapError .malformed

end Rematch.Config
