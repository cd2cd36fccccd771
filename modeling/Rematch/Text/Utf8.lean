import Rematch.Text.Bytes

/-!
UTF-8. `decode?` reads one code point and refuses overlong forms, surrogates and truncated
sequences; `encode` writes one code point. `codes` reads a whole byte string and stands the
replacement character for every byte that starts no code point.
-/

namespace Rematch.Utf8

def replacement : Nat := 0xFFFD

def isContinuation (byte : UInt8) : Bool := 0x80 ≤ byte && byte ≤ 0xBF

/-- Whether `second` may follow the lead byte `first` of a sequence of three or four bytes. -/
def followsLead (first second : UInt8) : Bool :=
  (if first == 0xE0 then 0xA0 else if first == 0xF0 then 0x90 else 0x80) ≤ second &&
  second ≤ (if first == 0xED then 0x9F else if first == 0xF4 then 0x8F else 0xBF)

def payload (byte : UInt8) : Nat := byte.toNat % 64

def decode? : Bytes → Option (Nat × Nat)
  | [] => none
  | first :: rest =>
    if first < 0x80 then some (first.toNat, 1)
    else if 0xC2 ≤ first && first ≤ 0xDF then
      match rest with
      | second :: _ =>
        if isContinuation second then some (first.toNat % 32 * 64 + payload second, 2) else none
      | _ => none
    else if 0xE0 ≤ first && first ≤ 0xEF then
      match rest with
      | second :: third :: _ =>
        if followsLead first second && isContinuation third then
          some ((first.toNat % 16 * 64 + payload second) * 64 + payload third, 3)
        else none
      | _ => none
    else if 0xF0 ≤ first && first ≤ 0xF4 then
      match rest with
      | second :: third :: fourth :: _ =>
        if followsLead first second && isContinuation third && isContinuation fourth then
          some (((first.toNat % 8 * 64 + payload second) * 64 + payload third) * 64 +
            payload fourth, 4)
        else none
      | _ => none
    else none

def isScalar (code : Nat) : Bool :=
  code < 0xD800 || (0xE000 ≤ code && code ≤ 0x10FFFF)

def continuation (bits : Nat) : UInt8 := UInt8.ofNat (0x80 + bits % 64)

def encodeScalar (code : Nat) : Bytes :=
  if code < 0x80 then [UInt8.ofNat code]
  else if code < 0x800 then [UInt8.ofNat (0xC0 + code / 64), continuation code]
  else if code < 0x10000 then
    [UInt8.ofNat (0xE0 + code / 4096), continuation (code / 64), continuation code]
  else
    [UInt8.ofNat (0xF0 + code / 262144), continuation (code / 4096), continuation (code / 64),
      continuation code]

/-- The UTF-8 form of a code point; the replacement character stands for what is no scalar. -/
def encode (code : Nat) : Bytes :=
  encodeScalar (if isScalar code then code else replacement)

def codesFrom : Nat → Bytes → List Nat
  | _, [] => []
  | skip + 1, _ :: rest => codesFrom skip rest
  | 0, byte :: rest =>
    match decode? (byte :: rest) with
    | some (code, width) => code :: codesFrom (width - 1) rest
    | none => replacement :: codesFrom 0 rest

/-- The code points of a byte string; a byte that starts none counts as the replacement
character. -/
def codes (bytes : Bytes) : List Nat := codesFrom 0 bytes

/-- The pieces of a byte string after `skip` bytes: its code points, and the bytes that start
none. -/
def piecesFrom : Nat → Bytes → List Bytes
  | _, [] => []
  | skip + 1, _ :: rest => piecesFrom skip rest
  | 0, byte :: rest =>
    let width := ((decode? (byte :: rest)).map (·.2)).getD 1
    (byte :: rest).take width :: piecesFrom (width - 1) rest

def pieces (bytes : Bytes) : List Bytes := piecesFrom 0 bytes

def validFrom : Nat → Bytes → Bool
  | _, [] => true
  | skip + 1, _ :: rest => validFrom skip rest
  | 0, byte :: rest =>
    match decode? (byte :: rest) with
    | some (_, width) => validFrom (width - 1) rest
    | none => false

def valid (bytes : Bytes) : Bool := validFrom 0 bytes

def malformedFrom? : Nat → Bytes → Option Bytes
  | _, [] => none
  | skip + 1, _ :: rest => malformedFrom? skip rest
  | 0, byte :: rest =>
    match decode? (byte :: rest) with
    | some (_, width) => malformedFrom? (width - 1) rest
    | none => some (byte :: rest)

end Rematch.Utf8
