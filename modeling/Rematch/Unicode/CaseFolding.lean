import Rematch.Unicode.Span

/-!
Simple case folding (version 17.0). Code points that differ only in case form an orbit; the orbit
of any other code point is the code point alone. `nextInOrbit` steps through an orbit in ascending
order and wraps around.
-/

namespace Rematch.Unicode.CaseFolding

/-- The orbits of two code points, packed as spans from the lower to the higher member, which are in
the order of the lower ones. -/
private def pairTable : List Nat := [
  0x1981C00C08901C00C0851C00C0859C5C00C0831C00C08971C00C08509EEF7B79F101118A631111121118621118A5211,
  0x11112B830BA201111B96011B950B950129970B920B93011B950B9709C10BA30BA1011AC309AB9810BA30BA50A820BA6,
  0x10111111BB2011BB2211BB2011BB10BB101111BB301312F095111862111875131118A23111877AD8D3012AD8D00AD8F,
  0x178101298509870111831AD8B70AD8B40AD8B6919AAD9749AAD9329AADC709AACD009AAD8439AAD840ACFE709AAD814,
  0x1ACFF593ACFC749AAD8349AACD2A59AACA509AACA2BA1111314A820A828119E46C61C50C58119801F70F709E9830C01,
  0x1C00C01C00C03C01C00C0814C00C01C00C01C00C049E8E3B6909011189237412159A009A08960C0811C0810C0871C00,
  0x1C02C00C0851C00C083E013111895911118B119701118521118D62E00E08C4DD919E9C009E9C08C419E9C059E9C02DF,
  0x1800DF808D12DF800DF80819AC099BFA0099BFA0899609085CAA31BD798D8843FBC6A098D8F09E11118D631118B0931,
  0x1118D61900908690900908492900908690900908690900908493901908290900908690992099209A68309C4810A8081,
  0x109E08109F681290090869090090869090090869090090191979194900909690090379591CF6B4D5A00A0896A319CE2,
  0x1B20B28B0BCE0E00E08D6E016111116121921118E09011141FCD95111833111897A3111894A871118531118B5921112,
  0x1111834141111E011891929EC00111864111211186B21D9C971A8B3C00C08B0AB85D00D08C6A90D00D08C2AB4C70C78,
  0x1911C70C78951C70C7851C70C7BBD298009808E1AB5C00C08A4DCF2C00C08B6DAE80C00C08B6980B30B38A7FD987C20,
  0x1C28C0]

def largeOrbits : List (List Nat) := [
  [0x4B, 0x6B, 0x212A],
  [0x53, 0x73, 0x17F],
  [0xB5, 0x39C, 0x3BC],
  [0xC5, 0xE5, 0x212B],
  [0x1C4, 0x1C5, 0x1C6],
  [0x1C7, 0x1C8, 0x1C9],
  [0x1CA, 0x1CB, 0x1CC],
  [0x1F1, 0x1F2, 0x1F3],
  [0x345, 0x399, 0x3B9, 0x1FBE],
  [0x392, 0x3B2, 0x3D0],
  [0x395, 0x3B5, 0x3F5],
  [0x398, 0x3B8, 0x3D1, 0x3F4],
  [0x39A, 0x3BA, 0x3F0],
  [0x3A0, 0x3C0, 0x3D6],
  [0x3A1, 0x3C1, 0x3F1],
  [0x3A3, 0x3C2, 0x3C3],
  [0x3A6, 0x3C6, 0x3D5],
  [0x3A9, 0x3C9, 0x2126],
  [0x412, 0x432, 0x1C80],
  [0x414, 0x434, 0x1C81],
  [0x41E, 0x43E, 0x1C82],
  [0x421, 0x441, 0x1C83],
  [0x422, 0x442, 0x1C84, 0x1C85],
  [0x42A, 0x44A, 0x1C86],
  [0x462, 0x463, 0x1C87],
  [0x1C88, 0xA64A, 0xA64B],
  [0x1E60, 0x1E61, 0x1E9B]]

def pairOrbits : List (List Nat) :=
  (Span.unpackWith (·.lo + 1) pairTable).map fun pair => [pair.lo, pair.hi]

def orbits : List (List Nat) := largeOrbits ++ pairOrbits

def leastFolded : Nat := 0x41

def greatestFolded : Nat := 0x1E943

def orbitOf (code : Nat) : List Nat :=
  if leastFolded ≤ code ∧ code ≤ greatestFolded then
    (orbits.find? (·.contains code)).getD [code]
  else [code]

def nextInOrbit (code : Nat) : Nat :=
  let orbit := orbitOf code
  (orbit.find? (code < ·)).getD (orbit.headD code)

def leastInOrbit (code : Nat) : Nat := (orbitOf code).headD code

end Rematch.Unicode.CaseFolding
