/-!
The frame: what compiled closures read and write of the scheduler. Each field has eight bytes at a
fixed distance from the begin of the frame.
-/

namespace Rematch.Native.Frame

def input : Int := 0

def length : Int := 8

def offset : Int := 16

def conditions : Int := 24

def flags : Int := 32

def slots : Int := 40

def captures : Int := 48

def visited : Int := 56

def out : Int := 64

def outEnd : Int := 72

def visitedSize : Int := 80

def overflow : Int := 88

def visitId : Int := 96

def lastVisitId : Int := 104

def size : Nat := 112

end Rematch.Native.Frame
