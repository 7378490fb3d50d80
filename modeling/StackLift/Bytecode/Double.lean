/-!
Double-precision numbers as their 64 bits, with the comparison of the numbers
they stand for: the two zeros are equal, and a NaN equals nothing.
-/

namespace StackLift

structure Double where
  bits : UInt64
deriving DecidableEq

namespace Double

/-- All bits but the sign. -/
def magnitude (x : Double) : UInt64 := x.bits &&& 0x7fffffffffffffff

def isNaN (x : Double) : Bool := 0x7ff0000000000000 < x.magnitude

def isZero (x : Double) : Bool := x.magnitude == 0

def numEq (x y : Double) : Bool :=
  !x.isNaN && !y.isNaN && (x.bits == y.bits || (x.isZero && y.isZero))

end Double

end StackLift
