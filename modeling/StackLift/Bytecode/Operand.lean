/-!
What an instruction may name: an entry of the constant pool, or a label of its
unit. Both are words of 32 bits, as they are stored.
-/

namespace StackLift

structure PoolIndex where
  val : UInt32
deriving DecidableEq

namespace PoolIndex

def toNat (i : PoolIndex) : Nat := i.val.toNat

def ofNat (n : Nat) : PoolIndex := ⟨UInt32.ofNat n⟩

theorem toNat_ofNat {n : Nat} (h : n < UInt32.size) : (ofNat n).toNat = n := by
  rw [toNat, ofNat, UInt32.toNat_ofNat']
  exact Nat.mod_eq_of_lt h

theorem ofNat_toNat (i : PoolIndex) : ofNat i.toNat = i := by
  simp [ofNat, toNat]

theorem toNat_inj {i j : PoolIndex} (same : i.toNat = j.toNat) : i = j := by
  rw [← i.ofNat_toNat, same, j.ofNat_toNat]

end PoolIndex

structure Label where
  val : UInt32
deriving DecidableEq

namespace Label

def toNat (l : Label) : Nat := l.val.toNat

def ofNat (n : Nat) : Label := ⟨UInt32.ofNat n⟩

theorem toNat_ofNat {n : Nat} (h : n < UInt32.size) : (ofNat n).toNat = n := by
  rw [toNat, ofNat, UInt32.toNat_ofNat']
  exact Nat.mod_eq_of_lt h

theorem toNat_inj {k l : Label} (same : k.toNat = l.toNat) : k = l := by
  cases k
  cases l
  exact congrArg Label.mk (UInt32.toNat.inj same)

def text (l : Label) : String := "L" ++ l.toNat.repr

end Label

end StackLift
