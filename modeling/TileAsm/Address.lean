/-!
# Addresses

An address is a 16-bit offset into the image. Two bytes hold it, the high one first.
-/

namespace TileAsm.Address

/-- The two bytes of an address, the high one first. -/
def toBytes (a : UInt16) : List UInt8 := [UInt8.ofNat (a.toNat / 256), UInt8.ofNat a.toNat]

/-- The address that two bytes hold. -/
def ofBytes (high low : UInt8) : UInt16 := UInt16.ofNat (high.toNat * 256 + low.toNat)

@[simp] theorem length_toBytes (a : UInt16) : (toBytes a).length = 2 := rfl

/-- The two bytes of an address hold it. -/
theorem ofBytes_toBytes (a : UInt16) :
    ofBytes (UInt8.ofNat (a.toNat / 256)) (UInt8.ofNat a.toNat) = a := by
  apply UInt16.toNat_inj.1
  have := a.toNat_lt
  simp only [ofBytes, UInt16.toNat_ofNat', UInt8.toNat_ofNat']
  omega

/-- Every two bytes are those of the address that they hold. -/
theorem toBytes_ofBytes (high low : UInt8) : toBytes (ofBytes high low) = [high, low] := by
  have hhigh := high.toNat_lt
  have hlow := low.toNat_lt
  have h : (ofBytes high low).toNat = high.toNat * 256 + low.toNat := by
    simp only [ofBytes, UInt16.toNat_ofNat']
    omega
  simp only [toBytes, h, List.cons.injEq, and_true]
  constructor <;> apply UInt8.toNat_inj.1 <;> simp only [UInt8.toNat_ofNat'] <;> omega

end TileAsm.Address
