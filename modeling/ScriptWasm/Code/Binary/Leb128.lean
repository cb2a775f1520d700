/-!
Numbers of variable length: seven bits in each byte, the lowest first, and the highest bit of a byte
set when more bytes follow. Each number has the fewest bytes that hold it.
-/

namespace ScriptWasm

set_option autoImplicit false

abbrev Byte := UInt8

namespace Leb128

def unsigned (number : Nat) : List Byte :=
  if number < 128 then [UInt8.ofNat number]
  else UInt8.ofNat (number % 128 + 128) :: unsigned (number / 128)
termination_by number
decreasing_by omega

/-- The last byte also carries the sign, in its second highest bit. -/
def signed (number : Int) : List Byte :=
  if -64 ≤ number ∧ number < 64 then [UInt8.ofNat (number % 128).toNat]
  else UInt8.ofNat ((number % 128).toNat + 128) :: signed (number / 128)
termination_by number.natAbs
decreasing_by omega

end Leb128

end ScriptWasm
