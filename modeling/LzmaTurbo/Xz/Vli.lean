import LzmaTurbo.Errors
import Mathlib.Data.Nat.Bitwise
import Mathlib.Data.UInt

/-!
# Variable-length integers

Seven bits a byte, little end first, the high bit set on every byte but the last: at most
nine bytes, so at most 63 bits.
-/
namespace LzmaTurbo.Xz

namespace Vli

/-- `VLI_MAX_BYTES`. -/
def vliMaxBytes : ℕ := 9
/-- `VLI_MAX`. -/
def vliMax : ℕ := 0x7FFFFFFFFFFFFFFF

/-- The loop of `decode`, at byte `i`. -/
def decodeLoop (i value : ℕ) : List UInt8 → Except XzErrorKind (ℕ × ℕ)
  | [] => if vliMaxBytes ≤ i then .error .badVli else .error .truncatedVli
  | b :: buf =>
      if vliMaxBytes ≤ i then .error .badVli
      else if b = 0 then .error .badVli
      else
        let value := value ||| (b.toNat &&& 0x7F) <<< (i * 7)
        if b &&& 0x80 = 0 then
          if vliMax < value then .error .badVli else .ok (value, i + 1)
        else decodeLoop (i + 1) value buf

/-- The value at the front of the buffer and how many bytes it uses. -/
def decode : List UInt8 → Except XzErrorKind (ℕ × ℕ)
  | [] => .error .truncatedVli
  | first :: buf =>
      if first &&& 0x80 = 0 then .ok (first.toNat &&& 0x7F, 1)
      else decodeLoop 1 (first.toNat &&& 0x7F) buf

/-- The loop of `encoded_len`. -/
def lenLoop (v : ℕ) : ℕ := if v = 0 then 0 else lenLoop (v >>> 7) + 1
  termination_by v
  decreasing_by
    rw [Nat.shiftRight_eq_div_pow]
    omega

/-- `encoded_len`. -/
def encodedLen (value : ℕ) : ℕ := lenLoop (value >>> 7) + 1

/-- The loop of `encode`: the bytes it writes. -/
def encodeLoop (v : ℕ) : List UInt8 :=
  if 0x80 ≤ v then (UInt8.ofNat v ||| 0x80) :: encodeLoop (v >>> 7) else [UInt8.ofNat v]
  termination_by v
  decreasing_by
    rw [Nat.shiftRight_eq_div_pow]
    omega

/-- `encode`, into the front of the buffer; nothing where it panics. -/
def encode (value : ℕ) (buf : List UInt8) : Option (List UInt8 × ℕ) :=
  let bytes := encodeLoop value
  if vliMax < value ∨ buf.length < bytes.length then none
  else some (bytes ++ buf.drop bytes.length, bytes.length)

end Vli
end LzmaTurbo.Xz
