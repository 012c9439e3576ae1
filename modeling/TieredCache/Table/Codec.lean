/-
# Codecs

The codec a converting table runs on each row: the built-in widening of bf16 elements to
f32, or the one the caller registered.
-/

import TieredCache.Math.ByteOrder
import TieredCache.Math.Memory
import TieredCache.Table.Config

namespace TieredCache

open Math

/-- `bf16_bits_to_f32_bits`. -/
def bf16BitsToF32Bits (bits : UInt16) : UInt32 := bits.toUInt32 <<< 16

/-- Widening keeps the bits as the high half. -/
theorem toNat_bf16BitsToF32Bits (bits : UInt16) :
    (bf16BitsToF32Bits bits).toNat = 256 ^ 2 * bits.toNat := by
  have hlt := bits.toNat_lt
  rw [bf16BitsToF32Bits, UInt32.toNat_shiftLeft, UInt16.toNat_toUInt32, Nat.shiftLeft_eq]
  show bits.toNat * 65536 % 4294967296 = 65536 * bits.toNat
  omega

namespace Bf16ToF32Codec

/-- The element whose two bytes these are, widened and stored. -/
def widen (order : ByteOrder) (b₀ b₁ : UInt8) : List UInt8 :=
  order.store 4 (bf16BitsToF32Bits (UInt16.ofNat (order.load [b₀, b₁]))).toNat

/-- `Bf16ToF32Codec::convert`, into a destination of this size. -/
def convert (order : ByteOrder) (destinationSize : ℕ) (source : List UInt8) :
    Option (List UInt8) :=
  if destinationSize ≠ source.length * 2 ∨ source.length % 2 ≠ 0 then none
  else
    some ((List.range (source.length / 2)).flatMap fun i =>
      widen order (source.getD (2 * i) 0) (source.getD (2 * i + 1) 0))

/-- A widened element keeps its two bytes, next to two zero bytes on the low side. -/
theorem widen_eq (order : ByteOrder) (b₀ b₁ : UInt8) :
    widen order b₀ b₁ =
      match order with
      | .little => [0, 0, b₀, b₁]
      | .big => [b₀, b₁, 0, 0] := by
  have hlow : ∀ lo hi : UInt8, ByteOrder.lowBytes 4
      (256 ^ 2 * (UInt16.ofNat (ByteOrder.ofLowBytes [lo, hi])).toNat) = [0, 0, lo, hi] := by
    intro lo hi
    have hlo := lo.toNat_lt
    have hhi := hi.toNat_lt
    rw [ByteOrder.lowBytes_shift 2 2]
    have hpair : ByteOrder.ofLowBytes [lo, hi] = lo.toNat + 256 * hi.toNat := by
      simp [ByteOrder.ofLowBytes, Nat.ofDigits_cons]
    have hword : (UInt16.ofNat (lo.toNat + 256 * hi.toNat)).toNat = lo.toNat + 256 * hi.toNat :=
      UInt16.toNat_ofNat_of_lt' (by show _ < 65536; omega)
    have hfirst : UInt8.ofNat (lo.toNat + 256 * hi.toNat) = lo := by
      apply UInt8.toNat_inj.mp
      rw [UInt8.toNat_ofNat']
      omega
    have hsecond : (lo.toNat + 256 * hi.toNat) / 256 = hi.toNat := by omega
    rw [hpair, hword]
    simp [ByteOrder.lowBytes, hfirst, hsecond]
  unfold widen
  rw [toNat_bf16BitsToF32Bits]
  cases order with
  | little => exact hlow b₀ b₁
  | big =>
      rw [ByteOrder.store, ByteOrder.load]
      exact congrArg List.reverse (hlow b₁ b₀)

end Bf16ToF32Codec

/-- The codec `create` selects: the built-in one, the caller's, or none. -/
def TableConfig.activeCodec (cfg : TableConfig) (order : ByteOrder) : Option Codec :=
  match cfg.representation with
  | .identity => none
  | .bf16ToF32 => some (Bf16ToF32Codec.convert order cfg.outputRowBytes.toNat)
  | .custom => cfg.codec

end TieredCache
