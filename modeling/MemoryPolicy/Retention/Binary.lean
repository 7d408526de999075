import MemoryPolicy.Retention.Model
import Mathlib.Algebra.Group.Int.Defs
import Mathlib.Algebra.Group.Nat.Defs

/-! The binary floating-point formats as bit patterns, with the operations of the machine on all
values but NaN.  Every operation here gives the same positive NaN, so a negative one loses its sign
and is ranked first, not last as by the source.  The order `total_cmp` on `f64` is that of the bit
patterns as sign and magnitude. -/

namespace MemoryPolicy

structure Binary32 where
  bits : UInt32
deriving DecidableEq, Repr

structure Binary64 where
  bits : UInt64
deriving DecidableEq, Repr

namespace Binary64

def ofFloat (x : Float) : Binary64 := ⟨x.toBits⟩

def toFloat (x : Binary64) : Float := Float.ofBits x.bits

/-- The place of a bit pattern in the order: its magnitude, negated and shifted by one below the
sign bit. -/
def rank (x : Binary64) : Int :=
  if x.bits.toNat < 2 ^ 63 then x.bits.toNat else 2 ^ 63 - 1 - x.bits.toNat

theorem rank_injective {x y : Binary64} (h : x.rank = y.rank) : x = y := by
  have hx := x.bits.toNat_lt
  have hy := y.bits.toNat_lt
  have same : x.bits.toNat = y.bits.toNat := by
    unfold rank at h
    split at h <;> split at h <;> omega
  cases x
  cases y
  exact congrArg mk (UInt64.toNat_inj.mp same)

/-- `f64::total_cmp` -/
def totalCmp (x y : Binary64) : Ordering := compare x.rank y.rank

end Binary64

instance : F64Ops Binary64 where
  half := .ofFloat 0.5
  ofU64 n := .ofFloat n.toFloat
  div x y := .ofFloat (x.toFloat / y.toFloat)
  mul x y := .ofFloat (x.toFloat * y.toFloat)
  powf x y := .ofFloat (x.toFloat.pow y.toFloat)
  totalCmp := Binary64.totalCmp
  totalCmp_trans := inferInstanceAs <| Std.TransCmp (compareOn Binary64.rank)
  totalCmp_eq _ _ h := Binary64.rank_injective (compare_eq_iff_eq.mp h)

instance : F32Ops Binary32 Binary64 where
  one := ⟨(1.0 : Float32).toBits⟩
  toF64 x := .ofFloat (Float32.ofBits x.bits).toFloat

end MemoryPolicy
