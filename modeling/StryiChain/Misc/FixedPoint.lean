import Mathlib.Algebra.Order.Floor.Semifield
import Mathlib.Algebra.Order.Archimedean.Basic
import Mathlib.Data.Rat.Floor
import Mathlib.Tactic.Ring
import Mathlib.Tactic.Linarith

/-!
# Fixed-point arithmetic

Operations of a fixed width that fail when they would lose a bit, and numbers of the form
`m * 2^s`. A mantissa that depends on the fractional part of an exponent gives a monotone scale as
soon as it grows within one unit of the exponent and at most doubles over it.
-/

namespace StryiChain

/-- The result of an operation on signed integers of a width, when it does not overflow. -/
def signedOp (bits : Nat) (x : Int) : Option Int :=
  if -2 ^ (bits - 1) ≤ x ∧ x < 2 ^ (bits - 1) then some x else none

/-- The result of an operation on unsigned integers of a width, when it does not overflow. -/
def unsignedOp (bits x : Nat) : Option Nat := if x < 2 ^ bits then some x else none

/-- A left shift below the width that loses no bit. -/
def shiftLeftOp (bits x shift : Nat) : Option Nat :=
  if shift < bits then unsignedOp bits (x * 2 ^ shift) else none

/-- A right shift below the width. -/
def shiftRightOp (bits x shift : Nat) : Option Nat :=
  if shift < bits then some (x / 2 ^ shift) else none

theorem signedOp_eq {bits : Nat} {x : Int} (low : -2 ^ (bits - 1) ≤ x)
    (high : x < 2 ^ (bits - 1)) : signedOp bits x = some x := if_pos ⟨low, high⟩

theorem unsignedOp_eq {bits x : Nat} (fits : x < 2 ^ bits) : unsignedOp bits x = some x :=
  if_pos fits

theorem shiftLeftOp_eq {bits x shift : Nat} (below : shift < bits) (fits : x * 2 ^ shift < 2 ^ bits) :
    shiftLeftOp bits x shift = some (x * 2 ^ shift) := by
  rw [shiftLeftOp, if_pos below, unsignedOp_eq fits]

theorem shiftRightOp_eq {bits x shift : Nat} (below : shift < bits) :
    shiftRightOp bits x shift = some (x / 2 ^ shift) := if_pos below

/-- A left shift is exact. -/
theorem floor_mul_zpow_of_nonneg (n : Nat) {s : Int} (up : 0 ≤ s) :
    ⌊(n : ℚ) * 2 ^ s⌋₊ = n * 2 ^ s.toNat := by
  obtain ⟨k, rfl⟩ := Int.eq_ofNat_of_zero_le up
  have exact : (n : ℚ) * 2 ^ (k : Int) = ((n * 2 ^ k : Nat) : ℚ) := by
    rw [zpow_natCast]
    push_cast
    rfl
  rw [exact, Nat.floor_natCast, Int.toNat_natCast]

/-- A right shift rounds down. -/
theorem floor_mul_zpow_of_neg (n : Nat) {s : Int} (down : s ≤ 0) :
    ⌊(n : ℚ) * 2 ^ s⌋₊ = n / 2 ^ (-s).toNat := by
  obtain ⟨k, hk⟩ := Int.eq_ofNat_of_zero_le (Int.neg_nonneg.mpr down)
  have quotient : (n : ℚ) * 2 ^ s = (n : ℚ) / ((2 ^ k : Nat) : ℚ) := by
    rw [← neg_neg s, hk, zpow_neg, zpow_natCast, div_eq_mul_inv]
    push_cast
    rfl
  rw [quotient, Nat.floor_div_eq_div, hk, Int.toNat_natCast]

/-- The scale whose mantissa is given for the fractional part of the exponent, in units of
`1 / base`. -/
def scale (base : Nat) (mantissa : Nat → Nat) (e : Int) : ℚ :=
  mantissa (e % base).toNat * 2 ^ (e / base)

/-- The rule for a scale: it grows when its mantissa does, and at most doubles over one unit. -/
theorem scale_mono {base : Nat} {mantissa : Nat → Nat} (positive : 0 < base)
    (grows : ∀ f, f + 1 < base → mantissa f ≤ mantissa (f + 1))
    (doubles : mantissa (base - 1) ≤ 2 * mantissa 0) {e₁ e₂ : Int} (le : e₁ ≤ e₂) :
    scale base mantissa e₁ ≤ scale base mantissa e₂ := by
  refine monotone_int_of_le_succ (fun e => ?_) le
  have basePos : (0 : Int) < base := by exact_mod_cast positive
  have low := Int.emod_nonneg e basePos.ne'
  have high := Int.emod_lt_of_pos e basePos
  have split := Int.emod_add_mul_ediv e base
  have unit : (0 : ℚ) ≤ 2 ^ (e / (base : Int)) := zpow_nonneg (by norm_num) _
  rcases Int.lt_or_le (e % base + 1) base with inside | wrap
  · -- the next exponent is in the same unit
    have next : (e + 1) / base = e / base ∧ (e + 1) % base = e % base + 1 :=
      (Int.ediv_emod_unique basePos).mpr ⟨by omega, by omega, inside⟩
    have fraction : ((e + 1) % base).toNat = (e % base).toNat + 1 := by omega
    rw [scale, scale, fraction, next.1]
    refine mul_le_mul_of_nonneg_right ?_ unit
    exact_mod_cast grows _ (by omega)
  · -- the next exponent starts a new unit
    have next : (e + 1) / base = e / base + 1 ∧ (e + 1) % base = 0 := by
      refine (Int.ediv_emod_unique basePos).mpr ⟨?_, le_refl _, basePos⟩
      rw [Int.mul_add, Int.mul_one]
      omega
    have last : (e % base).toNat = base - 1 := by omega
    have double : (mantissa (base - 1) : ℚ) ≤ 2 * mantissa 0 := by exact_mod_cast doubles
    rw [scale, scale, next.1, next.2, last, Int.toNat_zero, zpow_add_one₀ (by norm_num)]
    calc (mantissa (base - 1) : ℚ) * 2 ^ (e / (base : Int))
        ≤ 2 * mantissa 0 * 2 ^ (e / (base : Int)) := mul_le_mul_of_nonneg_right double unit
      _ = mantissa 0 * (2 ^ (e / (base : Int)) * 2) := by ring

end StryiChain
