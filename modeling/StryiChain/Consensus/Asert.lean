import StryiChain.Consensus.Difficulty
import StryiChain.Misc.FixedPoint

/-!
# The ASERT target (`difficulty/asert.rs`)

The target of the source as a closed formula: `initial * 2^(e/65536)`, with the power of two read
off a fixed-point polynomial, rounded down and clamped between one and the cap. No operation of
the computation overflows its width, and the target grows with the drift and with the initial
target.
-/

namespace StryiChain

/-- The exponent of a drift, in units of `1/65536` of a half-life. -/
def asertExponent (drift : Int) (halfLifeSecs : UInt32) : Int :=
  (drift * 65536).tdiv halfLifeSecs.toNat

/-- The target of an exponent before it is clamped, over the rationals. -/
def asertTarget (initial : HashThreshold) (exponent : Int) : Nat :=
  ⌊((initial.toNat * asertFactor (exponent % 65536).toNat : Nat) : ℚ) *
    2 ^ (exponent / 65536 - 16)⌋₊

/-- A target between one and the cap. -/
def clampTarget (cap : HashThreshold) (target : Nat) : Nat := max 1 (min target cap.toNat)

/-- The factor with each `u128` operation in its order (`asert.rs:31-35`). -/
def asertFactorChecked (fraction : Nat) : Option Nat := do
  let linear ← unsignedOp 128 (195766423245049 * fraction)
  let square ← unsignedOp 128 (971821376 * fraction)
  let square ← unsignedOp 128 (square * fraction)
  let cube ← unsignedOp 128 (5127 * fraction)
  let cube ← unsignedOp 128 (cube * fraction)
  let cube ← unsignedOp 128 (cube * fraction)
  let sum ← unsignedOp 128 (linear + square)
  let sum ← unsignedOp 128 (sum + cube)
  let sum ← unsignedOp 128 (sum + 2 ^ 47)
  unsignedOp 128 (65536 + sum / 2 ^ 48)

/-- The scaled target, with each operation in its width (`asert.rs:28-44`). -/
def asertTargetChecked (initial : HashThreshold) (exponent : Int) : Option Nat := do
  let wholeHalfLives ← signedOp 128 (exponent / 65536)
  let fraction ← unsignedOp 128 (exponent % 65536).toNat
  let factor ← asertFactorChecked fraction
  let factor ← unsignedOp 64 factor
  let scaledTarget ← unsignedOp 512 (initial.toNat * factor)
  if 16 ≤ wholeHalfLives then do
    let shift ← signedOp 128 (wholeHalfLives - 16)
    let shift ← unsignedOp 32 shift.toNat
    shiftLeftOp 512 scaledTarget shift
  else do
    let shift ← signedOp 128 (16 - wholeHalfLives)
    let shift ← unsignedOp 32 shift.toNat
    shiftRightOp 512 scaledTarget shift

/-- `asert_upper` with each operation in its width: `none` where one would overflow. -/
def asertUpperChecked (initial : HashThreshold) (drift : Int) (halfLifeSecs : UInt32)
    (cap : HashThreshold) : Option (Option HashThreshold) :=
  if initial = 0 ∨ cap = 0 ∨ cap < initial ∨ halfLifeSecs = 0 then
    some none
  else do
    let halfLife : Int := halfLifeSecs.toNat
    let cutoff ← signedOp 128 (256 * halfLife)
    if cutoff ≤ drift then
      some (some cap)
    else do
      let lowest ← signedOp 128 (-cutoff)
      if drift ≤ lowest then
        some (some 1)
      else do
        let product ← signedOp 128 (drift * 65536)
        let exponent ← signedOp 128 (product.tdiv halfLife)
        let target ← asertTargetChecked initial exponent
        if target = 0 then some (some 1)
        else if cap.toNat < target then some (some cap)
        else some (if target < 2 ^ 256 then some (BitVec.ofNat 256 target) else none)

section Factor

theorem asertFactor_mono : Monotone asertFactor := by
  intro f g le
  unfold asertFactor
  gcongr

theorem asertFactor_zero : asertFactor 0 = 65536 := by decide

/-- Over one half-life the factor at most doubles. -/
theorem asertFactor_lt {fraction : Nat} (inside : fraction < 65536) :
    asertFactor fraction < 2 ^ 17 :=
  Nat.lt_of_le_of_lt (asertFactor_mono (Nat.le_sub_one_of_lt inside)) (by decide)

theorem asertFactor_pos (fraction : Nat) : 2 ^ 16 ≤ asertFactor fraction :=
  Nat.le_trans (Nat.le_of_eq asertFactor_zero.symm) (asertFactor_mono (Nat.zero_le _))

theorem asertFactorChecked_eq {fraction : Nat} (inside : fraction < 65536) :
    asertFactorChecked fraction = some (asertFactor fraction) := by
  have top : fraction ≤ 65535 := Nat.le_sub_one_of_lt inside
  have linear : 195766423245049 * fraction ≤ 195766423245049 * 65535 := by gcongr
  have square : 971821376 * fraction * fraction ≤ 971821376 * 65535 * 65535 := by gcongr
  have plane : 5127 * fraction * fraction ≤ 5127 * 65535 * 65535 := by gcongr
  have cube : 5127 * fraction * fraction * fraction ≤ 5127 * 65535 * 65535 * 65535 := by gcongr
  have bound := asertFactor_lt inside
  unfold asertFactor at bound
  simp only [asertFactorChecked, Option.bind_eq_bind]
  rw [unsignedOp_eq (by omega), Option.bind_some, unsignedOp_eq (by omega), Option.bind_some,
    unsignedOp_eq (by omega), Option.bind_some, unsignedOp_eq (by omega), Option.bind_some,
    unsignedOp_eq (by omega), Option.bind_some, unsignedOp_eq (by omega), Option.bind_some,
    unsignedOp_eq (by omega), Option.bind_some, unsignedOp_eq (by omega), Option.bind_some,
    unsignedOp_eq (by omega), Option.bind_some, unsignedOp_eq (by omega)]
  rfl

end Factor

section Exponent

variable {drift : Int} {halfLifeSecs : UInt32}

theorem asertExponent_mono (positive : 0 < halfLifeSecs.toNat) {d₁ d₂ : Int} (le : d₁ ≤ d₂) :
    asertExponent d₁ halfLifeSecs ≤ asertExponent d₂ halfLifeSecs := by
  exact Int.tdiv_le_tdiv (by exact_mod_cast positive) (Int.mul_le_mul_of_nonneg_right le (by decide))

theorem asertExponent_neg (drift : Int) (halfLifeSecs : UInt32) :
    asertExponent (-drift) halfLifeSecs = -asertExponent drift halfLifeSecs := by
  rw [asertExponent, asertExponent, Int.neg_mul, Int.neg_tdiv]

/-- From the cutoff on, the exponent is at least 256 half-lives, and below it, less. -/
theorem le_asertExponent_iff (positive : 0 < halfLifeSecs.toNat) :
    2 ^ 24 ≤ asertExponent drift halfLifeSecs ↔ 256 * (halfLifeSecs.toNat : Int) ≤ drift := by
  have life : (0 : Int) < halfLifeSecs.toNat := by exact_mod_cast positive
  rcases Int.lt_or_le drift 0 with negative | nonneg
  · have below : asertExponent drift halfLifeSecs ≤ 0 := by
      have mono := asertExponent_mono positive negative.le
      simpa [asertExponent] using mono
    constructor
    · intro high
      omega
    · intro high
      omega
  · rw [asertExponent, Int.tdiv_eq_ediv_of_nonneg (by omega), Int.le_ediv_iff_mul_le life]
    omega

theorem asertExponent_le_iff (positive : 0 < halfLifeSecs.toNat) :
    asertExponent drift halfLifeSecs ≤ -2 ^ 24 ↔ drift ≤ -(256 * (halfLifeSecs.toNat : Int)) := by
  have mirrored := @le_asertExponent_iff (-drift) halfLifeSecs positive
  rw [asertExponent_neg] at mirrored
  constructor
  · intro low
    have := mirrored.mp (by omega)
    omega
  · intro low
    have := mirrored.mpr (by omega)
    omega

end Exponent

section Target

variable {initial : HashThreshold} {exponent : Int}

/-- Below the cutoff a left shift of at most 239 places stays inside 512 bits. -/
theorem scaledTarget_fits (initial : HashThreshold) (high : exponent < 2 ^ 24) :
    initial.toNat * asertFactor (exponent % 65536).toNat * 2 ^ (exponent / 65536 - 16).toNat <
      2 ^ 512 := by
  have fraction : (exponent % 65536).toNat < 65536 := by omega
  have shift : (exponent / 65536 - 16).toNat ≤ 239 := by omega
  have scaled : initial.toNat * asertFactor (exponent % 65536).toNat < 2 ^ 256 * 2 ^ 17 :=
    Nat.mul_lt_mul'' initial.isLt (asertFactor_lt fraction)
  calc initial.toNat * asertFactor (exponent % 65536).toNat * 2 ^ (exponent / 65536 - 16).toNat
      < 2 ^ 256 * 2 ^ 17 * 2 ^ 239 := by
        refine Nat.mul_lt_mul_of_lt_of_le scaled ?_ (Nat.two_pow_pos _)
        exact Nat.pow_le_pow_right (by decide) shift
    _ = 2 ^ 256 * 2 ^ 256 := by rw [Nat.mul_assoc, ← Nat.pow_add]
    _ = 2 ^ 512 := by rw [show (512 : Nat) = 256 + 256 from rfl, Nat.pow_add]

/-- Between the cutoffs the shifts compute the target exactly. -/
theorem asertTarget_eq (initial : HashThreshold) (high : exponent < 2 ^ 24) :
    (if 16 ≤ exponent / 65536 then
        initial.toNat * asertFactor (exponent % 65536).toNat *
          2 ^ (exponent / 65536 - 16).toNat % 2 ^ 512
      else
        initial.toNat * asertFactor (exponent % 65536).toNat /
          2 ^ (16 - exponent / 65536).toNat) = asertTarget initial exponent := by
  by_cases up : 16 ≤ exponent / 65536
  · rw [if_pos up, Nat.mod_eq_of_lt (scaledTarget_fits initial high), asertTarget,
      floor_mul_zpow_of_nonneg _ (by omega)]
  · rw [if_neg up, asertTarget, floor_mul_zpow_of_neg _ (by omega), Int.neg_sub]

/-- Between the cutoffs every operation fits its width. -/
theorem asertTargetChecked_eq (initial : HashThreshold) (low : -2 ^ 24 < exponent)
    (high : exponent < 2 ^ 24) :
    asertTargetChecked initial exponent = some (asertTarget initial exponent) := by
  have fraction : (exponent % 65536).toNat < 65536 := by omega
  have factor := asertFactor_lt fraction
  have scaled : initial.toNat * asertFactor (exponent % 65536).toNat < 2 ^ 256 * 2 ^ 17 :=
    Nat.mul_lt_mul'' initial.isLt factor
  rw [← asertTarget_eq initial high]
  simp only [asertTargetChecked, Option.bind_eq_bind]
  rw [signedOp_eq (by omega) (by omega), Option.bind_some, unsignedOp_eq (by omega),
    Option.bind_some, asertFactorChecked_eq fraction, Option.bind_some, unsignedOp_eq (by omega),
    Option.bind_some, unsignedOp_eq (by omega), Option.bind_some]
  by_cases up : 16 ≤ exponent / 65536
  · have room := scaledTarget_fits initial high
    rw [if_pos up, if_pos up, signedOp_eq (by omega) (by omega), Option.bind_some,
      unsignedOp_eq (by omega), Option.bind_some, shiftLeftOp_eq (by omega) room,
      Nat.mod_eq_of_lt room]
  · rw [if_neg up, if_neg up, signedOp_eq (by omega) (by omega), Option.bind_some,
      unsignedOp_eq (by omega), Option.bind_some, shiftRightOp_eq (by omega)]

/-- A target below one is raised, one above the cap is cut, and the rest is kept. -/
theorem clampTarget_cases {cap : HashThreshold} (positive : 0 < cap.toNat) (target : Nat) :
    ∃ t : HashThreshold, (if target = 0 then some 1
      else if cap.toNat < target then some cap
      else if target < 2 ^ 256 then some (BitVec.ofNat 256 target) else none) = some t ∧
      t.toNat = clampTarget cap target := by
  have bound := cap.isLt
  unfold clampTarget
  by_cases zero : target = 0
  · exact ⟨1, if_pos zero, by rw [zero, Nat.zero_min]; decide⟩
  · rw [if_neg zero]
    by_cases above : cap.toNat < target
    · exact ⟨cap, if_pos above, by omega⟩
    · refine ⟨BitVec.ofNat 256 target, ?_, ?_⟩
      · rw [if_neg above, if_pos (by omega)]
      · rw [BitVec.toNat_ofNat, Nat.mod_eq_of_lt (by omega)]
        omega

/-- From the upper cutoff on, every positive target is above every cap. -/
theorem asertTarget_high (positive : 0 < initial.toNat) (high : 2 ^ 24 ≤ exponent) :
    2 ^ 256 ≤ asertTarget initial exponent := by
  have factor := asertFactor_pos (exponent % 65536).toNat
  have shift : 240 ≤ (exponent / 65536 - 16).toNat := by omega
  rw [asertTarget, floor_mul_zpow_of_nonneg _ (by omega)]
  calc 2 ^ 256 = 1 * 2 ^ 16 * 2 ^ 240 := by rw [Nat.one_mul, show 256 = 16 + 240 from rfl, Nat.pow_add]
    _ ≤ initial.toNat * asertFactor (exponent % 65536).toNat *
          2 ^ (exponent / 65536 - 16).toNat := by
        refine Nat.mul_le_mul (Nat.mul_le_mul positive factor) ?_
        exact Nat.pow_le_pow_right (by decide) shift

/-- From the lower cutoff on, every target is below one. -/
theorem asertTarget_low (initial : HashThreshold) (low : exponent ≤ -2 ^ 24) :
    asertTarget initial exponent = 0 := by
  have fraction : (exponent % 65536).toNat < 65536 := by omega
  rw [asertTarget, floor_mul_zpow_of_neg _ (by omega), Nat.div_eq_zero_iff]
  right
  by_cases edge : exponent = -2 ^ 24
  · -- exactly 256 half-lives: the factor is a power of two
    have shift : (-(exponent / 65536 - 16)).toNat = 256 + 16 := by omega
    have unit : (exponent % 65536).toNat = 0 := by omega
    rw [shift, unit, asertFactor_zero, Nat.pow_add]
    exact Nat.mul_lt_mul_of_pos_right initial.isLt (by decide)
  · have shift : (-(exponent / 65536 - 16)).toNat =
        256 + ((-(exponent / 65536 - 16)).toNat - 256) := by omega
    calc initial.toNat * asertFactor (exponent % 65536).toNat
        < 2 ^ 256 * 2 ^ 17 := Nat.mul_lt_mul'' initial.isLt (asertFactor_lt fraction)
      _ ≤ 2 ^ (-(exponent / 65536 - 16)).toNat := by
        rw [shift, Nat.pow_add]
        exact Nat.mul_le_mul_left _ (Nat.pow_le_pow_right (by decide) (by omega))

end Target

section Upper

variable {initial cap : HashThreshold} {drift : Int} {halfLifeSecs : UInt32}

/-- The parameters that `PowParams::validate` lets through. -/
theorem asert_guard (positive : 0 < initial) (le : initial ≤ cap) (life : 0 < halfLifeSecs) :
    ¬ (initial = 0 ∨ cap = 0 ∨ cap < initial ∨ halfLifeSecs = 0) := by
  intro invalid
  rcases invalid with zero | zero | above | zero
  · rw [zero] at positive
    exact absurd positive (by decide)
  · rw [zero] at le
    exact absurd (Nat.lt_of_lt_of_le positive le) (by decide)
  · exact absurd (Nat.lt_of_lt_of_le above le) (Nat.lt_irrefl _)
  · rw [zero] at life
    exact absurd life (by decide)

theorem asert_valid (guard : ¬ (initial = 0 ∨ cap = 0 ∨ cap < initial ∨ halfLifeSecs = 0)) :
    0 < initial ∧ initial ≤ cap ∧ 0 < halfLifeSecs := by
  simp only [not_or, BitVec.not_lt] at guard
  obtain ⟨initialPos, -, le, lifePos⟩ := guard
  refine ⟨?_, le, ?_⟩
  · rw [BitVec.lt_def]
    exact Nat.pos_iff_ne_zero.mpr fun zero => initialPos (BitVec.eq_of_toNat_eq zero)
  · rw [UInt32.lt_iff_toNat_lt, UInt32.toNat_zero, Nat.pos_iff_ne_zero]
    exact fun zero => lifePos (UInt32.toNat_inj.mp zero)

theorem asertUpper_none (invalid : initial = 0 ∨ cap = 0 ∨ cap < initial ∨ halfLifeSecs = 0) :
    asertUpper initial drift halfLifeSecs cap = none := if_pos invalid

/-- The target is the clamped formula, between the cutoffs and beyond them. -/
theorem asertUpper_eq (positive : 0 < initial) (le : initial ≤ cap) (life : 0 < halfLifeSecs)
    (drift : Int) : ∃ t, asertUpper initial drift halfLifeSecs cap = some t ∧
      t.toNat = clampTarget cap (asertTarget initial (asertExponent drift halfLifeSecs)) := by
  have guard := asert_guard positive le life
  have life' : 0 < halfLifeSecs.toNat := UInt32.lt_iff_toNat_lt.mp life
  have initialPos : 0 < initial.toNat := positive
  have capPos : 0 < cap.toNat := Nat.lt_of_lt_of_le initialPos le
  have capBound := cap.isLt
  unfold asertUpper
  rw [if_neg guard]
  dsimp only
  by_cases saturated : 256 * (halfLifeSecs.toNat : Int) ≤ drift
  · have high := asertTarget_high initialPos ((le_asertExponent_iff life').mpr saturated)
    refine ⟨cap, if_pos saturated, ?_⟩
    unfold clampTarget
    omega
  rw [if_neg saturated]
  by_cases exhausted : drift ≤ -(256 * (halfLifeSecs.toNat : Int))
  · have low := asertTarget_low initial ((asertExponent_le_iff life').mpr exhausted)
    refine ⟨1, if_pos exhausted, ?_⟩
    rw [low, clampTarget, Nat.zero_min]
    decide
  rw [if_neg exhausted]
  have high : asertExponent drift halfLifeSecs < 2 ^ 24 := by
    by_contra above
    exact saturated ((le_asertExponent_iff life').mp (Int.not_lt.mp above))
  have target := asertTarget_eq initial high
  unfold asertExponent at target ⊢
  rw [target]
  exact clampTarget_cases capPos _

/-- No operation of `asert_upper` overflows, whatever its arguments are. -/
theorem asertUpperChecked_eq (initial cap : HashThreshold) (drift : Int)
    (halfLifeSecs : UInt32) :
    asertUpperChecked initial drift halfLifeSecs cap =
      some (asertUpper initial drift halfLifeSecs cap) := by
  have bound := halfLifeSecs.toNat_lt
  unfold asertUpperChecked asertUpper
  by_cases invalid : initial = 0 ∨ cap = 0 ∨ cap < initial ∨ halfLifeSecs = 0
  · rw [if_pos invalid, if_pos invalid]
  rw [if_neg invalid, if_neg invalid]
  have life : 0 < halfLifeSecs.toNat := by
    rw [Nat.pos_iff_ne_zero]
    exact fun zero => invalid (.inr (.inr (.inr (UInt32.toNat_inj.mp zero))))
  dsimp only
  rw [Option.bind_eq_bind, signedOp_eq (by omega) (by omega), Option.bind_some]
  by_cases saturated : 256 * (halfLifeSecs.toNat : Int) ≤ drift
  · rw [if_pos saturated, if_pos saturated]
  rw [if_neg saturated, if_neg saturated, Option.bind_eq_bind,
    signedOp_eq (by omega) (by omega), Option.bind_some]
  by_cases exhausted : drift ≤ -(256 * (halfLifeSecs.toNat : Int))
  · rw [if_pos exhausted, if_pos exhausted]
  have high : asertExponent drift halfLifeSecs < 2 ^ 24 := by
    by_contra above
    exact saturated ((le_asertExponent_iff life).mp (Int.not_lt.mp above))
  have low : -2 ^ 24 < asertExponent drift halfLifeSecs := by
    by_contra below
    exact exhausted ((asertExponent_le_iff life).mp (Int.not_lt.mp below))
  have target := asertTarget_eq initial high
  have checked := asertTargetChecked_eq initial low high
  unfold asertExponent at target checked high low
  rw [if_neg exhausted, if_neg exhausted, signedOp_eq (by omega) (by omega), Option.bind_some,
    signedOp_eq (by omega) (by omega), Option.bind_some, checked, target, Option.bind_some]
  split_ifs <;> rfl

end Upper

/-- A target grows with its exponent. -/
theorem asertTarget_mono (initial : HashThreshold) {e₁ e₂ : Int} (le : e₁ ≤ e₂) :
    asertTarget initial e₁ ≤ asertTarget initial e₂ := by
  have mono : scale 65536 asertFactor e₁ ≤ scale 65536 asertFactor e₂ :=
    scale_mono (by decide) (fun f _ => asertFactor_mono (Nat.le_succ f)) (by decide) le
  have shift : ∀ e : Int, ((initial.toNat * asertFactor (e % 65536).toNat : Nat) : ℚ) *
      2 ^ (e / 65536 - 16) = initial.toNat * 2 ^ (-16 : Int) * scale 65536 asertFactor e := by
    intro e
    rw [scale, Int.sub_eq_add_neg, zpow_add₀ (by norm_num)]
    push_cast
    ring
  rw [asertTarget, asertTarget, shift, shift]
  refine Nat.floor_mono (mul_le_mul_of_nonneg_left mono ?_)
  exact mul_nonneg (Nat.cast_nonneg _) (zpow_nonneg (by norm_num) _)

/-- A target grows with the initial one. -/
theorem asertTarget_le {initial₁ initial₂ : HashThreshold} (le : initial₁ ≤ initial₂)
    (exponent : Int) : asertTarget initial₁ exponent ≤ asertTarget initial₂ exponent := by
  refine Nat.floor_mono (mul_le_mul_of_nonneg_right ?_ (zpow_nonneg (by norm_num) _))
  exact_mod_cast Nat.mul_le_mul_right _ le

theorem clampTarget_mono (cap : HashThreshold) : Monotone (clampTarget cap) := by
  intro x y le
  unfold clampTarget
  omega

namespace DifficultyCalc

variable {S : Type} [BlockStorage S]

/-- What `PowParams::validate` has checked. -/
theorem valid_params (difficulty : DifficultyCalc) :
    0 < difficulty.params.halfLifeSecs ∧ 0 < difficulty.params.initialHashThreshold ∧
      difficulty.params.initialHashThreshold ≤ difficulty.params.maxHashThreshold := by
  have valid := difficulty.valid
  simp only [PowParams.validate, bind_eq_ok, failIf_eq_ok] at valid
  obtain ⟨-, -, -, life, -, initialPos, -, capPos, le⟩ := valid
  have guard : ¬ (difficulty.params.initialHashThreshold = 0 ∨
      difficulty.params.maxHashThreshold = 0 ∨
      difficulty.params.maxHashThreshold < difficulty.params.initialHashThreshold ∨
      difficulty.params.halfLifeSecs = 0) := by
    simp only [not_or]
    exact ⟨initialPos, capPos, le, life⟩
  obtain ⟨positive, within, lifePos⟩ := asert_valid guard
  exact ⟨lifePos, positive, within⟩

/-- The schedule always has an answer. -/
theorem asertUpper_isSome (difficulty : DifficultyCalc) (drift : Int) :
    ∃ t, asertUpper difficulty.params.initialHashThreshold drift difficulty.params.halfLifeSecs
      difficulty.params.maxHashThreshold = some t := by
  obtain ⟨life, positive, le⟩ := difficulty.valid_params
  obtain ⟨t, computed, -⟩ := asertUpper_eq positive le life drift
  exact ⟨t, computed⟩

/-- The kind of error that says that no target was found. -/
def isAdjustmentFailure : StryiCoreError → Bool
  | .consensusDifficultyAdjustmentFailed _ => true
  | _ => false

/-- No error is a failure of the difficulty calculation. -/
abbrev Computes {α : Type} (x : Except StryiCoreError α) : Prop :=
  ErrorsIn (fun error => isAdjustmentFailure error = false) x

theorem computes_readRequiredHeader (state : S) (hash : BlockHash) :
    Computes (readRequiredHeader state hash) := by
  refine .bind (.mapError fun _ => rfl) ?_
  intro header _
  exact .okOr rfl

theorem computes_byHeight (state : S) (height : UInt64) :
    Computes (readRequiredHeaderByHeight state height) := by
  refine .bind (.mapError fun _ => rfl) ?_
  intro mapped _
  refine .okOr_bind rfl ?_
  intro hash _
  refine .bind (computes_readRequiredHeader state hash) ?_
  intro header _
  refine .failIf_bind rfl ?_
  intro _
  exact .ok _

/-- The required threshold of a parent can be missing for want of a header, never for want of a
target. -/
theorem computes_nextHashThreshold (difficulty : DifficultyCalc) (state : S)
    (parentHash : BlockHash) : Computes (difficulty.nextHashThreshold state parentHash) := by
  refine .bind (computes_readRequiredHeader state parentHash) ?_
  intro parent _
  refine .bind (.failIf rfl) ?_
  intro _ _
  split
  · exact .ok _
  refine .failIf_bind rfl ?_
  intro _
  refine .bind (.mapError fun _ => rfl) ?_
  intro hashAtHeight _
  split
  · refine .bind (computes_byHeight state parent.height) ?_
    intro _ _
    exact .error rfl
  split
  · refine .bind (difficulty.errorsIn_verifyAnchor (fun _ => rfl) parent) ?_
    intro _ _
    exact .ok _
  refine .bind (computes_byHeight state 1) ?_
  intro anchor _
  refine .bind (difficulty.errorsIn_verifyAnchor (fun _ => rfl) anchor.2) ?_
  intro _ _
  refine .failIf_bind rfl ?_
  intro _
  obtain ⟨t, computed⟩ := difficulty.asertUpper_isSome (difficulty.drift parent anchor.2)
  rw [computed, okOr_some]
  exact .ok t

end DifficultyCalc

/-- ASERT is exact and total: for validated parameters and every drift it returns the clamped
formula, one and the cap beyond the cutoffs included, and no operation on the way overflows its
width; so the difficulty calculation of a chain never lacks a target. -/
theorem asert_exact :
    (∀ (initial cap : HashThreshold) (halfLifeSecs : UInt32) (drift : Int), 0 < initial →
      initial ≤ cap → 0 < halfLifeSecs →
      ∃ t, asertUpperChecked initial drift halfLifeSecs cap = some (some t) ∧
        asertUpper initial drift halfLifeSecs cap = some t ∧ 1 ≤ t.toNat ∧ t ≤ cap ∧
        t.toNat = clampTarget cap (asertTarget initial (asertExponent drift halfLifeSecs)) ∧
        (256 * (halfLifeSecs.toNat : Int) ≤ drift → t = cap) ∧
        (drift ≤ -(256 * (halfLifeSecs.toNat : Int)) → t = 1)) ∧
    ∀ {S : Type} [BlockStorage S] (difficulty : DifficultyCalc) (state : S)
      (parentHash : BlockHash), difficulty.nextHashThreshold state parentHash ≠
        .error (.consensusDifficultyAdjustmentFailed "ASERT calculation returned None") := by
  constructor
  case right =>
    intro S _ difficulty state parentHash failed
    exact absurd (difficulty.computes_nextHashThreshold state parentHash _ failed) (by decide)
  case left =>
    intro initial cap halfLifeSecs drift positive le life
    obtain ⟨t, computed, value⟩ := asertUpper_eq positive le life drift
    have capPos : 0 < cap.toNat := Nat.lt_of_lt_of_le positive le
    have life' : 0 < halfLifeSecs.toNat := UInt32.lt_iff_toNat_lt.mp life
    have clamped : clampTarget cap (asertTarget initial (asertExponent drift halfLifeSecs)) =
      max 1 (min (asertTarget initial (asertExponent drift halfLifeSecs)) cap.toNat) := rfl
    refine ⟨t, ?checked, computed, ?low, ?high, value, ?saturated, ?exhausted⟩
    case checked => rw [asertUpperChecked_eq, computed]
    case low => omega
    case high =>
      rw [BitVec.le_def]
      omega
    case saturated =>
      intro above
      have bound := cap.isLt
      have target := asertTarget_high positive ((le_asertExponent_iff life').mpr above)
      exact BitVec.eq_of_toNat_eq (by omega)
    case exhausted =>
      intro below
      have target := asertTarget_low initial ((asertExponent_le_iff life').mpr below)
      rw [target, clampTarget, Nat.zero_min] at value
      exact BitVec.eq_of_toNat_eq (value.trans (by decide))

/-- Half a half-life ahead of schedule, where a half-life is an hour. -/
theorem asert_exact_sample : ∃ t : HashThreshold,
    asertUpperChecked 1000000 (-1800) 3600 10000000 = some (some t) ∧ t = 707046 := by
  obtain ⟨t, checked, computed, -⟩ :=
    asert_exact.1 1000000 10000000 3600 (-1800) (by decide) (by decide) (by decide)
  refine ⟨t, checked, ?_⟩
  have value : asertUpper 1000000 (-1800) 3600 10000000 = some 707046 := by decide +kernel
  exact Option.some.inj (computed.symm.trans value)

/-- ASERT is monotone in the drift and in the initial target; a missing answer, for parameters
that are not valid, is below every answer. -/
theorem asert_monotone :
    (∀ (initial cap : HashThreshold) (halfLifeSecs : UInt32) (drift₁ drift₂ : Int),
      drift₁ ≤ drift₂ → asertUpper initial drift₁ halfLifeSecs cap ≤
        asertUpper initial drift₂ halfLifeSecs cap) ∧
    ∀ (initial₁ initial₂ cap : HashThreshold) (halfLifeSecs : UInt32) (drift : Int),
      initial₁ ≤ initial₂ → initial₂ ≤ cap → asertUpper initial₁ drift halfLifeSecs cap ≤
        asertUpper initial₂ drift halfLifeSecs cap := by
  constructor
  case left =>
    intro initial cap halfLifeSecs drift₁ drift₂ le
    by_cases invalid : initial = 0 ∨ cap = 0 ∨ cap < initial ∨ halfLifeSecs = 0
    · rw [asertUpper_none invalid]
      exact Option.none_le
    · obtain ⟨positive, within, life⟩ := asert_valid invalid
      obtain ⟨t₁, computed₁, value₁⟩ := asertUpper_eq positive within life drift₁
      obtain ⟨t₂, computed₂, value₂⟩ := asertUpper_eq positive within life drift₂
      have exponents := asertExponent_mono (UInt32.lt_iff_toNat_lt.mp life) le
      rw [computed₁, computed₂, Option.some_le_some, BitVec.le_def, value₁, value₂]
      exact clampTarget_mono cap (asertTarget_mono initial exponents)
  case right =>
    intro initial₁ initial₂ cap halfLifeSecs drift le within
    by_cases invalid : initial₁ = 0 ∨ cap = 0 ∨ cap < initial₁ ∨ halfLifeSecs = 0
    · rw [asertUpper_none invalid]
      exact Option.none_le
    · obtain ⟨positive, within₁, life⟩ := asert_valid invalid
      have positive₂ : 0 < initial₂ := Nat.lt_of_lt_of_le positive le
      obtain ⟨t₁, computed₁, value₁⟩ := asertUpper_eq positive within₁ life drift
      obtain ⟨t₂, computed₂, value₂⟩ := asertUpper_eq positive₂ within life drift
      rw [computed₁, computed₂, Option.some_le_some, BitVec.le_def, value₁, value₂]
      exact clampTarget_mono cap (asertTarget_le le _)

/-- Across a half-life boundary, one second apart. -/
theorem asert_monotone_sample :
    asertUpper 1000000 3599 3600 10000000 ≤ asertUpper 1000000 3600 3600 10000000 ∧
      asertUpper 999999 3600 3600 10000000 ≤ asertUpper 1000000 3600 3600 10000000 :=
  ⟨asert_monotone.1 1000000 10000000 3600 3599 3600 (by decide),
    asert_monotone.2 999999 1000000 10000000 3600 3600 (by decide) (by decide)⟩

end StryiChain
