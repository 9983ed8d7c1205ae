import Mathlib.Data.List.Sort
import StryiChain.Storage.Traits

/-!
# Difficulty (`difficulty.rs`, `difficulty/asert.rs`)

The parameters of the proof-of-work schedule, the ASERT target, and the two values a header is
compared with: the median time past and the threshold required above a parent.
-/

namespace StryiChain

/-- `MAX_FUTURE_BLOCK_TIME_SECS`. -/
def maxFutureBlockTimeSecs : UInt64 := 120

/-- `Display` of a `U256`: 64 upper-case hexadecimal digits. -/
def displayThreshold (threshold : HashThreshold) : String :=
  (hexEncode (beBytes 32 threshold.toNat)).toUpper

/-- `PowParams::validate` (`difficulty.rs:155-187`). -/
def PowParams.validate (params : PowParams) : Except StryiCoreError Unit := do
  failIf (params.targetSpacingSecs = 0)
    (.invalidDifficultyValue "target_spacing_secs must be positive")
  failIf (params.halfLifeSecs = 0) (.invalidDifficultyValue "half_life_secs must be positive")
  failIf (params.initialHashThreshold = 0)
    (.invalidDifficultyValue "initial_hash_threshold must be positive")
  failIf (params.maxHashThreshold = 0)
    (.invalidDifficultyValue "max_hash_threshold must be positive")
  failIf (params.maxHashThreshold < params.initialHashThreshold)
    (.invalidDifficultyValue "initial_hash_threshold must not exceed max_hash_threshold")

/-- `DifficultyCalc` (`difficulty.rs:208-217`): it is only built from validated parameters. -/
structure DifficultyCalc where
  params : PowParams
  valid : params.validate = .ok ()

/-- The fixed-point factor of a fraction of a half-life: a cubic approximation of `2^(f/65536)`
in units of `2^-16`. -/
def asertFactor (fraction : Nat) : Nat :=
  65536 + (195766423245049 * fraction + 971821376 * fraction * fraction +
    5127 * fraction * fraction * fraction + 2 ^ 47) / 2 ^ 48

/-- `asert_upper` (`asert.rs:8-53`). The signed division truncates, the split into whole
half-lives and a fraction is Euclidean. -/
def asertUpper (initial : HashThreshold) (drift : Int) (halfLifeSecs : UInt32)
    (cap : HashThreshold) : Option HashThreshold :=
  if initial = 0 ∨ cap = 0 ∨ cap < initial ∨ halfLifeSecs = 0 then
    none
  else
    let halfLife : Int := halfLifeSecs.toNat
    let cutoff := 256 * halfLife
    if cutoff ≤ drift then
      some cap
    else if drift ≤ -cutoff then
      some 1
    else
      let exponent := (drift * 65536).tdiv halfLife
      let wholeHalfLives := exponent / 65536
      let fraction := (exponent % 65536).toNat
      let scaledTarget := initial.toNat * asertFactor fraction
      let target :=
        if 16 ≤ wholeHalfLives then
          scaledTarget * 2 ^ (wholeHalfLives - 16).toNat % 2 ^ 512
        else
          scaledTarget / 2 ^ (16 - wholeHalfLives).toNat
      if target = 0 then some 1
      else if cap.toNat < target then some cap
      else if target < 2 ^ 256 then some (BitVec.ofNat 256 target)
      else none

/-- The closing clamp of `asert_upper` keeps a target between one and the cap. -/
theorem clamped_ne_zero {cap target : HashThreshold} {scaled : Nat} (positive : cap ≠ 0)
    (clamped : (if scaled = 0 then some 1
      else if cap.toNat < scaled then some cap
      else if scaled < 2 ^ 256 then some (BitVec.ofNat 256 scaled)
      else none) = some target) : target ≠ 0 := by
  split_ifs at clamped with zero above fits
  · exact Option.some.inj clamped ▸ by decide
  · exact Option.some.inj clamped ▸ positive
  · rw [← Option.some.inj clamped, ne_eq, ← BitVec.toNat_inj, BitVec.toNat_ofNat,
      Nat.mod_eq_of_lt fits]
    exact zero

/-- The schedule never asks for the zero threshold, which is reserved for genesis. -/
theorem asertUpper_ne_zero {initial cap target : HashThreshold} {drift : Int}
    {halfLifeSecs : UInt32} (computed : asertUpper initial drift halfLifeSecs cap = some target) :
    target ≠ 0 := by
  unfold asertUpper at computed
  split at computed
  · cases computed
  rename_i valid
  have positive : cap ≠ 0 := fun zero => valid (.inr (.inl zero))
  dsimp only at computed
  split at computed
  · exact Option.some.inj computed ▸ positive
  split at computed
  · exact Option.some.inj computed ▸ by decide
  exact clamped_ne_zero positive computed

variable {S : Type} [BlockStorage S]

/-- `read_required_header` (`difficulty.rs:17-27`). -/
def readRequiredHeader (state : S) (hash : BlockHash) : Except StryiCoreError BlockHeader := do
  let header ← (getBlockHeaderByHash state hash).mapError (.storageError .block)
  okOr header (.consensusValidationFailed s!"block {hash} is missing from the branch view")

/-- `read_required_header_by_height` (`difficulty.rs:29-52`). -/
def readRequiredHeaderByHeight (state : S) (height : UInt64) :
    Except StryiCoreError (BlockHash × BlockHeader) := do
  let mapped ← (getBlockHashByHeight state height).mapError (.storageError .block)
  let hash ← okOr mapped
    (.consensusValidationFailed s!"block at height {height} is missing from the branch view")
  let header ← readRequiredHeader state hash
  failIf (header.height ≠ height)
    (.storageError .block
      (.corruption s!"block height does not match storage key {height}"))
  return (hash, header)

/-- The walk of `median_time_past` (`difficulty.rs:63-87`) with `room` more slots to fill: the
timestamps from `cursor` downwards, genesis last. -/
def collectTimestamps (state : S) : Nat → BlockHeader → Except StryiCoreError (List UInt64)
  | 0, _ => .ok []
  | room + 1, cursor => do
      verifyGenesisHeaderWorkShape cursor
      failIf (cursor.isGenesis = false ∧ cursor.height = 0)
        (.consensusValidationFailed "normal ancestor has height zero")
      if cursor.isGenesis ∨ room = 0 then
        return [cursor.timestamp]
      else
        let previous ← readRequiredHeader state cursor.previousBlockHash
        failIf (checkedAdd previous.height 1 ≠ some cursor.height)
          (.consensusValidationFailed "broken timestamp ancestry")
        return cursor.timestamp :: (← collectTimestamps state room previous)

/-- `median_time_past` (`difficulty.rs:55-91`): the upper median of up to eleven ancestors. -/
def medianTimePast (state : S) (parentHash : BlockHash) : Except StryiCoreError UInt64 := do
  let cursor ← readRequiredHeader state parentHash
  let timestamps ← collectTimestamps state 11 cursor
  return (timestamps.insertionSort (· ≤ ·)).getD (timestamps.length / 2) 0

namespace DifficultyCalc

/-- `DifficultyCalc::new`. -/
def new (params : PowParams) : Except StryiCoreError DifficultyCalc :=
  match h : params.validate with
  | .ok () => .ok ⟨params, h⟩
  | .error error => .error error

/-- `DifficultyCalc::verify_anchor` (`difficulty.rs:219-247`). -/
def verifyAnchor (difficulty : DifficultyCalc) (anchor : BlockHeader) : Except StryiCoreError Unit := do
  verifyGenesisHeaderWorkShape anchor
  failIf anchor.isGenesis
    (.consensusValidationFailed "anchor block cannot have genesis shape")
  failIf (anchor.height ≠ 1)
    (.consensusValidationFailed s!"anchor block height is {anchor.height}, expected 1")
  failIf (anchor.previousBlockHash ≠ .empty)
    (.consensusValidationFailed "anchor block must have empty previous block hash")
  failIf (anchor.hashThreshold ≠ difficulty.params.initialHashThreshold)
    (.consensusValidationFailed "anchor block must use initial hash threshold")

/-- The drift of a parent from the schedule that starts at the anchor. -/
def drift (difficulty : DifficultyCalc) (parent anchor : BlockHeader) : Int :=
  ((parent.timestamp.toNat : Int) - anchor.timestamp.toNat) -
    difficulty.params.targetSpacingSecs.toNat * ((parent.height.toNat : Int) - 1)

/-- The required threshold above a parent of height two or more (`difficulty.rs:294-321`). -/
def scheduledThreshold (difficulty : DifficultyCalc) (state : S) (parent : BlockHeader) :
    Except StryiCoreError HashThreshold := do
  let (anchorHash, anchor) ← readRequiredHeaderByHeight state 1
  difficulty.verifyAnchor anchor
  failIf (parent.height = 2 ∧ parent.previousBlockHash ≠ anchorHash)
    (.consensusValidationFailed
      s!"parent at height 2 previous block hash {parent.previousBlockHash} does not match anchor {anchorHash}")
  okOr (asertUpper difficulty.params.initialHashThreshold (difficulty.drift parent anchor)
      difficulty.params.halfLifeSecs difficulty.params.maxHashThreshold)
    (.consensusDifficultyAdjustmentFailed "ASERT calculation returned None")

/-- `DifficultyCalc::next_hash_threshold` (`difficulty.rs:255-322`). -/
def nextHashThreshold (difficulty : DifficultyCalc) (state : S) (parentHash : BlockHash) :
    Except StryiCoreError HashThreshold := do
  let parent ← readRequiredHeader state parentHash
  verifyGenesisHeaderWorkShape parent
  if parent.isGenesis then
    return difficulty.params.initialHashThreshold
  else
    failIf (parent.height = 0) (.consensusValidationFailed "normal parent has height zero")
    let hashAtHeight ← (getBlockHashByHeight state parent.height).mapError (.storageError .block)
    if hashAtHeight ≠ some parentHash then
      let (mappedHash, _) ← readRequiredHeaderByHeight state parent.height
      .error (.consensusValidationFailed
        s!"branch height {parent.height} mapped to block {mappedHash} instead of parent {parentHash}")
    else if parent.height = 1 then
      difficulty.verifyAnchor parent
      return difficulty.params.initialHashThreshold
    else
      difficulty.scheduledThreshold state parent

/-- A header that is no anchor is a failed validation. -/
theorem errorsIn_verifyAnchor {p : StryiCoreError → Prop}
    (rejects : ∀ details, p (.consensusValidationFailed details)) (difficulty : DifficultyCalc)
    (anchor : BlockHeader) : ErrorsIn p (difficulty.verifyAnchor anchor) := by
  refine .bind (.failIf (rejects _)) ?_
  intro _ _
  refine .failIf_bind (rejects _) ?_
  intro _
  refine .failIf_bind (rejects _) ?_
  intro _
  refine .failIf_bind (rejects _) ?_
  intro _
  exact .failIf (rejects _)

theorem initial_ne_zero (difficulty : DifficultyCalc) :
    difficulty.params.initialHashThreshold ≠ 0 := by
  have valid := difficulty.valid
  simp only [PowParams.validate, bind_eq_ok, failIf_eq_ok] at valid
  obtain ⟨-, -, -, -, -, positive, -⟩ := valid
  exact positive

/-- What the header of a normal block must carry is positive. -/
theorem nextHashThreshold_ne_zero {difficulty : DifficultyCalc} {state : S} {parentHash : BlockHash}
    {threshold : HashThreshold}
    (computed : difficulty.nextHashThreshold state parentHash = .ok threshold) : threshold ≠ 0 := by
  rw [nextHashThreshold, bind_eq_ok] at computed
  obtain ⟨parent, -, computed⟩ := computed
  rw [bind_eq_ok] at computed
  obtain ⟨⟨⟩, -, computed⟩ := computed
  split at computed
  · rw [pure_eq_ok] at computed
    exact computed ▸ difficulty.initial_ne_zero
  · simp only [bind_eq_ok] at computed
    obtain ⟨⟨⟩, -, hashAtHeight, -, computed⟩ := computed
    split_ifs at computed with moved anchored
    · simp only [bind_eq_ok] at computed
      obtain ⟨_, -, computed⟩ := computed
      cases computed
    · rw [bind_eq_ok] at computed
      obtain ⟨⟨⟩, -, computed⟩ := computed
      rw [pure_eq_ok] at computed
      exact computed ▸ difficulty.initial_ne_zero
    · simp only [scheduledThreshold, bind_eq_ok, okOr_eq_ok] at computed
      obtain ⟨_, -, ⟨⟩, -, ⟨⟩, -, computed⟩ := computed
      exact asertUpper_ne_zero computed

end DifficultyCalc

end StryiChain
