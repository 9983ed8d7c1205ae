import StryiChain.Wallet.TxBuilder

/-!
# Generated transactions (`stryi_devkit/src/chaingen/txgen.rs:155-638`)

Transactions with several outputs whose values are drawn at random. The two generators differ in
their inputs and in the largest number of outputs; between them they share every line. What the
source draws it takes from a generator that is handed on from draw to draw.
-/

namespace StryiChain

/-- What the source asks of a random number generator (`rand`): a number of an inclusive range, and
so many elements of a slice, each taken once, or all of them when there are fewer. -/
class Rng (σ : Type) where
  randomRange : Nat → Nat → σ → Nat × σ
  randomRange_mem : ∀ {low high : Nat}, low ≤ high → ∀ rng,
    low ≤ (randomRange low high rng).1 ∧ (randomRange low high rng).1 ≤ high
  sample : {α : Type} → List α → Nat → σ → List α × σ
  sample_length : ∀ {α : Type} (pool : List α) (amount : Nat) rng,
    (sample pool amount rng).1.length = min amount pool.length
  sample_subperm : ∀ {α : Type} (pool : List α) (amount : Nat) rng,
    (sample pool amount rng).1.Subperm pool

/-- `UtxoInfo`, as far as it is spent. -/
structure UtxoInfo where
  outpoint : OutPoint
  value : UInt64
  deriving DecidableEq

/-- `TransactionGenerationParams`. -/
structure TransactionGenerationParams where
  minOutputValue : UInt64
  feePolicy : FeePolicy
  maxInputs : Nat
  maxOutputs : Nat

/-- `iter.sum::<u64>()`. -/
def sumU64 (checks : Bool) (values : List UInt64) : Except WalletError UInt64 :=
  values.foldlM (addU64 checks) 0

/-- `min_viable_output` (`txgen.rs:164-170`). -/
def minViableOutput (checks : Bool) (params : TransactionGenerationParams) :
    Except WalletError UInt64 := do
  let futureSpendCost ← params.feePolicy.estimateFee checks 1 1
  let baseMinimum ← addU64 checks futureSpendCost params.minOutputValue
  addU64 checks baseMinimum (baseMinimum / 2)

/-- The loop that looks for the largest number of outputs the inputs can pay for
(`txgen.rs:365-378`, `txgen.rs:517-530`), from the numbers that are left and the last that was
found. -/
def maxPossibleOutputs (checks : Bool) (feePolicy : FeePolicy) (numInputs : Nat)
    (totalInput minViable : UInt64) : List Nat → Nat → Except WalletError Nat
  | [], found => .ok found
  | numOutputs :: rest, found => do
      let fee ← feePolicy.estimateFee checks numInputs numOutputs
      if totalInput ≤ fee then
        return found
      else
        let available ← subU64 checks totalInput fee
        let needed ← mulU64 checks numOutputs minViable
        if needed ≤ available then
          maxPossibleOutputs checks feePolicy numInputs totalInput minViable rest numOutputs
        else
          return found

section Bounds

variable {checks : Bool} {feePolicy : FeePolicy} {params : TransactionGenerationParams}
  {numInputs : Nat} {totalInput minViable : UInt64}

theorem sumU64_eq {values : List UInt64} (fits : (values.map UInt64.toNat).sum < 2 ^ 64) :
    sumU64 checks values = .ok (UInt64.ofNat (values.map UInt64.toNat).sum) := by
  have run : ∀ (values : List UInt64) (n : Nat), n + (values.map UInt64.toNat).sum < 2 ^ 64 →
      values.foldlM (addU64 checks) (UInt64.ofNat n) =
        .ok (UInt64.ofNat (n + (values.map UInt64.toNat).sum)) := by
    intro values
    induction values with
    | nil =>
      intro n _
      rfl
    | cons value values ih =>
      intro n bound
      rw [List.map_cons, List.sum_cons] at bound ⊢
      have first := @addU64_ofNat checks n value.toNat (by omega)
      rw [UInt64.ofNat_toNat] at first
      rw [List.foldlM_cons, first, bind_ok, ih _ (by omega), Nat.add_assoc]
  have total := run values 0 (by omega)
  rw [Nat.zero_add] at total
  exact total

/-- The least value of an output, without a bound. -/
def TransactionGenerationParams.leastOutput (params : TransactionGenerationParams) : Nat :=
  let base := params.feePolicy.fee 1 1 + params.minOutputValue.toNat
  base + base / 2

/-- The sums and products that are computed for up to so many outputs fit in a `u64`. -/
structure DistributionFits (params : TransactionGenerationParams) (numInputs maxOutputs : Nat) :
    Prop where
  minimum : params.leastOutput < 2 ^ 64
  fees : ∀ m ≤ maxOutputs, params.feePolicy.fee numInputs m < 2 ^ 64
  minimums : ∀ m ≤ maxOutputs, m * params.leastOutput < 2 ^ 64

theorem minViableOutput_eq (fits : params.leastOutput < 2 ^ 64) :
    minViableOutput checks params = .ok (UInt64.ofNat params.leastOutput) := by
  rw [TransactionGenerationParams.leastOutput] at fits ⊢
  have base := @addU64_ofNat checks (params.feePolicy.fee 1 1) params.minOutputValue.toNat (by omega)
  have half : UInt64.ofNat (params.feePolicy.fee 1 1 + params.minOutputValue.toNat) / 2 =
      UInt64.ofNat ((params.feePolicy.fee 1 1 + params.minOutputValue.toNat) / 2) := by
    rw [← UInt64.toNat_inj, UInt64.toNat_div, toNat_ofNat_u64 (by omega),
      toNat_ofNat_u64 (by omega)]
    rfl
  rw [UInt64.ofNat_toNat] at base
  rw [minViableOutput, FeePolicy.estimateFee_eq (by omega), bind_ok, base, bind_ok, half,
    addU64_ofNat (by omega)]

/-- The inputs pay for so many outputs: the fee, which is not all, and the least value of each. -/
def Affordable (feePolicy : FeePolicy) (numInputs totalInput minViable numOutputs : Nat) : Prop :=
  feePolicy.fee numInputs numOutputs < totalInput ∧
    feePolicy.fee numInputs numOutputs + numOutputs * minViable ≤ totalInput

theorem le_ofNat_iff {n : Nat} (fits : n < 2 ^ 64) :
    totalInput ≤ UInt64.ofNat n ↔ totalInput.toNat ≤ n := by
  rw [UInt64.le_iff_toNat_le, toNat_ofNat_u64 fits]

/-- What a fee below the inputs leaves of them. -/
theorem exists_available (checks : Bool) {fee : Nat} (less : fee < totalInput.toNat) :
    ∃ available, subU64 checks totalInput (UInt64.ofNat fee) = .ok available ∧
      available.toNat = totalInput.toNat - fee := by
  have value : (UInt64.ofNat fee).toNat = fee :=
    toNat_ofNat_u64 (Nat.lt_trans less totalInput.toNat_lt)
  have le : UInt64.ofNat fee ≤ totalInput := by
    rw [UInt64.le_iff_toNat_le, value]
    exact Nat.le_of_lt less
  exact ⟨_, subU64_of_le le, by rw [UInt64.toNat_sub_of_le _ _ le, value]⟩

/-- The loop stops at the first number of outputs that is not affordable. -/
theorem maxPossibleOutputs_spec {first count found best : Nat} (before : found < first)
    (fees : ∀ m < first + count, feePolicy.fee numInputs m < 2 ^ 64)
    (minimums : ∀ m < first + count, m * minViable.toNat < 2 ^ 64)
    (result : maxPossibleOutputs checks feePolicy numInputs totalInput minViable
      (List.range' first count) found = .ok best) :
    ∀ m, first ≤ m → m ≤ best → m < first + count ∧
      Affordable feePolicy numInputs totalInput.toNat minViable.toNat m := by
  induction count generalizing first found with
  | zero =>
    rw [List.range'_zero, maxPossibleOutputs, Except.ok.injEq] at result
    intro m from' upTo
    omega
  | succ count ih =>
    have needed : (UInt64.ofNat (first * minViable.toNat)).toNat = first * minViable.toNat :=
      toNat_ofNat_u64 (minimums first (by omega))
    have compare := @le_ofNat_iff totalInput _ (fees first (by omega))
    rw [List.range'_succ, maxPossibleOutputs, FeePolicy.estimateFee_eq (fees first (by omega)),
      bind_ok] at result
    by_cases poor : totalInput.toNat ≤ feePolicy.fee numInputs first
    · rw [if_pos (compare.mpr poor), pure_eq_ok] at result
      intro m from' upTo
      omega
    · have rich := Nat.not_le.mp poor
      obtain ⟨available, paid, left⟩ := exists_available checks rich
      rw [if_neg (compare.not.mpr poor), paid, bind_ok, mulU64_eq (minimums first (by omega)),
        bind_ok] at result
      split at result
      · rename_i enough
        rw [UInt64.le_iff_toNat_le, needed, left] at enough
        have later := ih (Nat.lt_succ_self first) (fun m upTo => fees m (by omega))
          (fun m upTo => minimums m (by omega)) result
        intro m from' upTo
        by_cases here : m = first
        · rw [here]
          exact ⟨by omega, rich, by omega⟩
        · have among := later m (by omega) upTo
          exact ⟨by omega, among.2⟩
      · rw [pure_eq_ok] at result
        intro m from' upTo
        omega

end Bounds

section Draws

variable {σ : Type} [Rng σ]

/-- The value of one output (`txgen.rs:432-461`, `txgen.rs:581-610`). -/
def outputValue (minViable : UInt64) (numOutputs i : Nat) (remaining : UInt64) (rng : σ) :
    Option UInt64 × σ :=
  if i = numOutputs - 1 then
    -- the last output gets all that remains
    (some remaining, rng)
  else
    let outputsLeft := UInt64.ofNat (numOutputs - i - 1)
    let reservedForRemaining := saturatingMul minViable outputsLeft
    let availableForThis := saturatingSub remaining reservedForRemaining
    if availableForThis < minViable then
      (none, rng)
    else
      let fairShare := remaining / UInt64.ofNat (numOutputs - i)
      let maxVal := min fairShare availableForThis
      if maxVal ≤ minViable then
        (some minViable, rng)
      else
        let drawn := Rng.randomRange minViable.toNat maxVal.toNat rng
        (some (UInt64.ofNat drawn.1), drawn.2)

/-- One output of a division that leaves the minimum for it and for every later output: it takes
the minimum at least, leaves the minimum for the later ones, and is all that remains when it is the
last. -/
theorem outputValue_spec {minViable remaining : UInt64} {numOutputs i : Nat} (rng : σ)
    (within : i < numOutputs) (small : numOutputs < 2 ^ 64)
    (room : (numOutputs - i) * minViable.toNat ≤ remaining.toNat) :
    ∃ value rng', outputValue minViable numOutputs i remaining rng = (some value, rng') ∧
      minViable.toNat ≤ value.toNat ∧ value.toNat ≤ remaining.toNat ∧
      (i + 1 = numOutputs → value = remaining) ∧
      (numOutputs - (i + 1)) * minViable.toNat ≤ remaining.toNat - value.toNat := by
  by_cases last : i = numOutputs - 1
  · have one : numOutputs - i = 1 := by omega
    have none : numOutputs - (i + 1) = 0 := by omega
    rw [one, Nat.one_mul] at room
    rw [outputValue, if_pos last, none, Nat.zero_mul]
    exact ⟨remaining, rng, rfl, room, Nat.le_refl _, fun _ => rfl, Nat.zero_le _⟩
  · have split : numOutputs - i = numOutputs - i - 1 + 1 := by omega
    have later : numOutputs - (i + 1) = numOutputs - i - 1 := by omega
    have notLast : i + 1 ≠ numOutputs := by omega
    rw [split, Nat.succ_mul] at room
    have count : (UInt64.ofNat (numOutputs - i - 1)).toNat = numOutputs - i - 1 :=
      toNat_ofNat_u64 (by omega)
    have reserved : (saturatingMul minViable (UInt64.ofNat (numOutputs - i - 1))).toNat =
        (numOutputs - i - 1) * minViable.toNat := by
      have fits := remaining.toNat_lt
      rw [saturatingMul_toNat, count, Nat.mul_comm]
      omega
    have available : (saturatingSub remaining
        (saturatingMul minViable (UInt64.ofNat (numOutputs - i - 1)))).toNat =
          remaining.toNat - (numOutputs - i - 1) * minViable.toNat := by
      rw [saturatingSub_toNat, reserved]
    rw [outputValue, if_neg last]
    dsimp only
    generalize saturatingSub remaining
      (saturatingMul minViable (UInt64.ofNat (numOutputs - i - 1))) = availableForThis at available ⊢
    have enough : ¬ availableForThis < minViable := by
      rw [UInt64.lt_iff_toNat_lt, available]
      omega
    have upper := min_toNat_le_right (remaining / UInt64.ofNat (numOutputs - i)) availableForThis
    generalize min (remaining / UInt64.ofNat (numOutputs - i)) availableForThis = maxVal at upper ⊢
    rw [if_neg enough, later]
    by_cases narrow : maxVal ≤ minViable
    · rw [if_pos narrow]
      exact ⟨minViable, rng, rfl, Nat.le_refl _, by omega, fun isLast => absurd isLast notLast,
        by omega⟩
    · rw [if_neg narrow]
      have range := UInt64.lt_iff_toNat_lt.mp (UInt64.not_le.mp narrow)
      obtain ⟨low, high⟩ := Rng.randomRange_mem (Nat.le_of_lt range) rng
      have drawn : (UInt64.ofNat (Rng.randomRange minViable.toNat maxVal.toNat rng).1).toNat =
          (Rng.randomRange minViable.toNat maxVal.toNat rng).1 :=
        toNat_ofNat_u64 (Nat.lt_of_le_of_lt high maxVal.toNat_lt)
      refine ⟨_, _, rfl, ?_, ?_, fun isLast => absurd isLast notLast, ?_⟩
      · rw [drawn]
        exact low
      · rw [drawn]
        omega
      · rw [drawn]
        omega

/-- The loop over the receivers, from the index of the first (`txgen.rs:431-468`,
`txgen.rs:580-618`). -/
def distribute (minViable : UInt64) (numOutputs : Nat) :
    Nat → List AccountAddress → UInt64 → σ → Option (List TransactionOut) × σ
  | _, [], _, rng => (some [], rng)
  | i, receiver :: receivers, remaining, rng =>
      match outputValue minViable numOutputs i remaining rng with
      | (none, rng) => (none, rng)
      | (some value, rng) =>
          let others := distribute minViable numOutputs (i + 1) receivers
            (saturatingSub remaining value) rng
          (others.1.map fun outputs => ⟨value, receiver⟩ :: outputs, others.2)

/-- The receivers from one index on divide what remains, each with the minimum at least. -/
theorem distribute_spec {minViable : UInt64} {numOutputs : Nat} (small : numOutputs < 2 ^ 64)
    {receivers : List AccountAddress} (inhabited : receivers ≠ []) {i : Nat}
    (all : i + receivers.length = numOutputs) {remaining : UInt64}
    (room : (numOutputs - i) * minViable.toNat ≤ remaining.toNat) (rng : σ) :
    ∃ outputs rng', distribute minViable numOutputs i receivers remaining rng =
        (some outputs, rng') ∧
      outputs.map TransactionOut.recipient = receivers ∧
      (∀ output ∈ outputs, minViable.toNat ≤ output.value.toNat) ∧
      (outputs.map fun output => output.value.toNat).sum = remaining.toNat := by
  induction receivers generalizing i remaining rng with
  | nil => exact absurd rfl inhabited
  | cons receiver receivers ih =>
    rw [List.length_cons] at all
    obtain ⟨value, rng', drawn, least, most, last, later⟩ :=
      outputValue_spec rng (by omega) small room
    rw [distribute, drawn]
    dsimp only
    cases receivers with
    | nil =>
      rw [List.length_nil] at all
      refine ⟨[⟨value, receiver⟩], rng', rfl, rfl, ?_, ?_⟩
      · intro output mem
        rw [List.mem_singleton.mp mem]
        exact least
      · rw [last all]
        exact Nat.add_zero _
    | cons next receivers =>
      rw [← saturatingSub_toNat] at later
      obtain ⟨outputs, rng'', rest, recipients, viable, sum⟩ :=
        ih (by simp) (by omega) later rng'
      rw [rest]
      refine ⟨⟨value, receiver⟩ :: outputs, rng'', rfl, ?_, ?_, ?_⟩
      · rw [List.map_cons, recipients]
      · intro output mem
        cases List.mem_cons.mp mem with
        | inl first =>
          rw [first]
          exact least
        | inr among => exact viable output among
      · rw [List.map_cons, List.sum_cons, sum, saturatingSub_toNat]
        exact Nat.add_sub_cancel' most

/-- The receivers, what each of them gets, and the check of the sum (`txgen.rs:424-486`,
`txgen.rs:573-637`). -/
def distributeAmong (checks : Bool) (inputs : List TransactionIn) (minViable : UInt64)
    (numOutputs : Nat) (availableForOutputs : UInt64) (receiverPool : List AccountAddress) (rng : σ) :
    Except WalletError (Option (TransactionData × List TransactionOut) × σ) :=
  let receivers := Rng.sample receiverPool numOutputs rng
  match distribute minViable numOutputs 0 receivers.1 availableForOutputs receivers.2 with
  | (none, rng) => .ok (none, rng)
  | (some outputs, rng) => do
      let outputSum ← sumU64 checks (outputs.map TransactionOut.value)
      if outputSum ≠ availableForOutputs then
        return (none, rng)
      else
        return (some (⟨0, .payment, inputs, outputs⟩, outputs), rng)

/-- A transaction from its inputs, the limits and the draws: what the two generators share. -/
def generateDistributing (checks : Bool) (inputs : List TransactionIn) (totalInput : UInt64)
    (limit : Nat) (receiverPool : List AccountAddress) (rng : σ)
    (params : TransactionGenerationParams) :
    Except WalletError (Option (TransactionData × List TransactionOut) × σ) := do
  let minViable ← minViableOutput checks params
  let maxOutputs := min (min limit params.maxOutputs) receiverPool.length
  if maxOutputs < 2 then
    return (none, rng)
  else
    let maxPossible ← maxPossibleOutputs checks params.feePolicy inputs.length totalInput minViable
      (List.range' 2 (maxOutputs - 1)) 0
    if maxPossible < 2 then
      return (none, rng)
    else
      let drawn := Rng.randomRange 2 maxPossible rng
      let fee ← params.feePolicy.estimateFee checks inputs.length drawn.1
      if totalInput ≤ fee then
        return (none, drawn.2)
      else
        let availableForOutputs ← subU64 checks totalInput fee
        let requiredMinimum ← mulU64 checks drawn.1 minViable
        if availableForOutputs < requiredMinimum then
          return (none, drawn.2)
        else
          distributeAmong checks inputs minViable drawn.1 availableForOutputs receiverPool drawn.2

/-- `generate_splitting_tx` (`txgen.rs:349-487`). -/
def generateSplittingTx (checks : Bool) (utxoToSpend : UtxoInfo)
    (receiverPool : List AccountAddress) (rng : σ) (params : TransactionGenerationParams) :
    Except WalletError (Option (TransactionData × List TransactionOut) × σ) :=
  generateDistributing checks [⟨utxoToSpend.outpoint, 0⟩] utxoToSpend.value 4 receiverPool rng params

/-- `generate_complex_tx` (`txgen.rs:491-638`). -/
def generateComplexTx (checks : Bool) (utxosToSpend : List UtxoInfo)
    (receiverPool : List AccountAddress) (rng : σ) (params : TransactionGenerationParams) :
    Except WalletError (Option (TransactionData × List TransactionOut) × σ) := do
  if utxosToSpend.length < 2 then
    return (none, rng)
  else
    let utxosToUse := utxosToSpend.take params.maxInputs
    let totalInput ← sumU64 checks (utxosToUse.map UtxoInfo.value)
    generateDistributing checks (utxosToUse.map fun utxo => ⟨utxo.outpoint, 0⟩) totalInput 5
      receiverPool rng params

end Draws

end StryiChain
