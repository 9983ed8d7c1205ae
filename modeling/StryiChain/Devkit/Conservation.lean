import StryiChain.Devkit.TxGen

/-!
# Generated transactions conserve value (`stryi_devkit/src/chaingen/txgen.rs:349-638`)

Once two outputs are affordable a transaction is generated, whatever is drawn: the checks that
follow the choice of the number of outputs never fail.
-/

namespace StryiChain

/-- A transaction that divides the inputs, less the estimated fee, among some of the receivers. -/
structure IsDistribution (params : TransactionGenerationParams) (inputs : List TransactionIn)
    (totalInput : Nat) (receiverPool : List AccountAddress) (maxPossible : Nat)
    (data : TransactionData) (outputs : List TransactionOut) : Prop where
  payment : data = ⟨0, .payment, inputs, outputs⟩
  least : 2 ≤ outputs.length
  most : outputs.length ≤ maxPossible
  viable : ∀ output ∈ outputs, params.leastOutput ≤ output.value.toNat
  conserved : (outputs.map fun output => output.value.toNat).sum +
    params.feePolicy.fee inputs.length outputs.length = totalInput
  recipients : (outputs.map TransactionOut.recipient).Subperm receiverPool

/-- What the search for the number of outputs comes to. -/
def FindsOutputs (checks : Bool) (params : TransactionGenerationParams) (numInputs : Nat)
    (totalInput : UInt64) (maxOutputs maxPossible : Nat) : Prop :=
  ∃ minViable, minViableOutput checks params = .ok minViable ∧
    maxPossibleOutputs checks params.feePolicy numInputs totalInput minViable
      (List.range' 2 (maxOutputs - 1)) 0 = .ok maxPossible

section Generation

variable {σ : Type} [Rng σ] {checks : Bool} {params : TransactionGenerationParams}
  {inputs : List TransactionIn} {totalInput : UInt64} {limit maxPossible : Nat}
  {receiverPool : List AccountAddress}

omit [Rng σ] in
/-- Every number of outputs up to the one that was found is affordable. -/
theorem FindsOutputs.affordable {numInputs maxOutputs : Nat}
    (fits : DistributionFits params numInputs maxOutputs)
    (finds : FindsOutputs checks params numInputs totalInput maxOutputs maxPossible) :
    ∀ m, 2 ≤ m → m ≤ maxPossible → m ≤ maxOutputs ∧
      Affordable params.feePolicy numInputs totalInput.toNat params.leastOutput m := by
  obtain ⟨minViable, minimum, found⟩ := finds
  rw [minViableOutput_eq fits.minimum, Except.ok.injEq] at minimum
  have value : minViable.toNat = params.leastOutput := by
    rw [← minimum]
    exact toNat_ofNat_u64 fits.minimum
  intro m least most
  by_cases several : 2 ≤ maxOutputs
  · have spec := maxPossibleOutputs_spec (by decide) (fun m upTo => fits.fees m (by omega))
      (fun m upTo => by
        rw [value]
        exact fits.minimums m (by omega)) found m least most
    rw [value] at spec
    exact ⟨by omega, spec.2⟩
  · have empty : maxOutputs - 1 = 0 := by omega
    rw [empty, List.range'_zero, maxPossibleOutputs, Except.ok.injEq] at found
    omega

omit [Rng σ] in
theorem sum_values (outputs : List TransactionOut) :
    ((outputs.map TransactionOut.value).map UInt64.toNat).sum =
      (outputs.map fun output => output.value.toNat).sum := by
  rw [List.map_map]
  rfl

/-- The receivers get all that is available, and the minimum each, whatever is drawn. -/
theorem distributeAmong_spec {minViable availableForOutputs : UInt64} {numOutputs : Nat}
    (inputs : List TransactionIn) (rng : σ) (pos : 0 < numOutputs) (small : numOutputs < 2 ^ 64)
    (enough : numOutputs ≤ receiverPool.length)
    (room : numOutputs * minViable.toNat ≤ availableForOutputs.toNat) :
    ∃ outputs rng', distributeAmong checks inputs minViable numOutputs availableForOutputs
        receiverPool rng = .ok (some (⟨0, .payment, inputs, outputs⟩, outputs), rng') ∧
      outputs.length = numOutputs ∧
      (∀ output ∈ outputs, minViable.toNat ≤ output.value.toNat) ∧
      (outputs.map fun output => output.value.toNat).sum = availableForOutputs.toNat ∧
      (outputs.map TransactionOut.recipient).Subperm receiverPool := by
  have count := Rng.sample_length receiverPool numOutputs rng
  have sub := Rng.sample_subperm receiverPool numOutputs rng
  rw [distributeAmong]
  generalize Rng.sample receiverPool numOutputs rng = receivers at count sub ⊢
  rw [Nat.min_eq_left enough] at count
  have inhabited : receivers.1 ≠ [] := List.ne_nil_of_length_pos (by omega)
  obtain ⟨outputs, rng', distributed, recipients, viable, sum⟩ :=
    @distribute_spec σ _ minViable numOutputs small receivers.1 inhabited 0 (by omega)
      availableForOutputs room receivers.2
  have total : sumU64 checks (outputs.map TransactionOut.value) = .ok availableForOutputs := by
    have fits := availableForOutputs.toNat_lt
    rw [sumU64_eq (by rw [sum_values, sum]; exact fits), sum_values, sum, UInt64.ofNat_toNat]
  rw [distributed]
  dsimp only
  rw [total, bind_ok, if_neg (not_not_intro rfl)]
  refine ⟨outputs, rng', rfl, ?_, viable, sum, ?_⟩
  · rw [← count, ← recipients, List.length_map]
  · rw [recipients]
    exact sub

/-- From the search on, none of the checks fails: the number of outputs that is drawn is affordable,
and so is every division of what is available. -/
theorem generateDistributing_conserves (rng : σ) (limited : limit < 2 ^ 64)
    (fits : DistributionFits params inputs.length
      (min (min limit params.maxOutputs) receiverPool.length))
    (finds : FindsOutputs checks params inputs.length totalInput
      (min (min limit params.maxOutputs) receiverPool.length) maxPossible)
    (several : 2 ≤ maxPossible) :
    ∃ data outputs rng',
      generateDistributing checks inputs totalInput limit receiverPool rng params =
        .ok (some (data, outputs), rng') ∧
      IsDistribution params inputs totalInput.toNat receiverPool maxPossible data outputs := by
  have affordable := finds.affordable fits
  obtain ⟨minViable, minimum, found⟩ := finds
  have computed := @minViableOutput_eq checks _ fits.minimum
  rw [minimum, Except.ok.injEq] at computed
  have value : minViable.toNat = params.leastOutput := by
    rw [computed]
    exact toNat_ofNat_u64 fits.minimum
  have reached := (affordable maxPossible several (Nat.le_refl _)).1
  rw [generateDistributing, minimum, bind_ok]
  dsimp only
  rw [if_neg (by omega), found, bind_ok, if_neg (by omega)]
  -- the number of outputs that is drawn
  obtain ⟨least, most⟩ := Rng.randomRange_mem several rng
  generalize Rng.randomRange 2 maxPossible rng = drawn at least most ⊢
  obtain ⟨within, covered, paid⟩ := affordable drawn.1 least most
  have feeFits := fits.fees drawn.1 within
  have required : drawn.1 * minViable.toNat < 2 ^ 64 := by
    rw [value]
    exact fits.minimums drawn.1 within
  -- what is available for the outputs
  obtain ⟨availableForOutputs, left, available⟩ := exists_available checks covered
  rw [FeePolicy.estimateFee_eq feeFits, bind_ok,
    if_neg ((le_ofNat_iff feeFits).not.mpr (Nat.not_le.mpr covered)), left, bind_ok,
    mulU64_eq required, bind_ok]
  have room : drawn.1 * minViable.toNat ≤ availableForOutputs.toNat := by
    rw [value, available]
    omega
  have covers : ¬ availableForOutputs < UInt64.ofNat (drawn.1 * minViable.toNat) := by
    rw [UInt64.not_lt, UInt64.le_iff_toNat_le, toNat_ofNat_u64 required]
    exact room
  obtain ⟨outputs, rng', distributed, count, viable, sum, recipients⟩ :=
    @distributeAmong_spec σ _ checks receiverPool minViable availableForOutputs drawn.1 inputs
      drawn.2 (by omega) (by omega) (by omega) room
  rw [if_neg covers, distributed]
  refine ⟨_, outputs, rng', rfl, rfl, ?_, ?_, ?_, ?_, recipients⟩
  · rw [count]
    exact least
  · rw [count]
    exact most
  · intro output mem
    rw [← value]
    exact viable output mem
  · rw [sum, count, available]
    exact Nat.sub_add_cancel (Nat.le_of_lt covered)

/-- Both generators return a transaction once they have found that two outputs are affordable. It has
between two and as many outputs as were found, each of the least value or more, and with the estimated
fee they come to the inputs. -/
theorem generated_distribution_conserves (checks : Bool) (params : TransactionGenerationParams)
    (receiverPool : List AccountAddress) (rng : σ) (maxPossible : Nat) (several : 2 ≤ maxPossible) :
    (∀ utxo : UtxoInfo,
      DistributionFits params 1 (min (min 4 params.maxOutputs) receiverPool.length) →
      FindsOutputs checks params 1 utxo.value (min (min 4 params.maxOutputs) receiverPool.length)
        maxPossible →
      ∃ data outputs rng', generateSplittingTx checks utxo receiverPool rng params =
          .ok (some (data, outputs), rng') ∧
        IsDistribution params [⟨utxo.outpoint, 0⟩] utxo.value.toNat receiverPool maxPossible data
          outputs) ∧
    ∀ (utxos : List UtxoInfo) (totalInput : UInt64), 2 ≤ utxos.length →
      ((utxos.take params.maxInputs).map fun utxo => utxo.value.toNat).sum = totalInput.toNat →
      DistributionFits params (utxos.take params.maxInputs).length
        (min (min 5 params.maxOutputs) receiverPool.length) →
      FindsOutputs checks params (utxos.take params.maxInputs).length totalInput
        (min (min 5 params.maxOutputs) receiverPool.length) maxPossible →
      ∃ data outputs rng', generateComplexTx checks utxos receiverPool rng params =
          .ok (some (data, outputs), rng') ∧
        IsDistribution params
          ((utxos.take params.maxInputs).map fun utxo => ⟨utxo.outpoint, 0⟩) totalInput.toNat
          receiverPool maxPossible data outputs := by
  constructor
  · intro utxo fits finds
    exact generateDistributing_conserves rng (by decide) fits finds several
  · intro utxos totalInput many total fits finds
    have values : (((utxos.take params.maxInputs).map UtxoInfo.value).map UInt64.toNat).sum =
        totalInput.toNat := by
      rw [List.map_map]
      exact total
    have summed : sumU64 checks ((utxos.take params.maxInputs).map UtxoInfo.value) =
        .ok totalInput := by
      rw [sumU64_eq (by rw [values]; exact totalInput.toNat_lt), values, UInt64.ofNat_toNat]
    have count : ((utxos.take params.maxInputs).map fun utxo =>
        (⟨utxo.outpoint, 0⟩ : TransactionIn)).length = (utxos.take params.maxInputs).length :=
      List.length_map _
    rw [generateComplexTx, if_neg (by omega)]
    dsimp only
    rw [summed, bind_ok]
    rw [← count] at fits finds
    exact generateDistributing_conserves rng (by decide) fits finds several

end Generation

namespace Sample

/-- A generator that reads its draws from a tape, and the least number behind its end. It samples the
first elements. -/
scoped instance tape : Rng (List Nat) where
  randomRange low high draws := (low + draws.headD 0 % (high + 1 - low), draws.tail)
  randomRange_mem := by
    intro low high ordered draws
    have below : draws.headD 0 % (high + 1 - low) < high + 1 - low := Nat.mod_lt _ (by omega)
    exact ⟨Nat.le_add_right _ _, by omega⟩
  sample pool amount draws := (pool.take amount, draws)
  sample_length _ _ _ := List.length_take
  sample_subperm _ _ _ := (List.take_sublist _ _).subperm

/-- `TransactionGenerationParams::default` (`txgen.rs:25-34`). -/
def generationParams : TransactionGenerationParams :=
  ⟨10000, ⟨1000, 500, 250, 10⟩, 8, 8⟩

def receiverPool : List AccountAddress := [⟨1⟩, ⟨2⟩, ⟨3⟩]

theorem distributionFits {numInputs : Nat}
    (fees : ∀ m ≤ 3, generationParams.feePolicy.fee numInputs m < 2 ^ 64) :
    DistributionFits generationParams numInputs 3 where
  minimum := by decide
  fees := fees
  minimums := by decide

end Sample

open Sample in
/-- 100000 in one coin and 120000 in two pay for three outputs of 20685 at least. -/
theorem generated_distribution_conserves_sample :
    (∃ data outputs rng', generateSplittingTx true ⟨⟨⟨1⟩, 0⟩, 100000⟩ receiverPool [1, 7, 9]
        generationParams = .ok (some (data, outputs), rng') ∧
      IsDistribution generationParams [⟨⟨⟨1⟩, 0⟩, 0⟩] 100000 receiverPool 3 data outputs) ∧
    ∃ data outputs rng', generateComplexTx true [⟨⟨⟨1⟩, 0⟩, 60000⟩, ⟨⟨⟨1⟩, 1⟩, 60000⟩] receiverPool
        [1, 7, 9] generationParams = .ok (some (data, outputs), rng') ∧
      IsDistribution generationParams [⟨⟨⟨1⟩, 0⟩, 0⟩, ⟨⟨⟨1⟩, 1⟩, 0⟩] 120000 receiverPool 3 data
        outputs := by
  obtain ⟨splitting, complex⟩ := generated_distribution_conserves true generationParams receiverPool
    [1, 7, 9] 3 (by decide)
  refine ⟨splitting ⟨⟨⟨1⟩, 0⟩, 100000⟩ (distributionFits (by decide)) ⟨20685, rfl, rfl⟩, ?_⟩
  exact complex [⟨⟨⟨1⟩, 0⟩, 60000⟩, ⟨⟨⟨1⟩, 1⟩, 60000⟩] 120000 (by decide) rfl
    (distributionFits (by decide)) ⟨20685, rfl, rfl⟩

end StryiChain
