import StryiChain.Mempool.Policy
import StryiChain.Misc.Fallible
import StryiChain.Misc.Greedy

/-!
# Payments of the wallet (`stryi_wallet/src/tx_builder.rs`, `transactions/{fee_policy,size}.rs`)

The largest-first selection of coins, the check of the funds and the change. Arithmetic on `u64` is
kept as the source writes it; a flag tells whether the build checks it, as a debug build does, or
lets it wrap.
-/

namespace StryiChain

/-- What ends a computation of the wallet without a result: a `bail!`, or a panic of checked
arithmetic. -/
inductive WalletError where
  | bail (message : String)
  | panic (message : String)
  deriving DecidableEq

section Arithmetic

/-- `a + b` on `u64`. -/
def addU64 (checks : Bool) (a b : UInt64) : Except WalletError UInt64 := do
  failIf (checks = true ∧ 2 ^ 64 ≤ a.toNat + b.toNat) (.panic "attempt to add with overflow")
  return a + b

/-- `a - b` on `u64`. -/
def subU64 (checks : Bool) (a b : UInt64) : Except WalletError UInt64 := do
  failIf (checks = true ∧ a < b) (.panic "attempt to subtract with overflow")
  return a - b

/-- `count as u64 * cost`. The counts are lengths, which a `u64` holds. -/
def mulU64 (checks : Bool) (count : Nat) (cost : UInt64) : Except WalletError UInt64 := do
  failIf (checks = true ∧ 2 ^ 64 ≤ count * cost.toNat) (.panic "attempt to multiply with overflow")
  return UInt64.ofNat (count * cost.toNat)

variable {checks : Bool} {a b : UInt64}

theorem addU64_ofNat {m n : Nat} (fits : m + n < 2 ^ 64) :
    addU64 checks (UInt64.ofNat m) (UInt64.ofNat n) = .ok (UInt64.ofNat (m + n)) := by
  have left : (UInt64.ofNat m).toNat = m := toNat_ofNat_u64 (by omega)
  have right : (UInt64.ofNat n).toNat = n := toNat_ofNat_u64 (by omega)
  rw [addU64, failIf_of_not _ (by rw [left, right]; omega), bind_ok, UInt64.ofNat_add]
  rfl

theorem mulU64_eq {count : Nat} (fits : count * b.toNat < 2 ^ 64) :
    mulU64 checks count b = .ok (UInt64.ofNat (count * b.toNat)) := by
  rw [mulU64, failIf_of_not _ (by omega), bind_ok]
  rfl

theorem subU64_of_le (le : b ≤ a) : subU64 checks a b = .ok (a - b) := by
  rw [subU64, failIf_of_not _ (fun under => UInt64.not_lt.mpr le under.2), bind_ok]
  rfl

theorem subU64_of_lt (lt : a < b) : subU64 checks a b =
    if checks then .error (.panic "attempt to subtract with overflow") else .ok (a - b) := by
  cases checks <;> simp [subU64, failIf, lt]

end Arithmetic

/-- `estimate_transaction_size` (`size.rs:17-34`). -/
def estimateTransactionSize (numInputs numOutputs : Nat) : Nat :=
  let size := 91
  let size := size + numInputs * 69
  let size := size + numOutputs * 43
  let size := if 0 < numInputs ∨ 0 < numOutputs then size + 1 else size
  if 1 < numOutputs then size + (numOutputs - 1) * 2 else size

namespace FeePolicy

/-- `FeePolicy::estimate_fee` (`fee_policy.rs:48-54`). -/
def estimateFee (checks : Bool) (policy : FeePolicy) (numInputs numOutputs : Nat) :
    Except WalletError UInt64 := do
  let size := estimateTransactionSize numInputs numOutputs
  let fee ← addU64 checks policy.fixedFee (← mulU64 checks numInputs policy.inputCost)
  let fee ← addU64 checks fee (← mulU64 checks numOutputs policy.outputCost)
  addU64 checks fee (← mulU64 checks size policy.byteCost)

/-- The estimated fee without a bound. -/
def fee (policy : FeePolicy) (numInputs numOutputs : Nat) : Nat :=
  policy.fixedFee.toNat + numInputs * policy.inputCost.toNat +
    numOutputs * policy.outputCost.toNat +
    estimateTransactionSize numInputs numOutputs * policy.byteCost.toNat

variable {policy : FeePolicy} {checks : Bool} {n m : Nat}

theorem estimateFee_eq (fits : policy.fee n m < 2 ^ 64) :
    policy.estimateFee checks n m = .ok (UInt64.ofNat (policy.fee n m)) := by
  rw [fee] at fits
  have first := @addU64_ofNat checks policy.fixedFee.toNat (n * policy.inputCost.toNat) (by omega)
  rw [UInt64.ofNat_toNat] at first
  rw [estimateFee, mulU64_eq (by omega), bind_ok, first, bind_ok, mulU64_eq (by omega), bind_ok,
    addU64_ofNat (by omega), bind_ok, mulU64_eq (by omega), bind_ok, addU64_ofNat (by omega), fee]

/-- A second output costs something or nothing, but never less than nothing. -/
theorem fee_mono_outputs (policy : FeePolicy) (n : Nat) : policy.fee n 1 ≤ policy.fee n 2 := by
  have size : estimateTransactionSize n 1 ≤ estimateTransactionSize n 2 := by
    simp only [estimateTransactionSize]
    split_ifs <;> omega
  have bytes := Nat.mul_le_mul_right policy.byteCost.toNat size
  rw [fee, fee]
  omega

end FeePolicy

/-- `SpendableUtxo`. -/
structure SpendableUtxo where
  outpoint : OutPoint
  value : UInt64
  deriving DecidableEq

/-- `DUST_THRESHOLD`. -/
def dustThreshold : UInt64 := 5000

/-- `PrivateKey`, by what the source asks of it: the address of its verifying key and the
recoverable signature of a digest. -/
structure PrivateKey where
  address : AccountAddress
  signPrehash : TransactionHash → StryiSignature

section Builder

variable [Primitives]

/-- `TransactionData::sign` (`transactions/mod.rs:80-95`). -/
def TransactionData.sign (data : TransactionData) (signingKey : PrivateKey) : Transaction :=
  ⟨data, signingKey.signPrehash data.hash⟩

omit [Primitives] in
/-- The selection loop (`tx_builder.rs:37-45`): the coins selected so far and their total. -/
def selectUtxos (checks : Bool) (feePolicy : FeePolicy) (amount : UInt64) :
    List SpendableUtxo → List SpendableUtxo → UInt64 →
      Except WalletError (List SpendableUtxo × UInt64)
  | [], selected, totalInput => .ok (selected, totalInput)
  | utxo :: rest, selected, totalInput => do
      let selected := selected ++ [utxo]
      let totalInput ← addU64 checks totalInput utxo.value
      let tentativeFee ← feePolicy.estimateFee checks selected.length 2
      let needed ← addU64 checks amount tentativeFee
      if needed ≤ totalInput then
        return (selected, totalInput)
      else
        selectUtxos checks feePolicy amount rest selected totalInput

/-- `build_payment` after the selection (`tx_builder.rs:47-103`). -/
def finishPayment (checks : Bool) (senderKey : PrivateKey) (recipient : AccountAddress)
    (amount : UInt64) (feePolicy : FeePolicy) (selected : List SpendableUtxo)
    (totalInput : UInt64) : Except WalletError Transaction := do
  let finalFee1out ← feePolicy.estimateFee checks selected.length 1
  let finalFee2out ← feePolicy.estimateFee checks selected.length 2
  let needed ← addU64 checks amount finalFee1out
  failIf (totalInput < needed)
    (.bail s!"insufficient funds: have {totalInput}, need {amount} (amount) + {finalFee1out} (fee) = {needed}")
  let inputs : List TransactionIn := selected.map fun utxo => ⟨utxo.outpoint, 0⟩
  let payment : TransactionOut := ⟨amount, recipient⟩
  -- the change is computed before it is known to be there
  let remainder ← subU64 checks (← subU64 checks totalInput amount) finalFee2out
  let needed ← addU64 checks amount finalFee2out
  let outputs :=
    if needed ≤ totalInput ∧ dustThreshold < remainder then
      [payment, ⟨remainder, senderKey.address⟩]
    else
      [payment]
  let actualFee ← feePolicy.estimateFee checks inputs.length outputs.length
  let needed ← addU64 checks amount actualFee
  failIf (totalInput < needed)
    (.bail s!"insufficient funds after final fee calc: have {totalInput}, need {needed}")
  return TransactionData.sign ⟨0, .payment, inputs, outputs⟩ senderKey

/-- `build_payment` (`tx_builder.rs:20-103`). -/
def buildPayment (checks : Bool) (senderKey : PrivateKey) (availableUtxos : List SpendableUtxo)
    (recipient : AccountAddress) (amount : UInt64) (feePolicy : FeePolicy) :
    Except WalletError Transaction := do
  failIf (availableUtxos = []) (.bail "no UTXOs available to spend")
  let sorted := availableUtxos.mergeSort fun a b => b.value ≤ a.value
  let (selected, totalInput) ← selectUtxos checks feePolicy amount sorted [] 0
  finishPayment checks senderKey recipient amount feePolicy selected totalInput

/-! What a payment comes to, without a bound on the sums -/

/-- The value of some coins. -/
def totalValue (utxos : List SpendableUtxo) : Nat := (utxos.map fun utxo => utxo.value.toNat).sum

/-- The coins pay the amount and the fee of a transaction with change. -/
def coversChange (feePolicy : FeePolicy) (amount : UInt64) (selected : List SpendableUtxo) : Bool :=
  decide (amount.toNat + feePolicy.fee selected.length 2 ≤ totalValue selected)

/-- The sums of a payment fit in a `u64`. -/
structure PaymentFits (feePolicy : FeePolicy) (amount : UInt64) (utxos : List SpendableUtxo) :
    Prop where
  total : totalValue utxos < 2 ^ 64
  fees : ∀ n ≤ utxos.length, ∀ m ≤ 2, amount.toNat + feePolicy.fee n m < 2 ^ 64

section Selection

variable {checks : Bool} {feePolicy : FeePolicy} {amount : UInt64}
  {utxos utxos' selected rest : List SpendableUtxo}

omit [Primitives]

@[simp] theorem totalValue_append (l l' : List SpendableUtxo) :
    totalValue (l ++ l') = totalValue l + totalValue l' := by
  rw [totalValue, List.map_append, List.sum_append, totalValue, totalValue]

@[simp] theorem totalValue_singleton (utxo : SpendableUtxo) :
    totalValue [utxo] = utxo.value.toNat := by
  simp [totalValue]

theorem totalValue_perm (perm : utxos.Perm utxos') : totalValue utxos = totalValue utxos' :=
  (perm.map _).sum_eq

theorem PaymentFits.perm (fits : PaymentFits feePolicy amount utxos) (perm : utxos.Perm utxos') :
    PaymentFits feePolicy amount utxos' :=
  ⟨totalValue_perm perm ▸ fits.total, perm.length_eq ▸ fits.fees⟩

theorem PaymentFits.sublist (fits : PaymentFits feePolicy amount utxos)
    (sub : utxos'.Sublist utxos) : PaymentFits feePolicy amount utxos' :=
  ⟨Nat.lt_of_le_of_lt ((sub.map _).sum_le_sum fun _ _ => Nat.zero_le _) fits.total,
    fun n few => fits.fees n (few.trans sub.length_le)⟩

/-- The fee and what it comes to with the amount are computed as they are. -/
theorem PaymentFits.estimates (fits : PaymentFits feePolicy amount utxos) (checks : Bool) (m : Nat)
    (outputs : m ≤ 2) :
    feePolicy.estimateFee checks utxos.length m =
        .ok (UInt64.ofNat (feePolicy.fee utxos.length m)) ∧
      addU64 checks amount (UInt64.ofNat (feePolicy.fee utxos.length m)) =
        .ok (UInt64.ofNat (amount.toNat + feePolicy.fee utxos.length m)) := by
  have bound := fits.fees _ (le_refl _) m outputs
  have sum := @addU64_ofNat checks amount.toNat (feePolicy.fee utxos.length m) bound
  rw [UInt64.ofNat_toNat] at sum
  exact ⟨feePolicy.estimateFee_eq (by omega), sum⟩

/-- The check of the funds compares what they come to. -/
theorem PaymentFits.lt_iff (fits : PaymentFits feePolicy amount utxos) {m : Nat}
    (outputs : m ≤ 2) : UInt64.ofNat (totalValue utxos) <
      UInt64.ofNat (amount.toNat + feePolicy.fee utxos.length m) ↔
        totalValue utxos < amount.toNat + feePolicy.fee utxos.length m :=
  UInt64.ofNat_lt_iff_lt fits.total (fits.fees _ (le_refl _) m outputs)

/-- What is left of the coins after the amount. -/
theorem PaymentFits.subtract (fits : PaymentFits feePolicy amount utxos) (checks : Bool)
    (enough : amount.toNat ≤ totalValue utxos) :
    subU64 checks (UInt64.ofNat (totalValue utxos)) amount =
      .ok (UInt64.ofNat (totalValue utxos - amount.toNat)) := by
  have base : UInt64.ofNat amount.toNat = amount := UInt64.ofNat_toNat
  have paid : amount ≤ UInt64.ofNat (totalValue utxos) := by
    rw [← base, UInt64.ofNat_le_iff_le amount.toNat_lt fits.total]
    exact enough
  rw [subU64_of_le paid, UInt64.ofNat_sub enough, base]

/-- The loop is the general one, with the total beside the selection. -/
theorem selectUtxos_eq (fits : PaymentFits feePolicy amount (selected ++ rest)) :
    selectUtxos checks feePolicy amount rest selected (UInt64.ofNat (totalValue selected)) =
      .ok (takeUntil (coversChange feePolicy amount) selected rest,
        UInt64.ofNat (totalValue (takeUntil (coversChange feePolicy amount) selected rest))) := by
  induction rest generalizing selected with
  | nil => rfl
  | cons utxo rest ih =>
    have split : selected ++ utxo :: rest = (selected ++ [utxo]) ++ rest := by simp
    rw [split] at fits
    have whole := fits.total
    rw [totalValue_append] at whole
    have value := @addU64_ofNat checks (totalValue selected) utxo.value.toNat (by
      rw [totalValue_append, totalValue_singleton] at whole
      omega)
    rw [UInt64.ofNat_toNat, ← totalValue_singleton, ← totalValue_append] at value
    have upTo := fits.sublist (List.sublist_append_left (selected ++ [utxo]) rest)
    obtain ⟨estimated, needed⟩ := upTo.estimates checks 2 (le_refl 2)
    have bound := upTo.fees _ (le_refl _) 2 (le_refl 2)
    have compare : UInt64.ofNat (amount.toNat + feePolicy.fee (selected ++ [utxo]).length 2) ≤
        UInt64.ofNat (totalValue (selected ++ [utxo])) ↔
          coversChange feePolicy amount (selected ++ [utxo]) = true := by
      rw [UInt64.ofNat_le_iff_le bound (by rw [UInt64.size]; omega), coversChange,
        decide_eq_true_iff]
    rw [selectUtxos, value, bind_ok, estimated, bind_ok, needed, bind_ok, takeUntil]
    by_cases enough : coversChange feePolicy amount (selected ++ [utxo]) = true
    · rw [if_pos (compare.mpr enough), if_pos enough]
      rfl
    · rw [if_neg (fun le => enough (compare.mp le)), if_neg enough]
      exact ih fits

end Selection

section Outcome

variable {checks : Bool} {senderKey : PrivateKey} {recipient : AccountAddress} {amount : UInt64}
  {feePolicy : FeePolicy} {utxos selected : List SpendableUtxo}

/-- The coins that `build_payment` selects. -/
def chosenUtxos (feePolicy : FeePolicy) (amount : UInt64) (utxos : List SpendableUtxo) :
    List SpendableUtxo :=
  takeUntil (coversChange feePolicy amount) [] (utxos.mergeSort fun a b => b.value ≤ a.value)

/-- The payment of some coins to some outputs. -/
def paymentOf (senderKey : PrivateKey) (selected : List SpendableUtxo)
    (outputs : List TransactionOut) : Transaction :=
  TransactionData.sign
    ⟨0, .payment, selected.map fun utxo => ⟨utxo.outpoint, 0⟩, outputs⟩ senderKey

theorem buildPayment_eq (ne : utxos ≠ []) (fits : PaymentFits feePolicy amount utxos) :
    buildPayment checks senderKey utxos recipient amount feePolicy =
      finishPayment checks senderKey recipient amount feePolicy
        (chosenUtxos feePolicy amount utxos)
        (UInt64.ofNat (totalValue (chosenUtxos feePolicy amount utxos))) := by
  have sortedFits := fits.perm (List.mergeSort_perm utxos fun a b => b.value ≤ a.value).symm
  have selection := @selectUtxos_eq checks feePolicy amount [] _ sortedFits
  have start : UInt64.ofNat (totalValue []) = 0 := rfl
  rw [start] at selection
  rw [buildPayment, failIf_of_not _ ne, bind_ok]
  dsimp only
  rw [selection, bind_ok]
  rfl

/-- The funds do not cover the amount and the fee of a single output. -/
theorem finishPayment_short (fits : PaymentFits feePolicy amount selected)
    (short : totalValue selected < amount.toNat + feePolicy.fee selected.length 1) :
    ∃ rest, finishPayment checks senderKey recipient amount feePolicy selected
      (UInt64.ofNat (totalValue selected)) = .error (.bail ("insufficient funds" ++ rest)) := by
  obtain ⟨estimated₁, needed₁⟩ := fits.estimates checks 1 (by decide)
  obtain ⟨estimated₂, -⟩ := fits.estimates checks 2 (le_refl 2)
  have start : toString "insufficient funds: have " = "insufficient funds" ++ ": have " := rfl
  rw [finishPayment, estimated₁, bind_ok, estimated₂, bind_ok, needed₁, bind_ok, failIf,
    if_pos ((fits.lt_iff (by decide)).mpr short), bind_error, start]
  simp only [String.append_assoc]
  exact ⟨_, rfl⟩

/-- Between the fees of one and of two outputs the change is subtracted before its guard. A build
that checks its arithmetic panics; where it wraps, the guard holds the result back. -/
theorem finishPayment_window (fits : PaymentFits feePolicy amount selected)
    (enough : amount.toNat + feePolicy.fee selected.length 1 ≤ totalValue selected)
    (short : totalValue selected < amount.toNat + feePolicy.fee selected.length 2) :
    finishPayment checks senderKey recipient amount feePolicy selected
        (UInt64.ofNat (totalValue selected)) =
      if checks then .error (.panic "attempt to subtract with overflow")
      else .ok (paymentOf senderKey selected [⟨amount, recipient⟩]) := by
  obtain ⟨estimated₁, needed₁⟩ := fits.estimates checks 1 (by decide)
  obtain ⟨estimated₂, needed₂⟩ := fits.estimates checks 2 (le_refl 2)
  have total := fits.total
  have bound := fits.fees _ (le_refl _) 2 (le_refl 2)
  have funds := (fits.lt_iff (by decide : 1 ≤ 2)).not.mpr (Nat.not_lt.mpr enough)
  have under : UInt64.ofNat (totalValue selected - amount.toNat) <
      UInt64.ofNat (feePolicy.fee selected.length 2) := by
    rw [UInt64.ofNat_lt_iff_lt (by rw [UInt64.size]; omega) (by rw [UInt64.size]; omega)]
    omega
  rw [finishPayment, estimated₁, bind_ok, estimated₂, bind_ok, needed₁, bind_ok,
    failIf_of_not _ funds, bind_ok]
  dsimp only
  rw [fits.subtract checks (by omega), bind_ok, subU64_of_lt under]
  cases checks with
  | true => rfl
  | false =>
    have guarded := UInt64.not_le.mpr ((fits.lt_iff (le_refl 2)).mpr short)
    rw [if_neg Bool.false_ne_true, bind_ok, needed₂, bind_ok, if_neg (fun h => guarded h.1),
      List.length_map, List.length_singleton, estimated₁, bind_ok, needed₁, bind_ok,
      failIf_of_not _ funds, bind_ok]
    rfl

/-- The funds cover the amount and the fee of two outputs: what is left is paid back when it is
above the dust threshold. -/
theorem finishPayment_covered (fits : PaymentFits feePolicy amount selected)
    (covers : amount.toNat + feePolicy.fee selected.length 2 ≤ totalValue selected) :
    ∃ remainder : UInt64,
      remainder.toNat = totalValue selected - amount.toNat - feePolicy.fee selected.length 2 ∧
      finishPayment checks senderKey recipient amount feePolicy selected
          (UInt64.ofNat (totalValue selected)) =
        .ok (paymentOf senderKey selected (if dustThreshold < remainder then
          [⟨amount, recipient⟩, ⟨remainder, senderKey.address⟩] else [⟨amount, recipient⟩])) := by
  obtain ⟨estimated₁, needed₁⟩ := fits.estimates checks 1 (by decide)
  obtain ⟨estimated₂, needed₂⟩ := fits.estimates checks 2 (le_refl 2)
  have total := fits.total
  have cheaper := feePolicy.fee_mono_outputs selected.length
  have funds₁ := (fits.lt_iff (by decide : 1 ≤ 2)).not.mpr (by omega)
  have funds₂ := (fits.lt_iff (le_refl 2)).not.mpr (Nat.not_lt.mpr covers)
  have left : UInt64.ofNat (feePolicy.fee selected.length 2) ≤
      UInt64.ofNat (totalValue selected - amount.toNat) := by
    rw [UInt64.ofNat_le_iff_le (by rw [UInt64.size]; omega) (by rw [UInt64.size]; omega)]
    omega
  refine ⟨UInt64.ofNat (totalValue selected - amount.toNat - feePolicy.fee selected.length 2),
    toNat_ofNat_u64 (by omega), ?_⟩
  rw [finishPayment, estimated₁, bind_ok, estimated₂, bind_ok, needed₁, bind_ok,
    failIf_of_not _ funds₁, bind_ok]
  dsimp only
  rw [fits.subtract checks (by omega), bind_ok, subU64_of_le left, bind_ok, needed₂, bind_ok,
    ← UInt64.ofNat_sub (by omega)]
  simp only [UInt64.not_lt.mp funds₂, true_and, List.length_map]
  by_cases worthwhile : dustThreshold < UInt64.ofNat
      (totalValue selected - amount.toNat - feePolicy.fee selected.length 2)
  · rw [if_pos worthwhile, List.length_cons, List.length_singleton, estimated₂, bind_ok, needed₂,
      bind_ok, failIf_of_not _ funds₂, bind_ok]
    rfl
  · rw [if_neg worthwhile, List.length_singleton, estimated₁, bind_ok, needed₁, bind_ok,
      failIf_of_not _ funds₁, bind_ok]
    rfl

end Outcome

end Builder

end StryiChain
