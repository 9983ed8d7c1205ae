import StryiChain.Node.Http
import StryiChain.Storage.Database
import StryiChain.Wallet.NodeFee

/-!
# A payment from the wallet to the pool of a node (`stryi_wallet/src/cmd.rs`)

The wallet asks a node for the outputs of its address, builds a payment from the answer and sends it
back.
-/

namespace StryiChain

/-- `FeePolicy::default`. -/
def FeePolicy.default : FeePolicy := ⟨1000, 500, 250, 10⟩

/-- The outputs of an answer, as `build_payment` takes them (`cmd.rs:264-274`). -/
def AddressBalanceResponse.spendable (response : AddressBalanceResponse) : List SpendableUtxo :=
  response.utxos.map fun u => ⟨⟨u.txid, u.vout⟩, u.value⟩

section Wallet

variable [Primitives]

/-- `serialize_for_submission` (`tx_builder.rs:107-111`). -/
def serializeForSubmission (tx : Transaction) : String :=
  String.ofList (base64Encode (Primitives.encodeTransaction tx))

/-- `cmd_send` between the two requests (`cmd.rs:260-284`). -/
def cmdSend (checks : Bool) (senderKey : PrivateKey) (recipient : AccountAddress) (amount : UInt64)
    (balanceResp : AddressBalanceResponse) : Except WalletError String := do
  failIf (balanceResp.utxos.isEmpty = true)
    (.bail s!"no UTXOs available for address {senderKey.address}")
  let tx ← buildPayment checks senderKey balanceResp.spendable recipient amount .default
  return serializeForSubmission tx

end Wallet

section Storage

/-- The coins are outputs of the account. -/
def HoldsCoins (view : Coins) (owner : AccountAddress) (selected : List SpendableUtxo) : Prop :=
  ∀ coin ∈ selected, ∃ u, view coin.outpoint = some u ∧ u.owner = owner ∧ u.value = coin.value

variable [Primitives]

/-- A storage answers as a map of outputs. -/
structure Serves {DB : Type} [UtxoStorage DB] (db : DB) (coins : Coins) : Prop where
  reads : ∀ o, getUtxo db o = .ok (coins o)
  owners : ∀ address, ∃ found, getUtxosForAddress db address = .ok found ∧
    ∀ o u, found.read o = some u ↔ coins o = some u ∧ u.owner = address

/-- The rows of a database do, after whatever calls. -/
theorem session_serves (requests : List StorageCall) :
    ∃ coins, Serves (session ByteView.call .empty requests).2 coins := by
  obtain ⟨-, filed⟩ := session_filed requests
  refine ⟨(session RocksView.call .empty requests).2.utxo.read, ⟨fun o => ?_, fun address => ?_⟩⟩
  · exact (filed.stores.getUtxo_eq o).trans (RocksView.getUtxo_ok filed.indexed.keyed o)
  · obtain ⟨found, found', read, read', same⟩ :=
      filed.stores.getUtxosForAddress_same filed.indexed address
    obtain ⟨all, run, owners⟩ := RocksView.getUtxosForAddress_ok filed.indexed address
    rw [run, Except.ok.injEq] at read'
    exact ⟨found, read, fun o u => by rw [same, ← read', owners]⟩

variable {DB : Type} [FullNodeStorage DB] {db : DB} {coins : Coins}

omit [Primitives] in
/-- A loop that collects what is there. -/
theorem foldlM_collect
    {step : Table OutPoint UTXO → OutPoint → Except StorageError (Table OutPoint UTXO)}
    (there : ∀ t o u, coins o = some u → step t o = .ok (AList.insert o u t))
    (missing : ∀ t o, coins o = none → step t o = .ok t) (l : List OutPoint)
    (start : Table OutPoint UTXO) :
    ∃ found, l.foldlM step start = .ok found ∧
      ∀ o, found.read o = if o ∈ l ∧ coins o ≠ none then coins o else start.read o := by
  induction l generalizing start with
  | nil => exact ⟨start, rfl, fun o => by simp⟩
  | cons op l ih =>
    rw [List.foldlM_cons]
    cases here : coins op with
    | none =>
      obtain ⟨found, run, read⟩ := ih start
      rw [missing start op here, bind_ok]
      refine ⟨found, run, fun o => ?_⟩
      rw [read]
      by_cases same : o = op
      · subst same
        simp [here]
      · simp [same]
    | some utxo =>
      obtain ⟨found, run, read⟩ := ih (AList.insert op utxo start)
      rw [there start op utxo here, bind_ok]
      refine ⟨found, run, fun o => ?_⟩
      rw [read, Table.read_insert]
      by_cases same : o = op
      · subst same
        simp [here]
      · simp [same]

omit [Primitives] in
/-- The lookup of the pool answers with what is stored. -/
theorem Serves.lookup (serves : Serves db coins) (outpoints : List OutPoint) :
    ∃ found, lookupMempoolUtxos db outpoints = .ok found ∧
      ∀ o, found.read o = if o ∈ outpoints then coins o else none := by
  obtain ⟨found, run, read⟩ : ∃ found, lookupMempoolUtxos db outpoints = .ok found ∧
      ∀ o, found.read o = if o ∈ outpoints ∧ coins o ≠ none then coins o else
        Table.read ∅ o := by
    unfold lookupMempoolUtxos
    refine foldlM_collect ?_ ?_ outpoints ∅
    · intro t o u here
      rw [serves.reads, here]
      rfl
    · intro t o here
      rw [serves.reads, here]
      rfl
  refine ⟨found, run, fun o => ?_⟩
  rw [read, Table.read_empty]
  by_cases mem : o ∈ outpoints
  · by_cases present : coins o = none
    · simp [present]
    · simp [mem, present]
  · simp [mem]

omit [Primitives] in
/-- Inputs that the pool does not create are looked up in the storage. -/
theorem Serves.external (serves : Serves db coins) {storage : TransactionStorage} {tx : Transaction}
    (outside : ∀ o ∈ tx.spentOutpoints, storage.getCreatingTx o = none) :
    ∃ external, MempoolTxValidator.externalUtxos (lookupMempoolUtxos db) tx storage = .ok external ∧
      ∀ o ∈ tx.spentOutpoints, external.read o = coins o := by
  have all : MempoolTxValidator.externalInputs tx storage = tx.spentOutpoints := by
    refine List.filter_eq_self.mpr fun o mem => ?_
    rw [outside o mem]
    rfl
  rw [MempoolTxValidator.externalUtxos, all]
  by_cases none' : tx.spentOutpoints.isEmpty = true
  · rw [if_pos none']
    refine ⟨∅, rfl, fun o mem => ?_⟩
    rw [List.isEmpty_iff.mp none'] at mem
    cases mem
  · obtain ⟨found, run, read⟩ := serves.lookup tx.spentOutpoints
    rw [if_neg none', run]
    exact ⟨found, rfl, fun o mem => by rw [read, if_pos mem]⟩

variable [HttpLibraries] {senderKey : PrivateKey} {response : AddressBalanceResponse}

/-- What a node tells of an address: each of its outputs once. -/
theorem Serves.told (serves : Serves db coins) {address : AccountAddress}
    (told : getBalance db address.display = .ok response) :
    (response.spendable.map SpendableUtxo.outpoint).Nodup ∧
      HoldsCoins coins address response.spendable := by
  obtain ⟨found, run, owners⟩ := serves.owners address
  rw [getBalance, Hash.fromHashString_display, mapError_ok, bind_ok, run, mapError_ok, bind_ok]
    at told
  have spendable : response.spendable =
      (iter found.toPairs).map fun entry => ⟨entry.1, entry.2.value⟩ := by
    cases told
    rw [AddressBalanceResponse.spendable, List.map_map]
    rfl
  constructor
  · rw [spendable, List.map_map]
    exact ((iter_perm found.toPairs).map Prod.fst).nodup_iff.mpr found.nodup_toPairs_keys
  · intro coin mem
    rw [spendable] at mem
    obtain ⟨⟨o, u⟩, listed, same⟩ := List.mem_map.mp mem
    obtain ⟨stored, owner⟩ := (owners o u).mp (Table.mem_toPairs.mp (mem_iter.mp listed))
    rw [← same]
    exact ⟨u, stored, owner, rfl⟩

end Storage

section Payments

variable [Primitives] {senderKey : PrivateKey} {recipient : AccountAddress} {amount : UInt64}
  {selected utxos : List SpendableUtxo} {outputs : List TransactionOut} {view : Coins}

omit [Primitives] in
theorem worthAll_of_holds {owner : AccountAddress} (holds : HoldsCoins view owner selected) :
    view.worthAll (selected.map SpendableUtxo.outpoint) = totalValue selected := by
  induction selected with
  | nil => rfl
  | cons coin selected ih =>
    obtain ⟨u, here, -, value⟩ := holds coin List.mem_cons_self
    rw [List.map_cons, Coins.worthAll_cons, Coins.worth_of_some here, value,
      ih fun other mem => holds other (List.mem_cons_of_mem _ mem), totalValue, totalValue,
      List.map_cons, List.sum_cons]

theorem spentOutpoints_paymentOf : (paymentOf senderKey selected outputs).spentOutpoints =
    selected.map SpendableUtxo.outpoint := by
  rw [Transaction.spentOutpoints, paymentOf, TransactionData.sign, List.map_map]
  rfl

variable (recovers : ∀ data : TransactionData,
  Primitives.recoverAuthor (data.sign senderKey) = some senderKey.address)

include recovers in
theorem author_paymentOf : (paymentOf senderKey selected outputs).author = senderKey.address := by
  have payment : (paymentOf senderKey selected outputs).data.kind = .payment := rfl
  rw [Transaction.author, if_pos payment, paymentOf, recovers, Option.getD_some]

variable (total : totalValue selected < 2 ^ 64)
  (pays : (outputs.map fun output => output.value.toNat).sum ≤ totalValue selected)

include recovers total pays

/-- The pool could take a payment of coins that it finds. -/
theorem admissible_paymentOf {storage : TransactionStorage} {external : Table OutPoint UTXO}
    (holds : HoldsCoins (poolView storage external) senderKey.address selected) :
    PoolAdmissible storage external (paymentOf senderKey selected outputs) where
  kind := rfl
  signed := by
    rw [author_paymentOf recovers]
    exact recovers _
  owned := by
    rw [author_paymentOf recovers, spentOutpoints_paymentOf]
    intro o mem
    obtain ⟨coin, listed, same⟩ := List.mem_map.mp mem
    obtain ⟨u, here, owner, -⟩ := holds coin listed
    exact ⟨u, same ▸ here, owner⟩
  pays := by
    have sum : (paymentOf senderKey selected outputs).outputTotal =
        (outputs.map fun output => output.value.toNat).sum := rfl
    rw [spentOutpoints_paymentOf, worthAll_of_holds holds, sum]
    omega

/-- A block could hold a payment of distinct coins. -/
theorem valid_paymentOf {external : Table OutPoint UTXO}
    (distinct : (selected.map SpendableUtxo.outpoint).Nodup)
    (holds : HoldsCoins external.read senderKey.address selected) :
    ∃ spent,
      validatePaymentTx ∅ external [] (paymentOf senderKey selected outputs) = .ok spent := by
  have sum : (paymentOf senderKey selected outputs).outputTotal =
      (outputs.map fun output => output.value.toNat).sum := rfl
  have inputs : (paymentOf senderKey selected outputs).paymentInputs =
      selected.map SpendableUtxo.outpoint := (if_pos rfl).trans spentOutpoints_paymentOf
  have signed : Primitives.recoverAuthor (paymentOf senderKey selected outputs) ≠ none := by
    rw [paymentOf, recovers]
    exact Option.some_ne_none _
  refine (validatePaymentTx_iff rfl).mpr ⟨spentOutpoints_paymentOf ▸ distinct, signed, ?_, ?_, ?_⟩
  · show Owned external.read (paymentOf senderKey selected outputs).author
      (paymentOf senderKey selected outputs).paymentInputs
    rw [author_paymentOf recovers, inputs]
    intro o mem
    obtain ⟨coin, listed, same⟩ := List.mem_map.mp mem
    obtain ⟨u, here, owner, -⟩ := holds coin listed
    exact ⟨u, same ▸ here, owner⟩
  · show (0 : UInt64).toNat +
      Coins.worthAll external.read (paymentOf senderKey selected outputs).paymentInputs < 2 ^ 64
    rw [inputs, worthAll_of_holds holds, UInt64.toNat_zero, Nat.zero_add]
    exact total
  · intro kind
    show (paymentOf senderKey selected outputs).outputTotal < 2 ^ 64 ∧
      (paymentOf senderKey selected outputs).outputTotal ≤ (0 : UInt64).toNat +
        Coins.worthAll external.read (paymentOf senderKey selected outputs).paymentInputs
    rw [inputs, worthAll_of_holds holds, UInt64.toNat_zero, Nat.zero_add, sum]
    exact ⟨Nat.lt_of_le_of_lt pays total, pays⟩

end Payments

section Sending

variable [Primitives] [HttpLibraries] {senderKey : PrivateKey} {recipient : AccountAddress}
  {amount : UInt64} {checks : Bool} {response : AddressBalanceResponse} {rawTx : String}

/-- A node reads what the wallet has signed and encoded. -/
theorem readTx_serialize (encoded : EncodesTransactions) {data : TransactionData}
    (recovers : Primitives.recoverAuthor (data.sign senderKey) = some senderKey.address)
    (verifies : HttpLibraries.verifyPrehash (data.sign senderKey) = true) :
    readTx (serializeForSubmission (data.sign senderKey)) = .ok (data.sign senderKey) := by
  have recovered : Primitives.recoverAuthor (data.sign senderKey) ≠ none := by
    rw [recovers]
    exact Option.some_ne_none _
  have verified : ¬ (data.sign senderKey).verifySignature = false := by
    rw [Transaction.verifySignature, verifies, ite_self]
    decide
  rw [readTx, serializeForSubmission, String.toList_ofList, base64Decode_encode, okOr_some, bind_ok,
    encoded, Codec.fromBytes_encode, okOr_some, bind_ok, failIf_of_not _ recovered, bind_ok,
    failIf_of_not _ verified, bind_ok]
  rfl

omit [HttpLibraries] in
/-- What the wallet sends for the outputs that it was told of. -/
theorem cmdSend_eq_ok (distinct : (response.spendable.map SpendableUtxo.outpoint).Nodup)
    (fits : PaymentFits .default amount response.spendable)
    (sent : cmdSend checks senderKey recipient amount response = .ok rawTx) :
    let selected := chosenUtxos .default amount response.spendable
    ∃ outputs, rawTx = serializeForSubmission (paymentOf senderKey selected outputs) ∧
      (outputs.map fun output => output.value.toNat).sum ≤ totalValue selected ∧
      IsPayment senderKey recipient amount .default response.spendable selected
        (paymentOf senderKey selected outputs) := by
  intro selected
  rw [cmdSend, bind_eq_ok] at sent
  obtain ⟨_, present, sent⟩ := sent
  rw [failIf_eq_ok] at present
  rw [bind_eq_ok] at sent
  obtain ⟨tx, built, sent⟩ := sent
  have ne : response.spendable ≠ [] := by
    intro none'
    rw [AddressBalanceResponse.spendable, List.map_eq_nil_iff] at none'
    exact present (List.isEmpty_iff.mpr none')
  have whole := built
  rw [buildPayment_eq ne fits] at whole
  have payment := finishPayment_sound chosenUtxos_subperm distinct fits.chosen whole
  have raw : serializeForSubmission tx = rawTx := (pure_eq_ok _ _).mp sent
  rw [← raw]
  rcases buildPayment_outcome fits built with ⟨least, -, same⟩ | ⟨change, -, exactly, same⟩
  · rw [same] at payment ⊢
    refine ⟨_, rfl, ?_, payment⟩
    show amount.toNat + 0 ≤ totalValue (chosenUtxos .default amount response.spendable)
    omega
  · rw [same] at payment ⊢
    refine ⟨_, rfl, ?_, payment⟩
    show amount.toNat + (change.toNat + 0) ≤
      totalValue (chosenUtxos .default amount response.spendable)
    omega

variable [Floats]

/-- A payment that the wallet builds from what a node has told it of its address. As long as its
coins are stored and not made by the pool, it is valid for a block; no node refuses it but for what
is in the pool already; and a node whose pool has room and no transaction on the same coins takes it
and passes it on. -/
theorem sent_payments_are_taken {requests : List StorageCall} {db : ByteView}
    (left : (session ByteView.call .empty requests).2 = db) (encoded : EncodesTransactions)
    (recovers : ∀ data : TransactionData,
      Primitives.recoverAuthor (data.sign senderKey) = some senderKey.address)
    (verifies : ∀ data : TransactionData,
      HttpLibraries.verifyPrehash (data.sign senderKey) = true)
    (told : getBalance db senderKey.address.display = .ok response)
    (fits : PaymentFits .default amount response.spendable)
    (sent : cmdSend checks senderKey recipient amount response = .ok rawTx) :
    ∃ tx selected, IsPayment senderKey recipient amount .default response.spendable selected tx ∧
      ∀ {requests' : List StorageCall} {db' : ByteView},
        (session ByteView.call .empty requests').2 = db' →
        (∀ o ∈ tx.spentOutpoints, db'.getUtxo o = db.getUtxo o) →
        (∃ found spent, lookupMempoolUtxos db' tx.spentOutpoints = .ok found ∧
          validatePaymentTx ∅ found [] tx = .ok spent) ∧
        ∀ (pool : MemPool) (now : UInt64),
          (∀ o ∈ tx.spentOutpoints, pool.storage.getCreatingTx o = none) →
          (∀ e, (sendTx pool (lookupMempoolUtxos db') now rawTx).answer = .error e →
            ∃ refusal, Standing refusal ∧ e = mapMempool refusal) ∧
          (pool.find tx.data.hash = none → pool.storage.len < pool.config.maxSize →
            (∀ o ∈ tx.spentOutpoints, pool.storage.getSpendingTx o = none) →
            ∃ fee, sendTx pool (lookupMempoolUtxos db') now rawTx =
              ⟨.ok "Transaction accepted", pool.store now tx fee, some tx⟩) := by
  obtain ⟨coins, serves⟩ := session_serves requests
  rw [left] at serves
  obtain ⟨distinct, holds⟩ := serves.told told
  obtain ⟨outputs, raw, pays, payment⟩ := cmdSend_eq_ok distinct fits sent
  have total := fits.chosen.total
  have inside : HoldsCoins coins senderKey.address
      (chosenUtxos .default amount response.spendable) := fun coin mem =>
    holds coin (chosenUtxos_subperm.subset mem)
  refine ⟨_, _, payment, ?_⟩
  intro requests' db' left' kept
  obtain ⟨coins', serves'⟩ := session_serves requests'
  rw [left'] at serves'
  -- whatever the lookup of the node finds, it finds the coins
  have found {view : Coins} (same : ∀ o ∈ (paymentOf senderKey
      (chosenUtxos .default amount response.spendable) outputs).spentOutpoints,
      view o = coins' o) : HoldsCoins view senderKey.address
      (chosenUtxos .default amount response.spendable) := by
    intro coin mem
    obtain ⟨u, here, rest⟩ := inside coin mem
    have spent : coin.outpoint ∈ (paymentOf senderKey
        (chosenUtxos .default amount response.spendable) outputs).spentOutpoints := by
      rw [spentOutpoints_paymentOf]
      exact List.mem_map_of_mem mem
    have stays : coins' coin.outpoint = coins coin.outpoint :=
      Except.ok.inj (((serves'.reads _).symm.trans (kept _ spent)).trans (serves.reads _))
    exact ⟨u, by rw [same _ spent, stays, here], rest⟩
  constructor
  · obtain ⟨table, run, read⟩ := serves'.lookup (paymentOf senderKey
      (chosenUtxos .default amount response.spendable) outputs).spentOutpoints
    obtain ⟨spent, valid⟩ := valid_paymentOf recovers total pays payment.distinct
      (found fun o mem => by rw [read, if_pos mem])
    exact ⟨table, spent, run, valid⟩
  · intro pool now outside
    obtain ⟨external, answer, read⟩ := serves'.external outside
    have admissible := admissible_paymentOf recovers total pays
      (found fun o mem => (poolView_external (outside o mem)).trans (read o mem))
    have reads : readTx rawTx = .ok (paymentOf senderKey
        (chosenUtxos .default amount response.spendable) outputs) := by
      rw [raw]
      exact readTx_serialize encoded (recovers _) (verifies _)
    constructor
    · intro e refused
      rw [sendTx, reads] at refused
      dsimp only at refused
      split at refused
      · cases refused
      · rename_i refusal pool' added
        cases refused
        exact ⟨refusal, addTransaction_refusal answer admissible (congrArg Prod.fst added), rfl⟩
    · intro missing room unspent
      obtain ⟨fee, added⟩ := addTransaction_unopposed answer admissible missing room unspent
      refine ⟨fee, ?_⟩
      rw [sendTx, reads]
      dsimp only
      rw [added]

end Sending

namespace Sample

/-- A key whose signatures name its account. -/
def signer : PrivateKey := ⟨⟨7⟩, fun _ => ⟨7⟩⟩

/-- A chain on which this account has a balance. -/
def paidConfig : GenesisInitConfig := ⟨AList.insert ⟨7⟩ 1000000 ∅, ⟨consts⟩, 1⟩

scoped instance httpLibraries : HttpLibraries where
  verifyPrehash _ := true
  storageErrorText _ := "failed"
  decodeErrorText _ := "invalid"

end Sample

section Witness

open Sample

local instance postcardPrimitives : Primitives := encodedPrimitives

/-- The wallet asks, pays and is heard. -/
theorem sent_payments_are_taken_sample : ∃ db response rawTx tx fee,
    (session ByteView.call .empty [.initializeInPath (some paidConfig) 0]).2 = db ∧
      getBalance db signer.address.display = .ok response ∧
      cmdSend true signer ⟨8⟩ 100000 response = .ok rawTx ∧
      sendTx (MemPool.new poolConfig) (lookupMempoolUtxos db) 0 rawTx =
        ⟨.ok "Transaction accepted", (MemPool.new poolConfig).store 0 tx fee, some tx⟩ := by
  obtain ⟨response, told, test⟩ := exists_ok_of_any (show ((getBalance
    (session ByteView.call .empty [.initializeInPath (some paidConfig) 0]).2
    signer.address.display).toOption.any fun response =>
      decide (response.spendable.map SpendableUtxo.value = [1000000])) = true by decide +kernel)
  obtain ⟨coin, alone, worth⟩ := List.map_eq_singleton_iff.mp (of_decide_eq_true test)
  have fits : PaymentFits .default 100000 response.spendable := by
    rw [alone]
    exact fits_single (by decide)
  have chosen : chosenUtxos .default 100000 [coin] = [coin] := by
    rw [chosenUtxos, List.mergeSort_singleton]
    simp [takeUntil]
  have covers : (100000 : UInt64).toNat + FeePolicy.default.fee [coin].length 2 ≤
      totalValue [coin] := by
    rw [totalValue_singleton, worth, List.length_singleton]
    decide
  have built : ∃ tx, buildPayment true signer response.spendable ⟨8⟩ 100000 .default = .ok tx := by
    obtain ⟨remainder, -, result⟩ :=
      @finishPayment_covered _ true signer ⟨8⟩ 100000 .default [coin] (alone ▸ fits) covers
    rw [buildPayment_eq (by rw [alone]; exact List.cons_ne_nil _ _) fits, alone, chosen, result]
    exact ⟨_, rfl⟩
  obtain ⟨tx, built⟩ := built
  have present : ¬ response.utxos.isEmpty = true := by
    intro none'
    rw [AddressBalanceResponse.spendable, List.isEmpty_iff.mp none'] at alone
    cases alone
  have sent : cmdSend true signer ⟨8⟩ 100000 response = .ok (serializeForSubmission tx) := by
    rw [cmdSend, failIf_of_not _ present, bind_ok, built, bind_ok]
    rfl
  have recovers (data : TransactionData) :
      Primitives.recoverAuthor (data.sign signer) = some signer.address :=
    congrArg some (congrArg Hash.mk (show (7 : BitVec 520).setWidth 160 = 7 by decide +kernel))
  obtain ⟨tx', selected, -, heard⟩ := sent_payments_are_taken rfl (fun _ => rfl) recovers
    (fun _ => rfl) told fits sent
  obtain ⟨fee, taken⟩ := ((heard rfl fun _ _ => rfl).2 (MemPool.new poolConfig) 0
    fun _ _ => rfl).2 rfl (by decide) fun _ _ => rfl
  exact ⟨_, response, _, tx', fee, rfl, told, sent, taken⟩

end Witness

end StryiChain
