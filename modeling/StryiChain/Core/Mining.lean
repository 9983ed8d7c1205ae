import StryiChain.Core.Block

/-!
# The nonce search (`block/mining.rs`)

The header is encoded once and each attempt overwrites the nonce in that buffer. The patched
buffer is the encoding of the header with that nonce, so the search accepts exactly the nonces
under which `block_hash` meets the threshold.
-/

namespace StryiChain

/-- `NONCE_OFFSET`. -/
def nonceOffset : Nat := 114

/-- The buffer of one attempt (`mining.rs:24-25`). -/
def patchNonce (baseBuf : List UInt8) (candidate : UInt32) : List UInt8 :=
  copyInto baseBuf nonceOffset (leBytes 4 candidate.toNat)

def BlockHeader.withNonce (header : BlockHeader) (nonce : UInt32) : BlockHeader :=
  { header with nonce }

def Block.withNonce (block : Block) (nonce : UInt32) : Block :=
  { block with header := block.header.withNonce nonce }

@[simp] theorem BlockHeader.isGenesis_withNonce (header : BlockHeader) (nonce : UInt32) :
    (header.withNonce nonce).isGenesis = header.isGenesis := rfl

/-- The nonce is the field at `NONCE_OFFSET` of the layout. -/
theorem patchNonce_toHashBytes (header : BlockHeader) (candidate : UInt32) :
    patchNonce header.toHashBytes candidate = (header.withNonce candidate).toHashBytes := by
  refine copyInto_field ?_ ?_
  · simp only [List.length_append, length_leBytes, Hash.length_bytes]
    rfl
  · rw [length_leBytes, length_leBytes]

variable [Primitives]

/-- One attempt of the search. -/
def attempt (threshold : HashThreshold) (baseBuf : List UInt8) (candidate : UInt32) : Bool :=
  let hash : BlockHash := ⟨Primitives.blockDigest (patchNonce baseBuf candidate)⟩
  hash.meetsThreshold threshold

/-- `mine_block_memcpy` (`mining.rs:10-37`) over the random candidates of the batches it starts
before `should_stop` answers true, each batch in the order in which its threads report. The
mined block is the result of `true`. -/
def mineBlockMemcpy (batches : List (List UInt32)) (block : Block) : Option Block :=
  let threshold := block.header.hashThreshold
  let baseBuf := block.header.toHashBytes
  let found := batches.findSome? fun batch => batch.find? (attempt threshold baseBuf)
  found.map block.withNonce

/-- The hash of an attempt is the hash of the block with that nonce. -/
theorem attempt_eq {block : Block} (normal : block.header.isGenesis = false) (nonce : UInt32) :
    attempt block.header.hashThreshold block.header.toHashBytes nonce =
      (block.withNonce nonce).blockHash.meetsThreshold block.header.hashThreshold := by
  have normal' : (block.withNonce nonce).header.isGenesis = false := normal
  rw [Block.blockHash, normal', if_neg Bool.false_ne_true, attempt, patchNonce_toHashBytes]
  rfl

/-- The search can return a block exactly when it is the block with a nonce that passes. -/
theorem mineBlockMemcpy_iff {block mined : Block} :
    (∃ batches, mineBlockMemcpy batches block = some mined) ↔
      ∃ nonce, attempt block.header.hashThreshold block.header.toHashBytes nonce = true ∧
        mined = block.withNonce nonce := by
  simp only [mineBlockMemcpy, Option.map_eq_some_iff]
  constructor
  · rintro ⟨batches, nonce, found, same⟩
    obtain ⟨batch, -, hit⟩ := List.exists_of_findSome?_eq_some found
    exact ⟨nonce, List.find?_some hit, same.symm⟩
  · rintro ⟨nonce, passes, same⟩
    exact ⟨[[nonce]], nonce, by simp [passes], same.symm⟩

end StryiChain
