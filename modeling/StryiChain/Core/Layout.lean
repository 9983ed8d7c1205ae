import StryiChain.Core.Mining
import Mathlib.Data.Nat.Digits.Defs

/-!
# The header layout (`block/mod.rs:52-78`, `difficulty.rs:110-122`)

A header is hashed through a buffer of 119 bytes whose fields are written at fixed offsets. The
writes fill the buffer from its first byte to its last, so that the buffer names the header, and
the nonce search may overwrite one field of it in place.
-/

namespace StryiChain

/-- `HEADER_HASH_SIZE`. -/
def headerHashSize : Nat := 119

/-- `threshold_to_bytes`: the little-endian bytes of a threshold. -/
def thresholdToBytes (value : HashThreshold) : List UInt8 := leBytes 32 value.toNat

/-- `threshold_from_bytes`. -/
def thresholdFromBytes (bytes : List UInt8) : Except String HashThreshold :=
  if bytes.length ≠ 32 then
    .error "hash_threshold must contain exactly 32 bytes"
  else
    .ok (BitVec.ofNat 256 (Nat.ofDigits 256 (bytes.map UInt8.toNat)))

theorem ofDigits_leBytes {n x : Nat} (fits : x < 256 ^ n) :
    Nat.ofDigits 256 ((leBytes n x).map UInt8.toNat) = x := by
  induction n generalizing x with
  | zero =>
    rw [Nat.pow_zero, Nat.lt_one_iff] at fits
    rw [fits]
    rfl
  | succ n ih =>
    have high : x / 256 < 256 ^ n := by
      rw [Nat.pow_succ] at fits
      exact Nat.div_lt_of_lt_mul (by omega)
    have low : (UInt8.ofNat (x % 256)).toNat = x % 256 :=
      UInt8.toNat_ofNat_of_lt' (Nat.mod_lt _ (by decide))
    rw [leBytes, List.map_cons, Nat.ofDigits_cons, low, ih high]
    exact Nat.mod_add_div x 256

/-- The codec of a threshold loses nothing. -/
theorem thresholdFromBytes_toBytes (value : HashThreshold) :
    thresholdFromBytes (thresholdToBytes value) = .ok value := by
  have fits : value.toNat < 256 ^ 32 := value.isLt
  rw [thresholdFromBytes, thresholdToBytes, length_leBytes, if_neg (by decide),
    ofDigits_leBytes fits, BitVec.ofNat_toNat, BitVec.setWidth_eq]

/-- Fields that cover a buffer between two offsets, each starting where the one before it ends. -/
def Tiles : Nat → List (Nat × List UInt8) → Nat → Prop
  | start, [], stop => start = stop
  | start, field :: rest, stop => field.1 = start ∧ Tiles (start + field.2.length) rest stop

theorem Tiles.le {start stop : Nat} {fields : List (Nat × List UInt8)}
    (tiles : Tiles start fields stop) : start ≤ stop := by
  induction fields generalizing start with
  | nil => exact Nat.le_of_eq tiles
  | cons field rest ih => exact Nat.le_trans (Nat.le_add_right _ _) (ih tiles.2)

/-- Writing fields that cover the rest of a blank buffer leaves their concatenation. -/
theorem foldl_copyInto {fields : List (Nat × List UInt8)} {front : List UInt8} {stop : Nat}
    (tiles : Tiles front.length fields stop) :
    fields.foldl (fun buf field => copyInto buf field.1 field.2)
        (front ++ List.replicate (stop - front.length) 0) =
      front ++ (fields.map Prod.snd).flatten := by
  induction fields generalizing front with
  | nil =>
    have done : front.length = stop := tiles
    simp [done]
  | cons field rest ih =>
    have start : field.1 = front.length := tiles.1
    have covers : Tiles (front ++ field.2).length rest stop := by
      rw [List.length_append]
      exact tiles.2
    have room : (front ++ field.2).length ≤ stop := covers.le
    have blank : List.replicate (stop - front.length) (0 : UInt8) =
        List.replicate field.2.length 0 ++ List.replicate (stop - (front ++ field.2).length) 0 := by
      rw [List.replicate_append_replicate, List.length_append]
      rw [List.length_append] at room
      congr 1
      omega
    have write : copyInto (front ++ List.replicate (stop - front.length) 0) field.1 field.2 =
        (front ++ field.2) ++ List.replicate (stop - (front ++ field.2).length) 0 := by
      rw [blank, ← List.append_assoc]
      exact copyInto_field start.symm (by rw [List.length_replicate])
    rw [List.foldl_cons, write, ih covers, List.map_cons, List.flatten_cons, List.append_assoc]

theorem Tiles.inside {start stop : Nat} {fields : List (Nat × List UInt8)}
    (tiles : Tiles start fields stop) : ∀ field ∈ fields, field.1 + field.2.length ≤ stop := by
  induction fields generalizing start with
  | nil => simp
  | cons field rest ih =>
    intro other mem
    rcases List.mem_cons.mp mem with same | later
    · rw [same, tiles.1]
      exact tiles.2.le
    · exact ih tiles.2 other later

/-- Writes inside a buffer keep its length. -/
theorem length_foldl_copyInto {fields : List (Nat × List UInt8)} {buf : List UInt8}
    (inside : ∀ field ∈ fields, field.1 + field.2.length ≤ buf.length) :
    (fields.foldl (fun buf field => copyInto buf field.1 field.2) buf).length = buf.length := by
  induction fields generalizing buf with
  | nil => rfl
  | cons field rest ih =>
    have write : (copyInto buf field.1 field.2).length = buf.length := by
      have room := inside field (List.mem_cons_self ..)
      simp only [copyInto, List.length_append, List.length_take, List.length_drop]
      omega
    rw [List.foldl_cons, ih, write]
    intro other mem
    rw [write]
    exact inside other (List.mem_cons_of_mem _ mem)

/-- `buf[i] = byte` is the write of one byte. -/
theorem set_eq_copyInto {buf : List UInt8} {i : Nat} {byte : UInt8} (inside : i < buf.length) :
    buf.set i byte = copyInto buf i [byte] := by
  rw [List.set_eq_take_append_cons_drop, if_pos inside, copyInto, List.append_assoc]
  rfl

namespace BlockHeader

/-- The statements of `to_hash_bytes` in their order, on a buffer of zeros. -/
def writeHashBytes (header : BlockHeader) : List UInt8 :=
  let buf := List.replicate headerHashSize 0
  let buf := copyInto buf 0 (leBytes 2 header.version.toNat)
  let buf := copyInto buf 2 header.merkleRootHash.bytes
  let buf := copyInto buf 34 header.previousBlockHash.bytes
  let buf := copyInto buf 66 (leBytes 8 header.height.toNat)
  let buf := copyInto buf 74 (thresholdToBytes header.hashThreshold)
  let buf := copyInto buf 106 (leBytes 8 header.timestamp.toNat)
  let buf := copyInto buf nonceOffset (leBytes 4 header.nonce.toNat)
  buf.set 118 (if header.genesisState.isSome then 1 else 0)

/-- The fields, each with the offset it is written at. -/
def fields (header : BlockHeader) : List (Nat × List UInt8) :=
  [(0, leBytes 2 header.version.toNat), (2, header.merkleRootHash.bytes),
    (34, header.previousBlockHash.bytes), (66, leBytes 8 header.height.toNat),
    (74, thresholdToBytes header.hashThreshold), (106, leBytes 8 header.timestamp.toNat),
    (nonceOffset, leBytes 4 header.nonce.toNat),
    (118, [if header.genesisState.isSome then 1 else 0])]

/-- The fields cover the 119 bytes. -/
theorem tiles_fields (header : BlockHeader) : Tiles 0 header.fields headerHashSize := by
  simp only [fields, Tiles, thresholdToBytes, length_leBytes, Hash.length_bytes, nonceOffset,
    headerHashSize, List.length_singleton]
  decide

/-- The encoding is its fields in their order. -/
theorem toHashBytes_eq_flatten (header : BlockHeader) :
    header.toHashBytes = (header.fields.map Prod.snd).flatten := by
  simp only [fields, List.map_cons, List.map_nil, List.flatten_cons, List.flatten_nil,
    List.append_nil]
  simp only [toHashBytes, List.append_assoc]
  rfl

/-- The buffer that the source fills is the concatenation of the fields. -/
theorem writeHashBytes_eq (header : BlockHeader) :
    header.writeHashBytes = header.toHashBytes := by
  -- the marker is the last byte of the buffer, which the writes before it leave at its length
  have size : (header.fields.dropLast.foldl (fun buf field => copyInto buf field.1 field.2)
      (List.replicate headerHashSize 0)).length = headerHashSize := by
    rw [length_foldl_copyInto, List.length_replicate]
    intro field mem
    rw [List.length_replicate]
    exact header.tiles_fields.inside field (List.dropLast_subset _ mem)
  have last : header.fields.dropLast ++ [(118, [if header.genesisState.isSome then 1 else 0])] =
      header.fields := by
    simp only [fields, List.dropLast, List.cons_append, List.nil_append]
  have writes := @foldl_copyInto header.fields [] headerHashSize header.tiles_fields
  rw [List.nil_append, List.nil_append, List.length_nil, Nat.sub_zero] at writes
  calc header.writeHashBytes
      = (header.fields.dropLast.foldl (fun buf field => copyInto buf field.1 field.2)
          (List.replicate headerHashSize 0)).set 118
            (if header.genesisState.isSome then 1 else 0) := by
        simp only [writeHashBytes, fields, List.dropLast, List.foldl_cons, List.foldl_nil]
    _ = header.fields.foldl (fun buf field => copyInto buf field.1 field.2)
          (List.replicate headerHashSize 0) := by
        rw [set_eq_copyInto (by rw [size]; decide), ← last, List.foldl_append, last,
          List.foldl_cons, List.foldl_nil]
    _ = (header.fields.map Prod.snd).flatten := writes
    _ = header.toHashBytes := header.toHashBytes_eq_flatten.symm

theorem toHashBytes_injective {h₁ h₂ : BlockHeader} (normal₁ : h₁.isGenesis = false)
    (normal₂ : h₂.isGenesis = false) (same : h₁.toHashBytes = h₂.toHashBytes) : h₁ = h₂ := by
  have widths : (h₁.fields.map Prod.snd).map List.length =
      (h₂.fields.map Prod.snd).map List.length := by
    simp only [fields, thresholdToBytes, List.map_cons, List.map_nil, length_leBytes,
      Hash.length_bytes, List.length_singleton]
  rw [toHashBytes_eq_flatten, toHashBytes_eq_flatten] at same
  have equal := List.eq_iff_flatten_eq.mpr ⟨same, widths⟩
  simp only [fields, thresholdToBytes, List.map_cons, List.map_nil, List.cons.injEq] at equal
  obtain ⟨version, merkle, previous, height, threshold, timestamp, nonce, -⟩ := equal
  have version : h₁.version = h₂.version :=
    UInt16.toNat_inj.mp (leBytes_inj h₁.version.toNat_lt h₂.version.toNat_lt version)
  have height : h₁.height = h₂.height :=
    UInt64.toNat_inj.mp (leBytes_inj h₁.height.toNat_lt h₂.height.toNat_lt height)
  have threshold : h₁.hashThreshold = h₂.hashThreshold :=
    BitVec.eq_of_toNat_eq (leBytes_inj h₁.hashThreshold.isLt h₂.hashThreshold.isLt threshold)
  have timestamp : h₁.timestamp = h₂.timestamp :=
    UInt64.toNat_inj.mp (leBytes_inj h₁.timestamp.toNat_lt h₂.timestamp.toNat_lt timestamp)
  have nonce : h₁.nonce = h₂.nonce :=
    UInt32.toNat_inj.mp (leBytes_inj h₁.nonce.toNat_lt h₂.nonce.toNat_lt nonce)
  have state : h₁.genesisState = h₂.genesisState := by
    rw [isGenesis, Option.isSome_eq_false_iff, Option.isNone_iff_eq_none] at normal₁ normal₂
    rw [normal₁, normal₂]
  cases h₁
  cases h₂
  simp_all [Hash.bytes_injective.eq_iff]

end BlockHeader

section ProofOfWork

variable [Primitives]

/-- `Block::validate_proof_of_work` (`block/mod.rs:262-266`). -/
def Block.validateProofOfWork (block : Block) : Bool :=
  let hash := block.blockHash
  hash.meetsThreshold block.header.hashThreshold

/-- A nonce that the search accepts passes the check of the block that carries it. The digest of
a genesis block is zero and passes every threshold. -/
theorem attempt_validates {block : Block} {nonce : UInt32}
    (passes : attempt block.header.hashThreshold block.header.toHashBytes nonce = true) :
    (block.withNonce nonce).validateProofOfWork = true := by
  cases marker : block.header.isGenesis with
  | false =>
    rw [attempt_eq marker] at passes
    exact passes
  | true =>
    have marker' : (block.withNonce nonce).header.isGenesis = true := marker
    rw [Block.validateProofOfWork, Block.blockHash, if_pos marker']
    exact decide_eq_true (Nat.zero_le _)

/-- The header encoding: the writes of the source fill its 119 bytes without a gap or an overlap,
two normal headers with one encoding are equal, the nonce can be patched in place, and what the
nonce search returns passes the check of its proof of work. -/
theorem header_encoding :
    (∀ header : BlockHeader, Tiles 0 header.fields headerHashSize ∧
      header.writeHashBytes = (header.fields.map Prod.snd).flatten ∧
      header.writeHashBytes = header.toHashBytes) ∧
    (∀ h₁ h₂ : BlockHeader, h₁.isGenesis = false → h₂.isGenesis = false →
      h₁.toHashBytes = h₂.toHashBytes → h₁ = h₂) ∧
    (∀ (header : BlockHeader) (nonce : UInt32),
      patchNonce header.toHashBytes nonce = (header.withNonce nonce).toHashBytes) ∧
    ∀ (batches : List (List UInt32)) (block mined : Block),
      mineBlockMemcpy batches block = some mined → mined.validateProofOfWork = true := by
  refine ⟨?layout, ?injective, patchNonce_toHashBytes, ?mined⟩
  case layout =>
    intro header
    exact ⟨header.tiles_fields, header.writeHashBytes_eq.trans header.toHashBytes_eq_flatten,
      header.writeHashBytes_eq⟩
  case injective =>
    intro h₁ h₂ normal₁ normal₂ same
    exact BlockHeader.toHashBytes_injective normal₁ normal₂ same
  case mined =>
    intro batches block mined found
    have search := mineBlockMemcpy_iff.mp ⟨batches, found⟩
    obtain ⟨nonce, passes, same⟩ := search
    rw [same]
    exact attempt_validates passes

end ProofOfWork

open scoped Sample in
/-- Two headers that differ in their nonce are hashed from different bytes, and the search that
is given the nonce finds it. -/
theorem header_encoding_sample :
    (Sample.above Sample.genesis 1 []).header.toHashBytes ≠
        (Sample.above Sample.genesis 2 []).header.toHashBytes ∧
      ((Sample.above Sample.genesis 1 []).withNonce 3).validateProofOfWork = true := by
  refine ⟨?differ, ?found⟩
  case differ =>
    intro same
    have equal := header_encoding.2.1 _ _ rfl rfl same
    exact absurd (congrArg BlockHeader.nonce equal) (by decide)
  case found =>
    refine header_encoding.2.2.2 [[3]] (Sample.above Sample.genesis 1 []) _ ?_
    decide +kernel

end StryiChain
