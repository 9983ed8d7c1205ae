import StryiChain.Core.Layout

/-!
# Hashes from their text (`hash.rs:68-129`)

A hash is printed as its prefix and lower-case hexadecimal digits, and read back from its prefix
and digits of either case. Texts are compared by their bytes, as in the source.
-/

namespace StryiChain

/-- The part of `StryiCoreError` (`error.rs:26-97`) that reading a hash or a block of the wire
produces. -/
inductive DecodeError where
  | invalidPrefix (expected actual : String)
  | invalidHex (err : FromHexError)
  | invalidLength (expected actual : Nat)
  | other (msg : String)
  deriving DecidableEq

namespace Hash

/-- `TryFrom<&[u8]> for Hash<K>` (`hash.rs:87-105`). -/
def tryFrom (kind : HashKind) (value : List UInt8) : Except DecodeError (Hash kind) := do
  failIf (value.length ≠ kind.size) (.invalidLength kind.size value.length)
  return ⟨BitVec.ofNat _ (Nat.ofDigits 256 (value.reverse.map UInt8.toNat))⟩

variable [Hex]

/-- `Hash::from_hash_string` (`hash.rs:68-84`). -/
def fromHashString (kind : HashKind) (s : String) : Except DecodeError (Hash kind) := do
  failIf (¬ utf8 kind.tag <+: utf8 s)
    (.invalidPrefix kind.tag (String.ofList (s.toList.take (utf8 kind.tag).length)))
  let hexPart := (utf8 s).drop (utf8 kind.tag).length
  let bytes ← (hexDecode hexPart).mapError .invalidHex
  tryFrom kind bytes

end Hash

section Numbers

/-- Bytes are spelled by the number that they spell. -/
theorem leBytes_ofDigits (bytes : List UInt8) :
    leBytes bytes.length (Nat.ofDigits 256 (bytes.map UInt8.toNat)) = bytes := by
  induction bytes with
  | nil => rfl
  | cons byte bytes ih =>
    have small := byte.toNat_lt
    have low : (byte.toNat + 256 * Nat.ofDigits 256 (bytes.map UInt8.toNat)) % 256 = byte.toNat := by
      omega
    have high : (byte.toNat + 256 * Nat.ofDigits 256 (bytes.map UInt8.toNat)) / 256 =
        Nat.ofDigits 256 (bytes.map UInt8.toNat) := by
      omega
    rw [List.map_cons, Nat.ofDigits_cons, List.length_cons, leBytes]
    show UInt8.ofNat ((byte.toNat + 256 * _) % 256) :: leBytes bytes.length
      ((byte.toNat + 256 * _) / 256) = _
    rw [low, high, ih, UInt8.ofNat_toNat]

theorem ofDigits_lt (bytes : List UInt8) :
    Nat.ofDigits 256 (bytes.map UInt8.toNat) < 256 ^ bytes.length := by
  induction bytes with
  | nil => decide
  | cons byte bytes ih =>
    have small := byte.toNat_lt
    rw [List.map_cons, Nat.ofDigits_cons, List.length_cons, Nat.pow_succ]
    show byte.toNat + 256 * _ < _
    omega

end Numbers

namespace Hash

variable {kind : HashKind}

theorem tryFrom_bytes (hash : Hash kind) : tryFrom kind hash.bytes = .ok hash := by
  have fits : hash.data.toNat < 256 ^ kind.size := by
    have small := hash.data.isLt
    rwa [Nat.pow_mul] at small
  rw [tryFrom, failIf_of_not _ (by rw [length_bytes]; simp), bind_ok, bytes, beBytes,
    List.reverse_reverse, ofDigits_leBytes fits, BitVec.ofNat_toNat, BitVec.setWidth_eq]
  rfl

/-- The bytes that are accepted are those of the hash. -/
theorem tryFrom_eq_ok {value : List UInt8} {hash : Hash kind} (read : tryFrom kind value = .ok hash) :
    hash.bytes = value := by
  simp only [tryFrom, bind_eq_ok, failIf_eq_ok, pure_eq_ok, not_not] at read
  obtain ⟨-, length, same⟩ := read
  have spelled := leBytes_ofDigits value.reverse
  have fits := ofDigits_lt value.reverse
  rw [List.length_reverse, length] at spelled fits
  rw [← same, bytes, beBytes, BitVec.toNat_ofNat, Nat.mod_eq_of_lt (by rwa [Nat.pow_mul]), spelled,
    List.reverse_reverse]

theorem utf8_display (hash : Hash kind) :
    utf8 hash.display = utf8 kind.tag ++ digitBytes hash.bytes := by
  rw [display, utf8_append, utf8_hexEncode]

/-- A text that is the prefix of the kind and the digits of the hash, in either case. -/
def SpelledBy (hash : Hash kind) (s : String) : Prop :=
  ∃ digits, utf8 s = utf8 kind.tag ++ digits ∧ digits.map lowerDigit = digitBytes hash.bytes

theorem spelledBy_display (hash : Hash kind) : hash.SpelledBy hash.display :=
  ⟨_, hash.utf8_display, lowerDigit_digitBytes hash.bytes⟩

variable [Hex]

/-- Exactly the texts that spell a hash are read as it. -/
theorem fromHashString_eq_ok_iff {s : String} {hash : Hash kind} :
    fromHashString kind s = .ok hash ↔ hash.SpelledBy s := by
  constructor
  · intro read
    simp only [fromHashString, bind_eq_ok, failIf_eq_ok, not_not, mapError_eq_ok] at read
    obtain ⟨-, front, bytes, decoded, hashed⟩ := read
    obtain ⟨digits, whole⟩ := front
    rw [← whole, List.drop_left, hexDecode_eq_ok_iff] at decoded
    refine ⟨digits, whole.symm, ?_⟩
    rw [tryFrom_eq_ok hashed, decoded]
  · intro spelled
    obtain ⟨digits, whole, lower⟩ := spelled
    rw [fromHashString, whole, failIf_of_not _ (by simp), bind_ok]
    dsimp only
    rw [List.drop_left, hexDecode_eq_ok_iff.mpr lower, mapError_ok, bind_ok, tryFrom_bytes]

/-- A hash is read back from the text it is printed as. -/
theorem fromHashString_display (hash : Hash kind) :
    fromHashString kind hash.display = .ok hash :=
  fromHashString_eq_ok_iff.mpr hash.spelledBy_display

end Hash

end StryiChain
