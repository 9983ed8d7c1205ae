import StryiChain.Misc.Codec
import StryiChain.Misc.Fallible

/-!
# Hexadecimal digits

Bytes are printed with two lower-case digits each. A reader takes the digits of either case, as
bytes of a text, and nothing else.
-/

namespace StryiChain

/-- One lower-case hexadecimal digit. -/
def hexDigit (n : Nat) : Char :=
  if n < 10 then Char.ofNat (48 + n) else Char.ofNat (87 + n)

/-- The digits of some bytes. -/
def hexEncode (bytes : List UInt8) : String :=
  String.ofList (bytes.flatMap fun byte => [hexDigit (byte.toNat / 16), hexDigit (byte.toNat % 16)])

/-- Why digits are refused. -/
inductive FromHexError where
  | invalidHexCharacter (c : Char) (index : Nat)
  | oddLength
  deriving DecidableEq

section Digits

/-- A digit in lower case. -/
def lowerDigit (c : UInt8) : UInt8 := if 65 ≤ c ∧ c ≤ 70 then c + 32 else c

/-- The digits of some bytes, as bytes of a text. -/
def digitBytes (bytes : List UInt8) : List UInt8 :=
  (bytes.flatMap fun byte => [hexDigit (byte.toNat / 16), hexDigit (byte.toNat % 16)]).map
    fun c => UInt8.ofNat c.toNat

theorem hexDigit_ascii {n : Nat} (small : n < 16) : (hexDigit n).toNat < 128 := by
  have all : ∀ n : Fin 16, (hexDigit n).toNat < 128 := by decide
  exact all ⟨n, small⟩

theorem utf8_hexEncode (bytes : List UInt8) : utf8 (hexEncode bytes) = digitBytes bytes := by
  rw [hexEncode, utf8_ofList]
  · rfl
  · intro c mem
    obtain ⟨byte, -, among⟩ := List.mem_flatMap.mp mem
    have small := byte.toNat_lt
    cases List.mem_cons.mp among with
    | inl high =>
      rw [high]
      exact hexDigit_ascii (by omega)
    | inr low =>
      rw [List.mem_singleton.mp low]
      exact hexDigit_ascii (by omega)

theorem length_digitBytes (bytes : List UInt8) : (digitBytes bytes).length = bytes.length * 2 := by
  rw [digitBytes, List.length_map, List.length_flatMap]
  simp

theorem digitBytes_cons (byte : UInt8) (bytes : List UInt8) :
    digitBytes (byte :: bytes) = UInt8.ofNat (hexDigit (byte.toNat / 16)).toNat ::
      UInt8.ofNat (hexDigit (byte.toNat % 16)).toNat :: digitBytes bytes := rfl

theorem lowerDigit_digitBytes (bytes : List UInt8) :
    (digitBytes bytes).map lowerDigit = digitBytes bytes := by
  have plain : ∀ n, n < 16 →
      lowerDigit (UInt8.ofNat (hexDigit n).toNat) = UInt8.ofNat (hexDigit n).toNat := by
    intro n small
    have all : ∀ n : Fin 16,
        lowerDigit (UInt8.ofNat (hexDigit n).toNat) = UInt8.ofNat (hexDigit n).toNat := by decide
    exact all ⟨n, small⟩
  induction bytes with
  | nil => rfl
  | cons byte bytes ih =>
    have small := byte.toNat_lt
    rw [digitBytes_cons, List.map_cons, List.map_cons, plain _ (by omega), plain _ (by omega), ih]

end Digits

namespace Standard

/-- The value of one hexadecimal digit. -/
def hexValue (c : UInt8) (index : Nat) : Except FromHexError Nat :=
  if 65 ≤ c ∧ c ≤ 70 then .ok (c.toNat - 55)
  else if 97 ≤ c ∧ c ≤ 102 then .ok (c.toNat - 87)
  else if 48 ≤ c ∧ c ≤ 57 then .ok (c.toNat - 48)
  else .error (.invalidHexCharacter (Char.ofNat c.toNat) index)

/-- The bytes of consecutive pairs of digits, the first of which stands at an index. -/
def hexPairs : Nat → List UInt8 → Except FromHexError (List UInt8)
  | index, high :: low :: rest => do
      let upper ← hexValue high index
      let lower ← hexValue low (index + 1)
      let bytes ← hexPairs (index + 2) rest
      return UInt8.ofNat (upper * 16 + lower) :: bytes
  | _, _ => .ok []

/-- The bytes that a text stands for. -/
def hexDecode (digits : List UInt8) : Except FromHexError (List UInt8) := do
  failIf (digits.length % 2 ≠ 0) .oddLength
  hexPairs 0 digits

/-- The digits that are accepted are the printed ones, in either case. -/
theorem hexValue_eq_ok {c : UInt8} {index value : Nat} (read : hexValue c index = .ok value) :
    value < 16 ∧ UInt8.ofNat (hexDigit value).toNat = lowerDigit c := by
  have all : ∀ n : Fin 256, ∀ value, (hexValue (UInt8.ofNat n) 0).toOption = some value →
      value < 16 ∧ UInt8.ofNat (hexDigit value).toNat = lowerDigit (UInt8.ofNat n) := by
    have listed : ∀ n : Fin 256, (hexValue (UInt8.ofNat n) 0).toOption.all (fun value =>
        value < 16 ∧ UInt8.ofNat (hexDigit value).toNat = lowerDigit (UInt8.ofNat n)) = true := by
      decide +kernel
    intro n value found
    have here := listed n
    rw [found] at here
    simpa using here
  have start : (hexValue c 0).toOption = some value := by
    unfold hexValue at read ⊢
    split_ifs at read ⊢ <;> exact congrArg some (Except.ok.inj read)
  have here := all ⟨c.toNat, c.toNat_lt⟩ value
  rw [UInt8.ofNat_toNat] at here
  exact here start

/-- The converse: a digit in either case is accepted. -/
theorem hexValue_of_lowerDigit {c : UInt8} {n : Nat} (small : n < 16)
    (spelled : lowerDigit c = UInt8.ofNat (hexDigit n).toNat) (index : Nat) :
    hexValue c index = .ok n := by
  have all : ∀ c : Fin 256, ∀ n : Fin 16,
      lowerDigit (UInt8.ofNat c) = UInt8.ofNat (hexDigit n).toNat →
        (hexValue (UInt8.ofNat c) 0).toOption = some n.1 := by
    decide +kernel
  have value := all ⟨c.toNat, c.toNat_lt⟩ ⟨n, small⟩
  rw [UInt8.ofNat_toNat] at value
  have start := value spelled
  unfold hexValue at start ⊢
  split_ifs at start ⊢ <;> first | exact congrArg Except.ok (Option.some.inj start) | cases start

/-- Digits in either case are read as the bytes that they are the digits of. -/
theorem hexPairs_of_lowerDigit {digits bytes : List UInt8}
    (spelled : digits.map lowerDigit = digitBytes bytes) (index : Nat) :
    hexPairs index digits = .ok bytes := by
  induction bytes generalizing digits index with
  | nil =>
    rw [List.map_eq_nil_iff.mp spelled]
    rfl
  | cons byte bytes ih =>
    have small := byte.toNat_lt
    rw [digitBytes_cons, List.map_eq_cons_iff] at spelled
    obtain ⟨high, others, split, upper, spelled⟩ := spelled
    rw [List.map_eq_cons_iff] at spelled
    obtain ⟨low, rest, split', lower, later⟩ := spelled
    rw [split, split', hexPairs, hexValue_of_lowerDigit (by omega) upper, bind_ok,
      hexValue_of_lowerDigit (by omega) lower, bind_ok, ih later, bind_ok, Nat.div_add_mod',
      UInt8.ofNat_toNat]
    rfl

/-- What is read from digits is printed as the same digits in lower case. -/
theorem digitBytes_hexPairs {digits bytes : List UInt8} {index : Nat}
    (even : digits.length % 2 = 0) (read : hexPairs index digits = .ok bytes) :
    digitBytes bytes = digits.map lowerDigit := by
  induction index, digits using hexPairs.induct generalizing bytes with
  | case1 index high low rest ih =>
    simp only [hexPairs, bind_eq_ok, pure_eq_ok] at read
    obtain ⟨upper, first, lower, second, others, later, same⟩ := read
    obtain ⟨upperSmall, upperDigit⟩ := hexValue_eq_ok first
    obtain ⟨lowerSmall, lowerDigit'⟩ := hexValue_eq_ok second
    have byte : (UInt8.ofNat (upper * 16 + lower)).toNat = upper * 16 + lower :=
      UInt8.toNat_ofNat_of_lt' (by rw [UInt8.size]; omega)
    have pair : digitBytes bytes =
        UInt8.ofNat (hexDigit ((upper * 16 + lower) / 16)).toNat ::
          UInt8.ofNat (hexDigit ((upper * 16 + lower) % 16)).toNat :: digitBytes others := by
      rw [← same, digitBytes_cons, byte]
    have high' : (upper * 16 + lower) / 16 = upper := by omega
    have low' : (upper * 16 + lower) % 16 = lower := by omega
    rw [List.length_cons, List.length_cons] at even
    rw [pair, high', low', upperDigit, lowerDigit', ih (by omega) later, List.map_cons,
      List.map_cons]
  | case2 digits index short =>
    cases digits with
    | nil =>
      rw [hexPairs, Except.ok.injEq] at read
      · rw [← read]
        rfl
      · exact short
    | cons high digits =>
      cases digits with
      | nil => cases even
      | cons low rest => exact absurd rfl (short high low rest)

/-- Exactly the digits of the bytes are read as them, in either case. -/
theorem hexDecode_eq_ok_iff {digits bytes : List UInt8} :
    hexDecode digits = .ok bytes ↔ digits.map lowerDigit = digitBytes bytes := by
  constructor
  · intro decoded
    simp only [hexDecode, bind_eq_ok, failIf_eq_ok, not_not] at decoded
    obtain ⟨-, even, pairs⟩ := decoded
    exact (digitBytes_hexPairs even pairs).symm
  · intro lower
    have even : ¬ digits.length % 2 ≠ 0 := by
      rw [← List.length_map lowerDigit, lower, length_digitBytes]
      omega
    rw [hexDecode, failIf_of_not _ even, bind_ok, hexPairs_of_lowerDigit lower]

end Standard

/-- A reader of hexadecimal digits. -/
class Hex where
  hexDecode : List UInt8 → Except FromHexError (List UInt8)
  hexDecode_eq_ok_iff {digits bytes : List UInt8} :
    hexDecode digits = .ok bytes ↔ digits.map lowerDigit = digitBytes bytes

export Hex (hexDecode hexDecode_eq_ok_iff)

/-- The reader of pairs of digits is one. -/
@[reducible] def Hex.standard : Hex where
  hexDecode := Standard.hexDecode
  hexDecode_eq_ok_iff := Standard.hexDecode_eq_ok_iff

end StryiChain
