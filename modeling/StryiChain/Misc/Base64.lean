import Mathlib.Tactic.Common

/-!
# Base64 with padding

A text form of bytes that is read back, is ASCII and takes four characters for three bytes. The
standard one has six bits in a character and fills up the last group with `=`.
-/

namespace StryiChain

namespace Standard

/-- The character of six bits. -/
def base64Digit (n : Nat) : Char :=
  if n < 26 then Char.ofNat (65 + n)
  else if n < 52 then Char.ofNat (71 + n)
  else if n < 62 then Char.ofNat (n - 4)
  else if n = 62 then '+'
  else '/'

/-- The six bits of a character. -/
def base64Value (c : Char) : Option Nat :=
  if 65 ≤ c.toNat ∧ c.toNat ≤ 90 then some (c.toNat - 65)
  else if 97 ≤ c.toNat ∧ c.toNat ≤ 122 then some (c.toNat - 71)
  else if 48 ≤ c.toNat ∧ c.toNat ≤ 57 then some (c.toNat + 4)
  else if c = '+' then some 62
  else if c = '/' then some 63
  else none

/-- The text of some bytes. -/
def base64Encode : List UInt8 → List Char
  | [] => []
  | [a] =>
      let n := a.toNat * 16
      [base64Digit (n / 64), base64Digit (n % 64), '=', '=']
  | [a, b] =>
      let n := (a.toNat * 256 + b.toNat) * 4
      [base64Digit (n / 4096), base64Digit (n / 64 % 64), base64Digit (n % 64), '=']
  | a :: b :: c :: rest =>
      let n := (a.toNat * 256 + b.toNat) * 256 + c.toNat
      base64Digit (n / 262144) :: base64Digit (n / 4096 % 64) :: base64Digit (n / 64 % 64) ::
        base64Digit (n % 64) :: base64Encode rest

/-- The bytes of a last group of four characters, without the padding. -/
def base64Last (w x y : Char) : Option (List UInt8) := do
  let first ← base64Value w
  let second ← base64Value x
  if y = '=' then
    if second % 16 = 0 then
      some [UInt8.ofNat (first * 4 + second / 16)]
    else
      none
  else
    let third ← base64Value y
    if third % 4 = 0 then
      let n := (first * 64 + second) * 16 + third / 4
      some [UInt8.ofNat (n / 256), UInt8.ofNat (n % 256)]
    else
      none

/-- The bytes that a text stands for. -/
def base64Decode : List Char → Option (List UInt8)
  | [] => some []
  | w :: x :: y :: z :: rest =>
      if z = '=' then
        if rest = [] then base64Last w x y else none
      else do
        let first ← base64Value w
        let second ← base64Value x
        let third ← base64Value y
        let fourth ← base64Value z
        let n := ((first * 64 + second) * 64 + third) * 64 + fourth
        let bytes ← base64Decode rest
        some (UInt8.ofNat (n / 65536) :: UInt8.ofNat (n / 256 % 256) :: UInt8.ofNat (n % 256) ::
          bytes)
  | _ => none

/-- The characters of the text stand for their bits, are not padding and are ASCII. -/
theorem base64Digit_spec {n : Nat} (six : n < 64) : base64Value (base64Digit n) = some n ∧
    base64Digit n ≠ '=' ∧ (base64Digit n).toNat < 128 := by
  have all : ∀ n : Fin 64, base64Value (base64Digit n) = some n.1 ∧ base64Digit n ≠ '=' ∧
      (base64Digit n).toNat < 128 := by decide
  exact all ⟨n, six⟩

theorem length_base64Encode (bytes : List UInt8) :
    (base64Encode bytes).length = (bytes.length + 2) / 3 * 4 := by
  induction bytes using base64Encode.induct with
  | case1 => rfl
  | case2 a => simp [base64Encode]
  | case3 a b => simp [base64Encode]
  | case4 a b c rest ih =>
    rw [base64Encode]
    simp only [List.length_cons]
    omega

theorem base64Encode_ascii (bytes : List UInt8) : ∀ c ∈ base64Encode bytes, c.toNat < 128 := by
  have digit : ∀ n, n < 64 → (base64Digit n).toNat < 128 := fun n six => (base64Digit_spec six).2.2
  have pad : ('=' : Char).toNat < 128 := by decide
  induction bytes using base64Encode.induct with
  | case1 => simp [base64Encode]
  | case2 a =>
    have ha := a.toNat_lt
    simp only [base64Encode, List.mem_cons, List.not_mem_nil, or_false]
    rintro c (rfl | rfl | rfl | rfl)
    · exact digit _ (by omega)
    · exact digit _ (by omega)
    · exact pad
    · exact pad
  | case3 a b =>
    have ha := a.toNat_lt
    have hb := b.toNat_lt
    simp only [base64Encode, List.mem_cons, List.not_mem_nil, or_false]
    rintro c (rfl | rfl | rfl | rfl)
    · exact digit _ (by omega)
    · exact digit _ (by omega)
    · exact digit _ (by omega)
    · exact pad
  | case4 a b c rest ih =>
    have ha := a.toNat_lt
    have hb := b.toNat_lt
    have hc := c.toNat_lt
    simp only [base64Encode, List.mem_cons]
    rintro d (rfl | rfl | rfl | rfl | later)
    · exact digit _ (by omega)
    · exact digit _ (by omega)
    · exact digit _ (by omega)
    · exact digit _ (by omega)
    · exact ih d later

theorem base64Decode_encode (bytes : List UInt8) : base64Decode (base64Encode bytes) = some bytes := by
  have value : ∀ n, n < 64 → base64Value (base64Digit n) = some n :=
    fun n six => (base64Digit_spec six).1
  have plain : ∀ n, n < 64 → base64Digit n ≠ '=' := fun n six => (base64Digit_spec six).2.1
  have byte : ∀ (a : UInt8) (n : Nat), n = a.toNat → UInt8.ofNat n = a := by
    intro a n same
    rw [same, UInt8.ofNat_toNat]
  induction bytes using base64Encode.induct with
  | case1 => rfl
  | case2 a =>
    have ha := a.toNat_lt
    simp only [base64Encode, base64Decode, base64Last, if_true]
    rw [value _ (by omega), value _ (by omega)]
    simp only [Option.bind_eq_bind, Option.bind_some]
    rw [if_pos (by omega), byte a _ (by omega)]
  | case3 a b =>
    have ha := a.toNat_lt
    have hb := b.toNat_lt
    simp only [base64Encode, base64Decode, base64Last, if_true]
    rw [value _ (by omega), value _ (by omega), value _ (by omega)]
    simp only [Option.bind_eq_bind, Option.bind_some]
    rw [if_neg (plain _ (by omega)), if_pos (by omega), byte a _ (by omega), byte b _ (by omega)]
  | case4 a b c rest ih =>
    have ha := a.toNat_lt
    have hb := b.toNat_lt
    have hc := c.toNat_lt
    simp only [base64Encode, base64Decode]
    rw [if_neg (plain _ (by omega)), value _ (by omega), value _ (by omega), value _ (by omega),
      value _ (by omega), ih]
    simp only [Option.bind_eq_bind, Option.bind_some]
    rw [byte a _ (by omega), byte b _ (by omega), byte c _ (by omega)]

end Standard

/-- The text form of bytes. -/
class Base64 where
  base64Encode : List UInt8 → List Char
  base64Decode : List Char → Option (List UInt8)
  base64Decode_encode (bytes : List UInt8) : base64Decode (base64Encode bytes) = some bytes
  base64Encode_ascii (bytes : List UInt8) : ∀ c ∈ base64Encode bytes, c.toNat < 128
  length_base64Encode (bytes : List UInt8) :
    (base64Encode bytes).length = (bytes.length + 2) / 3 * 4

export Base64 (base64Encode base64Decode base64Decode_encode base64Encode_ascii
  length_base64Encode)

/-- The standard alphabet is one. -/
@[reducible] def Base64.standard : Base64 where
  base64Encode := Standard.base64Encode
  base64Decode := Standard.base64Decode
  base64Decode_encode := Standard.base64Decode_encode
  base64Encode_ascii := Standard.base64Encode_ascii
  length_base64Encode := Standard.length_base64Encode

end StryiChain
