import Mathlib.Algebra.BigOperators.Group.List.Basic
import Mathlib.Algebra.GroupWithZero.Nat
import Mathlib.Tactic.Common

/-!
# Codecs of a compact binary format

An encoder together with a decoder that reads one value from the front of the bytes. A serializer
has a codec for each kind of value; what is built on it relies on the round trip and on the number
of bytes alone. The standard one writes numbers seven bits in a byte, the lowest first, with a mark
on every byte but the last, and a text or a list behind its length.
-/

namespace StryiChain

variable {α β : Type}

section Text

/-- The bytes of a text. -/
def utf8 (s : String) : List UInt8 := s.toList.flatMap String.utf8EncodeChar

/-- The text that the bytes spell, when they spell one. -/
def ofUtf8 (bytes : List UInt8) : Option String := String.fromUTF8? bytes.toByteArray

theorem ofUtf8_utf8 (s : String) : ofUtf8 (utf8 s) = some s := by
  have same : (utf8 s).toByteArray = s.toByteArray := by
    rw [← String.utf8Encode_toList]
    rfl
  rw [ofUtf8, same, String.fromUTF8?, dif_pos s.isValidUTF8]
  rfl

theorem utf8_append (s t : String) : utf8 (s ++ t) = utf8 s ++ utf8 t := by
  rw [utf8, String.toList_append, List.flatMap_append, utf8, utf8]

/-- A character below 128 is one byte. -/
theorem utf8EncodeChar_ascii {c : Char} (ascii : c.toNat < 128) :
    String.utf8EncodeChar c = [UInt8.ofNat c.toNat] := by
  rw [String.utf8EncodeChar]
  exact if_pos (Nat.lt_succ_iff.mp ascii)

theorem utf8_ofList {l : List Char} (ascii : ∀ c ∈ l, c.toNat < 128) :
    utf8 (String.ofList l) = l.map fun c => UInt8.ofNat c.toNat := by
  rw [utf8, String.toList_ofList]
  induction l with
  | nil => rfl
  | cons c l ih =>
    rw [List.flatMap_cons, ih fun d mem => ascii d (List.mem_cons_of_mem c mem),
      utf8EncodeChar_ascii (ascii c List.mem_cons_self)]
    rfl

end Text

section Varint

/-- A number in at most so many bytes of seven bits. -/
def varint : Nat → Nat → List UInt8
  | 0, _ => []
  | width + 1, n =>
      if n < 128 then [UInt8.ofNat n] else UInt8.ofNat (n % 128 + 128) :: varint width (n / 128)

/-- The number at the front of the bytes, read from at most so many of them. -/
def readVarint : Nat → List UInt8 → Option (Nat × List UInt8)
  | 0, _ | _ + 1, [] => none
  | width + 1, byte :: rest =>
      if byte.toNat < 128 then
        some (byte.toNat, rest)
      else
        (readVarint width rest).map fun (n, rest) => (byte.toNat - 128 + 128 * n, rest)

theorem readVarint_varint {width n : Nat} (fits : n < 128 ^ (width + 1)) {limit : Nat}
    (enough : (varint (width + 1) n).length ≤ limit) (rest : List UInt8) :
    readVarint limit (varint (width + 1) n ++ rest) = some (n, rest) := by
  induction width generalizing n limit with
  | zero =>
    rw [Nat.zero_add, Nat.pow_one] at fits
    rw [varint, if_pos fits] at enough ⊢
    have byte : (UInt8.ofNat n).toNat = n := UInt8.toNat_ofNat_of_lt' (by rw [UInt8.size]; omega)
    cases limit with
    | zero => cases enough
    | succ limit => rw [List.singleton_append, readVarint, byte, if_pos fits]
  | succ width ih =>
    rw [varint] at enough ⊢
    cases limit with
    | zero =>
      split at enough <;> cases enough
    | succ limit =>
      by_cases last : n < 128
      · have byte : (UInt8.ofNat n).toNat = n :=
          UInt8.toNat_ofNat_of_lt' (by rw [UInt8.size]; omega)
        rw [if_pos last, List.singleton_append, readVarint, byte, if_pos last]
      · rw [if_neg last] at enough ⊢
        have byte : (UInt8.ofNat (n % 128 + 128)).toNat = n % 128 + 128 :=
          UInt8.toNat_ofNat_of_lt' (by rw [UInt8.size]; omega)
        rw [Nat.pow_succ, Nat.mul_comm] at fits
        have higher := ih (Nat.div_lt_of_lt_mul fits) (Nat.le_of_succ_le_succ enough)
        rw [List.cons_append, readVarint, byte, if_neg (by omega), higher, Option.map_some]
        dsimp only
        rw [Nat.add_sub_cancel, Nat.mod_add_div]

theorem length_varint_pos (width n : Nat) : 0 < (varint (width + 1) n).length := by
  rw [varint]
  split <;> exact Nat.succ_pos _

theorem length_varint_le (width n : Nat) : (varint width n).length ≤ width := by
  induction width generalizing n with
  | zero => exact Nat.le_refl 0
  | succ width ih =>
    rw [varint]
    split
    · exact Nat.succ_le_succ (Nat.zero_le width)
    · exact Nat.succ_le_succ (ih (n / 128))

/-- The numbers below `128 ^ k` are those of at most `k` bytes. -/
theorem length_varint_le_iff {width n k : Nat} (pos : 0 < k) (room : k ≤ width) :
    (varint (width + 1) n).length ≤ k ↔ n < 128 ^ k := by
  induction width generalizing n k with
  | zero => omega
  | succ width ih =>
    rw [varint]
    by_cases last : n < 128
    · rw [if_pos last]
      refine iff_of_true pos (Nat.lt_of_lt_of_le last ?_)
      exact Nat.le_self_pow (Nat.ne_of_gt pos) 128
    · rw [if_neg last, List.length_cons]
      cases k with
      | zero => omega
      | succ k =>
        rw [Nat.succ_le_succ_iff]
        cases k with
        | zero =>
          have inhabited := length_varint_pos width (n / 128)
          rw [Nat.zero_add, Nat.pow_one]
          omega
        | succ k =>
          rw [ih (Nat.succ_pos k) (Nat.le_of_succ_le_succ room), Nat.pow_succ 128 (k + 1),
            Nat.div_lt_iff_lt_mul (by decide)]

end Varint

/-- An encoder, and a decoder that takes one encoded value from the front of the bytes. -/
structure Codec (α : Type) where
  encode : α → List UInt8
  decode : List UInt8 → Option (α × List UInt8)
  decode_encode : ∀ a rest, decode (encode a ++ rest) = some (a, rest)

namespace Codec

/-- The number of bytes of a value. -/
def size (codec : Codec α) (a : α) : Nat := (codec.encode a).length

/-- The value at the front of the bytes; what follows it is not looked at. -/
def fromBytes (codec : Codec α) (bytes : List UInt8) : Option α :=
  (codec.decode bytes).map Prod.fst

theorem fromBytes_encode (codec : Codec α) (a : α) : codec.fromBytes (codec.encode a) = some a := by
  have back := codec.decode_encode a []
  rw [List.append_nil] at back
  rw [fromBytes, back, Option.map_some]

/-- One value after the other. -/
def pair (first : Codec α) (second : Codec β) : Codec (α × β) where
  encode ab := first.encode ab.1 ++ second.encode ab.2
  decode bytes := do
    let (a, rest) ← first.decode bytes
    let (b, rest) ← second.decode rest
    some ((a, b), rest)
  decode_encode := by
    intro ab rest
    rw [List.append_assoc, first.decode_encode, Option.bind_eq_bind, Option.bind_some]
    dsimp only
    rw [second.decode_encode, Option.bind_eq_bind, Option.bind_some]

/-- A value that is encoded through another one, which need not stand for any. -/
def imap (codec : Codec α) (view : β → α) (build : α → Option β)
    (same : ∀ b, build (view b) = some b) : Codec β where
  encode b := codec.encode (view b)
  decode bytes := do
    let (a, rest) ← codec.decode bytes
    let b ← build a
    some (b, rest)
  decode_encode := by
    intro b rest
    rw [codec.decode_encode, Option.bind_eq_bind, Option.bind_some]
    dsimp only
    rw [same, Option.bind_eq_bind, Option.bind_some]

/-- A length, which has no bound of its own. -/
def lengthBytes (n : Nat) : List UInt8 := varint (n + 1) n

theorem read_lengthBytes (n : Nat) (rest : List UInt8) :
    readVarint (lengthBytes n ++ rest).length (lengthBytes n ++ rest) = some (n, rest) := by
  refine readVarint_varint ?_ ?_ rest
  · exact Nat.lt_trans (Nat.lt_succ_self n) (Nat.lt_pow_self (by decide))
  · rw [List.length_append, lengthBytes]
    exact Nat.le_add_right _ _

section Size

@[simp] theorem size_pair (first : Codec α) (second : Codec β) (ab : α × β) :
    (first.pair second).size ab = first.size ab.1 + second.size ab.2 := List.length_append

@[simp] theorem size_imap (codec : Codec α) (view : β → α) (build : α → Option β)
    (same : ∀ b, build (view b) = some b) (b : β) :
    (codec.imap view build same).size b = codec.size (view b) := rfl

/-- The lengths below 128 take one byte. -/
theorem length_lengthBytes_eq_one {n : Nat} (small : n < 128) : (lengthBytes n).length = 1 := by
  rw [lengthBytes, varint, if_pos small]
  rfl

end Size

end Codec

namespace Standard

open Codec

/-- Numbers below a bound, written in at most so many bytes. -/
def number (width bound : Nat) (toNat : α → Nat) (ofNat : Nat → α)
    (lt : ∀ a, toNat a < bound) (same : ∀ a, ofNat (toNat a) = a)
    (fits : bound ≤ 128 ^ (width + 1)) : Codec α where
  encode a := varint (width + 1) (toNat a)
  decode bytes := do
    let (n, rest) ← readVarint (width + 1) bytes
    if n < bound then some (ofNat n, rest) else none
  decode_encode := by
    intro a rest
    rw [readVarint_varint (Nat.lt_of_lt_of_le (lt a) fits) (length_varint_le _ _), Option.bind_eq_bind,
      Option.bind_some]
    dsimp only
    rw [if_pos (lt a), same]

def u16 : Codec UInt16 :=
  number 2 (2 ^ 16) UInt16.toNat UInt16.ofNat UInt16.toNat_lt (fun _ => UInt16.ofNat_toNat)
    (by decide)

def u32 : Codec UInt32 :=
  number 4 (2 ^ 32) UInt32.toNat UInt32.ofNat UInt32.toNat_lt (fun _ => UInt32.ofNat_toNat)
    (by decide)

def u64 : Codec UInt64 :=
  number 9 (2 ^ 64) UInt64.toNat UInt64.ofNat UInt64.toNat_lt (fun _ => UInt64.ofNat_toNat)
    (by decide)

/-- So many bytes as they are. -/
def takeExactly (n : Nat) (bytes : List UInt8) : Option (List UInt8 × List UInt8) :=
  if n ≤ bytes.length then some (bytes.take n, bytes.drop n) else none

theorem takeExactly_append (bytes rest : List UInt8) :
    takeExactly bytes.length (bytes ++ rest) = some (bytes, rest) := by
  rw [takeExactly, if_pos (by simp), List.take_left, List.drop_left]

/-- Bytes behind their length. -/
def blob : Codec (List UInt8) where
  encode bytes := lengthBytes bytes.length ++ bytes
  decode bytes := do
    let (n, rest) ← readVarint bytes.length bytes
    takeExactly n rest
  decode_encode := by
    intro bytes rest
    rw [List.append_assoc, read_lengthBytes, Option.bind_eq_bind, Option.bind_some]
    exact takeExactly_append bytes rest

/-- A text behind the length of its bytes. -/
def text : Codec String := blob.imap utf8 ofUtf8 ofUtf8_utf8

/-- Bytes of a known number, without a length. -/
def raw (n : Nat) : Codec { bytes : List UInt8 // bytes.length = n } where
  encode bytes := bytes.1
  decode bytes :=
    if enough : n ≤ bytes.length then
      some (⟨bytes.take n, by rw [List.length_take, Nat.min_eq_left enough]⟩, bytes.drop n)
    else
      none
  decode_encode := by
    intro bytes rest
    have enough : n ≤ (bytes.1 ++ rest).length := by
      rw [List.length_append, bytes.2]
      exact Nat.le_add_right _ _
    rw [dif_pos enough, Option.some.injEq, Prod.mk.injEq]
    refine ⟨Subtype.ext ?_, ?_⟩
    · exact List.take_left' bytes.2
    · exact List.drop_left' bytes.2

/-- So many values, one after the other. -/
def readMany (codec : Codec α) : Nat → List UInt8 → Option (List α × List UInt8)
  | 0, bytes => some ([], bytes)
  | count + 1, bytes => do
      let (a, rest) ← codec.decode bytes
      let (l, rest) ← readMany codec count rest
      some (a :: l, rest)

theorem readMany_flatMap (codec : Codec α) (l : List α) (rest : List UInt8) :
    readMany codec l.length (l.flatMap codec.encode ++ rest) = some (l, rest) := by
  induction l with
  | nil => rfl
  | cons a l ih =>
    rw [List.length_cons, readMany, List.flatMap_cons, List.append_assoc, codec.decode_encode,
      Option.bind_eq_bind, Option.bind_some]
    dsimp only
    rw [ih, Option.bind_eq_bind, Option.bind_some]

/-- A list behind its length. -/
def vector (codec : Codec α) : Codec (List α) where
  encode l := lengthBytes l.length ++ l.flatMap codec.encode
  decode bytes := do
    let (n, rest) ← readVarint bytes.length bytes
    readMany codec n rest
  decode_encode := by
    intro l rest
    rw [List.append_assoc, read_lengthBytes, Option.bind_eq_bind, Option.bind_some]
    exact readMany_flatMap codec l rest

/-- Nothing, or a value behind a mark. -/
def option (codec : Codec α) : Codec (Option α) where
  encode
    | none => [0]
    | some a => 1 :: codec.encode a
  decode
    | 0 :: rest => some (none, rest)
    | 1 :: rest => (codec.decode rest).map fun (a, rest) => (some a, rest)
    | _ => none
  decode_encode := by
    intro value rest
    cases value with
    | none => rfl
    | some a =>
      show (codec.decode (codec.encode a ++ rest)).map (fun x => (some x.1, x.2)) = _
      rw [codec.decode_encode, Option.map_some]

end Standard

/-- The codecs of a serializer, and how many bytes they take: a number as many as its `varint`, and a
text or a list those of its length before its own. -/
class Serializer where
  u16 : Codec UInt16
  u32 : Codec UInt32
  u64 : Codec UInt64
  text : Codec String
  raw (n : Nat) : Codec { bytes : List UInt8 // bytes.length = n }
  vector {α : Type} (codec : Codec α) : Codec (List α)
  option {α : Type} (codec : Codec α) : Codec (Option α)
  size_u16 (n : UInt16) : u16.size n = (varint 3 n.toNat).length
  size_u32 (n : UInt32) : u32.size n = (varint 5 n.toNat).length
  size_u64 (n : UInt64) : u64.size n = (varint 10 n.toNat).length
  size_text (s : String) :
    text.size s = (Codec.lengthBytes (utf8 s).length).length + (utf8 s).length
  size_vector {α : Type} (codec : Codec α) (l : List α) :
    (vector codec).size l = (Codec.lengthBytes l.length).length + (l.map codec.size).sum

/-- The standard codecs make a serializer. -/
@[reducible] def Serializer.standard : Serializer where
  u16 := Standard.u16
  u32 := Standard.u32
  u64 := Standard.u64
  text := Standard.text
  raw := Standard.raw
  vector := Standard.vector
  option := Standard.option
  size_u16 _ := rfl
  size_u32 _ := rfl
  size_u64 _ := rfl
  size_text _ := List.length_append
  size_vector codec l := by
    rw [Codec.size, Standard.vector, List.length_append, List.length_flatMap]
    rfl

namespace Codec

variable [Serializer]

def u16 : Codec UInt16 := Serializer.u16

def u32 : Codec UInt32 := Serializer.u32

def u64 : Codec UInt64 := Serializer.u64

def text : Codec String := Serializer.text

def raw (n : Nat) : Codec { bytes : List UInt8 // bytes.length = n } := Serializer.raw n

def vector (codec : Codec α) : Codec (List α) := Serializer.vector codec

def option (codec : Codec α) : Codec (Option α) := Serializer.option codec

theorem size_u16 (n : UInt16) : u16.size n = (varint 3 n.toNat).length := Serializer.size_u16 n

theorem size_u32 (n : UInt32) : u32.size n = (varint 5 n.toNat).length := Serializer.size_u32 n

theorem size_u64 (n : UInt64) : u64.size n = (varint 10 n.toNat).length := Serializer.size_u64 n

theorem size_text (s : String) :
    text.size s = (lengthBytes (utf8 s).length).length + (utf8 s).length :=
  Serializer.size_text s

@[simp] theorem size_vector (codec : Codec α) (l : List α) :
    codec.vector.size l = (lengthBytes l.length).length + (l.map codec.size).sum :=
  Serializer.size_vector codec l

end Codec

end StryiChain
