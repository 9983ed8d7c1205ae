import Mathlib.Algebra.BigOperators.Group.List.Basic
import Mathlib.Algebra.GroupWithZero.Nat
import Mathlib.Tactic.Common

/-!
# Machine integers

Checked and saturating arithmetic of `u64`, each operation with the equation that says what it
computes over the naturals, and the byte strings of a number.
-/

namespace StryiChain

/-- `a.checked_add(b)`. -/
def checkedAdd (a b : UInt64) : Option UInt64 :=
  if a.toNat + b.toNat < 2 ^ 64 then some (a + b) else none

/-- `a.checked_sub(b)`. -/
def checkedSub (a b : UInt64) : Option UInt64 :=
  if b.toNat ≤ a.toNat then some (a - b) else none

/-- `a.saturating_add(b)`. -/
def saturatingAdd (a b : UInt64) : UInt64 :=
  UInt64.ofNat (min (a.toNat + b.toNat) (2 ^ 64 - 1))

/-- `a.saturating_sub(b)`. -/
def saturatingSub (a b : UInt64) : UInt64 :=
  UInt64.ofNat (a.toNat - b.toNat)

/-- `a.saturating_mul(b)`. -/
def saturatingMul (a b : UInt64) : UInt64 :=
  UInt64.ofNat (min (a.toNat * b.toNat) (2 ^ 64 - 1))

/-- `iter.try_fold(0u64, |acc, x| acc.checked_add(x))`. -/
def checkedSum (l : List UInt64) : Option UInt64 := l.foldlM checkedAdd 0

/-- `iter.sum::<u64>()` without overflow checks. -/
def wrappingSum (l : List UInt64) : UInt64 := l.foldl (· + ·) 0

theorem checkedAdd_eq_some {a b c : UInt64} :
    checkedAdd a b = some c ↔ c.toNat = a.toNat + b.toNat := by
  have hc := c.toNat_lt
  unfold checkedAdd
  split
  · rename_i fits
    rw [Option.some.injEq, ← UInt64.toNat_inj, UInt64.toNat_add, Nat.mod_eq_of_lt fits]
    exact eq_comm
  · rename_i overflow
    simp only [reduceCtorEq, false_iff]
    omega

theorem checkedAdd_eq_none {a b : UInt64} :
    checkedAdd a b = none ↔ 2 ^ 64 ≤ a.toNat + b.toNat := by
  unfold checkedAdd
  split <;> simp <;> omega

theorem checkedSub_eq_some {a b c : UInt64} :
    checkedSub a b = some c ↔ b.toNat ≤ a.toNat ∧ c.toNat = a.toNat - b.toNat := by
  unfold checkedSub
  split
  · rename_i le
    rw [Option.some.injEq, ← UInt64.toNat_inj, UInt64.toNat_sub_of_le _ _ le]
    constructor
    · intro h
      exact ⟨le, h.symm⟩
    · intro h
      exact h.2.symm
  · rename_i lt
    simp only [reduceCtorEq, false_iff]
    omega

/-- A number below `2 ^ 64` is kept as it is. -/
theorem toNat_ofNat_u64 {n : Nat} (fits : n < 2 ^ 64) : (UInt64.ofNat n).toNat = n :=
  UInt64.toNat_ofNat_of_lt' fits

theorem saturatingAdd_toNat (a b : UInt64) :
    (saturatingAdd a b).toNat = min (a.toNat + b.toNat) (2 ^ 64 - 1) := by
  rw [saturatingAdd, toNat_ofNat_u64 (by omega)]

theorem saturatingSub_toNat (a b : UInt64) : (saturatingSub a b).toNat = a.toNat - b.toNat := by
  exact toNat_ofNat_u64 (Nat.lt_of_le_of_lt (Nat.sub_le _ _) a.toNat_lt)

theorem saturatingMul_toNat (a b : UInt64) :
    (saturatingMul a b).toNat = min (a.toNat * b.toNat) (2 ^ 64 - 1) := by
  rw [saturatingMul, toNat_ofNat_u64 (by omega)]

theorem max_toNat (a b : UInt64) : (max a b).toNat = max a.toNat b.toNat := by
  change (if a ≤ b then b else a).toNat = _
  split
  · rename_i le
    rw [UInt64.le_iff_toNat_le] at le
    exact (Nat.max_eq_right le).symm
  · rename_i gt
    rw [UInt64.le_iff_toNat_le] at gt
    omega

theorem min_toNat_le_right (a b : UInt64) : (min a b).toNat ≤ b.toNat := by
  change (if a ≤ b then a else b).toNat ≤ _
  split
  · rename_i le
    exact UInt64.le_iff_toNat_le.mp le
  · exact Nat.le_refl _

theorem foldlM_checkedAdd_eq_some {l : List UInt64} {a s : UInt64} :
    l.foldlM checkedAdd a = some s ↔ s.toNat = a.toNat + (l.map UInt64.toNat).sum := by
  induction l generalizing a with
  | nil =>
    simp only [List.foldlM_nil, Option.pure_def, Option.some.injEq, List.map_nil, List.sum_nil,
      Nat.add_zero]
    rw [← UInt64.toNat_inj]
    exact eq_comm
  | cons x l ih =>
    rw [List.foldlM_cons, List.map_cons, List.sum_cons]
    cases hx : checkedAdd a x with
    | none =>
      have overflow := checkedAdd_eq_none.mp hx
      have hs := s.toNat_lt
      simp only [Option.bind_eq_bind, Option.bind_none, reduceCtorEq, false_iff]
      omega
    | some y =>
      have hy := checkedAdd_eq_some.mp hx
      simp only [Option.bind_eq_bind, Option.bind_some]
      rw [ih, hy]
      omega

/-- A checked sum succeeds with the sum over the naturals, and only then. -/
theorem checkedSum_eq_some {l : List UInt64} {s : UInt64} :
    checkedSum l = some s ↔ s.toNat = (l.map UInt64.toNat).sum := by
  rw [checkedSum, foldlM_checkedAdd_eq_some]
  simp

theorem wrappingSum_toNat (l : List UInt64) :
    (wrappingSum l).toNat = (l.map UInt64.toNat).sum % 2 ^ 64 := by
  have loop : ∀ a : UInt64, (l.foldl (· + ·) a).toNat =
      (a.toNat + (l.map UInt64.toNat).sum) % 2 ^ 64 := by
    induction l with
    | nil =>
      intro a
      rw [List.foldl_nil, List.map_nil, List.sum_nil, Nat.add_zero, Nat.mod_eq_of_lt a.toNat_lt]
    | cons x l ih =>
      intro a
      rw [List.foldl_cons, ih, UInt64.toNat_add, List.map_cons, List.sum_cons, Nat.mod_add_mod,
        Nat.add_assoc]
  rw [wrappingSum, loop, UInt64.toNat_zero, Nat.zero_add]

/-- The `n` little-endian bytes of a number. -/
def leBytes : Nat → Nat → List UInt8
  | 0, _ => []
  | n + 1, x => UInt8.ofNat (x % 256) :: leBytes n (x / 256)

/-- The `n` big-endian bytes of a number. -/
def beBytes (n x : Nat) : List UInt8 := (leBytes n x).reverse

@[simp] theorem length_leBytes (n x : Nat) : (leBytes n x).length = n := by
  induction n generalizing x with
  | zero => rfl
  | succ n ih => rw [leBytes, List.length_cons, ih]

@[simp] theorem length_beBytes (n x : Nat) : (beBytes n x).length = n := by
  rw [beBytes, List.length_reverse, length_leBytes]

/-- `buf[offset..offset + bytes.len()].copy_from_slice(bytes)`. -/
def copyInto (buf : List UInt8) (offset : Nat) (bytes : List UInt8) : List UInt8 :=
  buf.take offset ++ bytes ++ buf.drop (offset + bytes.length)

/-- A field of a fixed layout is replaced by another one of its width. -/
theorem copyInto_field {front field rest bytes : List UInt8} {offset : Nat}
    (start : front.length = offset) (width : bytes.length = field.length) :
    copyInto (front ++ field ++ rest) offset bytes = front ++ bytes ++ rest := by
  have before : (front ++ field ++ rest).take offset = front := by
    rw [List.append_assoc, ← start, List.take_left]
  have after : (front ++ field ++ rest).drop (offset + bytes.length) = rest := by
    rw [← start, width, ← List.length_append, List.drop_left]
  rw [copyInto, before, after]

/-- A number is known from its bytes, when it fits. -/
theorem leBytes_inj {n x y : Nat} (hx : x < 256 ^ n) (hy : y < 256 ^ n)
    (same : leBytes n x = leBytes n y) : x = y := by
  induction n generalizing x y with
  | zero => omega
  | succ n ih =>
    rw [leBytes, leBytes, List.cons.injEq] at same
    have low : x % 256 = y % 256 := by
      have bytes := congrArg UInt8.toNat same.1
      rwa [UInt8.toNat_ofNat_of_lt' (Nat.mod_lt _ (by decide)),
        UInt8.toNat_ofNat_of_lt' (Nat.mod_lt _ (by decide))] at bytes
    have high : x / 256 = y / 256 := by
      rw [Nat.pow_succ] at hx hy
      exact ih (Nat.div_lt_of_lt_mul (by omega)) (Nat.div_lt_of_lt_mul (by omega)) same.2
    omega

theorem beBytes_inj {n x y : Nat} (hx : x < 256 ^ n) (hy : y < 256 ^ n)
    (same : beBytes n x = beBytes n y) : x = y :=
  leBytes_inj hx hy (List.reverse_injective same)

end StryiChain
