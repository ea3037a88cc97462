import Mathlib.Data.UInt

/-!
# Unsigned machine words

The tools compute with Rust's `u64` and `u32`, whose additions wrap in a release build. The
model keeps the code's types, `UInt64` and `UInt32`, and reasons about them through `toNat`:
these lemmas rewrite comparisons and the arithmetic the code uses into statements about natural
numbers, which `omega` then closes.
-/

namespace UInt64

theorem eq_iff_toNat_eq {a b : UInt64} : a = b ↔ a.toNat = b.toNat :=
  ⟨congrArg _, UInt64.toNat.inj⟩

theorem lt_iff_toNat_lt {a b : UInt64} : a < b ↔ a.toNat < b.toNat := Iff.rfl

theorem le_iff_toNat_le {a b : UInt64} : a ≤ b ↔ a.toNat ≤ b.toNat := Iff.rfl

theorem toNat_ofNat_eq (n : Nat) : (UInt64.ofNat n).toNat = n % 2 ^ 64 :=
  BitVec.toNat_ofNat _ _

theorem toNat_add_eq (a b : UInt64) : (a + b).toNat = (a.toNat + b.toNat) % 2 ^ 64 :=
  BitVec.toNat_add _ _

theorem toNat_mul_eq (a b : UInt64) : (a * b).toNat = a.toNat * b.toNat % 2 ^ 64 :=
  BitVec.toNat_mul _ _

@[simp] theorem toNat_one_eq : (1 : UInt64).toNat = 1 := rfl

@[simp] theorem ofNat_zero_eq : UInt64.ofNat 0 = 0 := rfl

theorem toNat_lt_two_pow (a : UInt64) : a.toNat < 2 ^ 64 := a.toBitVec.isLt

theorem toNat_min (a b : UInt64) : (min a b).toNat = min a.toNat b.toNat := by
  show (if a ≤ b then a else b).toNat = _
  split <;> rename_i h <;> rw [le_iff_toNat_le] at h <;> omega

theorem min_comm (a b : UInt64) : min a b = min b a :=
  eq_iff_toNat_eq.2 <| by rw [toNat_min, toNat_min, Nat.min_comm]

@[simp] theorem ofNat_toNat_eq (a : UInt64) : UInt64.ofNat a.toNat = a :=
  eq_iff_toNat_eq.2 <| by rw [toNat_ofNat_eq, Nat.mod_eq_of_lt a.toNat_lt_two_pow]

theorem ofNat_add (a b : Nat) : UInt64.ofNat (a + b) = UInt64.ofNat a + UInt64.ofNat b :=
  eq_iff_toNat_eq.2 <| by simp only [toNat_ofNat_eq, toNat_add_eq, Nat.add_mod_mod, Nat.mod_add_mod]

/-- `Ord` compares as `<` and `=` do. -/
theorem compare_eq_ite (a b : UInt64) :
    compare a b = if a < b then .lt else if a = b then .eq else .gt := rfl

/-- The cast `x as u32` keeps the low 32 bits. -/
theorem toNat_toUInt32_eq (a : UInt64) : a.toUInt32.toNat = a.toNat % 2 ^ 32 := by
  simp only [UInt64.toUInt32, UInt32.toNat, UInt64.toNat, Nat.toUInt32, UInt32.ofNat,
    BitVec.toNat_ofNat]

end UInt64

namespace UInt32

theorem eq_iff_toNat_eq {a b : UInt32} : a = b ↔ a.toNat = b.toNat :=
  ⟨congrArg _, UInt32.toNat.inj⟩

theorem lt_iff_toNat_lt {a b : UInt32} : a < b ↔ a.toNat < b.toNat := Iff.rfl

theorem le_iff_toNat_le {a b : UInt32} : a ≤ b ↔ a.toNat ≤ b.toNat := Iff.rfl

theorem toNat_ofNat_eq (n : Nat) : (UInt32.ofNat n).toNat = n % 2 ^ 32 :=
  BitVec.toNat_ofNat _ _

theorem toNat_lt_two_pow (a : UInt32) : a.toNat < 2 ^ 32 := a.toBitVec.isLt

/-- The cast `x as u64` keeps the value. -/
@[simp] theorem toNat_toUInt64_eq (a : UInt32) : a.toUInt64.toNat = a.toNat := rfl

theorem compare_eq_ite (a b : UInt32) :
    compare a b = if a < b then .lt else if a = b then .eq else .gt := rfl

end UInt32
