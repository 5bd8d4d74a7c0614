import Mathlib.Algebra.Order.Ring.Int
import Mathlib.Data.Int.ModEq

/-!
# Little-endian integers of fixed width

`int.to_bytes` and `int.from_bytes` with byte order `little`, and the reason a
run of fixed-width integers can be read back from its concatenated bytes.
-/

namespace LlmCache.Lib.LittleEndian

/-- The `width` low bytes of `n`, least significant first. -/
def toBytes : Nat → Nat → List UInt8
  | 0, _ => []
  | width + 1, n => UInt8.ofNat (n % 256) :: toBytes width (n / 256)

/-- The number a byte string stands for. -/
def fromBytes : List UInt8 → Nat
  | [] => 0
  | b :: bs => b.toNat + 256 * fromBytes bs

/-- `n.to_bytes(width, "little")`, when `n` fits in `width` bytes. -/
def toBytesUnsigned (width n : Nat) : Option (List UInt8) :=
  if n < 256 ^ width then some (toBytes width n) else none

/-- Two's complement of `n`, when it fits in `width` bytes. -/
def toBytesSigned (width : Nat) (n : Int) : Option (List UInt8) :=
  if -(256 ^ width) ≤ 2 * n ∧ 2 * n < 256 ^ width then
    some (toBytes width (n % 256 ^ width).toNat)
  else none

@[simp] theorem length_toBytes (width n : Nat) : (toBytes width n).length = width := by
  induction width generalizing n with
  | zero => rfl
  | succ width ih => simp [toBytes, ih]

theorem fromBytes_toBytes (width n : Nat) :
    fromBytes (toBytes width n) = n % 256 ^ width := by
  induction width generalizing n with
  | zero => simp [toBytes, fromBytes, Nat.mod_one]
  | succ width ih =>
      have hbyte : (UInt8.ofNat (n % 256)).toNat = n % 256 := by simp
      rw [toBytes, fromBytes, ih, hbyte, Nat.pow_succ']
      exact (Nat.mod_mul (a := 256) (b := 256 ^ width)).symm

theorem fromBytes_of_toBytesUnsigned {width n : Nat} {bytes : List UInt8}
    (h : toBytesUnsigned width n = some bytes) : bytes.length = width ∧ fromBytes bytes = n := by
  unfold toBytesUnsigned at h
  split_ifs at h with hfits
  simp only [Option.some.injEq] at h
  rw [← h, length_toBytes, fromBytes_toBytes]
  exact ⟨rfl, Nat.mod_eq_of_lt hfits⟩

theorem length_of_toBytesSigned {width : Nat} {n : Int} {bytes : List UInt8}
    (h : toBytesSigned width n = some bytes) : bytes.length = width := by
  unfold toBytesSigned at h
  split_ifs at h
  simp only [Option.some.injEq] at h
  rw [← h, length_toBytes]

theorem toBytesSigned_isSome_iff (width : Nat) (n : Int) :
    (toBytesSigned width n).isSome ↔ -(256 ^ width) ≤ 2 * n ∧ 2 * n < 256 ^ width := by
  unfold toBytesSigned
  split_ifs with h <;> simp [h]

theorem toBytesSigned_inj {width : Nat} {a b : Int} {bytes : List UInt8}
    (ha : toBytesSigned width a = some bytes) (hb : toBytesSigned width b = some bytes) :
    a = b := by
  unfold toBytesSigned at ha hb
  split_ifs at ha hb with hra hrb
  simp only [Option.some.injEq] at ha hb
  have hpos : (0 : Int) < 256 ^ width := pow_pos (by decide) width
  have hbytes : toBytes width (a % 256 ^ width).toNat = toBytes width (b % 256 ^ width).toNat := by
    rw [ha, hb]
  have hvalue := congrArg fromBytes hbytes
  rw [fromBytes_toBytes, fromBytes_toBytes] at hvalue
  have hbound : ∀ n : Int, (n % 256 ^ width).toNat % 256 ^ width = (n % 256 ^ width).toNat := by
    intro n
    apply Nat.mod_eq_of_lt
    have hlt := Int.emod_lt_of_pos n hpos
    have hnonneg := Int.emod_nonneg n hpos.ne'
    rw [Int.toNat_lt hnonneg]
    exact_mod_cast hlt
  rw [hbound, hbound] at hvalue
  have hmod : a % 256 ^ width = b % 256 ^ width := by
    rw [← Int.toNat_of_nonneg (Int.emod_nonneg a hpos.ne'),
      ← Int.toNat_of_nonneg (Int.emod_nonneg b hpos.ne'), hvalue]
  have hdvd : (256 : Int) ^ width ∣ a - b := (Int.ModEq.dvd hmod.symm)
  have habs : |a - b| < 256 ^ width := by
    rw [abs_lt]
    constructor <;> omega
  have hzero := Int.eq_zero_of_abs_lt_dvd hdvd habs
  omega

/-- Strings of one common positive length can be cut apart again. -/
theorem flatten_inj {α : Type*} {width : Nat} (hwidth : 0 < width) {xs ys : List (List α)}
    (hxs : ∀ x ∈ xs, x.length = width) (hys : ∀ y ∈ ys, y.length = width)
    (h : xs.flatten = ys.flatten) : xs = ys := by
  induction xs generalizing ys with
  | nil =>
      cases ys with
      | nil => rfl
      | cons y ys =>
          have hy := hys y (by simp)
          have hnil : y = [] := by simp at h; exact h.1
          simp [hnil] at hy
          omega
  | cons x xs ih =>
      have hx := hxs x (by simp)
      cases ys with
      | nil =>
          have hnil : x = [] := by simp at h; exact h.1
          simp [hnil] at hx
          omega
      | cons y ys =>
          have hy := hys y (by simp)
          simp only [List.flatten_cons] at h
          obtain ⟨hhead, htail⟩ := List.append_inj h (hx.trans hy.symm)
          rw [hhead, ih (fun z hz => hxs z (by simp [hz])) (fun z hz => hys z (by simp [hz])) htail]

end LlmCache.Lib.LittleEndian
