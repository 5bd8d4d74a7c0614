import Mathlib.Data.List.Basic

/-!
# Prefixes and slices of lists
-/

namespace LlmCache.Lib

variable {α : Type*}

/-- The first `m` slices of a list hold its first `m * size` entries. -/
theorem flatten_slices (values : List α) (size m : Nat) :
    ((List.range m).map fun i => (values.drop (i * size)).take size).flatten =
      values.take (m * size) := by
  induction m with
  | zero => simp
  | succ m ih =>
      rw [List.range_succ, List.map_append, List.flatten_append, ih, Nat.succ_mul,
        List.take_add]
      simp

/-! ## The longest common prefix -/

section CommonPrefix

variable [DecidableEq α]

/-- The length of the longest common prefix. -/
def commonPrefix : List α → List α → Nat
  | a :: as, b :: bs => if a = b then commonPrefix as bs + 1 else 0
  | [], _ => 0
  | _ :: _, [] => 0

theorem commonPrefix_le (as bs : List α) : commonPrefix as bs ≤ as.length := by
  induction as generalizing bs with
  | nil => exact Nat.le_refl 0
  | cons a as ih =>
      cases bs with
      | nil => exact Nat.zero_le _
      | cons b bs =>
          simp only [commonPrefix, List.length_cons]
          split_ifs
          · exact Nat.succ_le_succ (ih bs)
          · exact Nat.zero_le _

theorem take_commonPrefix (as bs : List α) :
    as.take (commonPrefix as bs) = bs.take (commonPrefix as bs) := by
  induction as generalizing bs with
  | nil => rfl
  | cons a as ih =>
      cases bs with
      | nil => rfl
      | cons b bs =>
          simp only [commonPrefix]
          split_ifs with hab
          · rw [List.take_succ_cons, List.take_succ_cons, ih, hab]
          · rfl

theorem le_commonPrefix (common as bs : List α) :
    common.length ≤ commonPrefix (common ++ as) (common ++ bs) := by
  induction common with
  | nil => exact Nat.zero_le _
  | cons a common ih =>
      rw [List.cons_append, List.cons_append, commonPrefix, if_pos rfl]
      exact Nat.succ_le_succ ih

theorem commonPrefix_of_isPrefix {as bs : List α} (h : as <+: bs) :
    commonPrefix as bs = as.length := by
  obtain ⟨rest, rfl⟩ := h
  apply Nat.le_antisymm (commonPrefix_le as _)
  have hle := le_commonPrefix as [] rest
  rwa [List.append_nil] at hle

end CommonPrefix

end LlmCache.Lib
