import Mathlib.Data.List.DropRight
import Mathlib.Data.List.Nodup

/-!
# Least recently used, with more or fewer slots

A bounded list of keys in the order of their last uses, oldest first.  Admitting
a key makes it the newest and drops the oldest ones beyond the slots.  With more
slots the list holds at least the same keys in the same order, whatever is
admitted, touched or removed.
-/

namespace LlmCache.Lib.Recency

variable {α : Type*}

/-- The newest keys that the slots hold; `none` holds all of them. -/
def newest (slots : Option Nat) (keys : List α) : List α :=
  match slots with
  | none => keys
  | some n => keys.rtake n

/-- At least as many slots. -/
def AtMost (fewer more : Option Nat) : Prop :=
  ∀ n' ∈ more, ∃ n ∈ fewer, n ≤ n'

theorem newest_sublist (slots : Option Nat) (keys : List α) : (newest slots keys).Sublist keys := by
  cases slots with
  | none => exact List.Sublist.refl keys
  | some n => exact List.drop_sublist ..

theorem length_newest_some (n : Nat) (keys : List α) :
    (newest (some n) keys).length = min n keys.length := by
  rw [newest, List.rtake, List.length_drop]
  omega

/-- The list with more slots holds the other one, and is longer by no more than
the additional slots. -/
structure Covers (fewer more : Option Nat) (keys keys' : List α) : Prop where
  sublist : keys.Sublist keys'
  nodup : keys'.Nodup
  slack : ∀ n' ∈ more, ∃ n ∈ fewer, keys'.length + n ≤ keys.length + n'

variable {fewer more : Option Nat} {keys keys' : List α}

theorem Covers.nil (h : AtMost fewer more) : Covers fewer more ([] : List α) [] where
  sublist := List.Sublist.refl []
  nodup := List.nodup_nil
  slack n' hn' := by
    obtain ⟨n, hn, hle⟩ := h n' hn'
    exact ⟨n, hn, by simpa using hle⟩

theorem Covers.subset (h : Covers fewer more keys keys') {key : α} (hkey : key ∈ keys) :
    key ∈ keys' :=
  h.sublist.subset hkey

theorem Covers.filter (h : Covers fewer more keys keys') (p : α → Bool) :
    Covers fewer more (keys.filter p) (keys'.filter p) where
  sublist := h.sublist.filter p
  nodup := h.nodup.filter p
  slack n' hn' := by
    obtain ⟨n, hn, hle⟩ := h.slack n' hn'
    -- what the filter drops of the shorter list it drops of the longer one too
    have hdropped := (h.sublist.filter fun key => !p key).length_le
    have hsplit := List.length_eq_length_filter_add (l := keys) p
    have hsplit' := List.length_eq_length_filter_add (l := keys') p
    exact ⟨n, hn, by omega⟩

theorem Covers.concat (h : Covers fewer more keys keys') {key : α} (hkey : key ∉ keys') :
    Covers fewer more (keys ++ [key]) (keys' ++ [key]) where
  sublist := h.sublist.append (List.Sublist.refl [key])
  nodup := List.nodup_append'.mpr ⟨h.nodup, List.nodup_singleton key, by simpa using hkey⟩
  slack n' hn' := by
    obtain ⟨n, hn, hle⟩ := h.slack n' hn'
    refine ⟨n, hn, ?_⟩
    rw [List.length_append, List.length_append]
    omega

theorem Covers.newest (h : Covers fewer more keys keys') :
    Covers fewer more (newest fewer keys) (newest more keys') := by
  cases more with
  | none =>
      exact ⟨(newest_sublist fewer keys).trans h.sublist, h.nodup, fun _ hn' => nomatch hn'⟩
  | some n' =>
      obtain ⟨n, rfl, hle⟩ := h.slack n' rfl
      refine ⟨?_, h.nodup.sublist (newest_sublist ..), fun m hm => ⟨n, rfl, ?_⟩⟩
      · -- the longer list drops no more than the shorter one
        have hdrop : keys'.length - n' ≤ keys.length - n := by omega
        exact (h.sublist.drop (keys.length - n)).trans (List.drop_sublist_drop_left keys' hdrop)
      · obtain rfl : n' = m := Option.some.inj hm
        rw [length_newest_some, length_newest_some]
        omega

/-! ## Using a key -/

variable [DecidableEq α]

theorem filter_notMem_take {keys : List α} (h : keys.Nodup) (n : Nat) :
    (keys.filter fun key => key ∉ keys.take n) = keys.drop n := by
  have hdisjoint := h
  rw [← List.take_append_drop n keys] at hdisjoint
  obtain ⟨_, _, hapart⟩ := List.nodup_append'.mp hdisjoint
  calc
    (keys.filter fun key => key ∉ keys.take n)
        = (keys.take n ++ keys.drop n).filter fun key => key ∉ keys.take n := by
      rw [List.take_append_drop]
    _ = [] ++ keys.drop n := by
      rw [List.filter_append]
      congr 1
      · apply List.filter_eq_nil_iff.mpr
        intro key hkey
        simpa using hkey
      · apply List.filter_eq_self.mpr
        intro key hkey
        simpa using fun hgone => hapart hgone hkey
    _ = keys.drop n := List.nil_append _

/-- `key` becomes the newest, at the cost of the oldest. -/
def enter (slots : Option Nat) (key : α) (keys : List α) : List α :=
  newest slots (keys.filter (· ≠ key) ++ [key])

/-- `key` becomes the newest if it is there. -/
def touch (key : α) (keys : List α) : List α :=
  if key ∈ keys then keys.filter (· ≠ key) ++ [key] else keys

theorem Covers.enter (h : Covers fewer more keys keys') (key : α) :
    Covers fewer more (enter fewer key keys) (enter more key keys') :=
  ((h.filter (· ≠ key)).concat (by simp)).newest

theorem Covers.touch (h : Covers fewer more keys keys') (key : α) :
    Covers fewer more (touch key keys) (touch key keys') := by
  by_cases hkey : key ∈ keys
  · rw [Recency.touch, Recency.touch, if_pos hkey, if_pos (h.subset hkey)]
    exact (h.filter (· ≠ key)).concat (by simp)
  by_cases hkey' : key ∈ keys'
  · -- only the longer list moves its key to the end
    rw [Recency.touch, Recency.touch, if_neg hkey, if_pos hkey']
    have hother : keys.filter (· ≠ key) = keys :=
      List.filter_eq_self.mpr fun k hk => by
        rw [decide_eq_true_eq]
        exact fun heq => hkey (heq ▸ hk)
    have hsublist := h.sublist.filter (· ≠ key)
    rw [hother] at hsublist
    have hlength : (keys'.filter (· ≠ key) ++ [key]).length = keys'.length := by
      have herase := h.nodup.erase_eq_filter key
      have hlen := List.length_erase_of_mem hkey'
      have hpos := List.length_pos_of_mem hkey'
      rw [List.length_append, List.length_singleton]
      have hsame : keys'.filter (· ≠ key) = keys'.erase key := by
        rw [herase]
        apply List.filter_congr
        intro k _
        by_cases hk : k = key <;> simp [hk]
      rw [hsame]
      omega
    refine ⟨hsublist.trans (List.sublist_append_left ..), ?_, ?_⟩
    · exact List.nodup_append'.mpr ⟨h.nodup.filter _, List.nodup_singleton key, by simp⟩
    · rw [hlength]
      exact h.slack
  · rw [Recency.touch, Recency.touch, if_neg hkey, if_neg hkey']
    exact h

end LlmCache.Lib.Recency
