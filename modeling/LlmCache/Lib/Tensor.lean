import Mathlib.Algebra.BigOperators.Group.List.Basic
import Mathlib.Data.List.Forall2

/-!
# Dense tensors

A tensor has an entry at every index below its extents.  Slices are taken,
stacked and overwritten along any dimension, and the entries can be listed in
row-major order and read back from such a list.
-/

namespace LlmCache.Lib

/-- Every component of the index is below its extent. -/
abbrev InBounds (index shape : List Nat) : Prop :=
  List.Forall₂ (· < ·) index shape

@[ext] structure Tensor (α : Type) where
  shape : List Nat
  entry : List Nat → Option α
  isSome_entry : ∀ index, (entry index).isSome ↔ InBounds index shape

namespace Tensor

variable {α : Type}

/-! ## Indices -/

theorem inBounds_insertIdx {index shape : List Nat} {dim i : Nat} (hi : i < shape.getD dim 0) :
    InBounds (index.insertIdx dim i) shape ↔ InBounds index (shape.eraseIdx dim) := by
  induction dim generalizing index shape with
  | zero =>
      cases shape with
      | nil => simp at hi
      | cons n shape =>
          have hlt : i < n := hi
          simp [hlt]
  | succ dim ih =>
      cases shape with
      | nil => simp at hi
      | cons n shape =>
          have hlt : i < shape.getD dim 0 := hi
          cases index with
          | nil => simp
          | cons j index => simp [ih hlt]

theorem inBounds_insertIdx_shape {index shape : List Nat} {dim : Nat} (hdim : dim ≤ shape.length)
    (n : Nat) :
    InBounds index (shape.insertIdx dim n) ↔
      ∃ j, index[dim]? = some j ∧ j < n ∧ InBounds (index.eraseIdx dim) shape := by
  induction dim generalizing index shape with
  | zero =>
      cases index with
      | nil => simp
      | cons j index => simp
  | succ dim ih =>
      cases shape with
      | nil => simp at hdim
      | cons m shape =>
          have hle : dim ≤ shape.length := Nat.le_of_succ_le_succ hdim
          cases index with
          | nil => simp
          | cons j index =>
              simp only [List.insertIdx_succ_cons, List.forall₂_cons, ih hle,
                List.getElem?_cons_succ, List.eraseIdx_cons_succ]
              constructor
              · rintro ⟨hj, k, hk, hlt, hrest⟩
                exact ⟨k, hk, hlt, hj, hrest⟩
              · rintro ⟨k, hk, hlt, hj, hrest⟩
                exact ⟨hj, k, hk, hlt, hrest⟩

theorem prod_pos_of_inBounds {index shape : List Nat} (h : InBounds index shape) :
    0 < shape.prod := by
  induction h with
  | nil => exact Nat.one_pos
  | @cons i n index shape hlt _ ih =>
      rw [List.prod_cons]
      exact Nat.mul_pos (Nat.zero_lt_of_lt hlt) ih

theorem entry_eq_none_iff (t : Tensor α) (index : List Nat) :
    t.entry index = none ↔ ¬InBounds index t.shape := by
  rw [← t.isSome_entry, Option.not_isSome_iff_eq_none]

theorem isSome_ofFn_entry {shape : List Nat} (f : List Nat → α) (index : List Nat) :
    (if InBounds index shape then some (f index) else none).isSome ↔ InBounds index shape := by
  by_cases h : InBounds index shape <;> simp [h]

def ofFn (shape : List Nat) (f : List Nat → α) : Tensor α :=
  ⟨shape, fun index => if InBounds index shape then some (f index) else none, isSome_ofFn_entry f⟩

/-! ## Slices -/

/-- The slice at position `i` of a dimension, such as `t[:, i]` for the second. -/
def select (t : Tensor α) (dim i : Nat) : Option (Tensor α) :=
  if hi : i < t.shape.getD dim 0 then
    some ⟨t.shape.eraseIdx dim, fun index => t.entry (index.insertIdx dim i), fun _ =>
      (t.isSome_entry _).trans (inBounds_insertIdx hi)⟩
  else none

theorem select_eq_some {t : Tensor α} {dim i : Nat} (hi : i < t.shape.getD dim 0) :
    ∃ slice, t.select dim i = some slice ∧ slice.shape = t.shape.eraseIdx dim ∧
      ∀ index, slice.entry index = t.entry (index.insertIdx dim i) :=
  ⟨_, dif_pos hi, rfl, fun _ => rfl⟩

theorem isSome_stack_entry {t : Tensor α} {ts : List (Tensor α)} {dim : Nat}
    (hdim : dim ≤ t.shape.length) (hshape : ∀ u ∈ ts, u.shape = t.shape) (index : List Nat) :
    (index[dim]?.bind fun j => (t :: ts)[j]?.bind fun u =>
        u.entry (index.eraseIdx dim)).isSome ↔
      InBounds index (t.shape.insertIdx dim (ts.length + 1)) := by
  have hall : ∀ u ∈ t :: ts, u.shape = t.shape := List.forall_mem_cons.mpr ⟨rfl, hshape⟩
  rw [inBounds_insertIdx_shape hdim]
  cases hj : index[dim]? with
  | none => simp
  | some j =>
      cases hu : (t :: ts)[j]? with
      | none =>
          have hge : ts.length + 1 ≤ j := List.getElem?_eq_none_iff.mp hu
          have hnot : ¬j < ts.length + 1 := Nat.not_lt.mpr hge
          simp only [Option.bind_some, hu, Option.bind_none, Option.isSome_none,
            Bool.false_eq_true, Option.some.injEq, exists_eq_left', hnot, false_and]
      | some u =>
          obtain ⟨hlt, _⟩ := List.getElem?_eq_some_iff.mp hu
          have hlt' : j < ts.length + 1 := hlt
          have hu_shape : u.shape = t.shape := hall u (List.mem_of_getElem? hu)
          simp only [Option.bind_some, hu, isSome_entry, hu_shape, Option.some.injEq,
            exists_eq_left', hlt', true_and]

/-- Tensors of one shape put side by side along a new dimension. -/
def stack (dim : Nat) : List (Tensor α) → Option (Tensor α)
  | [] => none
  | t :: ts =>
      if h : dim ≤ t.shape.length ∧ ∀ u ∈ ts, u.shape = t.shape then
        some ⟨t.shape.insertIdx dim (ts.length + 1),
          fun index => index[dim]?.bind fun j => (t :: ts)[j]?.bind fun u =>
            u.entry (index.eraseIdx dim),
          isSome_stack_entry h.1 h.2⟩
      else none

theorem stack_eq_some {ts : List (Tensor α)} (hne : ts ≠ []) {shape : List Nat}
    (hshape : ∀ t ∈ ts, t.shape = shape) {dim : Nat} (hdim : dim ≤ shape.length) :
    ∃ stacked, stack dim ts = some stacked ∧ stacked.shape = shape.insertIdx dim ts.length ∧
      ∀ index, stacked.entry index = index[dim]?.bind fun j => ts[j]?.bind fun t =>
        t.entry (index.eraseIdx dim) := by
  cases ts with
  | nil => exact absurd rfl hne
  | cons t ts =>
      obtain ⟨rfl, hrest⟩ := List.forall_mem_cons.mp hshape
      exact ⟨_, dif_pos ⟨hdim, hrest⟩, rfl, fun _ => rfl⟩

/-! ## Overwriting a slice -/

/-- A shape that can be expanded to another one: an extent of one is repeated, and
so is a dimension that is missing at the front. -/
def Broadcasts (shape target : List Nat) : Prop :=
  shape.length ≤ target.length ∧
    List.Forall₂ (fun m n => m = n ∨ m = 1) shape (target.drop (target.length - shape.length))

instance (shape target : List Nat) : Decidable (Broadcasts shape target) :=
  inferInstanceAs (Decidable (_ ∧ _))

theorem broadcasts_refl (shape : List Nat) : Broadcasts shape shape := by
  constructor
  · exact Nat.le_refl _
  · rw [Nat.sub_self, List.drop_zero, List.forall₂_same]
    exact fun n _ => .inl rfl

/-- Where the entry at an index of the expanded tensor comes from. -/
def sourceIndex (shape index : List Nat) : List Nat :=
  List.zipWith (fun m i => if m = 1 then 0 else i) shape
    (index.drop (index.length - shape.length))

theorem sourceIndex_of_inBounds {shape index : List Nat} (h : InBounds index shape) :
    sourceIndex shape index = index := by
  rw [sourceIndex, h.length_eq, Nat.sub_self, List.drop_zero]
  induction h with
  | nil => rfl
  | @cons i n index shape hlt _ ih =>
      rw [List.zipWith_cons_cons, ih]
      by_cases hn : n = 1
      · have hi : i = 0 := by omega
        rw [if_pos hn, hi]
      · rw [if_neg hn]

theorem inBounds_zipWith {shape target index : List Nat}
    (h : List.Forall₂ (fun m n => m = n ∨ m = 1) shape target) (hindex : InBounds index target) :
    InBounds (List.zipWith (fun m i => if m = 1 then 0 else i) shape index) shape := by
  induction h generalizing index with
  | nil => exact .nil
  | @cons m n shape target hm _ ih =>
      cases hindex with
      | @cons i _ index _ hi hrest =>
          rw [List.zipWith_cons_cons]
          refine .cons ?_ (ih hrest)
          by_cases hone : m = 1
          · rw [if_pos hone]
            omega
          · rw [if_neg hone]
            omega

theorem inBounds_sourceIndex {shape target index : List Nat} (h : Broadcasts shape target)
    (hindex : InBounds index target) : InBounds (sourceIndex shape index) shape := by
  apply inBounds_zipWith h.2
  rw [hindex.length_eq]
  exact List.forall₂_drop _ hindex

theorem isSome_expand_entry {t : Tensor α} {target : List Nat} (h : Broadcasts t.shape target)
    (index : List Nat) :
    (if InBounds index target then t.entry (sourceIndex t.shape index) else none).isSome ↔
      InBounds index target := by
  by_cases hindex : InBounds index target
  · rw [if_pos hindex, t.isSome_entry]
    exact iff_of_true (inBounds_sourceIndex h hindex) hindex
  · simp [hindex]

def expand (t : Tensor α) (target : List Nat) : Option (Tensor α) :=
  if h : Broadcasts t.shape target then
    some ⟨target, fun index =>
      if InBounds index target then t.entry (sourceIndex t.shape index) else none,
      isSome_expand_entry h⟩
  else none

theorem shape_expand {t u : Tensor α} {target : List Nat} (h : t.expand target = some u) :
    u.shape = target := by
  unfold expand at h
  split_ifs at h
  rw [← Option.some.inj h]

theorem expand_self (t : Tensor α) : t.expand t.shape = some t := by
  rw [expand, dif_pos (broadcasts_refl t.shape), Option.some.injEq]
  apply Tensor.ext
  · rfl
  · funext index
    by_cases hindex : InBounds index t.shape
    · simp only [if_pos hindex, sourceIndex_of_inBounds hindex]
    · simp only [if_neg hindex]
      exact ((t.entry_eq_none_iff index).mpr hindex).symm

theorem isSome_overwritten_entry {t source : Tensor α} {dim i : Nat}
    (hi : i < t.shape.getD dim 0) (hshape : source.shape = t.shape.eraseIdx dim)
    (index : List Nat) :
    (if index[dim]? = some i then source.entry (index.eraseIdx dim) else t.entry index).isSome ↔
      InBounds index t.shape := by
  by_cases hindex : index[dim]? = some i
  · obtain ⟨hlt, hget⟩ := List.getElem?_eq_some_iff.mp hindex
    have hback : (index.eraseIdx dim).insertIdx dim i = index := by
      rw [← hget, List.insertIdx_eraseIdx_getElem hlt]
    rw [if_pos hindex, source.isSome_entry, hshape, ← inBounds_insertIdx hi, hback]
  · rw [if_neg hindex, t.isSome_entry]

/-- `copy_` of the source into the slice at position `i` of a dimension. -/
def overwrite (t : Tensor α) (dim i : Nat) (source : Tensor α) : Option (Tensor α) :=
  match hexpand : source.expand (t.shape.eraseIdx dim) with
  | none => none
  | some slice =>
      if hi : i < t.shape.getD dim 0 then
        some ⟨t.shape, fun index =>
          if index[dim]? = some i then slice.entry (index.eraseIdx dim) else t.entry index,
          isSome_overwritten_entry hi (shape_expand hexpand)⟩
      else none

/-- A source of the shape of the slice replaces it, and the rest stays. -/
theorem overwrite_eq_some {t source : Tensor α} {dim i : Nat} (hi : i < t.shape.getD dim 0)
    (hshape : source.shape = t.shape.eraseIdx dim) :
    ∃ u, t.overwrite dim i source = some u ∧ u.shape = t.shape ∧
      ∀ index, u.entry index =
        if index[dim]? = some i then source.entry (index.eraseIdx dim) else t.entry index := by
  have hexpand : source.expand (t.shape.eraseIdx dim) = some source := hshape ▸ source.expand_self
  unfold overwrite
  split
  · next hnone =>
      rw [hexpand] at hnone
      cases hnone
  · next slice hsome =>
      obtain rfl := Option.some.inj (hexpand.symm.trans hsome)
      exact ⟨_, dif_pos hi, rfl, fun _ => rfl⟩

/-! ## Row-major order -/

/-- All indices below the extents, the last component running fastest. -/
def indices : List Nat → List (List Nat)
  | [] => [[]]
  | n :: shape => (List.range n).flatMap fun i : Nat => (indices shape).map (i :: ·)

theorem mem_indices_iff {index shape : List Nat} :
    index ∈ indices shape ↔ InBounds index shape := by
  induction shape generalizing index with
  | nil => simp [indices]
  | cons n shape ih =>
      cases index with
      | nil => simp [indices]
      | cons i index => simp [indices, ih]

theorem length_indices (shape : List Nat) : (indices shape).length = shape.prod := by
  induction shape with
  | nil => rfl
  | cons n shape ih => simp [indices, ih, List.length_flatMap]

/-- The entries in row-major order. -/
def entries (t : Tensor α) : List α :=
  (indices t.shape).filterMap t.entry

theorem length_entries (t : Tensor α) : t.entries.length = t.shape.prod := by
  have hall : ∀ index ∈ indices t.shape, (t.entry index).isSome := fun index hindex =>
    (t.isSome_entry index).mpr (mem_indices_iff.mp hindex)
  rw [entries, ← length_indices, List.filterMap_length_eq_length.mpr hall]

theorem isSome_lookup_zip {β : Type} [BEq β] [LawfulBEq β] {keys : List β} {values : List α}
    (hlen : values.length = keys.length) (key : β) :
    ((keys.zip values).lookup key).isSome ↔ key ∈ keys := by
  induction keys generalizing values with
  | nil => simp
  | cons k keys ih =>
      cases values with
      | nil => simp at hlen
      | cons value values =>
          have hrest : values.length = keys.length := by simpa using hlen
          by_cases hk : key = k
          · simp [hk]
          · have hbeq : (key == k) = false := beq_false_of_ne hk
            simp [List.lookup_cons, hbeq, hk, ih hrest]

theorem isSome_reshape_entry {values : List α} {shape : List Nat}
    (hlen : values.length = shape.prod) (index : List Nat) :
    (((indices shape).zip values).lookup index).isSome ↔ InBounds index shape := by
  rw [isSome_lookup_zip (hlen.trans (length_indices shape).symm), mem_indices_iff]

/-- The tensor of a shape with the given entries in row-major order. -/
def reshape (values : List α) (shape : List Nat) : Option (Tensor α) :=
  if hlen : values.length = shape.prod then
    some ⟨shape, fun index => ((indices shape).zip values).lookup index,
      isSome_reshape_entry hlen⟩
  else none

theorem lookup_zip_filterMap {β : Type} [BEq β] [LawfulBEq β] {f : β → Option α} {keys : List β}
    (h : ∀ key ∈ keys, (f key).isSome) {key : β} (hkey : key ∈ keys) :
    (keys.zip (keys.filterMap f)).lookup key = f key := by
  induction keys with
  | nil => cases hkey
  | cons k keys ih =>
      obtain ⟨value, hvalue⟩ := Option.isSome_iff_exists.mp (h k (List.mem_cons_self ..))
      rw [List.filterMap_cons_some hvalue, List.zip_cons_cons]
      by_cases hk : key = k
      · rw [hk, List.lookup_cons_self, hvalue]
      · have hbeq : (key == k) = false := beq_false_of_ne hk
        rw [List.lookup_cons, hbeq]
        exact ih (fun key hkey => h key (List.mem_cons_of_mem _ hkey))
          ((List.mem_cons.mp hkey).resolve_left hk)

/-- Reading the entries back gives the tensor. -/
theorem reshape_entries (t : Tensor α) : reshape t.entries t.shape = some t := by
  rw [reshape, dif_pos t.length_entries, Option.some.injEq]
  apply Tensor.ext
  · rfl
  · funext index
    by_cases hindex : InBounds index t.shape
    · exact lookup_zip_filterMap (fun index hmem => (t.isSome_entry index).mpr
        (mem_indices_iff.mp hmem)) (mem_indices_iff.mpr hindex)
    · rw [(t.entry_eq_none_iff index).mpr hindex]
      apply Option.not_isSome_iff_eq_none.mp
      rw [isSome_reshape_entry t.length_entries]
      exact hindex

end Tensor

end LlmCache.Lib
