import Mathlib.Data.List.Forall2
import Mathlib.Tactic.Tauto

/-!
# Lists of fallible computations

The elements are computed from the left, and the first failure ends it.
-/

namespace LlmCache.Lib

variable {ε α β γ : Type}

/-- `[f(x) for x in xs]`. -/
def collect (f : α → Except ε β) : List α → Except ε (List β)
  | [] => .ok []
  | x :: xs =>
      match f x with
      | .error err => .error err
      | .ok y => (collect f xs).map (y :: ·)

/-- All elements before `x` have been computed when its turn comes. -/
def Reached (f : α → Except ε β) (xs : List α) (x : α) : Prop :=
  ∃ before later, xs = before ++ x :: later ∧ ∀ y ∈ before, ∃ value, f y = .ok value

variable {f : α → Except ε β}

theorem not_reached_nil (x : α) : ¬Reached f [] x := by
  rintro ⟨before, later, hsplit, _⟩
  cases before <;> cases hsplit

theorem reached_cons_iff {x z : α} {xs : List α} :
    Reached f (x :: xs) z ↔ z = x ∨ (∃ value, f x = .ok value) ∧ Reached f xs z := by
  constructor
  · rintro ⟨before, later, hsplit, hbefore⟩
    cases before with
    | nil => exact .inl (List.cons.inj hsplit).1.symm
    | cons head before =>
        obtain ⟨rfl, hrest⟩ := List.cons.inj hsplit
        obtain ⟨hhead, hbefore⟩ := List.forall_mem_cons.mp hbefore
        exact .inr ⟨hhead, before, later, hrest, hbefore⟩
  · rintro (rfl | ⟨hx, before, later, rfl, hbefore⟩)
    · exact ⟨[], xs, rfl, by simp⟩
    · exact ⟨x :: before, later, rfl, List.forall_mem_cons.mpr ⟨hx, hbefore⟩⟩

/-- The list fails as the first failing element does. -/
theorem collect_error_iff {xs : List α} {err : ε} :
    collect f xs = .error err ↔ ∃ x, Reached f xs x ∧ f x = .error err := by
  induction xs with
  | nil => simp [collect, not_reached_nil]
  | cons x xs ih =>
      simp only [collect, reached_cons_iff]
      cases hx : f x with
      | error err' =>
          simp only [Except.error.injEq]
          constructor
          · rintro rfl
            exact ⟨x, .inl rfl, hx⟩
          · rintro ⟨z, rfl | ⟨⟨value, hvalue⟩, _⟩, hz⟩
            · exact Except.error.inj (hx.symm.trans hz)
            · cases hvalue
      | ok y =>
          have hmap : (collect f xs).map (y :: ·) = .error err ↔ collect f xs = .error err := by
            cases collect f xs <;> simp [Except.map]
          simp only [hmap, ih]
          constructor
          · rintro ⟨z, hreached, hz⟩
            exact ⟨z, .inr ⟨⟨y, rfl⟩, hreached⟩, hz⟩
          · rintro ⟨z, rfl | ⟨_, hreached⟩, hz⟩
            · rw [hx] at hz
              cases hz
            · exact ⟨z, hreached, hz⟩

theorem exists_collect_iff {xs : List α} :
    (∃ ys, collect f xs = .ok ys) ↔ ∀ x ∈ xs, ∃ y, f x = .ok y := by
  induction xs with
  | nil => simp [collect]
  | cons x xs ih =>
      rw [List.forall_mem_cons, ← ih]
      cases hx : f x with
      | error err => simp [collect, hx]
      | ok y => cases hrest : collect f xs <;> simp [collect, hx, hrest, Except.map]

theorem collect_ok_iff {xs : List α} {ys : List β} :
    collect f xs = .ok ys ↔ List.Forall₂ (fun x y => f x = .ok y) xs ys := by
  induction xs generalizing ys with
  | nil => simp [collect, eq_comm]
  | cons x xs ih =>
      rw [List.forall₂_cons_left_iff]
      cases hx : f x with
      | error err => simp [collect, hx]
      | ok y =>
          simp only [collect, hx, Except.ok.injEq, ← ih]
          cases hrest : collect f xs <;> simp [Except.map, eq_comm]

/-- Whether an element is reached depends on which others fail, not on their values. -/
theorem reached_congr {g : α → Except ε γ} {xs : List α}
    (h : ∀ y, (∃ value, f y = .ok value) ↔ ∃ value, g y = .ok value) (x : α) :
    Reached f xs x ↔ Reached g xs x := by
  simp only [Reached, h]

theorem reached_append_iff {xs ys : List α} {x : α} :
    Reached f (xs ++ ys) x ↔
      Reached f xs x ∨ (∀ y ∈ xs, ∃ value, f y = .ok value) ∧ Reached f ys x := by
  induction xs with
  | nil => simp [not_reached_nil]
  | cons z xs ih =>
      rw [List.cons_append, reached_cons_iff, reached_cons_iff, ih, List.forall_mem_cons]
      tauto

/-- Lists computed one after another are computed as one list. -/
theorem reached_flatten_iff {xss : List (List α)} {x : α} :
    Reached f xss.flatten x ↔ ∃ xs, Reached (collect f) xss xs ∧ Reached f xs x := by
  induction xss with
  | nil => simp [not_reached_nil]
  | cons xs xss ih =>
      simp only [List.flatten_cons, reached_append_iff, ih, reached_cons_iff, exists_collect_iff]
      constructor
      · rintro (hx | ⟨hxs, ys, hys, hx⟩)
        · exact ⟨xs, .inl rfl, hx⟩
        · exact ⟨ys, .inr ⟨hxs, hys⟩, hx⟩
      · rintro ⟨ys, rfl | ⟨hxs, hys⟩, hx⟩
        · exact .inl hx
        · exact .inr ⟨hxs, ys, hys, hx⟩

end LlmCache.Lib
