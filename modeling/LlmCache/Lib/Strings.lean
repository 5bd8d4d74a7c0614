import Mathlib.Data.List.Basic
import Mathlib.Data.List.DropRight
import Mathlib.Data.List.TakeWhile

/-!
# Strings as lists of characters

Splitting at separators, stripping, and the decimal text of integers.
-/

namespace LlmCache.Lib

/-- Split at the last occurrence of `sep`. -/
def splitLast (sep : Char) (s : List Char) : Option (List Char × List Char) :=
  match s.reverse.dropWhile (· ≠ sep) with
  | [] => none
  | _ :: before => some (before.reverse, (s.reverse.takeWhile (· ≠ sep)).reverse)

theorem splitLast_append {sep : Char} (a : List Char) {b : List Char} (hb : sep ∉ b) :
    splitLast sep (a ++ sep :: b) = some (a, b) := by
  have hall : ∀ c ∈ b.reverse, decide (c ≠ sep) = true := by
    intro c hc
    rw [decide_eq_true_eq]
    rintro rfl
    exact hb (List.mem_reverse.mp hc)
  have hrev : (a ++ sep :: b).reverse = b.reverse ++ sep :: a.reverse := by simp
  rw [splitLast, hrev, List.dropWhile_append_of_pos hall, List.takeWhile_append_of_pos hall]
  simp

/-- `s.replace(old, "")`, the first `skip` characters left out. -/
def eraseText (old : List Char) (skip : Nat) : List Char → List Char
  | [] => []
  | c :: s =>
      if 0 < skip then eraseText old (skip - 1) s
      else if old.isPrefixOf (c :: s) then eraseText old (old.length - 1) s
      else c :: eraseText old 0 s

/-- `c.isspace()`. -/
def isSpace (c : Char) : Bool :=
  (9 ≤ c.toNat && c.toNat ≤ 13) || (28 ≤ c.toNat && c.toNat ≤ 32) || c.toNat = 133 ||
    c.toNat = 160 || c.toNat = 5760 || (8192 ≤ c.toNat && c.toNat ≤ 8202) || c.toNat = 8232 ||
    c.toNat = 8233 || c.toNat = 8239 || c.toNat = 8287 || c.toNat = 12288

/-- `s.rstrip()`. -/
def rstrip (s : List Char) : List Char :=
  s.rdropWhile isSpace

/-- `s.strip()`. -/
def strip (s : List Char) : List Char :=
  rstrip (s.dropWhile isSpace)

/-! ## The text of an integer -/

/-- The digits of a decimal literal, with single underscores between digits. -/
def digitsValue (digits : List Char) : Option Nat :=
  let groups := digits.splitOn '_'
  if groups.all fun group => !group.isEmpty && group.all Char.isDigit then
    some (Nat.ofDigitChars 10 groups.flatten 0)
  else none

/-- `int(s)`, where of all decimal digits only those of ASCII are read. -/
def pyInt (s : List Char) : Option Int :=
  match strip s with
  | '-' :: digits => (digitsValue digits).map fun n => -(n : Int)
  | '+' :: digits => (digitsValue digits).map fun n => (n : Int)
  | digits => (digitsValue digits).map fun n => (n : Int)

theorem not_isDigit_of_isSpace {c : Char} (h : isSpace c = true) :
    c.isDigit = false ∧ c ≠ '-' := by
  simp only [isSpace, Bool.or_eq_true, Bool.and_eq_true, decide_eq_true_eq] at h
  constructor
  · by_contra hdigit
    simp only [Char.isDigit, Bool.not_eq_false, Bool.and_eq_true, decide_eq_true_eq,
      UInt32.le_iff_toNat_le, ge_iff_le] at hdigit
    change 48 ≤ c.toNat ∧ c.toNat ≤ 57 at hdigit
    omega
  · rintro rfl
    exact absurd h (by decide)

private theorem isDigit_of_mem_repr {n : Nat} {c : Char} (h : c ∈ (Nat.repr n).toList) :
    c.isDigit := by
  rw [Nat.repr_eq_ofList_toDigits, String.toList_ofList] at h
  exact Nat.isDigit_of_mem_toDigits (by decide) (by decide) h

private theorem toList_toString_ofNat (n : Nat) :
    (toString (Int.ofNat n)).toList = (Nat.repr n).toList := by
  rw [Int.toString_eq_repr]
  rfl

private theorem toList_toString_negSucc (n : Nat) :
    (toString (Int.negSucc n)).toList = '-' :: (Nat.repr (n + 1)).toList := by
  rw [Int.toString_eq_repr]
  simp [Int.repr]

theorem notMem_toString_int {c : Char} (hdigit : c.isDigit = false) (hminus : c ≠ '-') (n : Int) :
    c ∉ (toString n).toList := by
  intro h
  cases n with
  | ofNat n =>
      rw [toList_toString_ofNat] at h
      exact absurd (isDigit_of_mem_repr h) (by simp [hdigit])
  | negSucc n =>
      rw [toList_toString_negSucc, List.mem_cons] at h
      rcases h with h | h
      · exact hminus h
      · exact absurd (isDigit_of_mem_repr h) (by simp [hdigit])

private theorem repr_inj {m n : Nat} (h : (Nat.repr m).toList = (Nat.repr n).toList) :
    m = n := by
  simp only [Nat.repr_eq_ofList_toDigits, String.toList_ofList] at h
  have hvalue := congrArg (fun digits => Nat.ofDigitChars 10 digits 0) h
  simpa using hvalue

theorem toString_int_inj {m n : Int} (h : (toString m).toList = (toString n).toList) :
    m = n := by
  -- a minus sign is not a digit
  have hsign : ∀ m n : Nat, (Nat.repr m).toList ≠ '-' :: (Nat.repr (n + 1)).toList := by
    intro m n hmn
    have hminus : '-' ∈ (Nat.repr m).toList := by rw [hmn]; exact List.mem_cons_self ..
    exact absurd (isDigit_of_mem_repr hminus) (by decide)
  cases m with
  | ofNat m =>
      cases n with
      | ofNat n =>
          rw [toList_toString_ofNat, toList_toString_ofNat] at h
          rw [repr_inj h]
      | negSucc n =>
          rw [toList_toString_ofNat, toList_toString_negSucc] at h
          exact absurd h (hsign m n)
  | negSucc m =>
      cases n with
      | ofNat n =>
          rw [toList_toString_ofNat, toList_toString_negSucc] at h
          exact absurd h.symm (hsign n m)
      | negSucc n =>
          rw [toList_toString_negSucc, toList_toString_negSucc] at h
          have hsucc := repr_inj (List.cons.inj h).2
          omega

private theorem digitsValue_repr (n : Nat) : digitsValue (Nat.repr n).toList = some n := by
  have hdigits : ∀ c ∈ (Nat.repr n).toList, c.isDigit := fun c hc => isDigit_of_mem_repr hc
  have hvalue : Nat.ofDigitChars 10 (Nat.repr n).toList 0 = n := by
    rw [Nat.repr_eq_ofList_toDigits, String.toList_ofList, Nat.ofDigitChars_ten_toDigits]
  have hne : (Nat.repr n).toList ≠ [] := by
    rw [Nat.repr_eq_ofList_toDigits, String.toList_ofList]
    exact Nat.toDigits_ne_nil
  generalize (Nat.repr n).toList = digits at hdigits hvalue hne
  have hsplit : digits.splitOn '_' = [digits] :=
    List.splitOn_eq_singleton fun h => absurd (hdigits _ h) (by decide)
  have hall : [digits].all (fun group => !group.isEmpty && group.all Char.isDigit) := by
    simpa [hne] using hdigits
  rw [digitsValue, hsplit]
  simp only [hall, if_true, List.flatten_singleton, hvalue]

/-- The text of an integer reads back as the integer. -/
theorem pyInt_toString (n : Int) : pyInt (toString n).toList = some n := by
  have hspace : ∀ c ∈ (toString n).toList, ¬isSpace c = true := by
    intro c hc hspace
    exact notMem_toString_int (not_isDigit_of_isSpace hspace).1 (not_isDigit_of_isSpace hspace).2
      n hc
  have hkeep : ∀ l : List Char, (∀ c ∈ l, ¬isSpace c = true) → l.dropWhile isSpace = l :=
    fun l hl => List.dropWhile_eq_self_iff.mpr fun hlength => hl _ (List.getElem_mem hlength)
  have hstrip : strip (toString n).toList = (toString n).toList := by
    rw [strip, rstrip, List.rdropWhile, hkeep _ hspace,
      hkeep _ fun c hc => hspace c (List.mem_reverse.mp hc), List.reverse_reverse]
  rw [pyInt, hstrip]
  cases n with
  | ofNat n =>
      -- a digit is no sign
      rw [toList_toString_ofNat]
      split
      · rename_i digits heq
        have hminus := isDigit_of_mem_repr (n := n) (heq ▸ List.mem_cons_self)
        exact absurd hminus (by decide)
      · rename_i digits heq
        have hplus := isDigit_of_mem_repr (n := n) (heq ▸ List.mem_cons_self)
        exact absurd hplus (by decide)
      · rw [digitsValue_repr]
        rfl
  | negSucc n =>
      rw [toList_toString_negSucc]
      simp only [digitsValue_repr]
      rfl

end LlmCache.Lib
