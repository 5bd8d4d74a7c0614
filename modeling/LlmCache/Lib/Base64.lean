import Mathlib.Data.List.Basic

/-!
# Base64

Standard encoding with padding, and the lenient decoder that goes with it: it
skips what is not in the alphabet, and stops at the padding that completes a
group of four characters.
-/

namespace LlmCache.Lib.Base64

def alphabet : List Char :=
  "ABCDEFGHIJKLMNOPQRSTUVWXYZabcdefghijklmnopqrstuvwxyz0123456789+/".toList

/-- The character that stands for six bits. -/
def symbol (n : Nat) : Char :=
  alphabet.getD n 'A'

/-- The six bits that a character stands for. -/
def sextet (c : Char) : Option Nat :=
  alphabet.idxOf? c

/-- `base64.b64encode`. -/
def encode : List UInt8 → List Char
  | [] => []
  | [a] => [symbol (a.toNat / 4), symbol (a.toNat % 4 * 16), '=', '=']
  | [a, b] =>
      [symbol (a.toNat / 4), symbol (a.toNat % 4 * 16 + b.toNat / 16), symbol (b.toNat % 16 * 4),
        '=']
  | a :: b :: c :: rest =>
      symbol (a.toNat / 4) :: symbol (a.toNat % 4 * 16 + b.toNat / 16) ::
        symbol (b.toNat % 16 * 4 + c.toNat / 64) :: symbol (c.toNat % 64) :: encode rest

/-- `binascii.a2b_base64`, from the position in a group of four on, with the bits
that are left over, the padding just read and the number of bytes written. -/
def decodeLoop (quadPos left pads written : Nat) : List Char → Except String (List UInt8)
  | [] =>
      if quadPos = 0 then .ok []
      else if quadPos = 1 then
        .error (s!"Invalid base64-encoded string: number of data characters " ++
          s!"({written / 3 * 4 + 1}) cannot be 1 more than a multiple of 4")
      else .error "Incorrect padding"
  | c :: rest =>
      if c = '=' then
        -- padding that does not complete a group is skipped
        if quadPos < 2 then decodeLoop quadPos left pads written rest
        else if quadPos + (pads + 1) < 4 then decodeLoop quadPos left (pads + 1) written rest
        else .ok []
      else
        match sextet c with
        | none => decodeLoop quadPos left pads written rest
        | some n =>
            if quadPos = 0 then decodeLoop 1 n 0 written rest
            else if quadPos = 1 then
              (decodeLoop 2 (n % 16) 0 (written + 1) rest).map (.ofNat (left * 4 + n / 16) :: ·)
            else if quadPos = 2 then
              (decodeLoop 3 (n % 4) 0 (written + 1) rest).map (.ofNat (left * 16 + n / 4) :: ·)
            else (decodeLoop 0 0 0 (written + 1) rest).map (.ofNat (left * 64 + n) :: ·)

/-- `base64.b64decode` of a string. -/
def decode (text : List Char) : Except String (List UInt8) :=
  if text.any fun c => 128 ≤ c.toNat then
    .error "string argument should contain only ASCII characters"
  else decodeLoop 0 0 0 0 text

/-! ## Symbols -/

theorem symbol_spec : ∀ n < 64,
    sextet (symbol n) = some n ∧ symbol n ≠ '=' ∧ (symbol n).toNat < 128 := by
  decide +kernel

theorem sextet_symbol {n : Nat} (h : n < 64) : sextet (symbol n) = some n :=
  (symbol_spec n h).1

theorem symbol_ne_pad {n : Nat} (h : n < 64) : symbol n ≠ '=' :=
  (symbol_spec n h).2.1

theorem symbol_ascii {n : Nat} (h : n < 64) : (symbol n).toNat < 128 :=
  (symbol_spec n h).2.2

theorem encode_ascii (bytes : List UInt8) : ∀ c ∈ encode bytes, c.toNat < 128 := by
  have hpad : '='.toNat < 128 := by decide
  induction bytes using encode.induct with
  | case1 => simp [encode]
  | case2 a =>
      have ha := a.toNat_lt
      simp only [encode, List.forall_mem_cons, List.not_mem_nil, false_imp_iff, implies_true,
        and_true]
      exact ⟨symbol_ascii (by omega), symbol_ascii (by omega), hpad, hpad⟩
  | case3 a b =>
      have ha := a.toNat_lt
      have hb := b.toNat_lt
      simp only [encode, List.forall_mem_cons, List.not_mem_nil, false_imp_iff, implies_true,
        and_true]
      exact ⟨symbol_ascii (by omega), symbol_ascii (by omega), symbol_ascii (by omega), hpad⟩
  | case4 a b c rest ih =>
      have ha := a.toNat_lt
      have hb := b.toNat_lt
      have hc := c.toNat_lt
      simp only [encode, List.forall_mem_cons]
      exact ⟨symbol_ascii (by omega), symbol_ascii (by omega), symbol_ascii (by omega),
        symbol_ascii (by omega), ih⟩

/-! ## The round trip -/

section Loop

variable {n : Nat} (left pads written : Nat) (rest : List Char)

theorem decodeLoop_first (h : n < 64) :
    decodeLoop 0 left pads written (symbol n :: rest) = decodeLoop 1 n 0 written rest := by
  simp [decodeLoop, symbol_ne_pad h, sextet_symbol h]

theorem decodeLoop_second (h : n < 64) :
    decodeLoop 1 left pads written (symbol n :: rest) =
      (decodeLoop 2 (n % 16) 0 (written + 1) rest).map (.ofNat (left * 4 + n / 16) :: ·) := by
  simp [decodeLoop, symbol_ne_pad h, sextet_symbol h]

theorem decodeLoop_third (h : n < 64) :
    decodeLoop 2 left pads written (symbol n :: rest) =
      (decodeLoop 3 (n % 4) 0 (written + 1) rest).map (.ofNat (left * 16 + n / 4) :: ·) := by
  simp [decodeLoop, symbol_ne_pad h, sextet_symbol h]

theorem decodeLoop_fourth (h : n < 64) :
    decodeLoop 3 left pads written (symbol n :: rest) =
      (decodeLoop 0 0 0 (written + 1) rest).map (.ofNat (left * 64 + n) :: ·) := by
  simp [decodeLoop, symbol_ne_pad h, sextet_symbol h]

end Loop

/-- A byte put together from the bits that two symbols carry. -/
theorem ofNat_eq {b : UInt8} {n : Nat} (h : n = b.toNat) : UInt8.ofNat n = b := by
  rw [h, UInt8.ofNat_toNat]

theorem decodeLoop_encode (bytes : List UInt8) (written : Nat) :
    decodeLoop 0 0 0 written (encode bytes) = .ok bytes := by
  induction bytes using encode.induct generalizing written with
  | case1 => rfl
  | case2 a =>
      have ha := a.toNat_lt
      rw [encode, decodeLoop_first _ _ _ _ (by omega), decodeLoop_second _ _ _ _ (by omega),
        ofNat_eq (b := a) (by omega)]
      rfl
  | case3 a b =>
      have ha := a.toNat_lt
      have hb := b.toNat_lt
      rw [encode, decodeLoop_first _ _ _ _ (by omega), decodeLoop_second _ _ _ _ (by omega),
        decodeLoop_third _ _ _ _ (by omega), ofNat_eq (b := a) (by omega),
        ofNat_eq (b := b) (by omega)]
      rfl
  | case4 a b c rest ih =>
      have ha := a.toNat_lt
      have hb := b.toNat_lt
      have hc := c.toNat_lt
      rw [encode, decodeLoop_first _ _ _ _ (by omega), decodeLoop_second _ _ _ _ (by omega),
        decodeLoop_third _ _ _ _ (by omega), decodeLoop_fourth _ _ _ _ (by omega), ih,
        ofNat_eq (b := a) (by omega), ofNat_eq (b := b) (by omega), ofNat_eq (b := c) (by omega)]
      rfl

theorem decode_encode (bytes : List UInt8) : decode (encode bytes) = .ok bytes := by
  have hascii : ¬((encode bytes).any fun c => 128 ≤ c.toNat) = true := by
    simp only [List.any_eq_true, decide_eq_true_eq, not_exists, not_and, Nat.not_le]
    exact encode_ascii bytes
  rw [decode, if_neg hascii, decodeLoop_encode]

/-- A line break is skipped, and so is what follows the padding. -/
example : decode "TW\nFu\r\nTQ==TWFu".toList = .ok [77, 97, 110, 77] := by decide +kernel

end LlmCache.Lib.Base64
