import Mathlib.Data.Rat.Defs

/-!
# KV payloads

The opaque blob stored for one chunk, with the metadata that travels with it.
-/

namespace LlmCache.Payload

/-- Python floats as they occur in JSON documents. -/
inductive PyFloat where
  | finite (value : Rat)
  | posInf
  | negInf
  | nan
deriving DecidableEq

/-- The values `json.dumps` accepts, with string keys. -/
inductive Json where
  | null
  | bool (value : Bool)
  | int (value : Int)
  | float (value : PyFloat)
  | str (value : String)
  | arr (items : List Json)
  | obj (members : List (String × Json))

namespace Json

/-- The value of a scalar; containers have none. -/
def scalar : Json → Option (Unit ⊕ Bool ⊕ Int ⊕ PyFloat ⊕ String)
  | .null => some (.inl ())
  | .bool b => some (.inr (.inl b))
  | .int n => some (.inr (.inr (.inl n)))
  | .float x => some (.inr (.inr (.inr (.inl x))))
  | .str s => some (.inr (.inr (.inr (.inr s))))
  | .arr _ | .obj _ => none

mutual

def decEq : (a b : Json) → Decidable (a = b)
  | .arr a, .arr b =>
      have := decEqItems a b
      decidable_of_iff (a = b) (by simp)
  | .obj a, .obj b =>
      have := decEqMembers a b
      decidable_of_iff (a = b) (by simp)
  | .arr _, .null | .arr _, .bool _ | .arr _, .int _ | .arr _, .float _ | .arr _, .str _
  | .arr _, .obj _ | .obj _, .null | .obj _, .bool _ | .obj _, .int _ | .obj _, .float _
  | .obj _, .str _ | .obj _, .arr _ => isFalse (by simp)
  | .null, b => decidable_of_iff (scalar .null = scalar b) (by cases b <;> simp [scalar])
  | .bool a, b => decidable_of_iff (scalar (.bool a) = scalar b) (by cases b <;> simp [scalar])
  | .int a, b => decidable_of_iff (scalar (.int a) = scalar b) (by cases b <;> simp [scalar])
  | .float a, b => decidable_of_iff (scalar (.float a) = scalar b) (by cases b <;> simp [scalar])
  | .str a, b => decidable_of_iff (scalar (.str a) = scalar b) (by cases b <;> simp [scalar])
termination_by structural a => a

def decEqItems : (a b : List Json) → Decidable (a = b)
  | [], [] => isTrue rfl
  | x :: xs, y :: ys =>
      have := decEq x y
      have := decEqItems xs ys
      decidable_of_iff (x = y ∧ xs = ys) (by simp)
  | [], _ :: _ | _ :: _, [] => isFalse (by simp)
termination_by structural a => a

def decEqMembers : (a b : List (String × Json)) → Decidable (a = b)
  | [], [] => isTrue rfl
  | (k, x) :: xs, (l, y) :: ys =>
      have := decEq x y
      have := decEqMembers xs ys
      decidable_of_iff ((k = l ∧ x = y) ∧ xs = ys) (by simp)
  | [], _ :: _ | _ :: _, [] => isFalse (by simp)
termination_by structural a => a

end

instance : DecidableEq Json := decEq

end Json

/-- Serialized KV for one chunk. -/
structure KVPayload where
  data : List UInt8
  numTokens : Int
  numLayers : Int
  fmt : String := "raw"
  metadata : List (String × Json) := []
deriving DecidableEq

namespace KVPayload

/-- A one-layer payload of raw bytes. -/
def ofBytes (data : List UInt8) : KVPayload :=
  { data := data, numTokens := 0, numLayers := 1 }

def nbytes (payload : KVPayload) : Nat :=
  payload.data.length

end KVPayload

end LlmCache.Payload
