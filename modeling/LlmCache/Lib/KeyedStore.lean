import LlmCache.Lib.Machine
import Mathlib.Logic.Function.Basic

/-!
# Keyed stores and the flat map

The interface of a keyed store with pinning, the operations a client may
issue against it, and what the store is for: behaving like one plain map.
A lossless store never refuses a write and never forgets one.
-/

namespace LlmCache.Lib

/-- A keyed store: `put` and `get` may raise, every operation leaves a state. -/
class KeyedStore (σ : Type) (K V E : outParam Type) where
  put : σ → K → V → Bool → Except E Unit × σ
  get : σ → K → Except E (Option V) × σ
  contains : σ → K → Bool
  remove : σ → K → Bool × σ
  pin : σ → K → σ
  unpin : σ → K → σ
  keys : σ → List K

namespace KeyedStore

/-- One call of a client; `put` carries the pin flag. -/
inductive Op (K V : Type) where
  | put (key : K) (obj : V) (pin : Bool)
  | get (key : K)
  | contains (key : K)
  | remove (key : K)
  | pin (key : K)
  | unpin (key : K)
  | clear
deriving DecidableEq, Repr

/-- The key that a call is about. -/
def Op.key {K V : Type} : Op K V → Option K
  | .put key _ _ | .get key | .contains key | .remove key | .pin key | .unpin key => some key
  | .clear => none

/-- What a call that does not raise returns. -/
inductive Reply (V : Type) where
  | done
  | object (obj : Option V)
  | flag (value : Bool)
deriving DecidableEq, Repr

def Reply.map {V W : Type} (f : V → W) : Reply V → Reply W
  | .done => .done
  | .object obj => .object (obj.map f)
  | .flag value => .flag value

variable {σ K V E : Type}

/-- Remove every key the store lists. -/
def clear [KeyedStore σ K V E] (s : σ) : σ :=
  (keys s).foldl (fun s key => (remove s key).2) s

def step [KeyedStore σ K V E] (s : σ) : Op K V → Except E (Reply V) × σ
  | .put key obj pin => ((put s key obj pin).1.map fun _ => .done, (put s key obj pin).2)
  | .get key => ((get s key).1.map .object, (get s key).2)
  | .contains key => (.ok (.flag (contains s key)), s)
  | .remove key => (.ok (.flag (remove s key).1), (remove s key).2)
  | .pin key => (.ok .done, pin s key)
  | .unpin key => (.ok .done, unpin s key)
  | .clear => (.ok .done, clear s)

/-- The store as a machine driven by its client. -/
def machine (σ : Type) {K V E : Type} [KeyedStore σ K V E] :
    Machine σ (Op K V) E (Reply V) where
  step := step

@[simp] theorem machine_step [KeyedStore σ K V E] (s : σ) (op : Op K V) :
    (machine σ).step s op = step s op := rfl

/-! ## The flat map -/

section FlatMap

variable [DecidableEq K]

/-- What the operations do to one plain map; pins do not exist there. -/
def flatStep (m : K → Option V) : Op K V → Except E (Reply V) × (K → Option V)
  | .put key obj _ => (.ok .done, Function.update m key (some obj))
  | .get key => (.ok (.object (m key)), m)
  | .contains key => (.ok (.flag (m key).isSome), m)
  | .remove key => (.ok (.flag (m key).isSome), Function.update m key none)
  | .pin _ => (.ok .done, m)
  | .unpin _ => (.ok .done, m)
  | .clear => (.ok .done, fun _ => none)

def flatMap (K V E : Type) [DecidableEq K] :
    Machine (K → Option V) (Op K V) E (Reply V) where
  step := flatStep

@[simp] theorem flatMap_step (m : K → Option V) (op : Op K V) :
    (flatMap K V E).step m op = flatStep m op := rfl

end FlatMap

/-! ## `clear` -/

section Clear

variable [DecidableEq K] [KeyedStore σ K V E] {content : σ → K → Option V}

theorem content_foldl_remove
    (hremove : ∀ (s : σ) key,
      content (remove s key).2 = Function.update (content s) key none)
    (removed : List K) (s : σ) (key : K) :
    content (removed.foldl (fun s key => (remove s key).2) s) key =
      if key ∈ removed then none else content s key := by
  induction removed generalizing s with
  | nil => simp
  | cons k removed ih =>
      rw [List.foldl_cons, ih, hremove, Function.update_apply]
      by_cases hk : key = k <;> simp [hk]

/-- A store that lists its keys and removes what it is told to is emptied. -/
theorem content_clear
    (hremove : ∀ (s : σ) key,
      content (remove s key).2 = Function.update (content s) key none)
    (hkeys : ∀ (s : σ) key, key ∈ keys s ↔ (content s key).isSome) (s : σ) :
    content (clear s) = fun _ => none := by
  funext key
  rw [clear, content_foldl_remove hremove]
  split_ifs with hmem
  · rfl
  · rw [hkeys, Option.not_isSome_iff_eq_none] at hmem
    exact hmem

end Clear

end KeyedStore

/-- A store that is its content: it refuses nothing and loses nothing. -/
class LosslessStore (σ : Type) (K V E : outParam Type) [DecidableEq K]
    extends KeyedStore σ K V E where
  view : σ → K → Option V
  put_ok : ∀ s key obj pin, (put s key obj pin).1 = .ok ()
  view_put : ∀ s key obj pin,
    view (put s key obj pin).2 = Function.update (view s) key (some obj)
  get_ok : ∀ s key, (get s key).1 = .ok (view s key)
  view_get : ∀ s key, view (get s key).2 = view s
  contains_eq : ∀ s key, contains s key = (view s key).isSome
  remove_eq : ∀ s key, (remove s key).1 = (view s key).isSome
  view_remove : ∀ s key, view (remove s key).2 = Function.update (view s) key none
  view_pin : ∀ s key, view (pin s key) = view s
  view_unpin : ∀ s key, view (unpin s key) = view s
  mem_keys : ∀ s key, key ∈ keys s ↔ (view s key).isSome

namespace LosslessStore

attribute [simp] put_ok view_put get_ok view_get contains_eq remove_eq view_remove
  view_pin view_unpin

end LosslessStore

end LlmCache.Lib
