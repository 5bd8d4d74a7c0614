import LlmCache.Store.CPU
import Mathlib.Data.List.Dedup

/-!
# Two-tier store

A hot in-memory tier over a slower cold tier.  Reads fall through hot to cold
and promote cold hits; writes land in hot; what hot evicts is demoted to cold.
-/

namespace LlmCache.Store

open Errors Lib Payload LlmCache.Types

structure TieredBackend (σ : Type) where
  hot : CPUBackend
  cold : σ

namespace TieredBackend

section Operations

variable {σ : Type} [StorageBackend σ]

/-- The callback wired into the hot tier. -/
def demote : EvictCallback σ := fun key obj cold => KeyedStore.put cold key obj false

/-- `self.hot.put(key, obj, pin=pin)`, with the demotions it causes. -/
def hotPut (t : TieredBackend σ) (key : ChunkKey) (obj : KVPayload) (pin : Bool) :
    Except Raised Unit × TieredBackend σ :=
  let room := t.hot.put demote t.cold key obj pin
  (room.result, ⟨room.hot, room.lower⟩)

def put (t : TieredBackend σ) (key : ChunkKey) (obj : KVPayload) (pin : Bool) :
    Except Raised Unit × TieredBackend σ :=
  match t.hotPut key obj pin with
  | (.error err, t') => (.error err, t')
  | (.ok (), t') =>
      if pin then
        -- pinned objects are also persisted to the cold tier
        ((KeyedStore.put t'.cold key obj true).1,
          { t' with cold := (KeyedStore.put t'.cold key obj true).2 })
      else (.ok (), t')

def get (t : TieredBackend σ) (key : ChunkKey) :
    Except Raised (Option KVPayload) × TieredBackend σ :=
  match t.hot.get key with
  | (some obj, hot) => (.ok (some obj), { t with hot := hot })
  | (none, hot) =>
      match KeyedStore.get t.cold key with
      | (.error err, cold) => (.error err, ⟨hot, cold⟩)
      | (.ok none, cold) => (.ok none, ⟨hot, cold⟩)
      | (.ok (some obj), cold) =>
          match hotPut ⟨hot, cold⟩ key obj false with
          | (.error err, t') => (.error err, t')
          | (.ok (), t') => (.ok (some obj), t')

def contains (t : TieredBackend σ) (key : ChunkKey) : Bool :=
  t.hot.contains key || KeyedStore.contains t.cold key

def remove (t : TieredBackend σ) (key : ChunkKey) : Bool × TieredBackend σ :=
  ((t.hot.remove key).1 || (KeyedStore.remove t.cold key).1,
    ⟨(t.hot.remove key).2, (KeyedStore.remove t.cold key).2⟩)

def pin (t : TieredBackend σ) (key : ChunkKey) : TieredBackend σ :=
  ⟨t.hot.pin key, KeyedStore.pin t.cold key⟩

def unpin (t : TieredBackend σ) (key : ChunkKey) : TieredBackend σ :=
  ⟨t.hot.unpin key, KeyedStore.unpin t.cold key⟩

/-- `list(seen)` of the set of all keys of both tiers. -/
def keys (t : TieredBackend σ) : List ChunkKey :=
  (t.hot.keys ++ KeyedStore.keys t.cold).dedup

instance : StorageBackend (TieredBackend σ) where
  put := put
  get := get
  contains := contains
  remove := remove
  pin := pin
  unpin := unpin
  keys := keys

end Operations

/-! ## One step over a lossless cold tier -/

section Lossless

variable {σ : Type} [LosslessBackend σ]

/-- `TieredBackend(CPUBackend(capacity), cold)`. -/
def init (capacity : Option Nat) (cold : σ) : TieredBackend σ :=
  ⟨{ capacityBytes := capacity }, cold⟩

/-- The cold tier's copy of a key. -/
def coldCopy (t : TieredBackend σ) (key : ChunkKey) : Option KVPayload :=
  LosslessStore.view t.cold key

/-- The copy a reader of the key is meant to see. -/
def current (t : TieredBackend σ) (key : ChunkKey) : Option KVPayload :=
  (t.hot.resident key).or (t.coldCopy key)

theorem receives_demote :
    CPUBackend.Receives (demote (σ := σ)) LosslessStore.view some where
  accepts := fun key obj cold => LosslessStore.put_ok cold key obj false
  records := fun key obj cold => LosslessStore.view_put cold key obj false

theorem current_of_effect {spared : Prop} {hot cold hot' cold' : Option KVPayload}
    (h : CPUBackend.KeyEffect some spared hot cold hot' cold') :
    hot'.or cold' = hot.or cold := by
  cases h <;> rfl

theorem hotPut_effect (t : TieredBackend σ) {key k : ChunkKey} (obj : KVPayload) (pin : Bool)
    (hk : k ≠ key) :
    CPUBackend.KeyEffect some (k ∈ t.hot.pinned) (t.hot.resident k) (t.coldCopy k)
      ((t.hotPut key obj pin).2.hot.resident k) ((t.hotPut key obj pin).2.coldCopy k) :=
  CPUBackend.put_effect_other receives_demote t.hot t.cold obj pin hk

theorem coldCopy_hotPut_self (t : TieredBackend σ) (key : ChunkKey) (obj : KVPayload)
    (pin : Bool) : (t.hotPut key obj pin).2.coldCopy key = t.coldCopy key :=
  CPUBackend.put_lower_self receives_demote t.hot t.cold key obj pin

theorem hot_hotPut_of_ok {t : TieredBackend σ} {key : ChunkKey} {obj : KVPayload} {pin : Bool}
    (hok : (t.hotPut key obj pin).1 = .ok ()) :
    (t.hotPut key obj pin).2.hot.resident key = some obj :=
  CPUBackend.put_self_of_ok hok

theorem hot_hotPut_of_error {t : TieredBackend σ} {key : ChunkKey} {obj : KVPayload}
    {pin : Bool} {err : Raised} (herr : (t.hotPut key obj pin).1 = .error err) :
    (t.hotPut key obj pin).2.hot.resident key = none :=
  CPUBackend.put_self_of_error receives_demote herr

theorem current_hotPut_other (t : TieredBackend σ) {key k : ChunkKey} (obj : KVPayload)
    (pin : Bool) (hk : k ≠ key) :
    (t.hotPut key obj pin).2.current k = t.current k :=
  current_of_effect (hotPut_effect t obj pin hk)

/-- A put ends with its hot write, and a pinned one copies its object to cold. -/
theorem put_cases (t : TieredBackend σ) (key : ChunkKey) (obj : KVPayload) (pin : Bool) :
    (t.put key obj pin).1 = (t.hotPut key obj pin).1 ∧
      (t.put key obj pin).2.hot = (t.hotPut key obj pin).2.hot ∧
      ((t.put key obj pin).2.coldCopy = (t.hotPut key obj pin).2.coldCopy ∨
        (t.hotPut key obj pin).1 = .ok () ∧
        (t.put key obj pin).2.coldCopy =
          Function.update (t.hotPut key obj pin).2.coldCopy key (some obj)) := by
  unfold put
  rcases t.hotPut key obj pin with ⟨_ | _, t'⟩
  · exact ⟨rfl, rfl, .inl rfl⟩
  · cases pin with
    | false => exact ⟨rfl, rfl, .inl rfl⟩
    | true =>
        exact ⟨LosslessStore.put_ok t'.cold key obj true, rfl,
          .inr ⟨rfl, LosslessStore.view_put t'.cold key obj true⟩⟩

/-- A get hits hot, misses both tiers, or reads cold and promotes. -/
theorem get_cases (t : TieredBackend σ) (key : ChunkKey) :
    (∃ obj, t.hot.resident key = some obj ∧ (t.get key).1 = .ok (some obj) ∧
        (∀ k, (t.get key).2.hot.resident k = t.hot.resident k) ∧
        (t.get key).2.coldCopy = t.coldCopy) ∨
      (t.hot.resident key = none ∧ t.coldCopy key = none ∧ (t.get key).1 = .ok none ∧
        (∀ k, (t.get key).2.hot.resident k = t.hot.resident k) ∧
        (t.get key).2.coldCopy = t.coldCopy) ∨
      ∃ (obj : KVPayload) (t₁ : TieredBackend σ), t.hot.resident key = none ∧
        t.coldCopy key = some obj ∧
        (∀ k, t₁.hot.resident k = t.hot.resident k) ∧ t₁.coldCopy = t.coldCopy ∧
        t₁.hot.pinned = t.hot.pinned ∧
        (t.get key).1 = (t₁.hotPut key obj false).1.map (fun _ => some obj) ∧
        (t.get key).2 = (t₁.hotPut key obj false).2 := by
  have hfst := CPUBackend.get_fst t.hot key
  have hres := CPUBackend.resident_get t.hot key
  have hpin := CPUBackend.pinned_get t.hot key
  have hcold := LosslessStore.get_ok t.cold key
  have hview := LosslessStore.view_get t.cold key
  unfold get
  generalize t.hot.get key = read at hfst hres hpin ⊢
  generalize KeyedStore.get t.cold key = coldRead at hcold hview ⊢
  rcases read with ⟨_ | obj, hot⟩
  · rcases coldRead with ⟨result, cold⟩
    simp only at hcold hview
    subst hcold
    cases hcopy : LosslessStore.view t.cold key with
    | none => exact .inr (.inl ⟨hfst.symm, hcopy, rfl, hres, hview⟩)
    | some obj =>
        refine .inr (.inr ⟨obj, ⟨hot, cold⟩, hfst.symm, hcopy, hres, hview, hpin, ?_⟩)
        rcases hput : hotPut ⟨hot, cold⟩ key obj false with ⟨_ | _, t'⟩
        · simp [hput, Except.map]
        · simp [hput, Except.map]
  · exact .inl ⟨obj, hfst.symm, rfl, hres, rfl⟩

theorem contains_eq (t : TieredBackend σ) (key : ChunkKey) :
    t.contains key = (t.current key).isSome := by
  rw [contains, CPUBackend.contains_eq, LosslessStore.contains_eq, current, coldCopy]
  cases t.hot.resident key <;> simp

theorem remove_fst (t : TieredBackend σ) (key : ChunkKey) :
    (t.remove key).1 = (t.current key).isSome := by
  rw [remove, CPUBackend.remove_fst, LosslessStore.remove_eq, current, coldCopy]
  cases t.hot.resident key <;> simp

theorem coldCopy_remove (t : TieredBackend σ) (key : ChunkKey) :
    (t.remove key).2.coldCopy = Function.update t.coldCopy key none :=
  LosslessStore.view_remove t.cold key

theorem current_remove (t : TieredBackend σ) (key : ChunkKey) :
    (t.remove key).2.current = Function.update t.current key none := by
  funext k
  rw [current, coldCopy_remove, Function.update_apply, Function.update_apply]
  simp only [remove, CPUBackend.resident_remove]
  split_ifs <;> rfl

theorem current_pin (t : TieredBackend σ) (key : ChunkKey) :
    (t.pin key).current = t.current := by
  funext k
  simp [current, coldCopy, pin]

theorem current_unpin (t : TieredBackend σ) (key : ChunkKey) :
    (t.unpin key).current = t.current := by
  funext k
  simp [current, coldCopy, unpin]

theorem mem_keys_iff (t : TieredBackend σ) (key : ChunkKey) :
    key ∈ t.keys ↔ (t.current key).isSome := by
  rw [keys, List.mem_dedup, List.mem_append, CPUBackend.mem_keys_iff, LosslessStore.mem_keys,
    current, coldCopy]
  cases t.hot.resident key <;> simp

theorem current_init (capacity : Option Nat) (cold : σ) (key : ChunkKey) :
    (init capacity cold).current key = LosslessStore.view cold key := rfl

end Lossless

end TieredBackend

end LlmCache.Store
