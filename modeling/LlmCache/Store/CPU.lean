import LlmCache.Lib.OrderedDict
import LlmCache.Store.Base
import Mathlib.Algebra.BigOperators.Group.Finset.Basic

/-!
# In-memory store with LRU eviction and pinning

The hot tier: a byte budget, least-recently-used eviction of unpinned objects,
and an `on_evict` callback through which a tiered store takes over the evicted
ones.  The callback works on the state `τ` of whatever receives them and may
raise; each call of the backend runs under its lock and is one function here.
-/

namespace LlmCache.Store

open Errors Lib Payload LlmCache.Types

structure CPUBackend where
  capacityBytes : Option Nat := none
  data : OrderedDict ChunkKey KVPayload := ∅
  pinned : Finset ChunkKey := ∅
  used : Int := 0

/-- `on_evict(key, victim)`, on the state of the receiver. -/
abbrev EvictCallback (τ : Type) := ChunkKey → KVPayload → τ → Except Raised Unit × τ

/-- `on_evict=None`. -/
def noCallback : EvictCallback Unit := fun _ _ t => (.ok (), t)

/-- How a call that makes room ends: its outcome, the backend and the state of
the receiver of the evicted objects. -/
structure Room (τ : Type) where
  result : Except Raised Unit
  hot : CPUBackend
  lower : τ

namespace CPUBackend

variable {τ : Type}

def evict (s : CPUBackend) (key : ChunkKey) (victim : KVPayload) : CPUBackend :=
  { s with data := s.data.erase key, used := s.used - victim.nbytes }

/-- The `for key in list(self._data.keys())` loop of `_ensure_room`. -/
def evictLoop (onEvict : EvictCallback τ) (capacity incoming : Nat) (protect : ChunkKey) :
    List ChunkKey → CPUBackend → τ → Room τ
  | [], s, t => ⟨.ok (), s, t⟩
  | key :: rest, s, t =>
      if s.used + incoming ≤ capacity then ⟨.ok (), s, t⟩
      else if key = protect ∨ key ∈ s.pinned then
        evictLoop onEvict capacity incoming protect rest s t
      else
        match s.data.lookup key with
        -- not reached: the snapshot lists each resident key once
        | none => evictLoop onEvict capacity incoming protect rest s t
        | some victim =>
            match onEvict key victim t with
            | (.error err, t') => ⟨.error err, s.evict key victim, t'⟩
            | (.ok (), t') =>
                evictLoop onEvict capacity incoming protect rest (s.evict key victim) t'

/-- What the loop can free for `protect` by evicting `key`. -/
def evictableSize (s : CPUBackend) (protect key : ChunkKey) : Nat :=
  if key = protect ∨ key ∈ s.pinned then 0
  else
    match s.data.lookup key with
    | none => 0
    | some victim => victim.nbytes

def evictableBytes (s : CPUBackend) (protect : ChunkKey) (keys : List ChunkKey) : Nat :=
  (keys.map (s.evictableSize protect)).sum

/-- No eviction makes room for `incoming` bytes under `key`. -/
def NoRoom (s : CPUBackend) (key : ChunkKey) (incoming : Nat) : Prop :=
  match s.capacityBytes with
  | none => False
  | some capacity =>
      capacity < incoming ∧ s.pinned = ∅ ∨
        capacity < s.used + incoming - s.evictableBytes key s.data.keys

def ensureRoom (onEvict : EvictCallback τ) (s : CPUBackend) (t : τ) (incoming : Nat)
    (protect : ChunkKey) : Room τ :=
  match s.capacityBytes with
  | none => ⟨.ok (), s, t⟩
  | some capacity =>
      if capacity < incoming ∧ s.pinned = ∅ then
        ⟨.error (.storageFull s!"object of {incoming} bytes exceeds capacity {capacity}"), s, t⟩
      else
        let room := evictLoop onEvict capacity incoming protect s.data.keys s t
        match room.result with
        | .error _ => room
        | .ok () =>
            -- after the early return inside the loop this test is false
            if capacity < room.hot.used + incoming then
              { room with
                result := .error (.storageFull
                  "cannot free enough space: remaining objects are pinned") }
            else room

/-- `if key in self._data:` drop the old object before asking for room. -/
def dropOld (s : CPUBackend) (key : ChunkKey) : CPUBackend :=
  match s.data.lookup key with
  | none => s
  | some old => s.evict key old

def store (s : CPUBackend) (key : ChunkKey) (obj : KVPayload) (pin : Bool) : CPUBackend :=
  { s with
    data := (s.data.setItem key obj).moveToEnd key
    used := s.used + obj.nbytes
    pinned := if pin then insert key s.pinned else s.pinned }

def put (onEvict : EvictCallback τ) (s : CPUBackend) (t : τ) (key : ChunkKey)
    (obj : KVPayload) (pin : Bool) : Room τ :=
  let room := (s.dropOld key).ensureRoom onEvict t obj.nbytes key
  match room.result with
  | .error _ => room
  | .ok () => { room with hot := room.hot.store key obj pin }

def get (s : CPUBackend) (key : ChunkKey) : Option KVPayload × CPUBackend :=
  match s.data.lookup key with
  | none => (none, s)
  | some obj => (some obj, { s with data := s.data.moveToEnd key })

def contains (s : CPUBackend) (key : ChunkKey) : Bool :=
  key ∈ s.data

def remove (s : CPUBackend) (key : ChunkKey) : Bool × CPUBackend :=
  match s.data.lookup key with
  | none => (false, s)
  | some obj => (true, { s.evict key obj with pinned := s.pinned.erase key })

def pin (s : CPUBackend) (key : ChunkKey) : CPUBackend :=
  if key ∈ s.data then { s with pinned := insert key s.pinned } else s

def unpin (s : CPUBackend) (key : ChunkKey) : CPUBackend :=
  { s with pinned := s.pinned.erase key }

def keys (s : CPUBackend) : List ChunkKey :=
  s.data.keys

def stats (s : CPUBackend) : StoreStats where
  numObjects := s.data.keys.length
  usedBytes := s.used
  capacityBytes := s.capacityBytes
  pinnedObjects := s.pinned.card
  pinnedBytes := s.pinned.sum fun key =>
    match s.data.lookup key with
    | none => 0
    | some obj => obj.nbytes

instance : StorageBackend CPUBackend where
  put s key obj pin :=
    let room := s.put noCallback () key obj pin
    (room.result, room.hot)
  get s key := ((.ok (s.get key).1), (s.get key).2)
  contains := contains
  remove := remove
  pin := pin
  unpin := unpin
  keys := keys

/-! ## Resident objects -/

/-- The object a key resides with. -/
def resident (s : CPUBackend) (key : ChunkKey) : Option KVPayload :=
  s.data.lookup key

theorem mem_data_iff (s : CPUBackend) (key : ChunkKey) :
    key ∈ s.data ↔ (s.resident key).isSome :=
  AList.lookup_isSome.symm

theorem resident_evict (s : CPUBackend) (key k : ChunkKey) (victim : KVPayload) :
    (s.evict key victim).resident k = if k = key then none else s.resident k :=
  OrderedDict.lookup_erase s.data key k

@[simp] theorem pinned_evict (s : CPUBackend) (key : ChunkKey) (victim : KVPayload) :
    (s.evict key victim).pinned = s.pinned := rfl

theorem resident_dropOld (s : CPUBackend) (key k : ChunkKey) :
    (s.dropOld key).resident k = if k = key then none else s.resident k := by
  unfold dropOld
  cases hkey : s.data.lookup key with
  | none =>
      split_ifs with hk
      · rw [hk]
        exact hkey
      · rfl
  | some old => exact resident_evict s key k old

@[simp] theorem pinned_dropOld (s : CPUBackend) (key : ChunkKey) :
    (s.dropOld key).pinned = s.pinned := by
  unfold dropOld
  cases s.data.lookup key <;> rfl

@[simp] theorem capacityBytes_dropOld (s : CPUBackend) (key : ChunkKey) :
    (s.dropOld key).capacityBytes = s.capacityBytes := by
  unfold dropOld
  cases s.data.lookup key <;> rfl

theorem resident_store (s : CPUBackend) (key k : ChunkKey) (obj : KVPayload) (pin : Bool) :
    (s.store key obj pin).resident k = if k = key then some obj else s.resident k := by
  simp [store, resident]

@[simp] theorem capacityBytes_store (s : CPUBackend) (key : ChunkKey) (obj : KVPayload)
    (pin : Bool) : (s.store key obj pin).capacityBytes = s.capacityBytes := rfl

@[simp] theorem get_fst (s : CPUBackend) (key : ChunkKey) :
    (s.get key).1 = s.resident key := by
  unfold get resident
  cases s.data.lookup key <;> rfl

theorem get_of_absent {s : CPUBackend} {key : ChunkKey} (h : s.resident key = none) :
    s.get key = (none, s) := by
  have hmiss : s.data.lookup key = none := h
  unfold get
  rw [hmiss]

@[simp] theorem resident_get (s : CPUBackend) (key k : ChunkKey) :
    (s.get key).2.resident k = s.resident k := by
  unfold get
  cases s.data.lookup key with
  | none => rfl
  | some obj => exact OrderedDict.lookup_moveToEnd s.data key k

@[simp] theorem pinned_get (s : CPUBackend) (key : ChunkKey) :
    (s.get key).2.pinned = s.pinned := by
  unfold get
  cases s.data.lookup key <;> rfl

@[simp] theorem capacityBytes_get (s : CPUBackend) (key : ChunkKey) :
    (s.get key).2.capacityBytes = s.capacityBytes := by
  unfold get
  cases s.data.lookup key <;> rfl

theorem contains_eq (s : CPUBackend) (key : ChunkKey) :
    s.contains key = (s.resident key).isSome := by
  rw [contains, Bool.eq_iff_iff, decide_eq_true_iff, mem_data_iff]

@[simp] theorem remove_fst (s : CPUBackend) (key : ChunkKey) :
    (s.remove key).1 = (s.resident key).isSome := by
  unfold remove resident
  cases s.data.lookup key <;> rfl

theorem resident_remove (s : CPUBackend) (key k : ChunkKey) :
    (s.remove key).2.resident k = if k = key then none else s.resident k := by
  unfold remove
  cases hkey : s.data.lookup key with
  | none =>
      split_ifs with hk
      · rw [hk]
        exact hkey
      · rfl
  | some obj => exact resident_evict s key k obj

theorem mem_pinned_remove (s : CPUBackend) {key k : ChunkKey} (hk : k ≠ key) :
    k ∈ (s.remove key).2.pinned ↔ k ∈ s.pinned := by
  unfold remove
  cases s.data.lookup key with
  | none => rfl
  | some obj => simp [hk]

@[simp] theorem capacityBytes_remove (s : CPUBackend) (key : ChunkKey) :
    (s.remove key).2.capacityBytes = s.capacityBytes := by
  unfold remove
  cases s.data.lookup key <;> rfl

@[simp] theorem resident_pin (s : CPUBackend) (key k : ChunkKey) :
    (s.pin key).resident k = s.resident k := by
  unfold pin
  split_ifs <;> rfl

theorem mem_pinned_pin (s : CPUBackend) (key k : ChunkKey) :
    k ∈ (s.pin key).pinned ↔ k ∈ s.pinned ∨ k = key ∧ (s.resident key).isSome := by
  unfold pin
  split_ifs with hmem
  · have hsome := (mem_data_iff s key).mp hmem
    simp [hsome, or_comm]
  · have hnone : ¬(s.resident key).isSome := fun h => hmem ((mem_data_iff s key).mpr h)
    simp [hnone]

@[simp] theorem capacityBytes_pin (s : CPUBackend) (key : ChunkKey) :
    (s.pin key).capacityBytes = s.capacityBytes := by
  unfold pin
  split_ifs <;> rfl

@[simp] theorem resident_unpin (s : CPUBackend) (key k : ChunkKey) :
    (s.unpin key).resident k = s.resident k := rfl

@[simp] theorem capacityBytes_unpin (s : CPUBackend) (key : ChunkKey) :
    (s.unpin key).capacityBytes = s.capacityBytes := rfl

theorem mem_pinned_unpin (s : CPUBackend) {key k : ChunkKey} (hk : k ≠ key) :
    k ∈ (s.unpin key).pinned ↔ k ∈ s.pinned := by
  simp [unpin, hk]

theorem mem_keys_iff (s : CPUBackend) (key : ChunkKey) :
    key ∈ s.keys ↔ (s.resident key).isSome := by
  rw [← mem_data_iff, AList.mem_keys]
  rfl

/-! ## Making room -/

/-- What the receiver of evicted objects promises: it accepts each of them and
records it under its key. -/
structure Receives {β : Type} (onEvict : EvictCallback τ) (view : τ → ChunkKey → β)
    (record : KVPayload → β) : Prop where
  accepts : ∀ key obj t, (onEvict key obj t).1 = .ok ()
  records : ∀ key obj t,
    view (onEvict key obj t).2 = Function.update (view t) key (record obj)

/-- What making room may do to one key: nothing, or move its object from the
backend to the receiver unless the key is spared. -/
inductive KeyEffect {β : Type} (record : KVPayload → β) (spared : Prop) :
    Option KVPayload → β → Option KVPayload → β → Prop
  | left (hot : Option KVPayload) (cold : β) : KeyEffect record spared hot cold hot cold
  | demoted (obj : KVPayload) (cold : β) (hevict : ¬spared) :
      KeyEffect record spared (some obj) cold none (record obj)

theorem KeyEffect.of_absent {β : Type} {record : KVPayload → β} {spared : Prop}
    {hot hot' : Option KVPayload} {cold cold' : β}
    (h : KeyEffect record spared hot cold hot' cold') (habsent : hot = none) :
    hot' = none ∧ cold' = cold := by
  cases h with
  | left => exact ⟨habsent, rfl⟩
  | demoted obj => simp at habsent

theorem KeyEffect.of_spared {β : Type} {record : KVPayload → β} {spared : Prop}
    {hot hot' : Option KVPayload} {cold cold' : β}
    (h : KeyEffect record spared hot cold hot' cold') (hspared : spared) :
    hot' = hot ∧ cold' = cold := by
  cases h with
  | left => exact ⟨rfl, rfl⟩
  | demoted obj _ hevict => exact absurd hspared hevict

theorem KeyEffect.of_resident {β : Type} {record : KVPayload → β} {spared : Prop}
    {hot hot' : Option KVPayload} {cold cold' : β}
    (h : KeyEffect record spared hot cold hot' cold') {obj : KVPayload} (hobj : hot' = some obj) :
    hot = some obj := by
  cases h with
  | left => exact hobj
  | demoted victim => simp at hobj

variable {β : Type} {onEvict : EvictCallback τ} {view : τ → ChunkKey → β}
  {record : KVPayload → β}

/-- One turn of the eviction loop: it stops, skips the key, or hands the
resident victim to the receiver. -/
theorem evictLoop_cons (hcb : Receives onEvict view record) (capacity incoming : Nat)
    (protect key : ChunkKey) (rest : List ChunkKey) (s : CPUBackend) (t : τ) :
    let loop := evictLoop onEvict capacity incoming protect
    loop (key :: rest) s t = ⟨.ok (), s, t⟩ ∨
      loop (key :: rest) s t = loop rest s t ∨
      ∃ victim, ¬(key = protect ∨ key ∈ s.pinned) ∧ s.resident key = some victim ∧
        loop (key :: rest) s t = loop rest (s.evict key victim) (onEvict key victim t).2 := by
  simp only [evictLoop]
  split_ifs with hfits hspared
  · exact .inl rfl
  · exact .inr (.inl rfl)
  · cases hkey : s.data.lookup key with
    | none => exact .inr (.inl rfl)
    | some victim =>
        refine .inr (.inr ⟨victim, hspared, hkey, ?_⟩)
        have hok := hcb.accepts key victim t
        rcases hcall : onEvict key victim t with ⟨result, t'⟩
        simp only [hcall] at hok
        subst hok
        simp only [hcall]

theorem evictLoop_effect (hcb : Receives onEvict view record) (capacity incoming : Nat)
    (protect : ChunkKey) (keys : List ChunkKey) (s : CPUBackend) (t : τ) (k : ChunkKey) :
    let room := evictLoop onEvict capacity incoming protect keys s t
    KeyEffect record (k = protect ∨ k ∈ s.pinned) (s.resident k) (view t k)
      (room.hot.resident k) (view room.lower k) := by
  induction keys generalizing s t with
  | nil => exact .left _ _
  | cons key rest ih =>
      rcases evictLoop_cons hcb capacity incoming protect key rest s t with
        hstop | hskip | ⟨victim, hspared, hres, hevict⟩
      · simp only [hstop]
        exact .left _ _
      · simp only [hskip]
        exact ih s t
      · have hrest := ih (s.evict key victim) (onEvict key victim t).2
        simp only [resident_evict, hcb.records, pinned_evict] at hrest
        simp only [hevict]
        by_cases hk : k = key
        · -- the victim itself: absent from now on, so the rest of the loop leaves it
          subst hk
          obtain ⟨hhot, hcold⟩ := hrest.of_absent (if_pos rfl)
          rw [hhot, hcold, hres, Function.update_self]
          exact .demoted victim _ hspared
        · simpa [hk] using hrest

theorem evictLoop_frame (hcb : Receives onEvict view record) (capacity incoming : Nat)
    (protect : ChunkKey) (keys : List ChunkKey) (s : CPUBackend) (t : τ) :
    let room := evictLoop onEvict capacity incoming protect keys s t
    room.result = .ok () ∧ room.hot.pinned = s.pinned ∧
      room.hot.capacityBytes = s.capacityBytes := by
  induction keys generalizing s t with
  | nil => exact ⟨rfl, rfl, rfl⟩
  | cons key rest ih =>
      rcases evictLoop_cons hcb capacity incoming protect key rest s t with
        hstop | hskip | ⟨victim, _, _, hevict⟩
      · simp [hstop]
      · simp only [hskip]
        exact ih s t
      · simp only [hevict]
        exact ih (s.evict key victim) (onEvict key victim t).2

/-- Where `_ensure_room` ends: at the start, or where its loop ends. -/
theorem ensureRoom_cases (hcb : Receives onEvict view record) (s : CPUBackend) (t : τ)
    (incoming : Nat) (protect : ChunkKey) :
    let room := s.ensureRoom onEvict t incoming protect
    (room.hot = s ∧ room.lower = t) ∨
      ∃ capacity, s.capacityBytes = some capacity ∧
        room.hot = (evictLoop onEvict capacity incoming protect s.data.keys s t).hot ∧
        room.lower = (evictLoop onEvict capacity incoming protect s.data.keys s t).lower := by
  unfold ensureRoom
  cases hcap : s.capacityBytes with
  | none => exact .inl ⟨rfl, rfl⟩
  | some capacity =>
      simp only
      by_cases hbig : capacity < incoming ∧ s.pinned = ∅
      · rw [if_pos hbig]
        exact .inl ⟨rfl, rfl⟩
      · rw [if_neg hbig]
        have hok := (evictLoop_frame hcb capacity incoming protect s.data.keys s t).1
        refine .inr ⟨capacity, rfl, ?_⟩
        rcases hroom : evictLoop onEvict capacity incoming protect s.data.keys s t with
          ⟨result, hot, lower⟩
        simp only [hroom] at hok
        subst hok
        by_cases hfull : (capacity : Int) < hot.used + incoming
        · simp only [if_pos hfull, and_self]
        · simp only [if_neg hfull, and_self]

theorem pinned_ensureRoom (hcb : Receives onEvict view record) (s : CPUBackend) (t : τ)
    (incoming : Nat) (protect : ChunkKey) :
    (s.ensureRoom onEvict t incoming protect).hot.pinned = s.pinned := by
  rcases ensureRoom_cases hcb s t incoming protect with ⟨hhot, _⟩ | ⟨capacity, _, hhot, _⟩
  · rw [hhot]
  · rw [hhot]
    exact (evictLoop_frame hcb capacity incoming protect s.data.keys s t).2.1

theorem ensureRoom_effect (hcb : Receives onEvict view record) (s : CPUBackend) (t : τ)
    (incoming : Nat) (protect k : ChunkKey) :
    let room := s.ensureRoom onEvict t incoming protect
    KeyEffect record (k = protect ∨ k ∈ s.pinned) (s.resident k) (view t k)
      (room.hot.resident k) (view room.lower k) := by
  rcases ensureRoom_cases hcb s t incoming protect with
    ⟨hhot, hlower⟩ | ⟨capacity, _, hhot, hlower⟩
  · simp only [hhot, hlower]
    exact .left _ _
  · simp only [hhot, hlower]
    exact evictLoop_effect hcb capacity incoming protect s.data.keys s t k

/-! ## `put` -/

/-- How a put ends, in terms of the room made for it. -/
theorem put_cases (onEvict : EvictCallback τ) (s : CPUBackend) (t : τ) (key : ChunkKey)
    (obj : KVPayload) (pin : Bool) :
    let room := (s.dropOld key).ensureRoom onEvict t obj.nbytes key
    let out := s.put onEvict t key obj pin
    (out.result = .ok () ∧ out.hot = room.hot.store key obj pin ∧ out.lower = room.lower) ∨
      ∃ err, out.result = .error err ∧ out.hot = room.hot ∧ out.lower = room.lower := by
  unfold put
  rcases (s.dropOld key).ensureRoom onEvict t obj.nbytes key with ⟨_ | _, hot, lower⟩
  · exact .inr ⟨_, rfl, rfl, rfl⟩
  · exact .inl ⟨rfl, rfl, rfl⟩

theorem lower_put (onEvict : EvictCallback τ) (s : CPUBackend) (t : τ) (key : ChunkKey)
    (obj : KVPayload) (pin : Bool) :
    (s.put onEvict t key obj pin).lower =
      ((s.dropOld key).ensureRoom onEvict t obj.nbytes key).lower := by
  rcases put_cases onEvict s t key obj pin with ⟨_, _, h⟩ | ⟨_, _, _, h⟩ <;> exact h

theorem pinned_put_of_ok (hcb : Receives onEvict view record) {s : CPUBackend} {t : τ}
    {key : ChunkKey} {obj : KVPayload} {pin : Bool}
    (hok : (s.put onEvict t key obj pin).result = .ok ()) :
    (s.put onEvict t key obj pin).hot.pinned =
      if pin then insert key s.pinned else s.pinned := by
  have hframe := pinned_ensureRoom hcb (s.dropOld key) t obj.nbytes key
  rw [pinned_dropOld] at hframe
  rcases put_cases onEvict s t key obj pin with ⟨_, hhot, _⟩ | ⟨err, herr, _, _⟩
  · simp only [hhot, store, hframe]
  · simp [hok] at herr

theorem pinned_put_of_error (hcb : Receives onEvict view record) {s : CPUBackend} {t : τ}
    {key : ChunkKey} {obj : KVPayload} {pin : Bool} {err : Raised}
    (herr : (s.put onEvict t key obj pin).result = .error err) :
    (s.put onEvict t key obj pin).hot.pinned = s.pinned := by
  have hframe := pinned_ensureRoom hcb (s.dropOld key) t obj.nbytes key
  rw [pinned_dropOld] at hframe
  rcases put_cases onEvict s t key obj pin with ⟨hok, _, _⟩ | ⟨_, _, hhot, _⟩
  · simp [herr] at hok
  · rw [hhot, hframe]

theorem capacityBytes_evictLoop (onEvict : EvictCallback τ) (capacity incoming : Nat)
    (protect : ChunkKey) (keys : List ChunkKey) (s : CPUBackend) (t : τ) :
    (evictLoop onEvict capacity incoming protect keys s t).hot.capacityBytes =
      s.capacityBytes := by
  induction keys generalizing s t with
  | nil => rfl
  | cons key rest ih =>
      simp only [evictLoop]
      split_ifs
      · rfl
      · exact ih s t
      · cases s.data.lookup key with
        | none => exact ih s t
        | some victim =>
            simp only
            rcases onEvict key victim t with ⟨_ | _, t'⟩
            · rfl
            · exact ih (s.evict key victim) t'

theorem capacityBytes_ensureRoom (onEvict : EvictCallback τ) (s : CPUBackend) (t : τ)
    (incoming : Nat) (protect : ChunkKey) :
    (s.ensureRoom onEvict t incoming protect).hot.capacityBytes = s.capacityBytes := by
  unfold ensureRoom
  cases hcap : s.capacityBytes with
  | none => exact hcap
  | some capacity =>
      have hloop := capacityBytes_evictLoop onEvict capacity incoming protect s.data.keys s t
      rw [hcap] at hloop
      simp only
      by_cases hbig : capacity < incoming ∧ s.pinned = ∅
      · rw [if_pos hbig]
        exact hcap
      · rw [if_neg hbig]
        generalize evictLoop onEvict capacity incoming protect s.data.keys s t = room at hloop ⊢
        rcases room with ⟨err | _, hot, lower⟩
        · exact hloop
        · simp only
          split_ifs <;> exact hloop

theorem capacityBytes_put (onEvict : EvictCallback τ) (s : CPUBackend) (t : τ)
    (key : ChunkKey) (obj : KVPayload) (pin : Bool) :
    (s.put onEvict t key obj pin).hot.capacityBytes = s.capacityBytes := by
  have hroom := capacityBytes_ensureRoom onEvict (s.dropOld key) t obj.nbytes key
  rw [capacityBytes_dropOld] at hroom
  rcases put_cases onEvict s t key obj pin with ⟨_, hhot, _⟩ | ⟨_, _, hhot, _⟩
  · rw [hhot, capacityBytes_store, hroom]
  · rw [hhot, hroom]

theorem mem_pinned_put (hcb : Receives onEvict view record) (s : CPUBackend) (t : τ)
    (key : ChunkKey) {k : ChunkKey} (obj : KVPayload) (pin : Bool) (hk : k ∈ s.pinned) :
    k ∈ (s.put onEvict t key obj pin).hot.pinned := by
  rcases put_cases onEvict s t key obj pin with ⟨hok, _, _⟩ | ⟨err, herr, _, _⟩
  · rw [pinned_put_of_ok hcb hok]
    split_ifs
    · exact Finset.mem_insert_of_mem hk
    · exact hk
  · rw [pinned_put_of_error hcb herr]
    exact hk

theorem put_effect_other (hcb : Receives onEvict view record) (s : CPUBackend) (t : τ)
    {key k : ChunkKey} (obj : KVPayload) (pin : Bool) (hk : k ≠ key) :
    let out := s.put onEvict t key obj pin
    KeyEffect record (k ∈ s.pinned) (s.resident k) (view t k)
      (out.hot.resident k) (view out.lower k) := by
  have heffect := ensureRoom_effect hcb (s.dropOld key) t obj.nbytes key k
  simp only [resident_dropOld, pinned_dropOld, hk, if_false, false_or] at heffect
  rcases put_cases onEvict s t key obj pin with ⟨_, hhot, hlower⟩ | ⟨_, _, hhot, hlower⟩
  · simp only [hhot, hlower, resident_store, if_neg hk]
    exact heffect
  · simp only [hhot, hlower]
    exact heffect

private theorem ensureRoom_self (hcb : Receives onEvict view record) (s : CPUBackend) (t : τ)
    (key : ChunkKey) (incoming : Nat) :
    let room := (s.dropOld key).ensureRoom onEvict t incoming key
    room.hot.resident key = none ∧ view room.lower key = view t key :=
  (ensureRoom_effect hcb (s.dropOld key) t incoming key key).of_absent
    ((resident_dropOld s key key).trans (if_pos rfl))

theorem put_lower_self (hcb : Receives onEvict view record) (s : CPUBackend) (t : τ)
    (key : ChunkKey) (obj : KVPayload) (pin : Bool) :
    view (s.put onEvict t key obj pin).lower key = view t key := by
  rw [lower_put]
  exact (ensureRoom_self hcb s t key obj.nbytes).2

theorem put_self_of_ok {s : CPUBackend} {t : τ} {key : ChunkKey} {obj : KVPayload}
    {pin : Bool} (hok : (s.put onEvict t key obj pin).result = .ok ()) :
    (s.put onEvict t key obj pin).hot.resident key = some obj := by
  rcases put_cases onEvict s t key obj pin with ⟨_, hhot, _⟩ | ⟨err, herr, _, _⟩
  · rw [hhot, resident_store, if_pos rfl]
  · simp [hok] at herr

/-- A put that raises has already dropped the object it was to replace. -/
theorem put_self_of_error (hcb : Receives onEvict view record) {s : CPUBackend} {t : τ}
    {key : ChunkKey} {obj : KVPayload} {pin : Bool} {err : Raised}
    (herr : (s.put onEvict t key obj pin).result = .error err) :
    (s.put onEvict t key obj pin).hot.resident key = none := by
  rcases put_cases onEvict s t key obj pin with ⟨hok, _, _⟩ | ⟨_, _, hhot, _⟩
  · simp [herr] at hok
  · rw [hhot]
    exact (ensureRoom_self hcb s t key obj.nbytes).1

theorem evictableBytes_cons (s : CPUBackend) (protect key : ChunkKey) (keys : List ChunkKey) :
    s.evictableBytes protect (key :: keys) =
      s.evictableSize protect key + s.evictableBytes protect keys :=
  List.sum_cons

theorem evictableSize_of_spared {s : CPUBackend} {protect key : ChunkKey}
    (h : key = protect ∨ key ∈ s.pinned) : s.evictableSize protect key = 0 :=
  if_pos h

theorem evictableSize_of_absent {s : CPUBackend} {protect key : ChunkKey}
    (h : s.data.lookup key = none) : s.evictableSize protect key = 0 := by
  simp [evictableSize, h]

theorem evictableSize_of_victim {s : CPUBackend} {protect key : ChunkKey} {victim : KVPayload}
    (hspared : ¬(key = protect ∨ key ∈ s.pinned)) (h : s.data.lookup key = some victim) :
    s.evictableSize protect key = victim.nbytes := by
  rw [evictableSize, if_neg hspared, h]

theorem evictableBytes_evict (s : CPUBackend) (protect key : ChunkKey) (victim : KVPayload)
    {keys : List ChunkKey} (hkey : key ∉ keys) :
    (s.evict key victim).evictableBytes protect keys = s.evictableBytes protect keys := by
  refine congrArg List.sum (List.map_congr_left fun k hk => ?_)
  have hne : k ≠ key := fun h => hkey (h ▸ hk)
  have hlook : (s.evict key victim).data.lookup k = s.data.lookup k :=
    (resident_evict s key k victim).trans (if_neg hne)
  rw [evictableSize, evictableSize, hlook, pinned_evict]

/-- The loop leaves too little room exactly when evicting everything it may
evict would. -/
theorem used_evictLoop (hcb : Receives onEvict view record) (capacity incoming : Nat)
    (protect : ChunkKey) {keys : List ChunkKey} (hnodup : keys.Nodup) (s : CPUBackend) (t : τ) :
    (capacity : Int) < (evictLoop onEvict capacity incoming protect keys s t).hot.used + incoming ↔
      (capacity : Int) < s.used + incoming - s.evictableBytes protect keys := by
  induction keys generalizing s t with
  | nil => simp [evictLoop, evictableBytes]
  | cons key rest ih =>
      obtain ⟨hkey, hrest⟩ := List.nodup_cons.mp hnodup
      rw [evictableBytes_cons]
      by_cases hfits : s.used + incoming ≤ capacity
      · simp only [evictLoop, if_pos hfits]
        omega
      by_cases hspared : key = protect ∨ key ∈ s.pinned
      · simp only [evictLoop, if_neg hfits, if_pos hspared]
        rw [ih hrest s t, evictableSize_of_spared hspared, Nat.zero_add]
      cases hlook : s.data.lookup key with
      | none =>
          simp only [evictLoop, if_neg hfits, if_neg hspared, hlook]
          rw [ih hrest s t, evictableSize_of_absent hlook, Nat.zero_add]
      | some victim =>
          have hok := hcb.accepts key victim t
          rcases hcall : onEvict key victim t with ⟨result, t'⟩
          simp only [hcall] at hok
          subst hok
          simp only [evictLoop, if_neg hfits, if_neg hspared, hlook, hcall]
          rw [ih hrest, evictableBytes_evict s protect key victim hkey,
            evictableSize_of_victim hspared hlook]
          simp only [evict]
          omega

theorem ensureRoom_raises_iff (hcb : Receives onEvict view record) (s : CPUBackend) (t : τ)
    (incoming : Nat) (protect : ChunkKey) :
    (∃ err, (s.ensureRoom onEvict t incoming protect).result = .error err) ↔
      s.NoRoom protect incoming := by
  unfold ensureRoom NoRoom
  cases s.capacityBytes with
  | none => simp
  | some capacity =>
      have hok := (evictLoop_frame hcb capacity incoming protect s.data.keys s t).1
      have hnodup : s.data.keys.Nodup := s.data.nodupKeys
      have hused := used_evictLoop hcb capacity incoming protect hnodup s t
      simp only [← hused]
      split_ifs with hbig hfull
      · simp [hbig]
      · simp [hok, hfull]
      · simp [hok, hbig, hfull]

/-- When a put raises: nothing it may evict makes room for the object. -/
theorem put_raises_iff (hcb : Receives onEvict view record) (s : CPUBackend) (t : τ)
    (key : ChunkKey) (obj : KVPayload) (pin : Bool) :
    (∃ err, (s.put onEvict t key obj pin).result = .error err) ↔
      (s.dropOld key).NoRoom key obj.nbytes := by
  rw [← ensureRoom_raises_iff hcb (s.dropOld key) t obj.nbytes key]
  unfold put
  rcases (s.dropOld key).ensureRoom onEvict t obj.nbytes key with ⟨_ | _, hot, lower⟩ <;> simp

/-! ## Receivers that may raise -/

/-- Making room for `incoming` bytes under `key` gets as far as evicting `k`:
evicting all it may evict before `k` is not enough. -/
def Evicts (s : CPUBackend) (key : ChunkKey) (incoming : Nat) (k : ChunkKey) : Prop :=
  match s.capacityBytes with
  | none => False
  | some capacity =>
      ¬(capacity < incoming ∧ s.pinned = ∅) ∧ k ≠ key ∧ k ∉ s.pinned ∧ k ∈ s.data ∧
        capacity < s.used + incoming - s.evictableBytes key (s.data.keys.takeWhile (· ≠ k))

instance (s : CPUBackend) (key : ChunkKey) (incoming : Nat) (k : ChunkKey) :
    Decidable (s.Evicts key incoming k) := by
  unfold Evicts
  split <;> infer_instance

section Raising

variable {P : τ → Prop} {k : ChunkKey}

theorem evictLoop_keeps (hP : ∀ key obj t, key ≠ k → P t → P (onEvict key obj t).2)
    {capacity incoming : Nat} {protect : ChunkKey} {keys : List ChunkKey} (hnodup : keys.Nodup)
    {s : CPUBackend} {t : τ} (ht : P t)
    (hk : k = protect ∨ k ∈ s.pinned ∨ s.resident k = none ∨
      ¬(capacity : Int) < s.used + incoming - s.evictableBytes protect (keys.takeWhile (· ≠ k))) :
    let room := evictLoop onEvict capacity incoming protect keys s t
    room.hot.resident k = s.resident k ∧ room.hot.pinned = s.pinned ∧ P room.lower := by
  induction keys generalizing s t with
  | nil => exact ⟨rfl, rfl, ht⟩
  | cons key rest ih =>
      obtain ⟨hkey, hrest⟩ := List.nodup_cons.mp hnodup
      by_cases hfits : s.used + incoming ≤ capacity
      · simp only [evictLoop, if_pos hfits]
        exact ⟨trivial, trivial, ht⟩
      -- before any other key `k` is spared, and its own turn is never reached
      have hrestk : key ≠ k → k = protect ∨ k ∈ s.pinned ∨ s.resident k = none ∨
          ¬(capacity : Int) < s.used + incoming - (s.evictableSize protect key +
            s.evictableBytes protect (rest.takeWhile (· ≠ k)) : Nat) := by
        intro hne
        rwa [List.takeWhile_cons_of_pos (by simpa using hne), evictableBytes_cons] at hk
      by_cases hspared : key = protect ∨ key ∈ s.pinned
      · simp only [evictLoop, if_neg hfits, if_pos hspared]
        apply ih hrest ht
        by_cases hne : key = k
        · subst hne
          exact hspared.elim .inl fun h => .inr (.inl h)
        · simpa only [evictableSize_of_spared hspared, Nat.zero_add] using hrestk hne
      cases hlook : s.data.lookup key with
      | none =>
          simp only [evictLoop, if_neg hfits, if_neg hspared, hlook]
          apply ih hrest ht
          by_cases hne : key = k
          · subst hne
            exact .inr (.inr (.inl hlook))
          · simpa only [evictableSize_of_absent hlook, Nat.zero_add] using hrestk hne
      | some victim =>
          have hne : key ≠ k := by
            rintro rfl
            rcases hk with h | h | h | h
            · exact hspared (.inl h)
            · exact hspared (.inr h)
            · rw [resident, hlook] at h
              cases h
            · rw [List.takeWhile_cons_of_neg (by simp)] at h
              apply h
              simp only [evictableBytes, List.map_nil, List.sum_nil]
              omega
          have hres : (s.evict key victim).resident k = s.resident k :=
            (resident_evict s key k victim).trans (if_neg hne.symm)
          have hnext := hP key victim t hne ht
          rcases hcall : onEvict key victim t with ⟨err | _, t'⟩
          · simp only [evictLoop, if_neg hfits, if_neg hspared, hlook, hcall]
            rw [hcall] at hnext
            exact ⟨hres, rfl, hnext⟩
          · simp only [evictLoop, if_neg hfits, if_neg hspared, hlook, hcall]
            rw [hcall] at hnext
            have hkey' : key ∉ rest.takeWhile (· ≠ k) :=
              fun h => hkey ((List.takeWhile_prefix _).subset h)
            have hstay := ih hrest (s := s.evict key victim) hnext (by
              rw [hres, pinned_evict, evictableBytes_evict s protect key victim hkey']
              refine (hrestk hne).imp id (Or.imp id (Or.imp id fun h => ?_))
              rw [evictableSize_of_victim hspared hlook] at h
              simp only [evict]
              omega)
            rw [hres] at hstay
            exact hstay

theorem ensureRoom_keeps (hP : ∀ key obj t, key ≠ k → P t → P (onEvict key obj t).2)
    {incoming : Nat} {protect : ChunkKey} {s : CPUBackend} {t : τ} (ht : P t)
    (hk : ¬s.Evicts protect incoming k) :
    let room := s.ensureRoom onEvict t incoming protect
    room.hot.resident k = s.resident k ∧ room.hot.pinned = s.pinned ∧ P room.lower := by
  unfold Evicts at hk
  unfold ensureRoom
  cases hcap : s.capacityBytes with
  | none => exact ⟨rfl, rfl, ht⟩
  | some capacity =>
      simp only [hcap] at hk ⊢
      by_cases hbig : capacity < incoming ∧ s.pinned = ∅
      · rw [if_pos hbig]
        exact ⟨rfl, rfl, ht⟩
      · rw [if_neg hbig]
        have hspared : k = protect ∨ k ∈ s.pinned ∨ s.resident k = none ∨
            ¬(capacity : Int) < s.used + incoming -
              s.evictableBytes protect (s.data.keys.takeWhile (· ≠ k)) := by
          rw [mem_data_iff, Option.isSome_iff_ne_none] at hk
          tauto
        have hnodup : s.data.keys.Nodup := s.data.nodupKeys
        have hkept := evictLoop_keeps hP hnodup ht hspared
        generalize evictLoop onEvict capacity incoming protect s.data.keys s t = room at hkept ⊢
        rcases room with ⟨err | _, hot, lower⟩
        · exact hkept
        · simp only
          split_ifs <;> exact hkept

theorem ensureRoom_protects (onEvict : EvictCallback τ) (s : CPUBackend) (t : τ) (incoming : Nat)
    (protect : ChunkKey) :
    (s.ensureRoom onEvict t incoming protect).hot.resident protect = s.resident protect := by
  apply (ensureRoom_keeps (P := fun _ => True) (fun _ _ _ _ _ => trivial) trivial ?_).1
  unfold Evicts
  cases s.capacityBytes with
  | none => exact id
  | some capacity => exact fun h => h.2.1 rfl

/-- A put to another key that does not evict `k`, or to `k` itself, changes
neither `k` nor what the receiver says about it. -/
theorem put_keeps (hP : ∀ key obj t, key ≠ k → P t → P (onEvict key obj t).2)
    {s : CPUBackend} {t : τ} (ht : P t) {key : ChunkKey} {obj : KVPayload} (pin : Bool)
    (hk : ¬(s.dropOld key).Evicts key obj.nbytes k) :
    let out := s.put onEvict t key obj pin
    (k ≠ key → out.hot.resident k = s.resident k) ∧ s.pinned ⊆ out.hot.pinned ∧ P out.lower := by
  obtain ⟨hres, hpinned, hlower⟩ := ensureRoom_keeps hP ht hk
  rw [pinned_dropOld] at hpinned
  have hdrop : k ≠ key → (s.dropOld key).resident k = s.resident k :=
    fun hne => (resident_dropOld s key k).trans (if_neg hne)
  rcases put_cases onEvict s t key obj pin with ⟨_, hhot, hlow⟩ | ⟨_, _, hhot, hlow⟩
  · simp only [hhot, hlow]
    refine ⟨fun hne => ?_, ?_, hlower⟩
    · rw [resident_store, if_neg hne, hres, hdrop hne]
    · simp only [store, hpinned]
      split_ifs
      · exact Finset.subset_insert ..
      · exact subset_rfl
  · simp only [hhot, hlow]
    exact ⟨fun hne => hres.trans (hdrop hne), hpinned.symm.subset, hlower⟩

/-- What every call of the receiver keeps, a put keeps. -/
theorem lower_put_of_closed (hP : ∀ key obj t, P t → P (onEvict key obj t).2)
    (s : CPUBackend) {t : τ} (ht : P t) (key : ChunkKey) (obj : KVPayload) (pin : Bool) :
    P (s.put onEvict t key obj pin).lower := by
  have hloop : ∀ capacity incoming protect keys (s : CPUBackend) t, P t →
      P (evictLoop onEvict capacity incoming protect keys s t).lower := by
    intro capacity incoming protect keys
    induction keys with
    | nil => exact fun _ _ ht => ht
    | cons x rest ih =>
        intro s t ht
        simp only [evictLoop]
        split_ifs
        · exact ht
        · exact ih s t ht
        · cases s.data.lookup x with
          | none => exact ih s t ht
          | some victim =>
              have hnext := hP x victim t ht
              simp only
              generalize onEvict x victim t = out at hnext ⊢
              rcases out with ⟨err | _, t'⟩
              · exact hnext
              · exact ih _ t' hnext
  rw [lower_put]
  unfold ensureRoom
  split
  · exact ht
  · split_ifs
    · exact ht
    · rename_i capacity _ _
      have hafter := hloop capacity obj.nbytes key (s.dropOld key).data.keys (s.dropOld key) t ht
      generalize evictLoop onEvict capacity obj.nbytes key (s.dropOld key).data.keys
        (s.dropOld key) t = room at hafter ⊢
      rcases room with ⟨err | _, hot, lower⟩
      · exact hafter
      · simp only
        split_ifs <;> exact hafter

end Raising

theorem put_of_unbounded {s : CPUBackend} (hcap : s.capacityBytes = none) (t : τ)
    (key : ChunkKey) (obj : KVPayload) (pin : Bool) :
    s.put onEvict t key obj pin = ⟨.ok (), (s.dropOld key).store key obj pin, t⟩ := by
  simp [put, ensureRoom, hcap]

theorem receives_noCallback : Receives noCallback (fun _ _ => ()) (fun _ => ()) where
  accepts := fun _ _ _ => rfl
  records := fun _ _ _ => rfl

end CPUBackend

/-! ## The unbounded backend -/

/-- `CPUBackend()`: no capacity, hence no eviction and no refusal. -/
abbrev UnboundedCPU : Type := { s : CPUBackend // s.capacityBytes = none }

namespace UnboundedCPU

open CPUBackend

/-- The empty unbounded backend. -/
def empty : UnboundedCPU := ⟨{}, rfl⟩

instance : LosslessBackend UnboundedCPU where
  put s key obj pin :=
    ((s.1.put noCallback () key obj pin).result, ⟨(s.1.put noCallback () key obj pin).hot, by
      rw [capacityBytes_put, s.2]⟩)
  get s key := (.ok (s.1.get key).1, ⟨(s.1.get key).2, by rw [capacityBytes_get, s.2]⟩)
  contains s key := s.1.contains key
  remove s key := ((s.1.remove key).1, ⟨(s.1.remove key).2, by rw [capacityBytes_remove, s.2]⟩)
  pin s key := ⟨s.1.pin key, by rw [capacityBytes_pin, s.2]⟩
  unpin s key := ⟨s.1.unpin key, by rw [capacityBytes_unpin, s.2]⟩
  keys s := s.1.keys
  view s key := s.1.resident key
  put_ok s key obj pin := congrArg Room.result (put_of_unbounded s.2 () key obj pin)
  view_put s key obj pin := by
    funext k
    simp only [put_of_unbounded s.2, resident_store, resident_dropOld, Function.update_apply]
    split_ifs <;> rfl
  get_ok s key := by rw [get_fst]
  view_get s key := by
    funext k
    exact resident_get s.1 key k
  contains_eq s key := CPUBackend.contains_eq s.1 key
  remove_eq s key := remove_fst s.1 key
  view_remove s key := by
    funext k
    rw [resident_remove, Function.update_apply]
  view_pin s key := by
    funext k
    exact resident_pin s.1 key k
  view_unpin _ _ := rfl
  mem_keys s key := mem_keys_iff s.1 key

end UnboundedCPU

end LlmCache.Store
