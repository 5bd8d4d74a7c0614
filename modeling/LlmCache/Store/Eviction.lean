import LlmCache.Store.CPUInvariants

/-!
# Making room

The eviction loop walks from the oldest object to the newest, skips what is
pinned, and stops as soon as the new object fits.
-/

namespace LlmCache.Store.Eviction

open Errors Lib Payload LlmCache.Types CPUBackend CPUInvariants

variable {τ : Type} {onEvict : EvictCallback τ}

/-- The size of the object under a key. -/
def sizeOf (s : CPUBackend) (key : ChunkKey) : Nat :=
  match s.resident key with
  | none => 0
  | some obj => obj.nbytes

def bytesOf (s : CPUBackend) (keys : List ChunkKey) : Nat :=
  (keys.map (sizeOf s)).sum

/-- The keys that may be evicted in favour of `protect`, oldest first. -/
def candidates (s : CPUBackend) (protect : ChunkKey) : List ChunkKey :=
  s.keys.filter fun key => ¬(key = protect ∨ key ∈ s.pinned)

/-- The bytes of the resident pinned objects under other keys. -/
def pinnedBytes (s : CPUBackend) (protect : ChunkKey) : Nat :=
  bytesOf s (s.keys.filter fun key => key ≠ protect ∧ key ∈ s.pinned)

/-- Evict one key after another. -/
def evictAll (s : CPUBackend) (keys : List ChunkKey) : CPUBackend :=
  keys.foldl dropOld s

/-! ## Dropping objects -/

theorem bytesOf_cons (s : CPUBackend) (key : ChunkKey) (keys : List ChunkKey) :
    bytesOf s (key :: keys) = sizeOf s key + bytesOf s keys :=
  List.sum_cons

theorem sizeOf_dropOld (s : CPUBackend) {key k : ChunkKey} (hk : k ≠ key) :
    sizeOf (s.dropOld key) k = sizeOf s k := by
  rw [sizeOf, resident_dropOld, if_neg hk, sizeOf]

theorem bytesOf_dropOld (s : CPUBackend) {key : ChunkKey} {keys : List ChunkKey}
    (hkey : key ∉ keys) : bytesOf (s.dropOld key) keys = bytesOf s keys := by
  apply congrArg List.sum
  apply List.map_congr_left
  intro k hk
  apply sizeOf_dropOld
  rintro rfl
  exact hkey hk

theorem used_dropOld (s : CPUBackend) (key : ChunkKey) :
    (s.dropOld key).used = s.used - sizeOf s key := by
  unfold dropOld sizeOf resident
  cases s.data.lookup key with
  | none => simp
  | some old => rfl

theorem keys_dropOld (s : CPUBackend) (key : ChunkKey) :
    (s.dropOld key).keys = s.keys.filter (· ≠ key) := by
  unfold dropOld
  cases hold : s.data.lookup key with
  | none =>
      symm
      apply List.filter_eq_self.mpr
      intro k hk
      rw [decide_eq_true_eq]
      rintro rfl
      rw [mem_keys_iff, resident, hold] at hk
      cases hk
  | some old => exact OrderedDict.keys_erase_eq_filter s.data key

theorem used_evictAll {keys : List ChunkKey} (hnodup : keys.Nodup) (s : CPUBackend) :
    (evictAll s keys).used = s.used - bytesOf s keys := by
  induction keys generalizing s with
  | nil => simp [evictAll, bytesOf]
  | cons key rest ih =>
      obtain ⟨hkey, hrest⟩ := List.nodup_cons.mp hnodup
      have hstep : evictAll s (key :: rest) = evictAll (s.dropOld key) rest := rfl
      rw [hstep, ih hrest, used_dropOld, bytesOf_dropOld s hkey, bytesOf_cons]
      omega

theorem keys_evictAll (s : CPUBackend) (keys : List ChunkKey) :
    (evictAll s keys).keys = s.keys.filter (· ∉ keys) := by
  induction keys generalizing s with
  | nil => simp [evictAll]
  | cons key rest ih =>
      have hstep : evictAll s (key :: rest) = evictAll (s.dropOld key) rest := rfl
      rw [hstep, ih, keys_dropOld, List.filter_filter]
      congr 1
      funext k
      simp only [List.mem_cons, not_or, Bool.decide_and, ne_eq]
      exact Bool.and_comm ..

theorem resident_evictAll (s : CPUBackend) (keys : List ChunkKey) (k : ChunkKey) :
    (evictAll s keys).resident k = if k ∈ keys then none else s.resident k := by
  induction keys generalizing s with
  | nil => simp [evictAll]
  | cons key rest ih =>
      have hstep : evictAll s (key :: rest) = evictAll (s.dropOld key) rest := rfl
      rw [hstep, ih, resident_dropOld]
      by_cases hk : k = key <;> simp [hk]

/-! ## The loop -/

/-- A callback that takes every object it is handed. -/
def Accepts (onEvict : EvictCallback τ) : Prop :=
  ∀ key obj t, (onEvict key obj t).1 = .ok ()

theorem Accepts.receives (h : Accepts onEvict) :
    Receives onEvict (fun _ _ => ()) (fun _ => ()) where
  accepts := h
  records _ _ _ := rfl

theorem evictLoop_candidate (haccepts : Accepts onEvict) {capacity incoming : Nat}
    {protect key : ChunkKey} {s : CPUBackend} (hfull : ¬s.used + incoming ≤ capacity)
    (hcandidate : ¬(key = protect ∨ key ∈ s.pinned)) (rest : List ChunkKey) (t : τ) :
    ∃ t', evictLoop onEvict capacity incoming protect (key :: rest) s t =
      evictLoop onEvict capacity incoming protect rest (s.dropOld key) t' := by
  cases hlook : s.data.lookup key with
  | none =>
      refine ⟨t, ?_⟩
      simp only [evictLoop, if_neg hfull, if_neg hcandidate, hlook, dropOld]
  | some victim =>
      have hok := haccepts key victim t
      rcases hcall : onEvict key victim t with ⟨result, t'⟩
      rw [hcall] at hok
      obtain rfl : result = .ok () := hok
      refine ⟨t', ?_⟩
      simp only [evictLoop, if_neg hfull, if_neg hcandidate, hlook, hcall, dropOld]

/-- The loop evicts the shortest run of candidates after which the object fits,
or all of them. -/
theorem evictLoop_spec (haccepts : Accepts onEvict) (capacity incoming : Nat)
    (protect : ChunkKey) {keys : List ChunkKey} (hnodup : keys.Nodup) (s : CPUBackend) (t : τ) :
    let shed := keys.filter fun key => ¬(key = protect ∨ key ∈ s.pinned)
    ∃ n ≤ shed.length,
      (evictLoop onEvict capacity incoming protect keys s t).hot = evictAll s (shed.take n) ∧
        (∀ m < n, (capacity : Int) < s.used - bytesOf s (shed.take m) + incoming) ∧
        (n = shed.length ∨ s.used - bytesOf s (shed.take n) + incoming ≤ capacity) := by
  induction keys generalizing s t with
  | nil => exact ⟨0, le_rfl, rfl, fun m hm => absurd hm (Nat.not_lt_zero m), .inl rfl⟩
  | cons key rest ih =>
      obtain ⟨hkey, hrest⟩ := List.nodup_cons.mp hnodup
      intro shed
      by_cases hfits : s.used + incoming ≤ capacity
      · refine ⟨0, Nat.zero_le _, ?_, fun m hm => absurd hm (Nat.not_lt_zero m), .inr ?_⟩
        · simp only [evictLoop, if_pos hfits]
          rfl
        · simpa [bytesOf] using hfits
      by_cases hspared : key = protect ∨ key ∈ s.pinned
      · have hshed : shed = rest.filter fun k => ¬(k = protect ∨ k ∈ s.pinned) :=
          List.filter_cons_of_neg (by rw [decide_eq_true_eq]; exact not_not_intro hspared)
        simp only [evictLoop, if_neg hfits, if_pos hspared]
        rw [hshed]
        exact ih hrest s t
      -- the key is a candidate: what is left to do starts from the store without it
      have hshed : shed = key :: rest.filter fun k => ¬(k = protect ∨ k ∈ s.pinned) :=
        List.filter_cons_of_pos (by rw [decide_eq_true_eq]; exact hspared)
      obtain ⟨t', hloop⟩ := evictLoop_candidate haccepts hfits hspared rest t
      obtain ⟨n, hn, hhot, hmin, hend⟩ := ih hrest (s.dropOld key) t'
      rw [pinned_dropOld] at hn hhot hmin hend
      have hbytes : ∀ m, bytesOf (s.dropOld key)
          ((rest.filter fun k => ¬(k = protect ∨ k ∈ s.pinned)).take m) =
            bytesOf s ((rest.filter fun k => ¬(k = protect ∨ k ∈ s.pinned)).take m) := by
        intro m
        apply bytesOf_dropOld
        intro hmem
        exact hkey (List.mem_of_mem_filter (List.mem_of_mem_take hmem))
      simp only [hbytes, used_dropOld] at hmin hend
      rw [hshed]
      refine ⟨n + 1, by simpa using hn, ?_, ?_, ?_⟩
      · rw [hloop, hhot]
        rfl
      · intro m hm
        cases m with
        | zero =>
            simp only [List.take_zero, bytesOf, List.map_nil, List.sum_nil]
            omega
        | succ m =>
            have hlt := hmin m (by omega)
            rw [List.take_succ_cons, bytesOf_cons]
            omega
      · rw [List.take_succ_cons, bytesOf_cons]
        rcases hend with hall | hfit
        · left
          rw [List.length_cons, hall]
        · right
          omega

theorem ensureRoom_spec (haccepts : Accepts onEvict) (s : CPUBackend) (t : τ) {capacity : Nat}
    (hcapacity : s.capacityBytes = some capacity) (incoming : Nat) (protect : ChunkKey)
    (hbig : ¬(capacity < incoming ∧ s.pinned = ∅)) :
    ∃ n ≤ (candidates s protect).length,
      (s.ensureRoom onEvict t incoming protect).hot =
          evictAll s ((candidates s protect).take n) ∧
        (∀ m < n, (capacity : Int) <
          s.used - bytesOf s ((candidates s protect).take m) + incoming) ∧
        (n = (candidates s protect).length ∨
          s.used - bytesOf s ((candidates s protect).take n) + incoming ≤ capacity) := by
  obtain ⟨hok, _, _⟩ :=
    evictLoop_frame haccepts.receives capacity incoming protect s.data.keys s t
  obtain ⟨n, hn, hloop, hmin, hend⟩ :=
    evictLoop_spec haccepts capacity incoming protect (nodup_keys s) s t
  refine ⟨n, hn, ?_, hmin, hend⟩
  unfold ensureRoom
  simp only [hcapacity, if_neg hbig, hok]
  split_ifs
  · exact hloop
  · exact hloop

/-! ## When a put fails -/

theorem bytesOf_filter (s : CPUBackend) (p : ChunkKey → Bool) (keys : List ChunkKey) :
    bytesOf s keys = bytesOf s (keys.filter p) + bytesOf s (keys.filter fun key => !p key) := by
  induction keys with
  | nil => rfl
  | cons key rest ih =>
      rw [bytesOf_cons, ih]
      cases hkey : p key with
      | true =>
          rw [List.filter_cons_of_pos hkey, List.filter_cons_of_neg (by simp [hkey]), bytesOf_cons]
          omega
      | false =>
          rw [List.filter_cons_of_neg (by simp [hkey]), List.filter_cons_of_pos (by simp [hkey]),
            bytesOf_cons]
          omega

theorem bytesOf_take_le (s : CPUBackend) (keys : List ChunkKey) (n : Nat) :
    bytesOf s (keys.take n) ≤ bytesOf s keys := by
  have hsplit : bytesOf s keys = bytesOf s (keys.take n) + bytesOf s (keys.drop n) := by
    rw [bytesOf, bytesOf, bytesOf, ← List.sum_append, ← List.map_append, List.take_append_drop]
  omega

theorem used_eq_bytesOf {s : CPUBackend} (h : Accounted s) : s.used = bytesOf s s.keys := by
  have hsizes : (OrderedDict.values s.data).map KVPayload.nbytes = s.keys.map (sizeOf s) := by
    have hkeys : s.keys = s.data.entries.map Sigma.fst := rfl
    rw [hkeys, OrderedDict.values, List.map_map, List.map_map]
    apply List.map_congr_left
    intro entry hentry
    have hlookup : s.resident entry.1 = some entry.2 := AList.mem_lookup_iff.mpr hentry
    simp only [Function.comp_apply, sizeOf, hlookup]
  rw [h.used_eq, residentBytes, hsizes, bytesOf]

theorem evictableBytes_eq (s : CPUBackend) (protect : ChunkKey) (keys : List ChunkKey) :
    s.evictableBytes protect keys =
      bytesOf s (keys.filter fun key => ¬(key = protect ∨ key ∈ s.pinned)) := by
  induction keys with
  | nil => rfl
  | cons key rest ih =>
      rw [evictableBytes_cons, ih]
      by_cases hspared : key = protect ∨ key ∈ s.pinned
      · rw [evictableSize_of_spared hspared,
          List.filter_cons_of_neg (by rw [decide_eq_true_eq]; exact not_not_intro hspared),
          Nat.zero_add]
      · rw [List.filter_cons_of_pos (by rw [decide_eq_true_eq]; exact hspared), bytesOf_cons,
          evictableSize, if_neg hspared]
        rfl

theorem pinnedBytes_dropOld (s : CPUBackend) (key : ChunkKey) :
    pinnedBytes (s.dropOld key) key = pinnedBytes s key := by
  rw [pinnedBytes, keys_dropOld, List.filter_filter, pinned_dropOld, bytesOf_dropOld]
  · rw [pinnedBytes]
    congr 1
    apply List.filter_congr
    intro k _
    simp only [ne_eq, Bool.decide_and]
    cases decide (¬k = key) <;> simp
  · intro hmem
    simp at hmem

theorem used_sub_evictable {s : CPUBackend} (h : Accounted s) {key : ChunkKey}
    (hkey : key ∉ s.keys) :
    s.used - s.evictableBytes key s.data.keys = pinnedBytes s key := by
  have hsplit := bytesOf_filter s (fun k => ¬(k = key ∨ k ∈ s.pinned)) s.keys
  have hrest : (s.keys.filter fun k => !decide (¬(k = key ∨ k ∈ s.pinned))) =
      s.keys.filter fun k => k ≠ key ∧ k ∈ s.pinned := by
    apply List.filter_congr
    intro k hk
    have hne : k ≠ key := fun heq => hkey (heq ▸ hk)
    simp [hne]
  rw [hrest] at hsplit
  have hused := used_eq_bytesOf h
  have hevictable : s.evictableBytes key s.data.keys =
      bytesOf s (s.keys.filter fun k => ¬(k = key ∨ k ∈ s.pinned)) :=
    evictableBytes_eq s key s.keys
  rw [pinnedBytes]
  omega

theorem noRoom_iff {s : CPUBackend} (h : Accounted s) {capacity : Nat}
    (hcapacity : s.capacityBytes = some capacity) (key : ChunkKey) (incoming : Nat) :
    (s.dropOld key).NoRoom key incoming ↔ capacity < incoming + pinnedBytes s key := by
  have hkey : key ∉ (s.dropOld key).keys := by
    rw [keys_dropOld]
    simp
  have hleft := used_sub_evictable (h.dropOld key) hkey
  rw [pinnedBytes_dropOld] at hleft
  unfold NoRoom
  simp only [capacityBytes_dropOld, hcapacity, pinned_dropOld]
  constructor
  · rintro (⟨hbig, _⟩ | hfull) <;> omega
  · intro hfull
    right
    omega

theorem put_ok_iff (haccepts : Accepts onEvict) {s : CPUBackend} (h : Accounted s) (t : τ)
    (key : ChunkKey) (obj : KVPayload) (pin : Bool) :
    (s.put onEvict t key obj pin).result = .ok () ↔
      ∀ capacity ∈ s.capacityBytes, obj.nbytes + pinnedBytes s key ≤ capacity := by
  have hraises := put_raises_iff haccepts.receives s t key obj pin
  have hok : (s.put onEvict t key obj pin).result = .ok () ↔
      ¬∃ err, (s.put onEvict t key obj pin).result = .error err := by
    cases (s.put onEvict t key obj pin).result <;> simp
  rw [hok, hraises]
  cases hcap : s.capacityBytes with
  | none => simp [NoRoom, hcap]
  | some capacity =>
      rw [noRoom_iff h hcap]
      simp

theorem put_error_storageFull (haccepts : Accepts onEvict) {s : CPUBackend} {t : τ}
    {key : ChunkKey} {obj : KVPayload} {pin : Bool} {err : Raised}
    (herr : (s.put onEvict t key obj pin).result = .error err) : ∃ msg, err = .storageFull msg := by
  have hroom : ((s.dropOld key).ensureRoom onEvict t obj.nbytes key).result = .error err := by
    unfold put at herr
    rcases hroom : (s.dropOld key).ensureRoom onEvict t obj.nbytes key with ⟨_ | _, hot, lower⟩
    · simpa [hroom] using herr
    · simp [hroom] at herr
  unfold ensureRoom at hroom
  cases hcap : (s.dropOld key).capacityBytes with
  | none =>
      simp only [hcap] at hroom
      cases hroom
  | some capacity =>
      simp only [hcap] at hroom
      have hloop := (evictLoop_frame haccepts.receives capacity obj.nbytes key
        (s.dropOld key).data.keys (s.dropOld key) t).1
      simp only [hloop] at hroom
      split_ifs at hroom
      · exact ⟨_, (Except.error.inj hroom).symm⟩
      · exact ⟨_, (Except.error.inj hroom).symm⟩
      · rw [hloop] at hroom
        cases hroom

/-- The backend with its callback, which a tiered store installs after the
backend has been made. -/
def cpuWith (onEvict : EvictCallback τ) : Machine (CPUBackend × τ)
    (KeyedStore.Op ChunkKey KVPayload) Raised (KeyedStore.Reply KVPayload) where
  step st op :=
    match op with
    | .put key obj pin =>
        let room := st.1.put onEvict st.2 key obj pin
        (room.result.map fun _ => .done, (room.hot, room.lower))
    | op => ((cpu.step st.1 op).1, ((cpu.step st.1 op).2, st.2))

theorem capacityBytes_clear (s : CPUBackend) :
    (KeyedStore.clear s).capacityBytes = s.capacityBytes := by
  unfold KeyedStore.clear
  generalize KeyedStore.keys s = keys
  induction keys generalizing s with
  | nil => rfl
  | cons key rest ih => exact (ih (s.remove key).2).trans (capacityBytes_remove s key)

theorem accounted_stepWith {st : CPUBackend × τ} (h : Accounted st.1)
    (op : KeyedStore.Op ChunkKey KVPayload) :
    Accounted ((cpuWith onEvict).step st op).2.1 := by
  cases op with
  | put key obj pin => exact h.put st.2 key obj pin
  | get key => exact accounted_step h (.get key)
  | contains key => exact accounted_step h (.contains key)
  | remove key => exact accounted_step h (.remove key)
  | pin key => exact accounted_step h (.pin key)
  | unpin key => exact accounted_step h (.unpin key)
  | clear => exact accounted_step h .clear

theorem capacityBytes_stepWith (st : CPUBackend × τ) (op : KeyedStore.Op ChunkKey KVPayload) :
    ((cpuWith onEvict).step st op).2.1.capacityBytes = st.1.capacityBytes := by
  cases op with
  | put key obj pin => exact capacityBytes_put onEvict st.1 st.2 key obj pin
  | get key => exact capacityBytes_get st.1 key
  | contains key => rfl
  | remove key => exact capacityBytes_remove st.1 key
  | pin key => exact capacityBytes_pin st.1 key
  | unpin key => rfl
  | clear => exact capacityBytes_clear st.1

theorem accounted_runWith (onEvict : EvictCallback τ) (capacity : Option Nat) (t : τ)
    (ops : List (KeyedStore.Op ChunkKey KVPayload)) :
    let st := (cpuWith onEvict).exec ({ capacityBytes := capacity }, t) ops
    Accounted st.1 ∧ st.1.capacityBytes = capacity := by
  apply (cpuWith onEvict).exec_induction (G := fun _ _ => True)
    (I := fun st => Accounted st.1 ∧ st.1.capacityBytes = capacity)
  · intro st op hst _
    exact ⟨accounted_stepWith hst.1 op, (capacityBytes_stepWith st op).trans hst.2⟩
  · exact ⟨accounted_empty capacity, rfl⟩
  · exact (cpuWith onEvict).stepsMeet_true _ ops

/-- A put fails exactly when it must: when the object and what is pinned under
other keys exceed the capacity.  The callback may have been another one while
the run went on, and may have raised then. -/
theorem put_storageFull_iff {σ : Type} (earlier : EvictCallback σ) (start : σ) (capacity : Nat)
    (ops : List (KeyedStore.Op ChunkKey KVPayload)) (onEvict : EvictCallback τ)
    (haccepts : Accepts onEvict) (t : τ) (key : ChunkKey) (obj : KVPayload) (pin : Bool) :
    let s := ((cpuWith earlier).exec ({ capacityBytes := some capacity }, start) ops).1
    (∃ msg, (s.put onEvict t key obj pin).result = .error (.storageFull msg)) ↔
      capacity < obj.nbytes + pinnedBytes s key := by
  intro s
  obtain ⟨haccounted, hcapacity⟩ := accounted_runWith earlier (some capacity) start ops
  rw [← noRoom_iff haccounted hcapacity, ← put_raises_iff haccepts.receives s t key obj pin]
  constructor
  · rintro ⟨msg, hmsg⟩
    exact ⟨_, hmsg⟩
  · rintro ⟨err, herr⟩
    obtain ⟨msg, rfl⟩ := put_error_storageFull haccepts herr
    exact ⟨msg, herr⟩

/-- A pinned key is replaced by an object that fits once the unpinned one is
gone, and then by one that the other pinned object leaves no room for. -/
theorem put_storageFull_iff_pinned :
    let key : ChunkKey := ⟨"c", 0, 0⟩
    let ops : List (KeyedStore.Op ChunkKey KVPayload) :=
      [.put key (.ofBytes [1]) true, .put ⟨"c", 1, 0⟩ (.ofBytes [2]) true,
        .put ⟨"d", 0, 0⟩ (.ofBytes [3]) false]
    let s := ((cpuWith noCallback).exec ({ capacityBytes := some 3 }, ()) ops).1
    (¬∃ msg, (s.put noCallback () key (.ofBytes [4, 5]) false).result =
        .error (.storageFull msg)) ∧
      ∃ msg, (s.put noCallback () key (.ofBytes [4, 5, 6]) false).result =
        .error (.storageFull msg) := by
  intro key ops s
  have haccepts : Accepts noCallback := fun _ _ _ => rfl
  have hiff := fun obj =>
    put_storageFull_iff noCallback () 3 ops noCallback haccepts () key obj false
  constructor
  · exact (hiff _).not.mpr (by decide +kernel)
  · exact (hiff _).mpr (by decide +kernel)

/-! ## What a rejected put leaves -/

/-- A put that raises `StorageFullError` leaves the backend as it was. -/
def LeavesStore (s : CPUBackend) (op : KeyedStore.Op ChunkKey KVPayload) : Prop :=
  ∀ msg, (cpu.step s op).1 = .error (.storageFull msg) → (cpu.step s op).2 = s

/-- The condition on a step: where the object and the pinned bytes exceed the
capacity, its key is absent, and nothing can be evicted before that is noticed. -/
def RejectsCleanly (s : CPUBackend) : KeyedStore.Op ChunkKey KVPayload → Prop
  | .put key obj _ =>
      ∀ capacity ∈ s.capacityBytes, capacity < obj.nbytes + pinnedBytes s key →
        key ∉ s.keys ∧ (s.pinned = ∅ ∨ ∀ k ∈ s.keys, k ∈ s.pinned)
  | _ => True

/-- What a put that raises leaves: the backend without the old object, and
without anything unpinned where something is pinned. -/
theorem hot_put_of_full {s : CPUBackend} (h : Accounted s) {capacity : Nat}
    (hcapacity : s.capacityBytes = some capacity) (haccepts : Accepts onEvict) (t : τ)
    {key : ChunkKey} {obj : KVPayload} (pin : Bool)
    (hfull : capacity < obj.nbytes + pinnedBytes s key) :
    (s.put onEvict t key obj pin).hot =
      if s.pinned = ∅ then s.dropOld key
      else evictAll (s.dropOld key) (candidates (s.dropOld key) key) := by
  have hraises := (put_raises_iff haccepts.receives s t key obj pin).mpr
    ((noRoom_iff h hcapacity key obj.nbytes).mpr hfull)
  obtain ⟨err, herr⟩ := hraises
  have hhot : (s.put onEvict t key obj pin).hot =
      ((s.dropOld key).ensureRoom onEvict t obj.nbytes key).hot := by
    rcases put_cases onEvict s t key obj pin with ⟨hok, _, _⟩ | ⟨_, _, hhot, _⟩
    · rw [herr] at hok
      cases hok
    · exact hhot
  have hcap : (s.dropOld key).capacityBytes = some capacity :=
    (capacityBytes_dropOld s key).trans hcapacity
  rw [hhot]
  by_cases hpinned : s.pinned = ∅
  · -- without pins the size test has already failed
    have hbig : capacity < obj.nbytes := by
      have hnone : pinnedBytes s key = 0 := by simp [pinnedBytes, hpinned, bytesOf]
      omega
    rw [if_pos hpinned]
    unfold ensureRoom
    simp only [hcap, pinned_dropOld, if_pos (And.intro hbig hpinned)]
  · have hkey : key ∉ (s.dropOld key).keys := by
      rw [keys_dropOld]
      simp
    have hleft := used_sub_evictable (h.dropOld key) hkey
    rw [pinnedBytes_dropOld] at hleft
    obtain ⟨n, hn, hroom, _, hend⟩ := ensureRoom_spec haccepts (s.dropOld key) t hcap
      obj.nbytes key (fun hbig => hpinned ((pinned_dropOld s key).symm.trans hbig.2))
    -- a shorter run would have made room
    have hall : n = (candidates (s.dropOld key) key).length := by
      apply hend.resolve_right
      have hle := bytesOf_take_le (s.dropOld key) (candidates (s.dropOld key) key) n
      have hevictable : (s.dropOld key).evictableBytes key (s.dropOld key).data.keys =
          bytesOf (s.dropOld key) (candidates (s.dropOld key) key) :=
        evictableBytes_eq (s.dropOld key) key (s.dropOld key).keys
      omega
    rw [if_neg hpinned, hroom, hall, List.take_length]

theorem dropOld_eq_self_iff (s : CPUBackend) (key : ChunkKey) :
    s.dropOld key = s ↔ key ∉ s.keys := by
  constructor
  · intro hsame hkey
    rw [← hsame, keys_dropOld] at hkey
    simp at hkey
  · intro hkey
    rw [mem_keys_iff, resident, Bool.not_eq_true, Option.isSome_eq_false_iff,
      Option.isNone_iff_eq_none] at hkey
    rw [dropOld, hkey]

theorem evictAll_eq_self_iff (s : CPUBackend) (key : ChunkKey) :
    evictAll (s.dropOld key) (candidates (s.dropOld key) key) = s ↔
      key ∉ s.keys ∧ ∀ k ∈ s.keys, k ∈ s.pinned := by
  constructor
  · intro hsame
    have hkeys : ∀ k ∈ s.keys, k ≠ key ∧ k ∉ candidates (s.dropOld key) key := by
      intro k hk
      rw [← hsame, keys_evictAll, List.mem_filter, keys_dropOld, List.mem_filter,
        decide_eq_true_eq, decide_eq_true_eq] at hk
      exact ⟨hk.1.2, hk.2⟩
    refine ⟨fun hkey => (hkeys key hkey).1 rfl, fun k hk => ?_⟩
    obtain ⟨hne, hspared⟩ := hkeys k hk
    by_contra hpin
    apply hspared
    rw [candidates, List.mem_filter, keys_dropOld, List.mem_filter, pinned_dropOld]
    exact ⟨⟨hk, decide_eq_true hne⟩, decide_eq_true (not_or.mpr ⟨hne, hpin⟩)⟩
  · rintro ⟨hkey, hpinned⟩
    rw [(dropOld_eq_self_iff s key).mpr hkey]
    have hnone : candidates s key = [] := by
      apply List.filter_eq_nil_iff.mpr
      intro k hk
      rw [decide_eq_true_eq, not_not]
      exact .inr (hpinned k hk)
    rw [hnone]
    rfl

theorem leavesStore_iff {s : CPUBackend} (h : Accounted s)
    (op : KeyedStore.Op ChunkKey KVPayload) : LeavesStore s op ↔ RejectsCleanly s op := by
  cases op with
  | put key obj pin =>
      have haccepts : Accepts noCallback := fun _ _ _ => rfl
      have hraises := put_raises_iff receives_noCallback s () key obj pin
      have hstep : (cpu.step s (.put key obj pin)).1 =
          (s.put noCallback () key obj pin).result.map fun _ => .done := rfl
      cases hcap : s.capacityBytes with
      | none =>
          rw [put_of_unbounded hcap] at hstep
          apply iff_of_true
          · intro msg hmsg
            rw [hstep] at hmsg
            cases hmsg
          · intro capacity hcapacity
            rw [hcap] at hcapacity
            cases hcapacity
      | some capacity =>
          have hcond : RejectsCleanly s (.put key obj pin) ↔
              (capacity < obj.nbytes + pinnedBytes s key →
                key ∉ s.keys ∧ (s.pinned = ∅ ∨ ∀ k ∈ s.keys, k ∈ s.pinned)) := by
            simp only [RejectsCleanly, hcap, Option.mem_some_iff, forall_eq']
          rw [noRoom_iff h hcap] at hraises
          rw [hcond]
          by_cases hfull : capacity < obj.nbytes + pinnedBytes s key
          · obtain ⟨err, herr⟩ := hraises.mpr hfull
            obtain ⟨msg, rfl⟩ := put_error_storageFull haccepts herr
            have hleaves : LeavesStore s (.put key obj pin) ↔
                (s.put noCallback () key obj pin).hot = s := by
              constructor
              · intro hleaves
                exact hleaves msg (by rw [hstep, herr]; rfl)
              · intro hsame _ _
                exact hsame
            rw [hleaves, hot_put_of_full h hcap haccepts () pin hfull]
            by_cases hpinned : s.pinned = ∅
            · rw [if_pos hpinned, dropOld_eq_self_iff]
              simp [hfull, hpinned]
            · rw [if_neg hpinned, evictAll_eq_self_iff]
              simp [hfull, hpinned]
          · apply iff_of_true
            · intro msg hmsg
              rw [hstep] at hmsg
              cases hresult : (s.put noCallback () key obj pin).result with
              | ok u =>
                  rw [hresult] at hmsg
                  cases hmsg
              | error err => exact absurd (hraises.mp ⟨err, hresult⟩) hfull
            · exact fun hbig => absurd hbig hfull
  | get key => exact iff_of_true (fun _ hmsg => by cases hmsg) trivial
  | contains key => exact iff_of_true (fun _ hmsg => by cases hmsg) trivial
  | remove key => exact iff_of_true (fun _ hmsg => by cases hmsg) trivial
  | pin key => exact iff_of_true (fun _ hmsg => by cases hmsg) trivial
  | unpin key => exact iff_of_true (fun _ hmsg => by cases hmsg) trivial
  | clear => exact iff_of_true (fun _ hmsg => by cases hmsg) trivial

/-- In every run from an empty backend, rejected puts leave the backend as it
was exactly when every put that does not fit meets an absent key and either no
pin at all or nothing unpinned. -/
theorem leavesStore_run_iff (capacity : Option Nat)
    (ops : List (KeyedStore.Op ChunkKey KVPayload)) :
    cpu.StepsMeet LeavesStore { capacityBytes := capacity } ops ↔
      cpu.StepsMeet RejectsCleanly { capacityBytes := capacity } ops :=
  cpu.stepsMeet_congr (I := Accounted) (fun _ op hs => accounted_step hs op)
    (fun _ op hs => leavesStore_iff hs op) (accounted_empty capacity) ops

/-- Two objects under a capacity of three, one pinned.  A put that the pinned one
leaves no room for loses the other. -/
theorem leavesStore_run_loses :
    ¬∀ capacity ops, cpu.StepsMeet LeavesStore { capacityBytes := capacity } ops := by
  intro h
  let ops : List (KeyedStore.Op ChunkKey KVPayload) :=
    [.put ⟨"a", 0, 0⟩ (.ofBytes [1]) false, .put ⟨"b", 0, 0⟩ (.ofBytes [2]) true]
  let s := cpu.exec { capacityBytes := some 3 } ops
  let op : KeyedStore.Op ChunkKey KVPayload := .put ⟨"c", 0, 0⟩ (.ofBytes [3, 4, 5]) false
  have hleaves : LeavesStore s op := (h (some 3) (ops ++ [op])).2.2.1
  have hsame : (cpu.step s op).2 = s :=
    hleaves "cannot free enough space: remaining objects are pinned" (by decide +kernel)
  have hkeys : (cpu.step s op).2.keys ≠ s.keys := by decide +kernel
  exact hkeys (congrArg CPUBackend.keys hsame)

/-! ## Least recently used -/

/-- The key that an entry of a history uses: that of a put that succeeds or of a
get that finds its object. -/
def usedKey : KeyedStore.Op ChunkKey KVPayload × Except Raised (KeyedStore.Reply KVPayload) →
    Option ChunkKey
  | (.put key .., .ok _) => some key
  | (.get key, .ok (.object (some _))) => some key
  | _ => none

/-- How far into a history the last use of a key lies, zero where there is none. -/
def lastUse (past : List (KeyedStore.Op ChunkKey KVPayload ×
    Except Raised (KeyedStore.Reply KVPayload))) (key : ChunkKey) : Nat :=
  past.length - (past.reverse.takeWhile fun entry => usedKey entry ≠ some key).length

/-- Keys in the order of their last uses, oldest first. -/
def byRecency (past : List (KeyedStore.Op ChunkKey KVPayload ×
    Except Raised (KeyedStore.Reply KVPayload))) (keys : List ChunkKey) : List ChunkKey :=
  keys.mergeSort fun a b => lastUse past a ≤ lastUse past b

/-- The object fits next to what remains without the old object and without the
keys that have gone. -/
def FitsWithout (s : CPUBackend) (key : ChunkKey) (incoming : Nat) (gone : List ChunkKey) : Prop :=
  ∀ capacity ∈ s.capacityBytes,
    bytesOf s (s.keys.filter fun k => k ≠ key ∧ k ∉ gone) + incoming ≤ capacity

theorem lastUse_snoc (past : List (KeyedStore.Op ChunkKey KVPayload ×
    Except Raised (KeyedStore.Reply KVPayload))) (entry) (key : ChunkKey) :
    lastUse (past ++ [entry]) key =
      if usedKey entry = some key then past.length + 1 else lastUse past key := by
  rw [lastUse, List.reverse_append, List.reverse_singleton, List.singleton_append,
    List.length_append, List.length_singleton]
  split_ifs with hused
  · rw [List.takeWhile_cons_of_neg (by simpa using hused)]
    rfl
  · rw [List.takeWhile_cons_of_pos (by simpa using hused), List.length_cons, lastUse]
    omega

theorem lastUse_le (past : List (KeyedStore.Op ChunkKey KVPayload ×
    Except Raised (KeyedStore.Reply KVPayload))) (key : ChunkKey) :
    lastUse past key ≤ past.length :=
  Nat.sub_le ..

/-- The dictionary lists its keys in the order of their last uses. -/
def Recent (past : List (KeyedStore.Op ChunkKey KVPayload ×
    Except Raised (KeyedStore.Reply KVPayload))) (s : CPUBackend) : Prop :=
  s.keys.Pairwise fun a b => lastUse past a < lastUse past b

theorem keys_store (s : CPUBackend) (key : ChunkKey) (obj : KVPayload) (pin : Bool) :
    (s.store key obj pin).keys = s.keys.filter (· ≠ key) ++ [key] := by
  have hkey : key ∈ s.data.setItem key obj := by
    rw [← AList.lookup_isSome, OrderedDict.lookup_setItem, if_pos rfl]
    rfl
  have hkeys : (s.store key obj pin).keys = ((s.data.setItem key obj).moveToEnd key).keys := rfl
  rw [hkeys, OrderedDict.keys_moveToEnd hkey, OrderedDict.keys_filter_setItem]
  rfl

theorem keys_get (s : CPUBackend) (key : ChunkKey) :
    (s.get key).2.keys =
      if (s.resident key).isSome then s.keys.filter (· ≠ key) ++ [key] else s.keys := by
  unfold CPUBackend.get resident
  cases hobj : s.data.lookup key with
  | none => rfl
  | some obj =>
      have hkey : key ∈ s.data := AList.lookup_isSome.mp (by rw [hobj]; rfl)
      exact OrderedDict.keys_moveToEnd hkey

theorem keys_remove_sublist (s : CPUBackend) (key : ChunkKey) :
    (s.remove key).2.keys.Sublist s.keys := by
  unfold CPUBackend.remove
  cases s.data.lookup key with
  | none => exact List.Sublist.refl _
  | some obj =>
      show (s.data.erase key).keys.Sublist s.keys
      rw [OrderedDict.keys_erase_eq_filter]
      exact List.filter_sublist

theorem keys_pin (s : CPUBackend) (key : ChunkKey) : (s.pin key).keys = s.keys := by
  unfold CPUBackend.pin
  split_ifs <;> rfl

theorem Recent.use {past : List (KeyedStore.Op ChunkKey KVPayload ×
    Except Raised (KeyedStore.Reply KVPayload))} {entry} {key : ChunkKey} {keys : List ChunkKey}
    (hkeys : keys.Pairwise fun a b => lastUse past a < lastUse past b)
    (hkey : key ∉ keys) (hused : usedKey entry = some key) :
    (keys ++ [key]).Pairwise fun a b =>
      lastUse (past ++ [entry]) a < lastUse (past ++ [entry]) b := by
  have hkept : ∀ k ∈ keys, lastUse (past ++ [entry]) k = lastUse past k := by
    intro k hk
    rw [lastUse_snoc, hused, if_neg]
    intro heq
    exact hkey ((Option.some.inj heq).symm ▸ hk)
  apply List.pairwise_append.mpr
  refine ⟨?_, List.pairwise_singleton .., ?_⟩
  · apply hkeys.imp_of_mem
    intro a b ha hb hlt
    rwa [hkept a ha, hkept b hb]
  · intro a ha b hb
    rw [List.mem_singleton.mp hb, hkept a ha, lastUse_snoc, hused, if_pos rfl]
    exact Nat.lt_succ_of_le (lastUse_le past a)

theorem Recent.keep {past : List (KeyedStore.Op ChunkKey KVPayload ×
    Except Raised (KeyedStore.Reply KVPayload))} {entry} {s s' : CPUBackend} (h : Recent past s)
    (hkeys : s'.keys.Sublist s.keys) (hunused : usedKey entry = none) :
    Recent (past ++ [entry]) s' := by
  have hsame : ∀ k, lastUse (past ++ [entry]) k = lastUse past k := by
    intro k
    rw [lastUse_snoc, hunused, if_neg (by simp)]
  simp only [Recent, hsame]
  exact h.sublist hkeys

theorem candidates_dropOld (s : CPUBackend) (key : ChunkKey) :
    candidates (s.dropOld key) key = candidates s key := by
  rw [candidates, keys_dropOld, List.filter_filter, pinned_dropOld, candidates]
  apply List.filter_congr
  intro k _
  by_cases hk : k = key <;> simp [hk]

theorem accounted_evictAll {s : CPUBackend} (h : Accounted s) (keys : List ChunkKey) :
    Accounted (evictAll s keys) := by
  induction keys generalizing s with
  | nil => exact h
  | cons key rest ih => exact ih (h.dropOld key)

theorem used_evictAll_eq {s : CPUBackend} (h : Accounted s) (gone : List ChunkKey) :
    (evictAll s gone).used = bytesOf s (s.keys.filter (· ∉ gone)) := by
  have hsizes : ∀ keys : List ChunkKey, (∀ k ∈ keys, k ∉ gone) →
      bytesOf (evictAll s gone) keys = bytesOf s keys := by
    intro keys hkeys
    apply congrArg List.sum
    apply List.map_congr_left
    intro k hk
    rw [sizeOf, resident_evictAll, if_neg (hkeys k hk), sizeOf]
  rw [used_eq_bytesOf (accounted_evictAll h gone), keys_evictAll, hsizes]
  intro k hk
  exact of_decide_eq_true (List.mem_filter.mp hk).2

theorem fitsWithout_iff {s : CPUBackend} (h : Accounted s) {capacity : Nat}
    (hcapacity : s.capacityBytes = some capacity) (key : ChunkKey) (incoming : Nat)
    {gone : List ChunkKey} (hgone : gone.Nodup) :
    FitsWithout s key incoming gone ↔
      (s.dropOld key).used - bytesOf (s.dropOld key) gone + incoming ≤ capacity := by
  have hstep : evictAll s (key :: gone) = evictAll (s.dropOld key) gone := rfl
  have hused := used_evictAll_eq h (key :: gone)
  rw [hstep, used_evictAll hgone] at hused
  have hkeys : (s.keys.filter (· ∉ key :: gone)) = s.keys.filter fun k => k ≠ key ∧ k ∉ gone := by
    apply List.filter_congr
    intro k _
    simp
  rw [hkeys] at hused
  simp only [FitsWithout, hcapacity, Option.mem_some_iff, forall_eq']
  omega

/-- A put that succeeds evicts the shortest run of candidates without which the
object fits. -/
theorem put_spec (haccepts : Accepts onEvict) {s : CPUBackend} (h : Accounted s) {t : τ}
    {key : ChunkKey} {obj : KVPayload} {pin : Bool}
    (hok : (s.put onEvict t key obj pin).result = .ok ()) :
    ∃ n ≤ (candidates s key).length,
      (s.put onEvict t key obj pin).hot =
          (evictAll (s.dropOld key) ((candidates s key).take n)).store key obj pin ∧
        FitsWithout s key obj.nbytes ((candidates s key).take n) ∧
        ∀ m < n, ¬FitsWithout s key obj.nbytes ((candidates s key).take m) := by
  cases hcap : s.capacityBytes with
  | none =>
      refine ⟨0, Nat.zero_le _, ?_, ?_, fun m hm => absurd hm (Nat.not_lt_zero m)⟩
      · rw [put_of_unbounded hcap]
        rfl
      · intro capacity hcapacity
        rw [hcap] at hcapacity
        cases hcapacity
  | some capacity =>
      have hnodup : ∀ n, ((candidates s key).take n).Nodup := fun n =>
        ((nodup_keys s).filter _).sublist (List.take_sublist ..)
      have hcap' : (s.dropOld key).capacityBytes = some capacity :=
        (capacityBytes_dropOld s key).trans hcap
      have hroom : ¬(s.dropOld key).NoRoom key obj.nbytes := by
        rw [← put_raises_iff haccepts.receives s t key obj pin, hok]
        rintro ⟨err, herr⟩
        cases herr
      have hfits := hroom
      rw [noRoom_iff h hcap] at hfits
      have hbig : ¬(capacity < obj.nbytes ∧ (s.dropOld key).pinned = ∅) :=
        fun hbig => hfits (Nat.lt_add_right _ hbig.1)
      obtain ⟨n, hn, hhot, hmin, hend⟩ :=
        ensureRoom_spec haccepts (s.dropOld key) t hcap' obj.nbytes key hbig
      rw [candidates_dropOld] at hn hhot hmin hend
      refine ⟨n, hn, ?_, ?_, ?_⟩
      · rcases put_cases onEvict s t key obj pin with ⟨_, hput, _⟩ | ⟨err, herr, _, _⟩
        · rw [hput, hhot]
        · rw [hok] at herr
          cases herr
      · rw [fitsWithout_iff h hcap key obj.nbytes (hnodup n)]
        rcases hend with hall | hfit
        · -- all candidates have gone, and the put has not failed
          have hkey : key ∉ (s.dropOld key).keys := by
            rw [keys_dropOld]
            simp
          have hleft := used_sub_evictable (h.dropOld key) hkey
          have hevictable : (s.dropOld key).evictableBytes key (s.dropOld key).data.keys =
              bytesOf (s.dropOld key) (candidates (s.dropOld key) key) :=
            evictableBytes_eq (s.dropOld key) key (s.dropOld key).keys
          rw [candidates_dropOld] at hevictable
          rw [pinnedBytes_dropOld] at hleft
          rw [hall, List.take_length]
          omega
        · exact hfit
      · intro m hm hfit
        rw [fitsWithout_iff h hcap key obj.nbytes (hnodup m)] at hfit
        have hlt := hmin m hm
        omega

theorem keys_put_of_ok {s : CPUBackend} {key : ChunkKey} {gone : List ChunkKey} {obj : KVPayload}
    {pin : Bool} :
    ((evictAll (s.dropOld key) gone).store key obj pin).keys =
      (s.keys.filter fun k => k ≠ key ∧ k ∉ gone) ++ [key] := by
  rw [keys_store, keys_evictAll, keys_dropOld, List.filter_filter, List.filter_filter]
  congr 1
  apply List.filter_congr
  intro k _
  by_cases hk : k = key <;> simp [hk]

theorem keys_put_of_error (haccepts : Accepts onEvict) {s : CPUBackend} (h : Accounted s) {t : τ}
    {key : ChunkKey} {obj : KVPayload} {pin : Bool} {err : Raised}
    (herr : (s.put onEvict t key obj pin).result = .error err) :
    (s.put onEvict t key obj pin).hot.keys.Sublist s.keys := by
  have hraises := (put_raises_iff haccepts.receives s t key obj pin).mp ⟨err, herr⟩
  cases hcap : s.capacityBytes with
  | none =>
      rw [put_of_unbounded hcap] at herr
      cases herr
  | some capacity =>
      rw [noRoom_iff h hcap] at hraises
      rw [hot_put_of_full h hcap haccepts t pin hraises]
      split_ifs
      · rw [keys_dropOld]
        exact List.filter_sublist
      · rw [keys_evictAll, keys_dropOld]
        exact List.filter_sublist.trans List.filter_sublist

theorem keys_foldl_remove (s : CPUBackend) (keys : List ChunkKey) :
    (keys.foldl (fun s key => (KeyedStore.remove s key).2) s).keys.Sublist s.keys := by
  induction keys generalizing s with
  | nil => exact List.Sublist.refl _
  | cons key rest ih => exact (ih (s.remove key).2).trans (keys_remove_sublist s key)

theorem recent_step {past : List (KeyedStore.Op ChunkKey KVPayload ×
    Except Raised (KeyedStore.Reply KVPayload))} {s : CPUBackend} (haccounted : Accounted s)
    (h : Recent past s) (op : KeyedStore.Op ChunkKey KVPayload) :
    Recent (past ++ [(op, (cpu.step s op).1)]) (cpu.step s op).2 := by
  have haccepts : Accepts noCallback := fun _ _ _ => rfl
  cases op with
  | put key obj pin =>
      have hanswer : (cpu.step s (.put key obj pin)).1 =
          (s.put noCallback () key obj pin).result.map fun _ => .done := rfl
      cases hresult : (s.put noCallback () key obj pin).result with
      | ok u =>
          obtain ⟨n, _, hhot, _⟩ := put_spec haccepts haccounted hresult
          have hkeys : (cpu.step s (.put key obj pin)).2.keys =
              (s.keys.filter fun k => k ≠ key ∧ k ∉ (candidates s key).take n) ++ [key] :=
            (congrArg CPUBackend.keys hhot).trans keys_put_of_ok
          rw [Recent, hkeys, hanswer, hresult]
          apply Recent.use (List.Pairwise.filter _ h)
          · simp
          · rfl
      | error err =>
          rw [hanswer, hresult]
          exact h.keep (keys_put_of_error haccepts haccounted hresult) rfl
  | get key =>
      have hanswer : (cpu.step s (.get key)).1 = .ok (.object (s.resident key)) :=
        congrArg (fun obj => Except.ok (KeyedStore.Reply.object obj)) (get_fst s key)
      have hkeys : (cpu.step s (.get key)).2.keys = _ := keys_get s key
      cases hobj : s.resident key with
      | none =>
          rw [hobj] at hkeys
          rw [hanswer, hobj]
          exact h.keep (hkeys ▸ List.Sublist.refl _) rfl
      | some obj =>
          rw [hobj] at hkeys
          rw [Recent, hkeys, hanswer, hobj]
          apply Recent.use (List.Pairwise.filter _ h)
          · simp
          · rfl
  | contains key => exact h.keep (List.Sublist.refl _) rfl
  | remove key => exact h.keep (keys_remove_sublist s key) rfl
  | pin key =>
      have hkeys : (cpu.step s (.pin key)).2.keys = s.keys := keys_pin s key
      exact h.keep (hkeys ▸ List.Sublist.refl _) rfl
  | unpin key => exact h.keep (List.Sublist.refl _) rfl
  | clear => exact h.keep (keys_foldl_remove s _) rfl

theorem recent_run (capacity : Option Nat) (ops : List (KeyedStore.Op ChunkKey KVPayload)) :
    Recent (cpu.trace { capacityBytes := capacity } ops)
      (cpu.exec { capacityBytes := capacity } ops) := by
  have hrun := cpu.history_induction (G := fun _ _ => True)
    (I := fun past s => Accounted s ∧ Recent past s)
    (fun past s op hs _ => ⟨accounted_step hs.1 op, recent_step hs.1 hs.2 op⟩) []
    ⟨accounted_empty capacity, List.Pairwise.nil⟩ (cpu.stepsMeet_true _ ops)
  exact hrun.2

/-- A put that succeeds evicts the shortest prefix of the unpinned keys in the
order of their last uses without which the object fits.  What stays keeps its
order, and its object, with the new key at the end. -/
theorem put_evicts_shortest_prefix (capacity : Option Nat)
    (ops : List (KeyedStore.Op ChunkKey KVPayload)) (key : ChunkKey) (obj : KVPayload)
    (pin : Bool) :
    let past := cpu.trace { capacityBytes := capacity } ops
    let s := cpu.exec { capacityBytes := capacity } ops
    let after := cpu.step s (.put key obj pin)
    let order := byRecency past (s.keys.filter fun k => k ≠ key ∧ k ∉ s.pinned)
    after.1 = .ok .done →
      (order.Pairwise fun a b => lastUse past a < lastUse past b) ∧
      ∃ n ≤ order.length,
        FitsWithout s key obj.nbytes (order.take n) ∧
        (∀ m < n, ¬FitsWithout s key obj.nbytes (order.take m)) ∧
        after.2.resident key = some obj ∧
        (∀ k, k ≠ key →
          after.2.resident k = if k ∈ order.take n then none else s.resident k) ∧
        (∀ k, k ≠ key → (k ∈ after.2.pinned ↔ k ∈ s.pinned)) ∧
        after.2.keys = (s.keys.filter fun k => k ≠ key ∧ k ∉ order.take n) ++ [key] := by
  intro past s after order hok
  have haccounted : Accounted s := accounted_exec (accounted_empty capacity) ops
  have hrecent : Recent past s := recent_run capacity ops
  have hresult : (s.put noCallback () key obj pin).result = .ok () := by
    have hanswer : (s.put noCallback () key obj pin).result.map (fun _ => .done) =
        (Except.ok .done : Except Raised (KeyedStore.Reply KVPayload)) := hok
    cases hresult : (s.put noCallback () key obj pin).result with
    | ok u => rfl
    | error err =>
        rw [hresult] at hanswer
        cases hanswer
  have hsorted : (candidates s key).Pairwise fun a b => lastUse past a < lastUse past b :=
    List.Pairwise.filter _ hrecent
  have horder : order = candidates s key := by
    have hfilter : (s.keys.filter fun k => k ≠ key ∧ k ∉ s.pinned) = candidates s key := by
      apply List.filter_congr
      intro k _
      exact decide_eq_decide.mpr not_or.symm
    have hsort : order = byRecency past (candidates s key) := congrArg (byRecency past) hfilter
    rw [hsort]
    apply List.mergeSort_of_pairwise
    exact hsorted.imp fun hlt => decide_eq_true (Nat.le_of_lt hlt)
  obtain ⟨n, hn, hhot, hfits, hmin⟩ :=
    put_spec (fun _ _ _ => rfl : Accepts noCallback) haccounted hresult
  have hafter : after.2 =
      (evictAll (s.dropOld key) ((candidates s key).take n)).store key obj pin := hhot
  rw [horder]
  refine ⟨hsorted, n, hn, hfits, hmin, ?_, ?_, ?_, ?_⟩
  · rw [hafter, resident_store, if_pos rfl]
  · intro k hk
    rw [hafter, resident_store, if_neg hk, resident_evictAll, resident_dropOld, if_neg hk]
  · intro k hk
    have hpinned : after.2.pinned = if pin then insert key s.pinned else s.pinned :=
      pinned_put_of_ok receives_noCallback hresult
    rw [hpinned]
    split_ifs
    · rw [Finset.mem_insert, or_iff_right hk]
    · rfl
  · rw [hafter, keys_put_of_ok]

/-- A hit makes an old key the newest, a pinned one is skipped, and one eviction
is enough. -/
theorem put_evicts_shortest_prefix_hit :
    let key : ChunkKey := ⟨"e", 0, 0⟩
    let ops : List (KeyedStore.Op ChunkKey KVPayload) :=
      [.put ⟨"a", 0, 0⟩ (.ofBytes [1]) false, .put ⟨"b", 0, 0⟩ (.ofBytes [2]) true,
        .put ⟨"c", 0, 0⟩ (.ofBytes [3]) false, .get ⟨"a", 0, 0⟩]
    let s := cpu.exec { capacityBytes := some 3 } ops
    let after := (cpu.step s (.put key (.ofBytes [5]) false)).2
    after.resident key = some (.ofBytes [5]) ∧
      after.keys = [⟨"b", 0, 0⟩, ⟨"a", 0, 0⟩, ⟨"e", 0, 0⟩] := by
  intro key ops s after
  obtain ⟨_, n, _, _, _, hself, _⟩ :=
    put_evicts_shortest_prefix (some 3) ops key (.ofBytes [5]) false (by decide +kernel)
  exact ⟨hself, by decide +kernel⟩

end LlmCache.Store.Eviction
