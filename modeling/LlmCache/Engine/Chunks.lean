import LlmCache.Engine.Descriptors
import LlmCache.Store.CPU

/-!
# The chunks of a cache in the in-memory store

The loops of the engine over chunk keys, seen from one key: the store may
forget an object under pressure, but only a put of the key changes it, and a
pinned object stays.
-/

namespace LlmCache.Engine.Chunks

open Errors Lib Payload LlmCache.Types Store ExplicitKVCache Descriptors

/-! ## Which chunks a registration stores -/

/-- `payloads[worker][index]`. -/
def chunkOf (r : Registration) (worker : Int) (index : Nat) : Option KVPayload :=
  ((normalizePayloads r.payloads).lookup worker).bind (·[index]?)

theorem mem_putsOf_iff (r : Registration) (newId : String) (key : ChunkKey) (obj : KVPayload) :
    (key, obj) ∈ putsOf r newId ↔ ∃ (worker : Int) (index : Nat),
      key = ⟨resolveId r.cacheId newId, index, worker⟩ ∧ chunkOf r worker index = some obj := by
  simp only [putsOf, chunkPuts, List.mem_flatMap, List.mem_map, Prod.mk.injEq, chunkOf,
    Option.bind_eq_some_iff]
  constructor
  · rintro ⟨⟨worker, payloads⟩, hentry, ⟨payload, index⟩, hchunk, rfl, rfl⟩
    refine ⟨worker, index, rfl, payloads, ?_, ?_⟩
    · exact AList.mem_lookup_iff.mpr hentry
    · exact List.mem_zipIdx_iff_getElem?.mp hchunk
  · rintro ⟨worker, index, rfl, payloads, hlookup, hget⟩
    refine ⟨⟨worker, payloads⟩, AList.mem_lookup_iff.mp hlookup, (obj, index), ?_, rfl, rfl⟩
    exact List.mem_zipIdx_iff_getElem?.mpr hget

theorem cacheId_of_mem_putsOf {r : Registration} {newId : String} {key : ChunkKey}
    {obj : KVPayload} (h : (key, obj) ∈ putsOf r newId) :
    key.cacheId = resolveId r.cacheId newId := by
  obtain ⟨worker, index, rfl, _⟩ := (mem_putsOf_iff r newId key obj).mp h
  rfl

theorem eq_of_mem_putsOf {r : Registration} {newId : String} {index : Nat} {worker : Int}
    {obj chunk : KVPayload} (hchunk : chunkOf r worker index = some chunk)
    (h : (⟨resolveId r.cacheId newId, index, worker⟩, obj) ∈ putsOf r newId) : obj = chunk := by
  obtain ⟨worker', index', hkey, hobj⟩ := (mem_putsOf_iff r newId _ obj).mp h
  simp only [ChunkKey.mk.injEq, Nat.cast_inj, true_and] at hkey
  obtain ⟨rfl, rfl⟩ := hkey
  rw [hchunk] at hobj
  exact (Option.some.inj hobj).symm

theorem length_of_checkCounts {expected : Nat}
    {entries : List (Sigma fun _ : Int => List KVPayload)}
    (h : checkCounts expected entries = .ok ()) : ∀ entry ∈ entries, entry.2.length = expected := by
  induction entries with
  | nil => simp
  | cons entry entries ih =>
      obtain ⟨worker, chunks⟩ := entry
      simp only [checkCounts] at h
      split_ifs at h with hne
      intro e he
      rcases List.mem_cons.mp he with rfl | he
      · exact not_not.mp hne
      · exact ih h e he

theorem chunkOf_isSome {r : Registration} {expected : Nat}
    (hcounts : checkCounts expected (normalizePayloads r.payloads).entries = .ok ())
    {worker : Int} (hworker : worker ∈ (Source.registration r).workerIds) {index : Nat}
    (hindex : index < expected) : ∃ chunk, chunkOf r worker index = some chunk := by
  have hmem : worker ∈ normalizePayloads r.payloads := by
    rw [Source.workerIds, List.mem_insertionSort] at hworker
    exact AList.mem_keys.mpr hworker
  obtain ⟨payloads, hlookup⟩ := Option.isSome_iff_exists.mp (AList.lookup_isSome.mpr hmem)
  have hlen := length_of_checkCounts hcounts ⟨worker, payloads⟩ (AList.mem_lookup_iff.mp hlookup)
  simp only at hlen
  have hlt : index < payloads.length := by omega
  refine ⟨payloads[index], ?_⟩
  rw [chunkOf, hlookup, Option.bind_some, List.getElem?_eq_getElem hlt]

theorem mem_chunkKeys_iff (cid : String) (d : CacheDescriptor) (key : ChunkKey) :
    key ∈ chunkKeys cid d ↔ ∃ worker ∈ d.workerIds, ∃ index : Nat, index < d.numChunks ∧
      key = ⟨cid, index, worker⟩ := by
  simp only [chunkKeys, List.mem_flatMap, List.mem_map, List.mem_range]
  constructor
  · rintro ⟨worker, hworker, index, hindex, rfl⟩
    exact ⟨worker, hworker, index, hindex, rfl⟩
  · rintro ⟨worker, hworker, index, hindex, rfl⟩
    exact ⟨worker, hworker, index, hindex, rfl⟩

theorem cacheId_of_mem_chunkKeys {cid : String} {d : CacheDescriptor} {key : ChunkKey}
    (h : key ∈ chunkKeys cid d) : key.cacheId = cid := by
  obtain ⟨_, _, _, _, rfl⟩ := (mem_chunkKeys_iff cid d key).mp h
  rfl

theorem chunkKeys_of_same {d d' : CacheDescriptor} (h : SameCache d d') (cid : String) :
    chunkKeys cid d' = chunkKeys cid d := by
  rw [chunkKeys, chunkKeys, h.workerIds, h.numChunks]

/-! ## One key through the loops -/

section Loops

variable {store : CPUBackend} {k : ChunkKey}

/-- Whatever is under the key now was there before. -/
def Forgets (k : ChunkKey) (store store' : CPUBackend) : Prop :=
  ∀ obj, store'.resident k = some obj → store.resident k = some obj

theorem Forgets.of_eq {store store' : CPUBackend} (h : store'.resident k = store.resident k) :
    Forgets k store store' := fun _ hobj => h ▸ hobj

theorem Forgets.trans {store store' store'' : CPUBackend} (h : Forgets k store store')
    (h' : Forgets k store' store'') : Forgets k store store'' :=
  fun obj hobj => h obj (h' obj hobj)

theorem forgets_put_other (store : CPUBackend) {key : ChunkKey} (obj : KVPayload) (pin : Bool)
    (hk : k ≠ key) : Forgets k store (KeyedStore.put store key obj pin).2 := by
  intro o ho
  exact (CPUBackend.put_effect_other CPUBackend.receives_noCallback store () obj pin
    hk).of_resident ho

theorem forgets_put_of_error {key : ChunkKey} {obj : KVPayload} {pin : Bool} {err : Raised}
    (herr : (KeyedStore.put store key obj pin).1 = .error err) :
    Forgets k store (KeyedStore.put store key obj pin).2 := by
  by_cases hk : k = key
  · subst hk
    intro o ho
    have hnone : (KeyedStore.put store k obj pin).2.resident k = none :=
      CPUBackend.put_self_of_error CPUBackend.receives_noCallback herr
    rw [hnone] at ho
    cases ho
  · exact forgets_put_other store obj pin hk

theorem resident_put_self {key : ChunkKey} {obj : KVPayload} {pin : Bool}
    (hok : (KeyedStore.put store key obj pin).1 = .ok ()) :
    (KeyedStore.put store key obj pin).2.resident key = some obj :=
  CPUBackend.put_self_of_ok hok

theorem forgets_putChunks {puts : List (ChunkKey × KVPayload)}
    (hk : ∀ obj, (k, obj) ∉ puts) (pin : Bool) (store : CPUBackend) :
    Forgets k store (putChunks pin puts store).2 := by
  induction puts generalizing store with
  | nil => exact .of_eq rfl
  | cons chunk rest ih =>
      obtain ⟨key, obj⟩ := chunk
      have hne : k ≠ key := by
        rintro rfl
        exact hk obj (List.mem_cons_self ..)
      have hput := forgets_put_other store obj pin hne
      simp only [putChunks]
      cases (KeyedStore.put store key obj pin).1 with
      | error err => exact hput
      | ok _ => exact hput.trans (ih (fun o ho => hk o (List.mem_cons_of_mem _ ho)) _)

/-- After all puts went through, a key that was put holds its chunk or nothing. -/
theorem resident_putChunks {puts : List (ChunkKey × KVPayload)} {chunk : KVPayload}
    (hmem : (k, chunk) ∈ puts) (honly : ∀ obj, (k, obj) ∈ puts → obj = chunk) {pin : Bool}
    {store : CPUBackend} (hok : (putChunks pin puts store).1 = .ok ()) {obj : KVPayload}
    (hobj : (putChunks pin puts store).2.resident k = some obj) : obj = chunk := by
  induction puts generalizing store with
  | nil => cases hmem
  | cons head rest ih =>
      obtain ⟨key, o⟩ := head
      simp only [putChunks] at hok hobj
      cases hput : (KeyedStore.put store key o pin).1 with
      | error err => simp [hput] at hok
      | ok _ =>
          simp only [hput] at hok hobj
          by_cases hrest : (k, chunk) ∈ rest
          · exact ih hrest (fun o' ho' => honly o' (List.mem_cons_of_mem _ ho')) hok hobj
          · have hhead : (k, chunk) = (key, o) := (List.mem_cons.mp hmem).resolve_right hrest
            obtain ⟨rfl, rfl⟩ := Prod.mk.inj hhead
            have hrest' : ∀ o', (k, o') ∉ rest := by
              intro o' ho'
              obtain rfl := honly o' (List.mem_cons_of_mem _ ho')
              exact hrest ho'
            have hkept := forgets_putChunks hrest' pin _ obj hobj
            rw [resident_put_self hput] at hkept
            exact (Option.some.inj hkept).symm

theorem forgets_removeAll (keys : List ChunkKey) (store : CPUBackend) :
    Forgets k store (removeAll store keys) := by
  unfold removeAll
  induction keys generalizing store with
  | nil => exact .of_eq rfl
  | cons key keys ih =>
      refine Forgets.trans ?_ (ih _)
      intro obj hobj
      have hres : (KeyedStore.remove store key).2.resident k = _ := store.resident_remove key k
      rw [hres] at hobj
      split_ifs at hobj
      exact hobj

theorem resident_foldl_pin (keys : List ChunkKey) (store : CPUBackend) :
    (keys.foldl KeyedStore.pin store).resident k = store.resident k := by
  induction keys generalizing store with
  | nil => rfl
  | cons key keys ih => exact (ih _).trans (store.resident_pin key k)

theorem resident_foldl_unpin (keys : List ChunkKey) (store : CPUBackend) :
    (keys.foldl KeyedStore.unpin store).resident k = store.resident k := by
  induction keys generalizing store with
  | nil => rfl
  | cons key keys ih => exact (ih _).trans (store.resident_unpin key k)

end Loops

/-! ## Loading -/

theorem loadLoop_frame {σ α : Type} [StorageBackend σ] {f : σ → α}
    (hget : ∀ store key, f (KeyedStore.get store key).2 = f store) (cid : String) (worker : Int)
    (idxs : List Nat) (store : σ) : f (loadLoop cid worker idxs store).2 = f store := by
  induction idxs generalizing store with
  | nil => rfl
  | cons idx rest ih =>
      have hhead := hget store ⟨cid, idx, worker⟩
      simp only [loadLoop]
      split
      · exact hhead
      · exact hhead
      · exact (ih _).trans hhead

theorem resident_loadLoop (cid : String) (worker : Int) (idxs : List Nat) (store : CPUBackend)
    (k : ChunkKey) :
    (loadLoop cid worker idxs store).2.resident k = store.resident k ∧
      (loadLoop cid worker idxs store).2.pinned = store.pinned := by
  constructor
  · exact loadLoop_frame (f := fun s : CPUBackend => s.resident k)
      (fun s key => s.resident_get key k) cid worker idxs store
  · exact loadLoop_frame (f := CPUBackend.pinned) (fun s key => s.pinned_get key) cid worker idxs
      store

/-- Over a store whose `get` shows its content and keeps it, the loop returns
exactly when every chunk is there, and then returns them. -/
theorem loadLoop_ok_iff_content {σ : Type} [StorageBackend σ]
    {content : σ → ChunkKey → Option KVPayload}
    (hget : ∀ (store : σ) key, (KeyedStore.get store key).1 = .ok (content store key))
    (hkept : ∀ (store : σ) key k, content (KeyedStore.get store key).2 k = content store k)
    (cid : String) (worker : Int) (idxs : List Nat) (store : σ) (payloads : List KVPayload) :
    (loadLoop cid worker idxs store).1 = .ok payloads ↔
      List.Forall₂ (fun (idx : Nat) payload => content store ⟨cid, idx, worker⟩ = some payload)
        idxs payloads := by
  induction idxs generalizing store payloads with
  | nil =>
      simp only [loadLoop, Except.ok.injEq, List.forall₂_nil_left_iff]
      exact eq_comm
  | cons idx rest ih =>
      simp only [loadLoop, hget]
      cases hres : content store ⟨cid, idx, worker⟩ with
      | none => simp [List.forall₂_cons_left_iff, hres]
      | some payload =>
          have htail := ih (KeyedStore.get store ⟨cid, idx, worker⟩).2
          simp only [hkept] at htail
          simp only [List.forall₂_cons_left_iff, hres]
          constructor
          · intro h
            cases hrest : (loadLoop cid worker rest
                (KeyedStore.get store ⟨cid, idx, worker⟩).2).1 with
            | error err => simp [hrest, Except.map] at h
            | ok tail =>
                simp only [hrest, Except.map, Except.ok.injEq] at h
                exact ⟨payload, tail, rfl, (htail tail).mp hrest, h.symm⟩
          · rintro ⟨head, tail, hhead, hrest, rfl⟩
            obtain rfl := Option.some.inj hhead
            simp [(htail tail).mpr hrest, Except.map]

theorem loadLoop_ok_iff (cid : String) (worker : Int) (idxs : List Nat) (store : CPUBackend)
    (payloads : List KVPayload) :
    (loadLoop cid worker idxs store).1 = .ok payloads ↔
      List.Forall₂ (fun (idx : Nat) payload => store.resident ⟨cid, idx, worker⟩ = some payload)
        idxs payloads :=
  loadLoop_ok_iff_content (fun store key => congrArg Except.ok (store.get_fst key))
    (fun store key k => store.resident_get key k) cid worker idxs store payloads

theorem loadLoop_ok_iff_map (cid : String) (worker : Int) (idxs : List Nat) (store : CPUBackend)
    (payloads : List KVPayload) :
    (loadLoop cid worker idxs store).1 = .ok payloads ↔
      payloads.map some = idxs.map fun idx : Nat => store.resident ⟨cid, idx, worker⟩ := by
  rw [loadLoop_ok_iff, eq_comm, ← List.forall₂_eq_eq_eq, List.forall₂_map_left_iff,
    List.forall₂_map_right_iff]

theorem exists_payloads_iff {f : Nat → Option KVPayload} {idxs : List Nat} :
    (∃ payloads : List KVPayload, payloads.map some = idxs.map f) ↔
      ∀ idx ∈ idxs, (f idx).isSome := by
  constructor
  · rintro ⟨payloads, hpayloads⟩ idx hidx
    have hmem : f idx ∈ payloads.map some := hpayloads ▸ List.mem_map_of_mem hidx
    obtain ⟨payload, _, hpayload⟩ := List.mem_map.mp hmem
    rw [← hpayload]
    rfl
  · intro hall
    induction idxs with
    | nil => exact ⟨[], rfl⟩
    | cons idx rest ih =>
        obtain ⟨payload, hpayload⟩ := Option.isSome_iff_exists.mp (hall idx (List.mem_cons_self ..))
        obtain ⟨payloads, hpayloads⟩ := ih fun i hi => hall i (List.mem_cons_of_mem _ hi)
        exact ⟨payload :: payloads, by simp [hpayload, hpayloads]⟩

theorem load_of_live {σ : Type} [StorageBackend σ] {s : ExplicitKVCache σ} {cid : String}
    {d : CacheDescriptor}
    (hd : s.descriptors.lookup cid = some d) {clock : Time} (hlive : d.isExpired none clock = false)
    {count : Nat} (hcount : count ≤ d.numChunks) (worker : Int) :
    (s.load cid (some count) worker clock).1 =
      (loadLoop cid worker (List.range count) s.store).1 := by
  have hmin : (min (count : Int) d.numChunks).toNat = count := by omega
  simp [ExplicitKVCache.load, liveDescriptor, hd, hlive, hmin]

end LlmCache.Engine.Chunks
