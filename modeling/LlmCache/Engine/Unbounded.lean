import LlmCache.Engine.Effects

/-!
# The engine over a store that loses nothing

Over a lossless store a call acts on each cache in one of four ways: it leaves
it alone, edits its descriptor, drops it with its chunks, or registers it.  In
particular every cache that the engine holds is complete.
-/

namespace LlmCache.Engine.Unbounded

open Errors Lib Payload LlmCache.Types Store ExplicitKVCache Descriptors Chunks Effects

open LosslessStore (view)

variable {σ : Type} [LosslessBackend σ] {blake2b : List UInt8 → String}

/-! ## The loops over a lossless store -/

theorem putChunks_ok (pin : Bool) (puts : List (ChunkKey × KVPayload)) (store : σ) :
    (putChunks pin puts store).1 = .ok () := by
  induction puts generalizing store with
  | nil => rfl
  | cons chunk rest ih =>
      simp only [putChunks, LosslessStore.put_ok]
      exact ih _

theorem snd_putChunks_cons (pin : Bool) (chunk : ChunkKey × KVPayload)
    (rest : List (ChunkKey × KVPayload)) (store : σ) :
    (putChunks pin (chunk :: rest) store).2 =
      (putChunks pin rest (KeyedStore.put store chunk.1 chunk.2 pin).2).2 := by
  simp only [putChunks, LosslessStore.put_ok]

theorem view_putChunks_other {k : ChunkKey} {puts : List (ChunkKey × KVPayload)}
    (hk : ∀ obj, (k, obj) ∉ puts) (pin : Bool) (store : σ) :
    view (putChunks pin puts store).2 k = view store k := by
  induction puts generalizing store with
  | nil => rfl
  | cons chunk rest ih =>
      have hne : k ≠ chunk.1 := by
        rintro rfl
        exact hk chunk.2 (List.mem_cons_self ..)
      rw [snd_putChunks_cons, ih fun obj hobj => hk obj (List.mem_cons_of_mem _ hobj),
        LosslessStore.view_put, Function.update_of_ne hne]

theorem view_putChunks_of_mem {k : ChunkKey} {chunk : KVPayload}
    {puts : List (ChunkKey × KVPayload)} (hmem : (k, chunk) ∈ puts)
    (honly : ∀ obj, (k, obj) ∈ puts → obj = chunk) (pin : Bool) (store : σ) :
    view (putChunks pin puts store).2 k = some chunk := by
  induction puts generalizing store with
  | nil => cases hmem
  | cons head rest ih =>
      rw [snd_putChunks_cons]
      by_cases hrest : (k, chunk) ∈ rest
      · exact ih hrest (fun obj hobj => honly obj (List.mem_cons_of_mem _ hobj)) _
      · have hhead : (k, chunk) = head := (List.mem_cons.mp hmem).resolve_right hrest
        have hlater : ∀ obj, (k, obj) ∉ rest := by
          intro obj hobj
          have hobj' : obj = chunk := honly obj (List.mem_cons_of_mem _ hobj)
          exact hrest (hobj' ▸ hobj)
        rw [view_putChunks_other hlater, LosslessStore.view_put, ← hhead, Function.update_self]

theorem view_removeAll (keys : List ChunkKey) (store : σ) (k : ChunkKey) :
    view (removeAll store keys) k = if k ∈ keys then none else view store k :=
  KeyedStore.content_foldl_remove LosslessStore.view_remove keys store k

theorem view_foldl_pin (keys : List ChunkKey) (store : σ) :
    view (keys.foldl KeyedStore.pin store) = view store := by
  induction keys generalizing store with
  | nil => rfl
  | cons key keys ih => exact (ih _).trans (LosslessStore.view_pin store key)

theorem view_foldl_unpin (keys : List ChunkKey) (store : σ) :
    view (keys.foldl KeyedStore.unpin store) = view store := by
  induction keys generalizing store with
  | nil => rfl
  | cons key keys ih => exact (ih _).trans (LosslessStore.view_unpin store key)

theorem view_loadLoop (cid : String) (worker : Int) (idxs : List Nat) (store : σ) :
    view (loadLoop cid worker idxs store).2 = view store :=
  loadLoop_frame LosslessStore.view_get cid worker idxs store

theorem loadLoop_ok_iff_view (cid : String) (worker : Int) (idxs : List Nat) (store : σ)
    (payloads : List KVPayload) :
    (loadLoop cid worker idxs store).1 = .ok payloads ↔
      List.Forall₂ (fun (idx : Nat) payload => view store ⟨cid, idx, worker⟩ = some payload)
        idxs payloads :=
  loadLoop_ok_iff_content LosslessStore.get_ok
    (fun store key k => congrFun (LosslessStore.view_get store key) k) cid worker idxs store
    payloads

/-! ## Deletion -/

theorem view_delete (s : ExplicitKVCache σ) (cid : String) (k : ChunkKey) :
    view (s.delete cid).store k =
      if ∃ d, s.descriptors.lookup cid = some d ∧ k ∈ chunkKeys cid d then none
      else view s.store k := by
  unfold ExplicitKVCache.delete
  cases hd : s.descriptors.lookup cid with
  | none => simp
  | some d => simp [view_removeAll]

theorem view_delete_other (s : ExplicitKVCache σ) {cid : String} {k : ChunkKey}
    (hk : k.cacheId ≠ cid) : view (s.delete cid).store k = view s.store k := by
  rw [view_delete, if_neg]
  rintro ⟨d, _, hmem⟩
  exact hk (cacheId_of_mem_chunkKeys hmem)

theorem view_foldl_delete (ds : List CacheDescriptor) (s : ExplicitKVCache σ) (k : ChunkKey) :
    view (ds.foldl (fun s d => s.delete d.cacheId) s).store k =
      if k.cacheId ∈ ds.map CacheDescriptor.cacheId then view (s.delete k.cacheId).store k
      else view s.store k := by
  induction ds generalizing s with
  | nil => simp
  | cons d ds ih =>
      rw [List.foldl_cons, ih, List.map_cons]
      by_cases hk : k.cacheId = d.cacheId
      · -- the id is gone already, so deleting it again removes nothing
        have hgone : (s.delete d.cacheId).descriptors.lookup k.cacheId = none := by
          rw [lookup_delete, if_pos hk]
        have hagain : (s.delete d.cacheId).delete k.cacheId = s.delete d.cacheId := by
          rw [ExplicitKVCache.delete, hgone]
        rw [hagain, ite_self, if_pos (hk ▸ List.mem_cons_self ..), hk]
      · have hmem : k.cacheId ∈ d.cacheId :: ds.map CacheDescriptor.cacheId ↔
            k.cacheId ∈ ds.map CacheDescriptor.cacheId := by
          rw [List.mem_cons, or_iff_right hk]
        have hsame : view ((s.delete d.cacheId).delete k.cacheId).store k =
            view (s.delete k.cacheId).store k := by
          rw [view_delete (s.delete d.cacheId), lookup_delete, if_neg hk, view_delete_other s hk,
            ← view_delete]
        rw [hsame, view_delete_other s hk]
        simp only [hmem]

/-! ## What a registration supplies -/

theorem given_of_made {size : Nat} {r : Registration} {newId : String} {d : CacheDescriptor}
    (h : Made blake2b size r newId d) {worker : Int} (hworker : worker ∈ d.workerIds) :
    ∃ given, (normalizePayloads r.payloads).lookup worker = some given ∧
      given.length = d.numChunks := by
  rw [h.describes.workerIds, Source.workerIds, List.mem_insertionSort] at hworker
  have hmem : worker ∈ normalizePayloads r.payloads := AList.mem_keys.mpr hworker
  obtain ⟨given, hgiven⟩ := Option.isSome_iff_exists.mp (AList.lookup_isSome.mpr hmem)
  have hlen := length_of_checkCounts h.counts ⟨worker, given⟩ (AList.mem_lookup_iff.mp hgiven)
  refine ⟨given, hgiven, ?_⟩
  rw [h.describes.numChunks, h.chunkSize]
  exact hlen

theorem mem_chunkKeys_of_made {size : Nat} {r : Registration} {newId : String}
    {d : CacheDescriptor} (h : Made blake2b size r newId d) (key : ChunkKey) :
    key ∈ chunkKeys (resolveId r.cacheId newId) d ↔ ∃ obj, (key, obj) ∈ putsOf r newId := by
  rw [mem_chunkKeys_iff]
  constructor
  · rintro ⟨worker, hworker, index, hindex, rfl⟩
    obtain ⟨chunk, _, hput⟩ := h.mem_putsOf hworker hindex
    exact ⟨chunk, hput⟩
  · rintro ⟨obj, hput⟩
    obtain ⟨worker, index, rfl, hchunk⟩ := (mem_putsOf_iff r newId key obj).mp hput
    obtain ⟨given, hgiven, hget⟩ := Option.bind_eq_some_iff.mp hchunk
    have hworker : worker ∈ d.workerIds := by
      rw [h.describes.workerIds, Source.workerIds, List.mem_insertionSort]
      exact AList.lookup_isSome.mp (by rw [hgiven]; rfl)
    obtain ⟨given', hgiven', hlen⟩ := given_of_made h hworker
    obtain rfl := Option.some.inj (hgiven.symm.trans hgiven')
    obtain ⟨hindex, _⟩ := List.getElem?_eq_some_iff.mp hget
    exact ⟨worker, hworker, index, by omega, rfl⟩

/-- What a registration leaves under the keys it puts, and under the others. -/
theorem view_stored_of_mem (s : ExplicitKVCache σ) {r : Registration} {newId : String}
    {key : ChunkKey} {obj : KVPayload} (hput : (key, obj) ∈ putsOf r newId) :
    view (stored s r newId).store key = some obj := by
  obtain ⟨worker, index, rfl, hchunk⟩ := (mem_putsOf_iff r newId key obj).mp hput
  exact view_putChunks_of_mem hput (fun o ho => eq_of_mem_putsOf hchunk ho) r.pin s.store

theorem view_stored_other (s : ExplicitKVCache σ) {r : Registration} {newId : String}
    {key : ChunkKey} (hkey : ∀ obj, (key, obj) ∉ putsOf r newId) :
    view (stored s r newId).store key = view s.store key :=
  view_putChunks_other hkey r.pin s.store

/-! ## What a call does to one cache -/

/-- The runs without the low-level writes, in which registrations return. -/
def Returns (blake2b : List UInt8 → String) (s : ExplicitKVCache σ) : EngineOp → Prop
  | .register r newId now => (s.register blake2b r newId now).1.isOk
  | .putChunk .. | .commit .. => False
  | _ => True

instance (s : ExplicitKVCache σ) (op : EngineOp) : Decidable (Returns blake2b s op) :=
  match op with
  | .register .. => inferInstanceAs (Decidable (_ = true))
  | .putChunk .. | .commit .. => inferInstanceAs (Decidable False)
  | .get .. | .exists .. | .lookup .. | .load .. | .delete .. | .extendTtl .. | .pin ..
  | .unpin .. | .list .. | .sweepExpired .. => inferInstanceAs (Decidable True)

/-- A call finds the cache expired, by its test or by its sweep. -/
def FindsExpired (s : ExplicitKVCache σ) (op : EngineOp) (cid : String) (d : CacheDescriptor) :
    Prop :=
  s.descriptors.lookup cid = some d ∧
    ((∃ clock, tests op = some (cid, clock) ∧ d.isExpired none clock) ∨
      ∃ now again, sweeps op = some (now, again) ∧ d.isExpired (some now) again)

/-- The chunks under an id are the same. -/
def SameChunks (cid : String) (store store' : σ) : Prop :=
  ∀ key : ChunkKey, key.cacheId = cid → view store' key = view store key

/-- What a call does to the cache under an id. -/
inductive CacheStep (blake2b : List UInt8 → String) (s : ExplicitKVCache σ) (cid : String)
    (op : EngineOp) (out : Except Raised EngineReply) (s' : ExplicitKVCache σ) : Prop
  | kept (hpublication : ∀ source, publication (op, out) ≠ some (cid, source))
      (hlookup : s'.descriptors.lookup cid = s.descriptors.lookup cid)
      (hchunks : SameChunks cid s.store s'.store)
  | edited {d d'} (hpublication : ∀ source, publication (op, out) ≠ some (cid, source))
      (hd : FindsLive s op cid d) (hd' : s'.descriptors.lookup cid = some d')
      (hsame : SameCache d d') (hchunks : SameChunks cid s.store s'.store)
  | dropped {d} (hpublication : ∀ source, publication (op, out) ≠ some (cid, source))
      (hd : s.descriptors.lookup cid = some d) (hwhy : op = .delete cid ∨ FindsExpired s op cid d)
      (hgone : s'.descriptors.lookup cid = none)
      (hchunks : ∀ key : ChunkKey, key.cacheId = cid →
        view s'.store key = if key ∈ chunkKeys cid d then none else view s.store key)
  | registered {r newId now d} (hop : op = .register r newId now) (hout : out = .ok (.descriptor d))
      (hid : resolveId r.cacheId newId = cid) (hmade : Made blake2b s.chunkSize r newId d)
      (hd : s'.descriptors.lookup cid = some d)
      (hput : ∀ key obj, (key, obj) ∈ putsOf r newId → view s'.store key = some obj)
      (hother : ∀ key, (∀ obj, (key, obj) ∉ putsOf r newId) →
        view s'.store key = view s.store key)

/-- Every descriptor carries the id it is held under. -/
def Keyed (s : ExplicitKVCache σ) : Prop :=
  ∀ cid d, s.descriptors.lookup cid = some d → d.cacheId = cid

omit [LosslessBackend σ] in
theorem mem_expired_iff {s : ExplicitKVCache σ} (hkeyed : Keyed s) (now again : Time)
    (cid : String) :
    cid ∈ (expired s now again).map CacheDescriptor.cacheId ↔
      ∃ d, s.descriptors.lookup cid = some d ∧ d.isExpired (some now) again := by
  simp only [expired, List.mem_map, List.mem_filter, OrderedDict.mem_values_iff]
  constructor
  · rintro ⟨d, ⟨⟨key, hd⟩, hexpired⟩, rfl⟩
    obtain rfl := hkeyed key d hd
    exact ⟨d, hd, hexpired⟩
  · rintro ⟨d, hd, hexpired⟩
    exact ⟨d, ⟨⟨cid, hd⟩, hexpired⟩, hkeyed cid d hd⟩

/-- A step that publishes an edited descriptor of a live cache over a store with
the same content. -/
theorem cacheStep_of_edit {s : ExplicitKVCache σ} {op : EngineOp} {out : Except Raised EngineReply}
    {id : String} {d d₁ : CacheDescriptor} (hd : FindsLive s op id d) (hsame : SameCache d d₁)
    (hpublication : publication (op, out) = none) {store : σ} (hview : view store = view s.store)
    (cid : String) : CacheStep blake2b s cid op out { s.publish id d₁ with store := store } := by
  have hnone : ∀ source, publication (op, out) ≠ some (cid, source) := by simp [hpublication]
  have hchunks : SameChunks cid s.store store := fun key _ => congrFun hview key
  by_cases hcid : cid = id
  · subst hcid
    apply CacheStep.edited hnone hd _ hsame hchunks
    exact (OrderedDict.lookup_setItem ..).trans (if_pos rfl)
  · apply CacheStep.kept hnone _ hchunks
    exact (OrderedDict.lookup_setItem ..).trans (if_neg hcid)

theorem register_of_returns {s : ExplicitKVCache σ} {r : Registration} {newId : String} {now : Time}
    (h : Returns blake2b s (.register r newId now)) :
    ∃ d, step blake2b s (.register r newId now) =
        (.ok (.descriptor d), (stored s r newId).publish (resolveId r.cacheId newId) d) ∧
      Made blake2b s.chunkSize r newId d ∧ d.pinned = r.pin ∧
      Ttl.expiry now (r.ttl.or s.defaultTtl) = .ok d.expiresAt := by
  have hend : RegisterEnd blake2b s r newId now (s.register blake2b r newId now) :=
    register_end s r newId now
  simp only [Returns] at h
  simp only [step]
  generalize s.register blake2b r newId now = res at hend h
  cases hend with
  | refused => cases h
  | full => cases h
  | overflow => cases h
  | @published d hcounts _ hd hsize hid hpinned hexpires =>
      exact ⟨d, rfl, ⟨hcounts, hd, hsize, hid⟩, hpinned, hexpires⟩

theorem cacheStep_register {s : ExplicitKVCache σ} {r : Registration} {newId : String} {now : Time}
    (hreturns : Returns blake2b s (.register r newId now)) (cid : String) :
    CacheStep blake2b s cid (.register r newId now) (step blake2b s (.register r newId now)).1
      (step blake2b s (.register r newId now)).2 := by
  obtain ⟨d, hstep, hmade, _, _⟩ := register_of_returns hreturns
  rw [hstep]
  have hlookup : ((stored s r newId).publish (resolveId r.cacheId newId) d).descriptors.lookup cid =
      if cid = resolveId r.cacheId newId then some d else s.descriptors.lookup cid :=
    OrderedDict.lookup_setItem ..
  by_cases hid : cid = resolveId r.cacheId newId
  · rw [if_pos hid] at hlookup
    exact .registered rfl rfl hid.symm hmade hlookup (fun key obj => view_stored_of_mem s)
      fun key => view_stored_other s
  · rw [if_neg hid] at hlookup
    refine .kept (fun source hsource => hid ?_) hlookup fun key hkey => ?_
    · exact (congrArg Prod.fst (Option.some.inj hsource)).symm
    · apply view_stored_other s
      intro obj hput
      exact hid (hkey.symm.trans (cacheId_of_mem_putsOf hput))

theorem cacheStep_step {s : ExplicitKVCache σ} (hkeyed : Keyed s) {op : EngineOp}
    (hreturns : Returns blake2b s op) (cid : String) :
    CacheStep blake2b s cid op (step blake2b s op).1 (step blake2b s op).2 := by
  have hchange : Change blake2b s op (step blake2b s op).1 (step blake2b s op).2 :=
    change_step s op
  have hregister : ∀ r newId now, op = .register r newId now →
      CacheStep blake2b s cid op (step blake2b s op).1 (step blake2b s op).2 := by
    rintro r newId now rfl
    exact cacheStep_register hreturns cid
  generalize (step blake2b s op).1 = out, (step blake2b s op).2 = s' at hchange hregister
  cases hchange with
  | unchanged hpub => exact .kept (by simp [hpub]) rfl fun _ _ => rfl
  | registered => exact hregister _ _ _ rfl
  | chunkPut => exact hreturns.elim
  | committed => exact hreturns.elim
  | @deleted _ _ id d hd hpub hwhy =>
      have hlookup := lookup_delete s id cid
      by_cases hcid : cid = id
      · subst hcid
        rw [if_pos rfl] at hlookup
        refine .dropped (by simp [hpub]) hd (hwhy.imp id fun h => ⟨hd, .inl h⟩) hlookup ?_
        intro key _
        rw [view_delete]
        simp [hd]
      · rw [if_neg hcid] at hlookup
        refine .kept (by simp [hpub]) hlookup fun key hkey => ?_
        exact view_delete_other s fun hid => hcid (hkey.symm.trans hid)
  | @swept _ _ now again hsweeps hpub =>
      have hlookup := lookup_foldl_delete (expired s now again) s cid
      by_cases hmem : cid ∈ (expired s now again).map CacheDescriptor.cacheId
      · obtain ⟨d, hd, hexpired⟩ := (mem_expired_iff hkeyed now again cid).mp hmem
        rw [if_pos hmem] at hlookup
        refine .dropped (by simp [hpub]) hd (.inr ⟨hd, .inr ⟨now, again, hsweeps, hexpired⟩⟩)
          hlookup ?_
        rintro key rfl
        rw [view_foldl_delete, if_pos hmem, view_delete]
        simp [hd]
      · rw [if_neg hmem] at hlookup
        refine .kept (by simp [hpub]) hlookup ?_
        rintro key rfl
        rw [view_foldl_delete, if_neg hmem]
  | touched hd hsame hpub => exact cacheStep_of_edit hd hsame hpub rfl cid
  | @pinned id clock d hd =>
      have hsame : SameCache d { d with pinned := true } := ⟨rfl, rfl, rfl, rfl, rfl⟩
      exact cacheStep_of_edit hd hsame rfl (view_foldl_pin _ _) cid
  | @unpinned id clock d hd =>
      have hsame : SameCache d { d with pinned := false } := ⟨rfl, rfl, rfl, rfl, rfl⟩
      exact cacheStep_of_edit hd hsame rfl (view_foldl_unpin _ _) cid
  | loaded hd =>
      refine .kept (fun source => ?_) rfl fun key _ => ?_
      · simp [publication]
      · exact congrFun (view_loadLoop _ _ _ _) key

end LlmCache.Engine.Unbounded
