import LlmCache.Engine.Chunks
import LlmCache.Lib.Simulation

/-!
# The engine over one store in place of another

The engine knows its store through the interface only.  Over a store that
stands for another one every call ends as it ends over that other one, until
the store raises an error that ends the comparison.
-/

namespace LlmCache.Engine.Simulation

open Errors Lib Payload LlmCache.Types Store ExplicitKVCache Descriptors
open KeyedStore (StandsFor)

variable {σ τ : Type} [StorageBackend σ] [StorageBackend τ] {blake2b : List UInt8 → String}
  {ends : Raised → Prop} {id : String → Prop} {obj : KVPayload → Prop} {R : σ → τ → Prop}

/-- `σ` stands for `τ` on the chunks of the caches with admitted ids. -/
abbrev StandsForIds (σ τ : Type) [StorageBackend σ] [StorageBackend τ] (ends : Raised → Prop)
    (id : String → Prop) (obj : KVPayload → Prop) (R : σ → τ → Prop) : Prop :=
  StandsFor σ τ ends (fun key => id key.cacheId) obj R

/-- The same engine, with descriptors of admitted ids only, over related stores. -/
structure SameEngine (id : String → Prop) (R : σ → τ → Prop) (e : ExplicitKVCache σ)
    (f : ExplicitKVCache τ) : Prop where
  chunkSize : e.chunkSize = f.chunkSize
  defaultTtl : e.defaultTtl = f.defaultTtl
  descriptors : e.descriptors = f.descriptors
  store : R e.store f.store
  keyed : ∀ cid d, e.descriptors.lookup cid = some d → d.cacheId = cid ∧ id cid

/-- The engine over another store in place of its own. -/
def onStore {σ τ : Type} (e : ExplicitKVCache σ) (store : τ) : ExplicitKVCache τ :=
  { store := store, chunkSize := e.chunkSize, chunkSize_pos := e.chunkSize_pos,
    defaultTtl := e.defaultTtl, descriptors := e.descriptors }

/-- The calls that store chunks or publish descriptors do so for admitted ids,
and what they store is admitted. -/
def Admits (id : String → Prop) (obj : KVPayload → Prop) : EngineOp → Prop
  | .register r newId _ =>
      id (resolveId r.cacheId newId) ∧ ∀ chunk ∈ putsOf r newId, obj chunk.2
  | .putChunk cid _ payload _ _ => id cid ∧ obj payload
  | .commit c _ => id c.cacheId
  | _ => True

/-! ## Loops over the store -/

section Loops

variable {s : σ} {t : τ}

theorem putChunks_alike (h : StandsForIds σ τ ends id obj R) (pin : Bool)
    {puts : List (ChunkKey × KVPayload)}
    (hputs : ∀ chunk ∈ puts, id chunk.1.cacheId ∧ obj chunk.2) (hrel : R s t) :
    EndAlike ends R (putChunks pin puts s) (putChunks pin puts t) := by
  induction puts generalizing s t with
  | nil => exact .of_eq rfl hrel
  | cons chunk rest ih =>
      obtain ⟨hid, hobj⟩ := hputs chunk (List.mem_cons_self ..)
      have hput := h.put chunk.1 chunk.2 pin hrel hid hobj
      simp only [putChunks]
      generalize KeyedStore.put s chunk.1 chunk.2 pin = out at hput ⊢
      generalize KeyedStore.put t chunk.1 chunk.2 pin = out' at hput ⊢
      obtain ⟨result, s'⟩ := out
      obtain ⟨result', t'⟩ := out'
      rcases hput with ⟨err, rfl, hends⟩ | ⟨rfl, hnext⟩
      · exact .inl ⟨err, rfl, hends⟩
      · cases result with
        | error err => exact .of_eq rfl hnext
        | ok _ => exact ih (fun c hc => hputs c (List.mem_cons_of_mem _ hc)) hnext

theorem loadLoop_alike (h : StandsForIds σ τ ends id obj R) {cid : String} (hid : id cid)
    (worker : Int) (idxs : List Nat) (hrel : R s t) :
    EndAlike ends R (loadLoop cid worker idxs s) (loadLoop cid worker idxs t) := by
  induction idxs generalizing s t with
  | nil => exact .of_eq rfl hrel
  | cons idx rest ih =>
      have hget := h.get ⟨cid, idx, worker⟩ hrel hid
      simp only [loadLoop]
      generalize KeyedStore.get s ⟨cid, idx, worker⟩ = out at hget ⊢
      generalize KeyedStore.get t ⟨cid, idx, worker⟩ = out' at hget ⊢
      obtain ⟨result, s'⟩ := out
      obtain ⟨result', t'⟩ := out'
      rcases hget with ⟨err, rfl, hends⟩ | ⟨rfl, hnext⟩
      · exact .inl ⟨err, rfl, hends⟩
      · rcases result with err | _ | payload
        · exact .of_eq rfl hnext
        · exact .of_eq rfl hnext
        · exact (ih hnext).map _ fun hrest => hrest

omit [StorageBackend σ] [StorageBackend τ] in
theorem foldl_alike {f : σ → ChunkKey → σ} {g : τ → ChunkKey → τ}
    (hstep : ∀ {s t} key, R s t → id key.cacheId → R (f s key) (g t key))
    {keys : List ChunkKey} (hkeys : ∀ key ∈ keys, id key.cacheId) (hrel : R s t) :
    R (keys.foldl f s) (keys.foldl g t) := by
  induction keys generalizing s t with
  | nil => exact hrel
  | cons key rest ih =>
      apply ih fun k hk => hkeys k (List.mem_cons_of_mem _ hk)
      exact hstep key hrel (hkeys key (List.mem_cons_self ..))

theorem removeAll_alike (h : StandsForIds σ τ ends id obj R) {keys : List ChunkKey}
    (hkeys : ∀ key ∈ keys, id key.cacheId) (hrel : R s t) :
    R (removeAll s keys) (removeAll t keys) := by
  have hstep : ∀ {s t} key, R s t → id key.cacheId →
      R (KeyedStore.remove s key).2 (KeyedStore.remove t key).2 :=
    fun key hrel hid => (h.remove key hrel hid).2
  exact foldl_alike hstep hkeys hrel

end Loops

/-! ## What the calls are made of -/

section Parts

variable {e : ExplicitKVCache σ} {f : ExplicitKVCache τ} {cid : String}

theorem id_of_mem_chunkKeys {d : CacheDescriptor} (hid : id cid) :
    ∀ key ∈ chunkKeys cid d, id key.cacheId := by
  intro key hkey
  rw [chunkKeys, List.mem_flatMap] at hkey
  obtain ⟨w, _, hkey⟩ := hkey
  obtain ⟨i, _, rfl⟩ := List.mem_map.mp hkey
  exact hid

omit [StorageBackend σ] [StorageBackend τ] in
theorem SameEngine.withStore (h : SameEngine id R e f) {s : σ} {t : τ} (hrel : R s t) :
    SameEngine id R { e with store := s } { f with store := t } :=
  ⟨h.chunkSize, h.defaultTtl, h.descriptors, hrel, h.keyed⟩

omit [StorageBackend σ] [StorageBackend τ] in
theorem SameEngine.publish (h : SameEngine id R e f) (hid : id cid) {d : CacheDescriptor}
    (hd : d.cacheId = cid) : SameEngine id R (e.publish cid d) (f.publish cid d) where
  chunkSize := h.chunkSize
  defaultTtl := h.defaultTtl
  descriptors := congrArg (OrderedDict.setItem · cid d) h.descriptors
  store := h.store
  keyed := by
    intro k d' hk
    rw [ExplicitKVCache.publish, OrderedDict.lookup_setItem] at hk
    split_ifs at hk with heq
    · rw [heq, ← Option.some.inj hk]
      exact ⟨hd, hid⟩
    · exact h.keyed k d' hk

theorem SameEngine.delete (h : SameEngine id R e f) (hst : StandsForIds σ τ ends id obj R)
    (cid : String) : SameEngine id R (e.delete cid) (f.delete cid) := by
  unfold ExplicitKVCache.delete
  rw [← h.descriptors]
  cases hd : e.descriptors.lookup cid with
  | none => exact h
  | some d =>
      refine ⟨h.chunkSize, h.defaultTtl, rfl, ?_, ?_⟩
      · exact removeAll_alike hst (id_of_mem_chunkKeys (h.keyed cid d hd).2) h.store
      · intro k d' hk
        rw [OrderedDict.lookup_erase] at hk
        split_ifs at hk with heq
        exact h.keyed k d' hk

theorem SameEngine.foldl_delete (h : SameEngine id R e f) (hst : StandsForIds σ τ ends id obj R)
    (ds : List CacheDescriptor) :
    SameEngine id R (ds.foldl (fun s d => s.delete d.cacheId) e)
      (ds.foldl (fun s d => s.delete d.cacheId) f) := by
  induction ds generalizing e f with
  | nil => exact h
  | cons d rest ih => exact ih (h.delete hst d.cacheId)

/-- Both engines find the cache absent, expired or live, and a live one has an
admitted id. -/
theorem SameEngine.live (h : SameEngine id R e f) (hst : StandsForIds σ τ ends id obj R)
    (cid : String) (clock : Time) :
    (∃ err, (e.liveDescriptor cid clock).1 = .error err ∧
        (f.liveDescriptor cid clock).1 = .error err ∧
        SameEngine id R (e.liveDescriptor cid clock).2 (f.liveDescriptor cid clock).2) ∨
      ∃ d, e.liveDescriptor cid clock = (.ok d, e) ∧ f.liveDescriptor cid clock = (.ok d, f) ∧
        d.cacheId = cid ∧ id cid := by
  rcases liveDescriptor_cases e cid clock with
    ⟨hd, he⟩ | ⟨d, hd, ⟨hexpired, he⟩ | ⟨hexpired, he⟩⟩
  · have hf : f.liveDescriptor cid clock = (.error (.cacheNotFound cid), f) := by
      rw [liveDescriptor, ← h.descriptors, hd]
    rw [he, hf]
    exact .inl ⟨_, rfl, rfl, h⟩
  · have hf : f.liveDescriptor cid clock = (.error (.cacheExpired cid), f.delete cid) := by
      rw [liveDescriptor, ← h.descriptors, hd]
      simp [hexpired]
    rw [he, hf]
    exact .inl ⟨_, rfl, rfl, h.delete hst cid⟩
  · have hf : f.liveDescriptor cid clock = (.ok d, f) := by
      rw [liveDescriptor, ← h.descriptors, hd]
      simp [hexpired]
    exact .inr ⟨d, he, hf, h.keyed cid d hd⟩

omit [StorageBackend σ] [StorageBackend τ] in
theorem SameEngine.publishBuilt (h : SameEngine id R e f) (hid : id cid)
    {built : Except Raised CacheDescriptor} (hbuilt : ∀ d, built = .ok d → d.cacheId = cid) :
    EndAlike ends (SameEngine id R) (e.publishBuilt cid built) (f.publishBuilt cid built) := by
  cases built with
  | error err => exact .of_eq rfl h
  | ok d => exact .of_eq rfl (h.publish hid (hbuilt d rfl))

omit [StorageBackend σ] [StorageBackend τ] in
theorem buildDescriptor_alike {α : Type} {fingerprint : List α → Except Raised String}
    (h : SameEngine id R e f) (cid : String) (tokenChunks : List (List α)) (numLayers : Int)
    (workerIds : List Int) (ttl : Option Ttl) (pin : Bool) (name : Option String) (now : Time) :
    buildDescriptor fingerprint e cid tokenChunks numLayers workerIds ttl pin name now =
      buildDescriptor fingerprint f cid tokenChunks numLayers workerIds ttl pin name now := by
  simp only [buildDescriptor, h.chunkSize, h.defaultTtl]

omit [StorageBackend σ] in
theorem cacheId_of_build {α : Type} {fingerprint : List α → Except Raised String}
    {tokenChunks : List (List α)} {numLayers : Int} {workerIds : List Int} {ttl : Option Ttl}
    {pin : Bool} {name : Option String} {now : Time} {d : CacheDescriptor}
    (h : buildDescriptor fingerprint e cid tokenChunks numLayers workerIds ttl pin name now =
      .ok d) : d.cacheId = cid := by
  obtain ⟨_, _, _, _, rfl⟩ := Descriptors.build_ok_iff.mp h
  rfl

end Parts

/-! ## Calls and runs -/

section Calls

variable {e : ExplicitKVCache σ} {f : ExplicitKVCache τ}

theorem register_alike (hst : StandsForIds σ τ ends id obj R) (h : SameEngine id R e f)
    {r : Registration} {newId : String} (hid : id (resolveId r.cacheId newId))
    (hputs : ∀ chunk ∈ putsOf r newId, obj chunk.2) (now : Time) :
    EndAlike ends (SameEngine id R) (e.register blake2b r newId now)
      (f.register blake2b r newId now) := by
  have hloop := putChunks_alike hst r.pin 
    (fun chunk hchunk => ⟨Chunks.cacheId_of_mem_putsOf hchunk ▸ hid, hputs chunk hchunk⟩) h.store
  obtain ⟨s, size, hpos, ttl, ds⟩ := e
  obtain ⟨t, size', hpos', ttl', ds'⟩ := f
  obtain rfl : size = size' := h.chunkSize
  unfold ExplicitKVCache.register
  simp only at hloop ⊢
  cases chunkTokenIds r.tokenIds size with
  | error err => exact .of_eq rfl h
  | ok tokenChunks =>
      simp only
      cases checkCounts tokenChunks.length (normalizePayloads r.payloads).entries with
      | error err => exact .of_eq rfl h
      | ok _ =>
          simp only [putsOf] at hloop ⊢
          generalize putChunks r.pin (chunkPuts _ _) s = out at hloop ⊢
          generalize putChunks r.pin (chunkPuts _ _) t = out' at hloop ⊢
          obtain ⟨result, s⟩ := out
          obtain ⟨result', t⟩ := out'
          rcases hloop with ⟨err, rfl, hends⟩ | ⟨rfl, hstore⟩
          · exact .inl ⟨err, rfl, hends⟩
          · have hstored := h.withStore hstore
            cases result with
            | error err => exact .of_eq rfl hstored
            | ok _ =>
                simp only
                rw [buildDescriptor_alike hstored]
                exact hstored.publishBuilt hid fun d hd => cacheId_of_build hd

omit [StorageBackend σ] [StorageBackend τ] in
theorem commit_alike (h : SameEngine id R e f) {c : Commit} (hid : id c.cacheId) (now : Time) :
    EndAlike ends (SameEngine id R) (e.commit blake2b c now) (f.commit blake2b c now) := by
  obtain ⟨s, size, hpos, ttl, ds⟩ := e
  obtain ⟨t, size', hpos', ttl', ds'⟩ := f
  obtain rfl : size = size' := h.chunkSize
  unfold ExplicitKVCache.commit
  simp only
  cases chunkTokenIds c.tokenIds size with
  | error err => exact .of_eq rfl h
  | ok tokenChunks =>
      simp only
      rw [buildDescriptor_alike h]
      exact h.publishBuilt hid fun d hd => cacheId_of_build hd

theorem lookup_alike (hst : StandsForIds σ τ ends id obj R) (h : SameEngine id R e f)
    (cid : String) (requestTokens : Option (List Int)) (clock stamp : Time) :
    EndAlike ends (SameEngine id R) (e.lookup blake2b cid requestTokens clock stamp)
      (f.lookup blake2b cid requestTokens clock stamp) := by
  unfold ExplicitKVCache.lookup
  rcases h.live hst cid clock with ⟨err, he, hf, hnext⟩ | ⟨d, he, hf, hd, hid⟩
  · simp only [he, hf]
    exact .of_eq rfl hnext
  · simp only [he, hf]
    cases matchedChunks blake2b d requestTokens with
    | error err => exact .of_eq rfl h
    | ok matched => exact .of_eq rfl (h.publish hid hd)

theorem load_alike (hst : StandsForIds σ τ ends id obj R) (h : SameEngine id R e f)
    (cid : String) (numChunks : Option Int) (worker : Int) (clock : Time) :
    EndAlike ends (SameEngine id R) (e.load cid numChunks worker clock)
      (f.load cid numChunks worker clock) := by
  unfold ExplicitKVCache.load
  rcases h.live hst cid clock with ⟨err, he, hf, hnext⟩ | ⟨d, he, hf, hd, hid⟩
  · simp only [he, hf]
    exact .of_eq rfl hnext
  · simp only [he, hf]
    rcases loadLoop_alike hst hid worker _ h.store with hraised | ⟨hsame, hstore⟩
    · exact .inl hraised
    · exact .of_eq hsame (h.withStore hstore)

omit [StorageBackend σ] [StorageBackend τ] in
theorem touch_alike (h : SameEngine id R e f) {cid : String} (hid : id cid)
    (d d' : CacheDescriptor) (hd : d'.cacheId = cid)
    (g : σ → ChunkKey → σ) (g' : τ → ChunkKey → τ)
    (hstep : ∀ {s t} key, R s t → id key.cacheId → R (g s key) (g' t key)) :
    SameEngine id R { e.publish cid d' with store := (chunkKeys cid d).foldl g e.store }
      { f.publish cid d' with store := (chunkKeys cid d).foldl g' f.store } :=
  (h.publish hid hd).withStore (foldl_alike hstep (id_of_mem_chunkKeys hid) h.store)

/-! Calls that no error of the store reaches. -/

theorem get_alike (hst : StandsForIds σ τ ends id obj R) (h : SameEngine id R e f) (cid : String)
    (clock : Time) :
    EndAlike (fun _ => False) (SameEngine id R) (e.get cid clock) (f.get cid clock) := by
  simp only [ExplicitKVCache.get]
  rcases h.live hst cid clock with ⟨err, he, hf, hnext⟩ | ⟨d, he, hf, _⟩
  · exact .of_eq (he.trans hf.symm) hnext
  · rw [he, hf]
    exact .of_eq rfl h

theorem exists_alike (hst : StandsForIds σ τ ends id obj R) (h : SameEngine id R e f)
    (cid : String) (clock : Time) :
    (e.exists' cid clock).1 = (f.exists' cid clock).1 ∧
      SameEngine id R (e.exists' cid clock).2 (f.exists' cid clock).2 := by
  simp only [exists']
  rcases h.live hst cid clock with ⟨err, he, hf, hnext⟩ | ⟨d, he, hf, _⟩
  · simp only [he, hf]
    exact ⟨trivial, hnext⟩
  · simp only [he, hf]
    exact ⟨trivial, h⟩

theorem extendTtl_alike (hst : StandsForIds σ τ ends id obj R) (h : SameEngine id R e f)
    (cid : String) (ttl : Ttl) (clock stamp : Time) :
    EndAlike (fun _ => False) (SameEngine id R) (e.extendTtl cid ttl clock stamp)
      (f.extendTtl cid ttl clock stamp) := by
  simp only [ExplicitKVCache.extendTtl]
  rcases h.live hst cid clock with ⟨err, he, hf, hnext⟩ | ⟨d, he, hf, hd, hid⟩
  · simp only [he, hf]
    exact .of_eq rfl hnext
  · simp only [he, hf]
    cases ttl.addedTo stamp with
    | error err => exact .of_eq rfl h
    | ok expiresAt => exact .of_eq rfl (h.publish hid hd)

theorem pin_alike (hst : StandsForIds σ τ ends id obj R) (h : SameEngine id R e f) (cid : String)
    (clock : Time) :
    EndAlike (fun _ => False) (SameEngine id R) (e.pin cid clock) (f.pin cid clock) := by
  simp only [ExplicitKVCache.pin]
  rcases h.live hst cid clock with ⟨err, he, hf, hnext⟩ | ⟨d, he, hf, hd, hid⟩
  · simp only [he, hf]
    exact .of_eq rfl hnext
  · simp only [he, hf]
    refine .of_eq rfl ?_
    exact touch_alike h hid d { d with pinned := true } hd KeyedStore.pin KeyedStore.pin
      fun key hrel hkey => hst.pin key hrel hkey

theorem unpin_alike (hst : StandsForIds σ τ ends id obj R) (h : SameEngine id R e f)
    (cid : String) (clock : Time) :
    EndAlike (fun _ => False) (SameEngine id R) (e.unpin cid clock) (f.unpin cid clock) := by
  simp only [ExplicitKVCache.unpin]
  rcases h.live hst cid clock with ⟨err, he, hf, hnext⟩ | ⟨d, he, hf, hd, hid⟩
  · simp only [he, hf]
    exact .of_eq rfl hnext
  · simp only [he, hf]
    refine .of_eq rfl ?_
    exact touch_alike h hid d { d with pinned := false } hd KeyedStore.unpin KeyedStore.unpin
      fun key hrel hkey => hst.unpin key hrel hkey

theorem list_alike (hst : StandsForIds σ τ ends id obj R) (h : SameEngine id R e f)
    (now again : Time) :
    (e.list now again).1 = (f.list now again).1 ∧
      SameEngine id R (e.list now again).2 (f.list now again).2 := by
  simp only [ExplicitKVCache.list, sweepExpired, ← h.descriptors]
  have hnext := h.foldl_delete hst
    ((OrderedDict.values e.descriptors).filter (·.isExpired (some now) again))
  exact ⟨by rw [hnext.descriptors], hnext⟩

theorem step_alike (hst : StandsForIds σ τ ends id obj R) (h : SameEngine id R e f)
    {op : EngineOp} (hop : Admits id obj op) :
    EndAlike ends (SameEngine id R) (step blake2b e op) (step blake2b f op) := by
  cases op with
  | register r newId now => exact (register_alike hst h hop.1 hop.2 now).map _ fun hnext => hnext
  | putChunk cid index payload worker pin =>
      have hput := hst.put ⟨cid, index, worker⟩ payload pin h.store hop.1 hop.2
      exact hput.map _ fun hstore => h.withStore hstore
  | commit c now => exact (commit_alike h hop now).map _ fun hnext => hnext
  | get cid clock =>
      exact ((get_alike hst h cid clock).mono fun _ => False.elim).map _ fun hnext => hnext
  | «exists» cid clock =>
      obtain ⟨hsame, hnext⟩ := exists_alike hst h cid clock
      refine .of_eq ?_ hnext
      simp only [step, hsame]
  | lookup cid requestTokens clock stamp =>
      exact (lookup_alike hst h cid requestTokens clock stamp).map _ fun hnext => hnext
  | load cid numChunks worker clock =>
      exact (load_alike hst h cid numChunks worker clock).map _ fun hnext => hnext
  | delete cid => exact .of_eq rfl (h.delete hst cid)
  | extendTtl cid ttl clock stamp =>
      exact ((extendTtl_alike hst h cid ttl clock stamp).mono fun _ => False.elim).map _
        fun hnext => hnext
  | pin cid clock =>
      exact ((pin_alike hst h cid clock).mono fun _ => False.elim).map _ fun hnext => hnext
  | unpin cid clock =>
      exact ((unpin_alike hst h cid clock).mono fun _ => False.elim).map _ fun hnext => hnext
  | list now again =>
      obtain ⟨hsame, hnext⟩ := list_alike hst h now again
      refine .of_eq ?_ hnext
      simp only [step, hsame]
  | sweepExpired now again =>
      simp only [step, sweepExpired, ← h.descriptors]
      exact .of_eq rfl (h.foldl_delete hst _)

/-- A run of engine calls, up to the first error that ends the comparison. -/
theorem run_alike (hst : StandsForIds σ τ ends id obj R) (h : SameEngine id R e f)
    {ops : List EngineOp} (hops : ∀ op ∈ ops, Admits id obj op)
    (hruns : ∀ entry ∈ (machine blake2b σ).trace e ops, ∀ err, entry.2 = .error err → ¬ends err) :
    (machine blake2b σ).trace e ops = (machine blake2b τ).trace f ops ∧
      SameEngine id R ((machine blake2b σ).exec e ops) ((machine blake2b τ).exec f ops) :=
  (machine blake2b σ).run_alike (machine blake2b τ)
    (fun _ _ _ hrel hop => step_alike hst hrel hop) h hops hruns

end Calls

end LlmCache.Engine.Simulation
