import LlmCache.Engine.Chunks
import LlmCache.Engine.Prefix

/-!
# Pinned caches

A pinned object is never evicted, so a cache whose chunks are all in the store
when they are pinned can be loaded for as long as it is neither unpinned,
replaced nor deleted.  `pin` passes over a chunk that is not in the store.
-/

namespace LlmCache.Engine.Pinning

open Errors Lib Payload LlmCache.Types Store ExplicitKVCache Descriptors Chunks Prefix

variable {blake2b : List UInt8 → String}

/-! ## Held objects -/

section Held

variable {store : CPUBackend} {k : ChunkKey} {held : KVPayload}

/-- The store has the object under the key, and has it pinned. -/
def Held (store : CPUBackend) (k : ChunkKey) (held : KVPayload) : Prop :=
  store.resident k = some held ∧ k ∈ store.pinned

theorem Held.put_other (h : Held store k held) {key : ChunkKey} (obj : KVPayload) (pin : Bool)
    (hk : k ≠ key) : Held (KeyedStore.put store key obj pin).2 k held := by
  have heffect := CPUBackend.put_effect_other CPUBackend.receives_noCallback store () obj pin hk
  constructor
  · exact (heffect.of_spared h.2).1.trans h.1
  · exact CPUBackend.mem_pinned_put CPUBackend.receives_noCallback store () key obj pin h.2

theorem held_put_self {obj : KVPayload} (hok : (KeyedStore.put store k obj true).1 = .ok ()) :
    Held (KeyedStore.put store k obj true).2 k obj := by
  refine ⟨resident_put_self hok, ?_⟩
  have hpinned : (KeyedStore.put store k obj true).2.pinned = insert k store.pinned :=
    CPUBackend.pinned_put_of_ok CPUBackend.receives_noCallback hok
  rw [hpinned]
  exact Finset.mem_insert_self k _

theorem Held.putChunks_other (h : Held store k held) {puts : List (ChunkKey × KVPayload)}
    (hk : ∀ obj, (k, obj) ∉ puts) (pin : Bool) : Held (putChunks pin puts store).2 k held := by
  induction puts generalizing store with
  | nil => exact h
  | cons chunk rest ih =>
      obtain ⟨key, obj⟩ := chunk
      have hne : k ≠ key := by
        rintro rfl
        exact hk obj (List.mem_cons_self ..)
      have hput := h.put_other obj pin hne
      simp only [putChunks]
      cases (KeyedStore.put store key obj pin).1 with
      | error err => exact hput
      | ok _ => exact ih hput fun o ho => hk o (List.mem_cons_of_mem _ ho)

/-- Pinning puts that all return hold every chunk: no later put of another
chunk evicts it. -/
theorem held_putChunks {puts : List (ChunkKey × KVPayload)} (hmem : (k, held) ∈ puts)
    (honly : ∀ obj, (k, obj) ∈ puts → obj = held)
    (hok : (putChunks true puts store).1 = .ok ()) :
    Held (putChunks true puts store).2 k held := by
  induction puts generalizing store with
  | nil => cases hmem
  | cons head rest ih =>
      obtain ⟨key, obj⟩ := head
      simp only [putChunks] at hok ⊢
      cases hput : (KeyedStore.put store key obj true).1 with
      | error err => simp [hput] at hok
      | ok _ =>
          simp only [hput] at hok ⊢
          by_cases hrest : (k, held) ∈ rest
          · exact ih hrest (fun o ho => honly o (List.mem_cons_of_mem _ ho)) hok
          · have hhead : (k, held) = (key, obj) := (List.mem_cons.mp hmem).resolve_right hrest
            obtain ⟨rfl, rfl⟩ := Prod.mk.inj hhead
            apply (held_put_self hput).putChunks_other
            intro o ho
            obtain rfl := honly o (List.mem_cons_of_mem _ ho)
            exact hrest ho

theorem Held.removeAll_other (h : Held store k held) {keys : List ChunkKey} (hk : k ∉ keys) :
    Held (removeAll store keys) k held := by
  unfold removeAll
  induction keys generalizing store with
  | nil => exact h
  | cons key keys ih =>
      simp only [List.mem_cons, not_or] at hk
      refine ih ⟨?_, ?_⟩ hk.2
      · exact ((store.resident_remove key k).trans (if_neg hk.1)).trans h.1
      · exact (store.mem_pinned_remove hk.1).mpr h.2

theorem Held.foldl_pin (h : Held store k held) (keys : List ChunkKey) :
    Held (keys.foldl KeyedStore.pin store) k held := by
  induction keys generalizing store with
  | nil => exact h
  | cons key keys ih =>
      refine ih ⟨(store.resident_pin key k).trans h.1, ?_⟩
      exact (store.mem_pinned_pin key k).mpr (.inl h.2)

theorem held_foldl_pin {keys : List ChunkKey} (hmem : k ∈ keys)
    (hres : store.resident k = some held) : Held (keys.foldl KeyedStore.pin store) k held := by
  induction keys generalizing store with
  | nil => cases hmem
  | cons key keys ih =>
      have hsame : (store.pin key).resident k = some held := (store.resident_pin key k).trans hres
      rcases List.mem_cons.mp hmem with rfl | hrest
      · have hpinned : k ∈ (store.pin k).pinned :=
          (store.mem_pinned_pin k k).mpr (.inr ⟨rfl, by rw [hres]; rfl⟩)
        have hheld : Held (store.pin k) k held := ⟨hsame, hpinned⟩
        exact hheld.foldl_pin keys
      · exact ih hrest hsame

theorem Held.foldl_unpin_other (h : Held store k held) {keys : List ChunkKey} (hk : k ∉ keys) :
    Held (keys.foldl KeyedStore.unpin store) k held := by
  induction keys generalizing store with
  | nil => exact h
  | cons key keys ih =>
      simp only [List.mem_cons, not_or] at hk
      exact ih ⟨h.1, (store.mem_pinned_unpin hk.1).mpr h.2⟩ hk.2

theorem Held.loadLoop (h : Held store k held) (cid : String) (worker : Int) (idxs : List Nat) :
    Held (loadLoop cid worker idxs store).2 k held := by
  obtain ⟨hres, hpinned⟩ := resident_loadLoop cid worker idxs store k
  exact ⟨hres.trans h.1, hpinned ▸ h.2⟩

end Held

/-! ## Pinned caches through a run -/

/-- Calls that end the guarantee for a cache: its chunks may be unpinned,
replaced or removed. -/
def Revokes (cid : String) : EngineOp → Prop
  | .register r newId _ => resolveId r.cacheId newId = cid
  | .putChunk id .. | .delete id | .unpin id _ => id = cid
  | .commit c _ => c.cacheId = cid
  | _ => False

/-- The call does not revoke the guarantee and does not find the cache expired. -/
structure Spares (cid : String) (s : ExplicitKVCache CPUBackend) (op : EngineOp) : Prop where
  revokes : ¬Revokes cid op
  tests : ∀ clock, tests op = some (cid, clock) → ∀ d, s.descriptors.lookup cid = some d →
    d.isExpired none clock = false
  sweeps : ∀ now again, sweeps op = some (now, again) → ∀ d ∈ expired s now again,
    d.cacheId ≠ cid

/-- `load(cid, worker_id=w)` returns the given chunks for every worker of the
cache, at any reading before its expiry. -/
def Loadable (s : ExplicitKVCache CPUBackend) (cid : String)
    (chunks : Int → Nat → Option KVPayload) : Prop :=
  ∃ d, s.descriptors.lookup cid = some d ∧
    ∀ clock, d.isExpired none clock = false → ∀ worker ∈ d.workerIds, ∃ payloads,
      (s.load cid none worker clock).1 = .ok payloads ∧
        payloads.map some = (List.range d.numChunks).map (chunks worker)

/-- The cache stays loadable through every run that spares it. -/
def Guaranteed (blake2b : List UInt8 → String) (s : ExplicitKVCache CPUBackend) (cid : String)
    (chunks : Int → Nat → Option KVPayload) : Prop :=
  ∀ since : List EngineOp, (machine blake2b CPUBackend).StepsMeet (Spares cid) s since →
    Loadable ((machine blake2b CPUBackend).exec s since) cid chunks

/-- The call is `register(cid, ..., pin=True)` or `pin(cid)`, and returns. -/
def Pins (blake2b : List UInt8 → String) (s : ExplicitKVCache CPUBackend) (cid : String) :
    EngineOp → Prop
  | .register r newId now =>
      r.pin = true ∧ resolveId r.cacheId newId = cid ∧ (s.register blake2b r newId now).1.isOk
  | .pin id clock => id = cid ∧ (s.pin id clock).1.isOk
  | _ => False

/-- The chunks of the cache a call pins: those it supplies, or those it finds. -/
def pinnedChunks (s : ExplicitKVCache CPUBackend) : EngineOp → Int → Nat → Option KVPayload
  | .register r _ _, worker, index => chunkOf r worker index
  | .pin cid _, worker, index => s.store.resident ⟨cid, index, worker⟩
  | _, _, _ => none

/-- A `pin` finds every chunk of its cache in the store. -/
def FindsChunks (s : ExplicitKVCache CPUBackend) : EngineOp → Prop
  | .pin cid _ => ∀ d, s.descriptors.lookup cid = some d →
      ∀ key ∈ chunkKeys cid d, (s.store.resident key).isSome
  | _ => True

/-- The invariant: the cache is there and all its chunks are held. -/
def Intact (s : ExplicitKVCache CPUBackend) (cid : String)
    (chunks : Int → Nat → Option KVPayload) : Prop :=
  ∃ d, s.descriptors.lookup cid = some d ∧
    ∀ worker ∈ d.workerIds, ∀ index : Nat, index < d.numChunks →
      ∃ chunk, chunks worker index = some chunk ∧ Held s.store ⟨cid, index, worker⟩ chunk

variable {cid : String} {chunks : Int → Nat → Option KVPayload}

theorem Intact.of_kept {s s' : ExplicitKVCache CPUBackend} (h : Intact s cid chunks)
    (hkept : ∀ d, s.descriptors.lookup cid = some d →
      ∃ d', s'.descriptors.lookup cid = some d' ∧ SameCache d d')
    (hheld : ∀ (index : Nat) worker chunk, Held s.store ⟨cid, index, worker⟩ chunk →
      Held s'.store ⟨cid, index, worker⟩ chunk) : Intact s' cid chunks := by
  obtain ⟨d, hd, hchunks⟩ := h
  obtain ⟨d', hd', hsame⟩ := hkept d hd
  refine ⟨d', hd', fun worker hworker index hindex => ?_⟩
  rw [hsame.workerIds] at hworker
  rw [hsame.numChunks] at hindex
  obtain ⟨chunk, hchunk, hold⟩ := hchunks worker hworker index hindex
  exact ⟨chunk, hchunk, hheld index worker chunk hold⟩

theorem Intact.publish {s : ExplicitKVCache CPUBackend} (h : Intact s cid chunks) {id : String}
    {d d' : CacheDescriptor} (hd : s.descriptors.lookup id = some d) (hsame : SameCache d d') :
    Intact (s.publish id d') cid chunks := by
  refine h.of_kept ?_ fun _ _ _ hold => hold
  intro d₀ hd₀
  by_cases hid : id = cid
  · subst hid
    obtain rfl := Option.some.inj (hd.symm.trans hd₀)
    exact ⟨d', by simp [ExplicitKVCache.publish], hsame⟩
  · exact ⟨d₀, (lookup_publish_other s _ (Ne.symm hid)).trans hd₀, .refl d₀⟩

theorem Intact.delete_other {s : ExplicitKVCache CPUBackend} (h : Intact s cid chunks)
    {id : String} (hid : id ≠ cid) : Intact (s.delete id) cid chunks := by
  refine h.of_kept ?_ ?_
  · intro d hd
    refine ⟨d, ?_, .refl d⟩
    rw [lookup_delete, if_neg hid.symm, hd]
  · intro index worker chunk hold
    unfold ExplicitKVCache.delete
    cases s.descriptors.lookup id with
    | none => exact hold
    | some d => exact hold.removeAll_other fun hmem => hid (cacheId_of_mem_chunkKeys hmem).symm

theorem Intact.foldl_delete_other {ds : List CacheDescriptor} (hds : ∀ d ∈ ds, d.cacheId ≠ cid)
    {s : ExplicitKVCache CPUBackend} (h : Intact s cid chunks) :
    Intact (ds.foldl (fun s d => s.delete d.cacheId) s) cid chunks := by
  induction ds generalizing s with
  | nil => exact h
  | cons d ds ih =>
      apply ih fun d' hd' => hds d' (List.mem_cons_of_mem _ hd')
      exact h.delete_other (hds d (List.mem_cons_self ..))

theorem Intact.stored_other {s : ExplicitKVCache CPUBackend} (h : Intact s cid chunks)
    {r : Registration} {newId : String} (hid : resolveId r.cacheId newId ≠ cid) :
    Intact (stored s r newId) cid chunks := by
  refine h.of_kept (fun d hd => ⟨d, hd, .refl d⟩) ?_
  intro index worker chunk hold
  exact hold.putChunks_other (fun _ hmem => hid (cacheId_of_mem_putsOf hmem).symm) r.pin

theorem intact_step {s : ExplicitKVCache CPUBackend} {op : EngineOp} (h : Intact s cid chunks)
    (hspares : Spares cid s op) : Intact (step blake2b s op).2 cid chunks := by
  have hchange : Change blake2b s op (step blake2b s op).1 (step blake2b s op).2 :=
    change_step s op
  generalize (step blake2b s op).1 = out, (step blake2b s op).2 = s' at hchange
  cases hchange with
  | unchanged => exact h
  | registered hend =>
      have hid := hspares.revokes
      cases hend with
      | refused => exact h
      | full => exact h.stored_other hid
      | overflow => exact h.stored_other hid
      | published =>
          refine (h.stored_other hid).of_kept ?_ fun _ _ _ hold => hold
          exact fun d hd => ⟨d, (lookup_publish_other _ _ (Ne.symm hid)).trans hd, .refl d⟩
  | @chunkPut id idx payload w pin =>
      refine h.of_kept (fun d hd => ⟨d, hd, .refl d⟩) fun index worker chunk hold => ?_
      apply hold.put_other
      intro hkey
      exact hspares.revokes (congrArg ChunkKey.cacheId hkey).symm
  | committed =>
      refine h.of_kept ?_ fun _ _ _ hold => hold
      exact fun d hd => ⟨d, (lookup_publish_other _ _ (Ne.symm hspares.revokes)).trans hd, .refl d⟩
  | deleted hd _ hwhy =>
      apply h.delete_other
      rintro rfl
      rcases hwhy with rfl | ⟨clock, htests, hexpired⟩
      · exact hspares.revokes rfl
      · have hlive := hspares.tests clock htests _ hd
        rw [hlive] at hexpired
        cases hexpired
  | swept hsweeps => exact h.foldl_delete_other (hspares.sweeps _ _ hsweeps)
  | touched hd hsame => exact h.publish hd.1 hsame
  | @pinned id clock d hd =>
      have hsame : SameCache d { d with pinned := true } := ⟨rfl, rfl, rfl, rfl, rfl⟩
      exact (h.publish hd.1 hsame).of_kept (fun d' hd' => ⟨d', hd', .refl d'⟩)
        fun _ _ _ hold => hold.foldl_pin _
  | @unpinned id clock d hd =>
      have hsame : SameCache d { d with pinned := false } := ⟨rfl, rfl, rfl, rfl, rfl⟩
      refine (h.publish hd.1 hsame).of_kept (fun d' hd' => ⟨d', hd', .refl d'⟩) ?_
      intro _ _ _ hold
      exact hold.foldl_unpin_other fun hmem =>
        hspares.revokes (cacheId_of_mem_chunkKeys hmem).symm
  | loaded =>
      exact h.of_kept (fun d hd => ⟨d, hd, .refl d⟩) fun _ _ _ hold => hold.loadLoop _ _ _

theorem Intact.loadable {s : ExplicitKVCache CPUBackend} (h : Intact s cid chunks) :
    Loadable s cid chunks := by
  obtain ⟨d, hd, hchunks⟩ := h
  refine ⟨d, hd, fun clock hlive worker hworker => ?_⟩
  have hheld : ∀ index ∈ List.range d.numChunks, ∃ chunk, chunks worker index = some chunk ∧
      s.store.resident ⟨cid, index, worker⟩ = some chunk := by
    intro index hindex
    obtain ⟨chunk, hchunk, hres, _⟩ := hchunks worker hworker index (List.mem_range.mp hindex)
    exact ⟨chunk, hchunk, hres⟩
  have hall : ∀ index ∈ List.range d.numChunks, (chunks worker index).isSome := by
    intro index hindex
    obtain ⟨chunk, hchunk, _⟩ := hheld index hindex
    rw [hchunk]
    rfl
  obtain ⟨payloads, hpayloads⟩ := exists_payloads_iff.mpr hall
  refine ⟨payloads, ?_, hpayloads⟩
  have hloop : (ExplicitKVCache.loadLoop cid worker (List.range d.numChunks) s.store).1 =
      .ok payloads := by
    rw [loadLoop_ok_iff_map, hpayloads]
    apply List.map_congr_left
    intro index hindex
    obtain ⟨chunk, hchunk, hres⟩ := hheld index hindex
    rw [hchunk, hres]
  simp [ExplicitKVCache.load, liveDescriptor, hd, hlive, hloop]

theorem guaranteed_of_intact {s : ExplicitKVCache CPUBackend} (h : Intact s cid chunks) :
    Guaranteed blake2b s cid chunks := by
  intro since hsince
  have hintact := (machine blake2b CPUBackend).exec_induction
    (I := fun s => Intact s cid chunks) (fun s op hs hspares => intact_step hs hspares) h hsince
  exact hintact.loadable

/-! ## The calls that pin -/

theorem intact_register {s : ExplicitKVCache CPUBackend} {r : Registration} {newId : String}
    {now : Time} (hpin : r.pin = true) (hok : (s.register blake2b r newId now).1.isOk) :
    Intact (s.register blake2b r newId now).2 (resolveId r.cacheId newId) (chunkOf r) := by
  have hend : RegisterEnd blake2b s r newId now (s.register blake2b r newId now) :=
    register_end s r newId now
  generalize s.register blake2b r newId now = out at hend hok
  cases hend with
  | refused => cases hok
  | full => cases hok
  | overflow => cases hok
  | @published d hcounts hputs hd hsize =>
      refine ⟨d, by simp [publish], fun worker hworker index hindex => ?_⟩
      rw [hd.workerIds] at hworker
      rw [hd.numChunks, hsize] at hindex
      obtain ⟨chunk, hchunk⟩ := chunkOf_isSome hcounts hworker hindex
      have hmem : (⟨resolveId r.cacheId newId, index, worker⟩, chunk) ∈ putsOf r newId :=
        (mem_putsOf_iff r newId _ _).mpr ⟨worker, index, rfl, hchunk⟩
      rw [hpin] at hputs
      refine ⟨chunk, hchunk, ?_⟩
      have hheld := held_putChunks hmem (fun o ho => eq_of_mem_putsOf hchunk ho) hputs
      simpa only [publish, stored, hpin] using hheld

/-- A `pin` that returns has found its cache live, flags it and pins what it can. -/
theorem pin_of_isOk {s : ExplicitKVCache CPUBackend} {clock : Time}
    (hok : (s.pin cid clock).1.isOk) :
    ∃ d, s.descriptors.lookup cid = some d ∧ d.isExpired none clock = false ∧
      (s.pin cid clock).2 =
        { s.publish cid { d with pinned := true } with
          store := (chunkKeys cid d).foldl KeyedStore.pin s.store } := by
  unfold ExplicitKVCache.pin at hok ⊢
  rcases liveDescriptor_cases s cid clock with ⟨_, hres⟩ | ⟨d, hd, ⟨_, hres⟩ | ⟨hlive, hres⟩⟩
  · simp only [hres] at hok
    cases hok
  · simp only [hres] at hok
    cases hok
  · exact ⟨d, hd, hlive, by simp only [hres]⟩

/-- `pin(cid)` keeps its cache loadable exactly when it finds all its chunks. -/
theorem guaranteed_pin_iff {s : ExplicitKVCache CPUBackend} {clock : Time}
    (hok : (s.pin cid clock).1.isOk) :
    Guaranteed blake2b (s.pin cid clock).2 cid (pinnedChunks s (.pin cid clock)) ↔
      FindsChunks s (.pin cid clock) := by
  obtain ⟨d, hd, hlive, hpin⟩ := pin_of_isOk hok
  have hpublished : (s.pin cid clock).2.descriptors.lookup cid =
      some { d with pinned := true } := by
    rw [hpin]
    simp [publish]
  constructor
  · intro hguaranteed d' hd' key hkey
    obtain rfl := Option.some.inj (hd.symm.trans hd')
    obtain ⟨worker, hworker, index, hindex, rfl⟩ := (mem_chunkKeys_iff cid d key).mp hkey
    obtain ⟨d₁, hd₁, hload⟩ := hguaranteed [] trivial
    obtain rfl := Option.some.inj (hpublished.symm.trans hd₁)
    obtain ⟨payloads, _, hpayloads⟩ := hload clock hlive worker hworker
    exact exists_payloads_iff.mp ⟨payloads, hpayloads⟩ index (List.mem_range.mpr hindex)
  · intro hfinds
    apply guaranteed_of_intact
    refine ⟨_, hpublished, fun worker hworker index hindex => ?_⟩
    have hkey : (⟨cid, index, worker⟩ : ChunkKey) ∈ chunkKeys cid d :=
      (mem_chunkKeys_iff cid d _).mpr ⟨worker, hworker, index, hindex, rfl⟩
    obtain ⟨chunk, hchunk⟩ := Option.isSome_iff_exists.mp (hfinds d hd _ hkey)
    refine ⟨chunk, hchunk, ?_⟩
    rw [hpin]
    exact held_foldl_pin hkey hchunk

/-- Whatever has happened before, a cache pinned by a call that returns stays
loadable exactly when the call supplies its chunks or finds them all. -/
theorem guaranteed_iff (s : ExplicitKVCache CPUBackend) (before : List EngineOp) (op : EngineOp)
    (cid : String) (hpins : Pins blake2b ((machine blake2b CPUBackend).exec s before) cid op) :
    Guaranteed blake2b
        ((machine blake2b CPUBackend).step ((machine blake2b CPUBackend).exec s before) op).2
        cid (pinnedChunks ((machine blake2b CPUBackend).exec s before) op) ↔
      FindsChunks ((machine blake2b CPUBackend).exec s before) op := by
  generalize (machine blake2b CPUBackend).exec s before = reached at hpins ⊢
  cases op with
  | register r newId now =>
      obtain ⟨hpin, rfl, hok⟩ := hpins
      exact iff_of_true (guaranteed_of_intact (intact_register hpin hok)) trivial
  | pin id clock =>
      obtain ⟨rfl, hok⟩ := hpins
      exact guaranteed_pin_iff hok
  | putChunk => exact hpins.elim
  | commit => exact hpins.elim
  | get => exact hpins.elim
  | «exists» => exact hpins.elim
  | lookup => exact hpins.elim
  | load => exact hpins.elim
  | delete => exact hpins.elim
  | extendTtl => exact hpins.elim
  | unpin => exact hpins.elim
  | list => exact hpins.elim
  | sweepExpired => exact hpins.elim

/-- A cache of two chunks pinned after its registration. -/
theorem guaranteed_iff_registered :
    let s : ExplicitKVCache CPUBackend := ⟨{ capacityBytes := some 2 }, 2, by decide, none, ∅⟩
    let c : Registration :=
      ⟨[1, 2, 3], .sequence [.ofBytes [7], .ofBytes [8]], some "c", none, false, none⟩
    let reached := (machine sampleDigest CPUBackend).exec s [.register c "new" 0]
    Guaranteed sampleDigest ((machine sampleDigest CPUBackend).step reached (.pin "c" 0)).2 "c"
        (pinnedChunks reached (.pin "c" 0)) ↔
      FindsChunks reached (.pin "c" 0) := by
  intro s c reached
  exact guaranteed_iff s [.register c "new" 0] (.pin "c" 0) "c" ⟨rfl, by decide +kernel⟩

/-- A registration evicts the only chunk of another cache; `pin` of that cache
returns, and its load raises. -/
theorem pin_after_eviction :
    let s : ExplicitKVCache CPUBackend := ⟨{ capacityBytes := some 1 }, 2, by decide, none, ∅⟩
    let c : Registration := ⟨[1, 2], .sequence [.ofBytes [7]], some "c", none, false, none⟩
    let other : Registration := ⟨[3], .sequence [.ofBytes [9]], some "d", none, false, none⟩
    let reached := (machine sampleDigest CPUBackend).exec s
      [.register c "new" 0, .register other "new" 0]
    Pins sampleDigest reached "c" (.pin "c" 0) ∧
      ¬Guaranteed sampleDigest
        ((machine sampleDigest CPUBackend).step reached (.pin "c" 0)).2 "c"
        (pinnedChunks reached (.pin "c" 0)) := by
  intro s c other reached
  refine ⟨⟨rfl, by decide +kernel⟩, fun hguaranteed => ?_⟩
  obtain ⟨d, hd, hload⟩ := hguaranteed [] trivial
  have hfound : (((machine sampleDigest CPUBackend).step reached
      (.pin "c" 0)).2.descriptors.lookup "c").map
        (fun d => (d.isExpired none 0, d.workerIds)) = some (false, [0]) := by
    decide +kernel
  rw [Machine.exec_nil] at hd hload
  rw [hd, Option.map_some, Option.some.injEq, Prod.mk.injEq] at hfound
  obtain ⟨payloads, hpayloads, _⟩ := hload 0 hfound.1 0 (by simp [hfound.2])
  have hraises : (((machine sampleDigest CPUBackend).step reached (.pin "c" 0)).2.load "c" none 0
      0).1.isOk = false := by decide +kernel
  rw [hpayloads] at hraises
  cases hraises

end LlmCache.Engine.Pinning
