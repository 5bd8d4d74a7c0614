import LlmCache.Engine.Prefix
import LlmCache.Engine.Unbounded

/-!
# Complete caches and orphan chunks

Over a lossless store the engine keeps every chunk of the caches it holds.  It
also keeps chunks that no descriptor names any more, as soon as an id is
registered again without some of its earlier chunks: `delete` derives the keys
to remove from the descriptor of the moment.
-/

namespace LlmCache.Engine.Completeness

open Errors Lib Payload LlmCache.Types Store ExplicitKVCache Descriptors Chunks Prefix Effects
  Unbounded

open LosslessStore (view)

variable {σ : Type} [LosslessBackend σ] {blake2b : List UInt8 → String}

/-! ## Complete caches -/

/-- The descriptor is that of the registration, and all its chunks are stored. -/
structure Holds (blake2b : List UInt8 → String) (s : ExplicitKVCache σ) (cid : String)
    (d : CacheDescriptor) (r : Registration) (newId : String) : Prop where
  made : Made blake2b s.chunkSize r newId d
  id : resolveId r.cacheId newId = cid
  chunks : ∀ key obj, (key, obj) ∈ putsOf r newId → view s.store key = some obj

/-- Every held cache holds a registration with the property. -/
def Complete (blake2b : List UInt8 → String) (P : String → Registration → Prop)
    (s : ExplicitKVCache σ) : Prop :=
  ∀ cid d, s.descriptors.lookup cid = some d →
    ∃ r newId, P cid r ∧ Holds blake2b s cid d r newId

theorem Complete.keyed {P : String → Registration → Prop} {s : ExplicitKVCache σ}
    (h : Complete blake2b P s) : Keyed s := by
  intro cid d hd
  obtain ⟨r, newId, _, hholds⟩ := h cid d hd
  exact hholds.made.cacheId.trans hholds.id

theorem complete_of_empty {s : ExplicitKVCache σ} (hempty : s.descriptors = ∅)
    (P : String → Registration → Prop) : Complete blake2b P s := by
  intro cid d hd
  simp [hempty] at hd

theorem Complete.isSome {P : String → Registration → Prop} {s : ExplicitKVCache σ}
    (h : Complete blake2b P s) {cid : String} {d : CacheDescriptor}
    (hd : s.descriptors.lookup cid = some d) {key : ChunkKey} (hkey : key ∈ chunkKeys cid d) :
    (view s.store key).isSome := by
  obtain ⟨r, newId, _, hholds⟩ := h cid d hd
  rw [← hholds.id] at hkey
  obtain ⟨obj, hput⟩ := (mem_chunkKeys_of_made hholds.made key).mp hkey
  rw [hholds.chunks key obj hput]
  rfl

theorem Holds.of_same {s s' : ExplicitKVCache σ} {cid : String} {d d' : CacheDescriptor}
    {r : Registration} {newId : String} (h : Holds blake2b s cid d r newId)
    (hsize : s'.chunkSize = s.chunkSize) (hsame : SameCache d d')
    (hchunks : SameChunks cid s.store s'.store) : Holds blake2b s' cid d' r newId where
  made := hsize ▸ h.made.of_same hsame
  id := h.id
  chunks := by
    intro key obj hput
    rw [hchunks key ((cacheId_of_mem_putsOf hput).trans h.id)]
    exact h.chunks key obj hput

/-- What a step keeps complete; `P'` is what the history says after it. -/
theorem complete_step {P P' : String → Registration → Prop} {s : ExplicitKVCache σ}
    (hinv : Complete blake2b P s) {op : EngineOp} (hreturns : Returns blake2b s op)
    (hkept : ∀ cid r, (∀ source, publication (op, (step blake2b s op).1) ≠ some (cid, source)) →
      P cid r → P' cid r)
    (hnew : ∀ cid r, publication (op, (step blake2b s op).1) = some (cid, .registration r) →
      P' cid r) : Complete blake2b P' (step blake2b s op).2 := by
  have hsize : (step blake2b s op).2.chunkSize = s.chunkSize :=
    (sameSettings_of_change (change_step s op)).1
  intro cid d' hd'
  have hstep := cacheStep_step hinv.keyed hreturns cid
  generalize (step blake2b s op).1 = out, (step blake2b s op).2 = s' at *
  cases hstep with
  | kept hpub hlookup hchunks =>
      rw [hlookup] at hd'
      obtain ⟨r, newId, hP, hholds⟩ := hinv cid d' hd'
      exact ⟨r, newId, hkept cid r hpub hP, hholds.of_same hsize (.refl d') hchunks⟩
  | @edited d d'' hpub hd hd'' hsame hchunks =>
      obtain rfl := Option.some.inj (hd''.symm.trans hd')
      obtain ⟨r, newId, hP, hholds⟩ := hinv cid d hd.1
      exact ⟨r, newId, hkept cid r hpub hP, hholds.of_same hsize hsame hchunks⟩
  | dropped _ _ _ hgone =>
      rw [hgone] at hd'
      cases hd'
  | @registered r newId now d hop hout hid hmade hd hput =>
      obtain rfl := Option.some.inj (hd.symm.trans hd')
      refine ⟨r, newId, hnew cid r ?_, ?_, hid, hput⟩
      · rw [hop, hout, ← hid]
        rfl
      · rw [hsize]
        exact hmade

/-- Loading any number of chunks of a live cache for one of its workers returns
the payloads given for that worker in the latest registration of the id. -/
def LoadsLatest (past : List (EngineOp × Except Raised EngineReply)) (s : ExplicitKVCache σ) :
    Prop :=
  ∀ cid d clock, s.descriptors.lookup cid = some d → d.isExpired none clock = false →
    ∃ r, latest past cid = some (.registration r) ∧ ∀ worker ∈ d.workerIds,
      ∃ given, (normalizePayloads r.payloads).lookup worker = some given ∧
        given.length = d.numChunks ∧ ∀ n : Nat,
          (s.load cid (some n) worker clock).1 = .ok (given.take (min n d.numChunks))

/-- The invariant with the history of the run. -/
def Tracks (blake2b : List UInt8 → String) (past : List (EngineOp × Except Raised EngineReply))
    (s : ExplicitKVCache σ) : Prop :=
  Complete blake2b (fun cid r => latest past cid = some (.registration r)) s

theorem tracks_step {past : List (EngineOp × Except Raised EngineReply)} {s : ExplicitKVCache σ}
    (hinv : Tracks blake2b past s) {op : EngineOp} (hreturns : Returns blake2b s op) :
    Tracks blake2b (past ++ [(op, (step blake2b s op).1)]) (step blake2b s op).2 := by
  apply complete_step hinv hreturns
  · intro cid r hpub hlatest
    rw [latest_snoc_of_ne hpub, hlatest]
  · exact fun cid r hpub => latest_snoc_self hpub

theorem load_min {s : ExplicitKVCache σ} {cid : String} {d : CacheDescriptor}
    (hd : s.descriptors.lookup cid = some d) (n : Nat) (worker : Int) (clock : Time) :
    s.load cid (some n) worker clock =
      s.load cid (some (min n d.numChunks : Nat)) worker clock := by
  have hmin : (min (n : Int) d.numChunks).toNat =
      (min ((min n d.numChunks : Nat) : Int) d.numChunks).toNat := by omega
  rcases liveDescriptor_cases s cid clock with ⟨hnone, _⟩ | ⟨d', hd', ⟨_, hres⟩ | ⟨_, hres⟩⟩
  · rw [hnone] at hd
    cases hd
  · simp only [ExplicitKVCache.load, hres]
  · obtain rfl := Option.some.inj (hd.symm.trans hd')
    simp only [ExplicitKVCache.load, hres, hmin]

theorem loadsLatest_of_tracks {past : List (EngineOp × Except Raised EngineReply)}
    {s : ExplicitKVCache σ} (hinv : Tracks blake2b past s) : LoadsLatest past s := by
  intro cid d clock hd hlive
  obtain ⟨r, newId, hlatest, hholds⟩ := hinv cid d hd
  refine ⟨r, hlatest, fun worker hworker => ?_⟩
  obtain ⟨given, hgiven, hlen⟩ := given_of_made hholds.made hworker
  refine ⟨given, hgiven, hlen, fun n => ?_⟩
  have hcount : min n d.numChunks ≤ d.numChunks := by omega
  rw [load_min hd, load_of_live hd hlive hcount, loadLoop_ok_iff_view]
  rw [List.forall₂_iff_get]
  refine ⟨by simp; omega, fun i hi hi' => ?_⟩
  simp only [List.get_eq_getElem, List.getElem_range, List.getElem_take]
  simp only [List.length_range] at hi
  apply hholds.chunks
  rw [mem_putsOf_iff]
  refine ⟨worker, i, by rw [hholds.id], ?_⟩
  rw [chunkOf, hgiven, Option.bind_some, List.getElem?_eq_getElem]

/-- In every run from an engine without descriptors whose registrations return,
every live cache loads what its latest registration was given. -/
theorem loads_latest_run (s : ExplicitKVCache σ) (hempty : s.descriptors = ∅)
    (ops : List EngineOp) (hrun : (machine blake2b σ).StepsMeet (Returns blake2b) s ops) :
    LoadsLatest ((machine blake2b σ).trace s ops) ((machine blake2b σ).exec s ops) := by
  have hend := (machine blake2b σ).history_induction (I := Tracks blake2b)
    (fun past s op hinv hreturns => tracks_step hinv hreturns) [] (complete_of_empty hempty _) hrun
  exact loadsLatest_of_tracks hend

/-- An id registered again with another length and other workers. -/
theorem loads_latest_run_again :
    let first : Registration := ⟨[1, 2, 3], .sequence [.ofBytes [7], .ofBytes [8]], some "c",
      some 10, true, none⟩
    let second : Registration := { first with
      tokenIds := [4], payloads := .mapping (AList.singleton 3 [.ofBytes [9]]) }
    let ops : List EngineOp :=
      [.register first "new" 0, .pin "c" 1, .register second "new" 2, .unpin "c" 3]
    let start : ExplicitKVCache UnboundedCPU := ⟨.empty, 2, by decide, none, ∅⟩
    LoadsLatest ((machine sampleDigest UnboundedCPU).trace start ops)
      ((machine sampleDigest UnboundedCPU).exec start ops) := by
  intro first second ops start
  have hrun : (machine sampleDigest UnboundedCPU).StepsMeet (Returns sampleDigest) start ops := by
    decide +kernel
  exact loads_latest_run start rfl ops hrun

/-! ## Orphan chunks -/

/-- Every chunk in the store is one of a held descriptor's, so that deleting an
id leaves no chunk of it. -/
structure NoOrphans (s : ExplicitKVCache σ) : Prop where
  owned : ∀ cid index worker, (⟨cid, index, worker⟩ : ChunkKey) ∈ KeyedStore.keys s.store →
    ∃ d, s.descriptors.lookup cid = some d ∧ worker ∈ d.workerIds ∧
      0 ≤ index ∧ index < d.numChunks
  deleted : ∀ cid, ∀ key ∈ KeyedStore.keys (s.delete cid).store, key.cacheId ≠ cid

/-- A held descriptor has the chunk. -/
def Owned (s : ExplicitKVCache σ) (key : ChunkKey) : Prop :=
  ∃ d, s.descriptors.lookup key.cacheId = some d ∧ key ∈ chunkKeys key.cacheId d

theorem noOrphans_iff (s : ExplicitKVCache σ) :
    NoOrphans s ↔ ∀ key, (view s.store key).isSome → Owned s key := by
  constructor
  · intro h key hkey
    obtain ⟨cid, index, worker⟩ := key
    rw [← LosslessStore.mem_keys] at hkey
    obtain ⟨d, hd, hworker, hpos, hlt⟩ := h.owned cid index worker hkey
    refine ⟨d, hd, (mem_chunkKeys_iff ..).mpr ⟨worker, hworker, index.toNat, by omega, ?_⟩⟩
    rw [Int.toNat_of_nonneg hpos]
  · intro h
    refine ⟨fun cid index worker hkey => ?_, fun cid key hkey => ?_⟩
    · rw [LosslessStore.mem_keys] at hkey
      obtain ⟨d, hd, hmem⟩ := h _ hkey
      obtain ⟨w, hworker, i, hi, heq⟩ := (mem_chunkKeys_iff ..).mp hmem
      obtain ⟨-, rfl, rfl⟩ := ChunkKey.mk.inj heq
      exact ⟨d, hd, hworker, by omega, by omega⟩
    · rw [LosslessStore.mem_keys, view_delete] at hkey
      rintro rfl
      split_ifs at hkey with hmem
      · cases hkey
      · exact hmem (h key hkey)

theorem noOrphans_of_empty {s : ExplicitKVCache σ} (hstore : KeyedStore.keys s.store = []) :
    NoOrphans s := by
  rw [noOrphans_iff]
  intro key hkey
  rw [← LosslessStore.mem_keys, hstore] at hkey
  cases hkey

/-- The condition on a step: a registration under an id that has a descriptor
puts every chunk key of that descriptor. -/
def Replaces (s : ExplicitKVCache σ) : EngineOp → Prop
  | .register r newId _ => ∀ d ∈ s.descriptors.lookup (resolveId r.cacheId newId),
      ∀ key ∈ chunkKeys (resolveId r.cacheId newId) d, key ∈ (putsOf r newId).map Prod.fst
  | _ => True

instance (s : ExplicitKVCache σ) (op : EngineOp) : Decidable (Replaces s op) :=
  match op with
  | .register .. => inferInstanceAs (Decidable (∀ _ ∈ _, ∀ _ ∈ _, _))
  | .putChunk .. | .commit .. | .get .. | .exists .. | .lookup .. | .load .. | .delete ..
  | .extendTtl .. | .pin .. | .unpin .. | .list .. | .sweepExpired .. =>
      inferInstanceAs (Decidable True)

theorem mem_keys_putsOf_iff (r : Registration) (newId : String) (key : ChunkKey) :
    key ∈ (putsOf r newId).map Prod.fst ↔ ∃ obj, (key, obj) ∈ putsOf r newId := by
  simp

/-- A registration that does not put a chunk of the descriptor it replaces
leaves that chunk without an owner. -/
theorem replaces_of_noOrphans {P : String → Registration → Prop} {s : ExplicitKVCache σ}
    (hinv : Complete blake2b P s) {op : EngineOp} (hreturns : Returns blake2b s op)
    (h : NoOrphans (step blake2b s op).2) : Replaces s op := by
  cases op with
  | register r newId now =>
      intro d hd key hkey
      rw [mem_keys_putsOf_iff]
      by_contra hput
      obtain ⟨d', hstep, hmade, _, _⟩ := register_of_returns hreturns
      rw [hstep, noOrphans_iff] at h
      have hpresent : (view (stored s r newId).store key).isSome := by
        rw [view_stored_other s fun obj hobj => hput ⟨obj, hobj⟩]
        exact hinv.isSome hd hkey
      obtain ⟨owner, howner, hmem⟩ := h key hpresent
      rw [cacheId_of_mem_chunkKeys hkey] at howner hmem
      obtain rfl := Option.some.inj ((lookup_publish_self ..).symm.trans howner)
      exact hput ((mem_chunkKeys_of_made hmade key).mp hmem)
  | _ => trivial

theorem noOrphans_step {P : String → Registration → Prop} {s : ExplicitKVCache σ}
    (hinv : Complete blake2b P s) {op : EngineOp} (hreturns : Returns blake2b s op)
    (h : NoOrphans s) (hreplaces : Replaces s op) : NoOrphans (step blake2b s op).2 := by
  rw [noOrphans_iff] at h ⊢
  intro key hkey
  have hstep := cacheStep_step hinv.keyed hreturns key.cacheId
  generalize (step blake2b s op).1 = out, (step blake2b s op).2 = s' at hstep hkey ⊢
  cases hstep with
  | kept _ hlookup hchunks =>
      rw [hchunks key rfl] at hkey
      obtain ⟨d, hd, hmem⟩ := h key hkey
      exact ⟨d, hlookup.trans hd, hmem⟩
  | @edited d d' _ hd hd' hsame hchunks =>
      rw [hchunks key rfl] at hkey
      obtain ⟨owner, howner, hmem⟩ := h key hkey
      obtain rfl := Option.some.inj (hd.1.symm.trans howner)
      exact ⟨d', hd', by rwa [chunkKeys_of_same hsame]⟩
  | @dropped d _ hd _ _ hchunks =>
      rw [hchunks key rfl] at hkey
      split_ifs at hkey with hmem
      · cases hkey
      · obtain ⟨owner, howner, howned⟩ := h key hkey
        obtain rfl := Option.some.inj (hd.symm.trans howner)
        exact absurd howned hmem
  | @registered r newId now d hop _ hid hmade hd _ hother =>
      refine ⟨d, hd, ?_⟩
      rw [← hid, mem_chunkKeys_of_made hmade]
      by_contra hput
      rw [hother key fun obj hobj => hput ⟨obj, hobj⟩] at hkey
      obtain ⟨owner, howner, hmem⟩ := h key hkey
      subst hop
      rw [← hid] at howner hmem
      exact hput ((mem_keys_putsOf_iff ..).mp (hreplaces owner howner key hmem))

/-- In a run from an empty engine whose registrations return, no state has an
orphan chunk exactly when every registration puts the chunk keys of the
descriptor it replaces. -/
theorem no_orphans_run (s : ExplicitKVCache σ) (hempty : s.descriptors = ∅)
    (hstore : KeyedStore.keys s.store = []) (ops : List EngineOp)
    (hrun : (machine blake2b σ).StepsMeet (Returns blake2b) s ops) :
    (machine blake2b σ).Always NoOrphans s ops ↔ (machine blake2b σ).StepsMeet Replaces s ops := by
  apply (machine blake2b σ).always_iff_stepsMeet (J := Complete blake2b fun _ _ => True)
  · intro s op hinv hreturns
    exact complete_step hinv hreturns (fun _ _ _ _ => trivial) fun _ _ _ => trivial
  · intro s op hinv hreturns hclean
    exact ⟨replaces_of_noOrphans hinv hreturns, noOrphans_step hinv hreturns hclean⟩
  · exact complete_of_empty hempty _
  · exact noOrphans_of_empty hstore
  · exact hrun

/-- An id registered again with more chunks, and deleted. -/
theorem no_orphans_run_longer :
    let first : Registration := ⟨[1], .sequence [.ofBytes [7]], some "c", none, true, none⟩
    let second : Registration := { first with
      tokenIds := [1, 2, 3], payloads := .sequence [.ofBytes [8], .ofBytes [9]] }
    let ops : List EngineOp :=
      [.register first "new" 0, .register second "new" 1, .delete "c"]
    let start : ExplicitKVCache UnboundedCPU := ⟨.empty, 2, by decide, none, ∅⟩
    (machine sampleDigest UnboundedCPU).Always NoOrphans start ops := by
  intro first second ops start
  have hrun : (machine sampleDigest UnboundedCPU).StepsMeet (Returns sampleDigest) start ops := by
    decide +kernel
  have hreplaces : (machine sampleDigest UnboundedCPU).StepsMeet Replaces start ops := by
    decide +kernel
  exact (no_orphans_run start rfl rfl ops hrun).mpr hreplaces

/-- An id registered again with fewer chunks: deleting it leaves the second
chunk of the first registration behind, pinned. -/
theorem orphan_after_shorter_register :
    let first : Registration := ⟨[1, 2, 3], .sequence [.ofBytes [7], .ofBytes [8]], some "c",
      none, true, none⟩
    let second : Registration :=
      { first with tokenIds := [1], payloads := .sequence [.ofBytes [9]] }
    let ops : List EngineOp := [.register first "new" 0, .register second "new" 1]
    let start : ExplicitKVCache UnboundedCPU := ⟨.empty, 2, by decide, none, ∅⟩
    (machine sampleDigest UnboundedCPU).StepsMeet (Returns sampleDigest) start ops ∧
      ¬NoOrphans ((machine sampleDigest UnboundedCPU).exec start ops) := by
  intro first second ops start
  refine ⟨by decide +kernel, ?_⟩
  have hleft : (⟨"c", 1, 0⟩ : ChunkKey) ∈ KeyedStore.keys
      (((machine sampleDigest UnboundedCPU).exec start ops).delete "c").store := by
    decide +kernel
  generalize (machine sampleDigest UnboundedCPU).exec start ops = s at hleft
  exact fun h => h.deleted "c" _ hleft rfl

end LlmCache.Engine.Completeness
