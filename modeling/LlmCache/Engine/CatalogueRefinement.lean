import LlmCache.Engine.Catalogue
import LlmCache.Engine.Liveness
import LlmCache.Engine.Unbounded
import LlmCache.Engine.Prefix
import LlmCache.Lib.Simulation

/-!
# The engine is a catalogue

Over a store that loses nothing, and with a hash without collisions, the chunks,
their keys and their fingerprints come to what the catalogue has in their place.
Two calls are left out: the low-level writes, which put chunks under no
registration, and loads for a worker that the cache was not registered for,
which may find what an earlier registration left behind.
-/

namespace LlmCache.Engine.CatalogueRefinement

open Errors Lib Payload LlmCache.Types Store ExplicitKVCache Descriptors Liveness Chunks Prefix
  Unbounded Catalogue

open LosslessStore (view)
open OrderedDict (Mirrors)

variable {σ : Type} [LosslessBackend σ] {blake2b : List UInt8 → String}

/-- The calls that a catalogue answers. -/
def Asks (t : Catalogue) : EngineOp → Prop
  | .register r _ _ => Fit r.tokenIds ∧ ∀ ttl ∈ r.ttl.or t.defaultTtl, ttl.Addable
  | .putChunk .. | .commit .. => False
  | .lookup _ request _ _ => Fit (request.getD [])
  | .load cid _ worker _ => (t.entries.lookup cid).all (worker ∈ ·.byWorker)
  | _ => True

instance (t : Catalogue) (op : EngineOp) : Decidable (Asks t op) :=
  match op with
  | .register .. => inferInstanceAs (Decidable ((∀ _ ∈ _, _ ∧ _) ∧ ∀ _ ∈ _, Ttl.Addable _))
  | .lookup .. => inferInstanceAs (Decidable (∀ _ ∈ _, _ ∧ _))
  | .putChunk .. | .commit .. => inferInstanceAs (Decidable False)
  | .load .. => inferInstanceAs (Decidable (_ = true))
  | .get .. | .exists .. | .delete .. | .extendTtl .. | .pin .. | .unpin .. | .list ..
  | .sweepExpired .. => inferInstanceAs (Decidable True)

/-- The prompt was accepted: its tokens have fingerprints, and each worker has
one payload a chunk. -/
structure Sound (chunkSize : Nat) (e : Entry) : Prop where
  fits : Fit e.given.tokenIds
  counts : checkCounts (e.chunks chunkSize).length e.byWorker.entries = .ok ()

/-- The store has the payloads under the keys that `load` reads. -/
def Held (store : σ) (cid : String) (e : Entry) : Prop :=
  ∀ worker index payload, chunkOf e.given worker index = some payload →
    view store ⟨cid, index, worker⟩ = some payload

structure Represents (blake2b : List UInt8 → String) (t : Catalogue) (s : ExplicitKVCache σ) :
    Prop where
  chunkSize : s.chunkSize = t.chunkSize
  defaultTtl : s.defaultTtl = t.defaultTtl
  descriptors : Mirrors (Entry.descriptor blake2b t.chunkSize) t.entries s.descriptors
  sound : ∀ cid e, t.entries.lookup cid = some e → Sound t.chunkSize e
  held : ∀ cid e, t.entries.lookup cid = some e → Held s.store cid e

theorem Represents.chunkSize_pos {t : Catalogue} {s : ExplicitKVCache σ}
    (h : Represents blake2b t s) : 0 < t.chunkSize :=
  h.chunkSize ▸ s.chunkSize_pos

theorem represents_empty {s : ExplicitKVCache σ} (hempty : s.descriptors = ∅) :
    Represents blake2b { chunkSize := s.chunkSize, defaultTtl := s.defaultTtl } s where
  chunkSize := rfl
  defaultTtl := rfl
  descriptors := by
    rw [hempty]
    exact .empty _
  sound cid e he := by simp at he
  held cid e he := by simp at he

/-! ## What a descriptor shows -/

section Entries

variable {chunkSize : Nat} {e : Entry}

theorem Sound.digests (h : Sound chunkSize e) (blake2b : List UInt8 → String) (cid : String) :
    fingerprints blake2b (e.chunks chunkSize) =
      .ok (e.descriptor blake2b chunkSize cid).chunkFingerprints := by
  obtain ⟨digests, hchunks⟩ : ∃ digests, fingerprints blake2b (e.chunks chunkSize) = .ok digests :=
    fingerprints_of_fit (fit_of_mem_tokenSlices h.fits chunkSize)
  simp only [Entry.descriptor, hchunks]
  rfl

theorem Sound.numChunks (h : Sound chunkSize e) (blake2b : List UInt8 → String) (cid : String) :
    (e.descriptor blake2b chunkSize cid).numChunks = (e.chunks chunkSize).length :=
  length_of_fingerprints (h.digests blake2b cid)

theorem isExpired_descriptor (e : Entry) (cid : String) (clock : Time) :
    (e.descriptor blake2b chunkSize cid).isExpired none clock = e.ended clock := by
  unfold CacheDescriptor.isExpired Entry.ended
  simp only [Entry.descriptor]
  cases e.expiresAt <;> rfl

theorem isExpired_swept (e : Entry) (cid : String) (now again : Time) :
    (e.descriptor blake2b chunkSize cid).isExpired (some now) again =
      e.ended (sweepTime now again) := by
  unfold CacheDescriptor.isExpired Entry.ended sweepTime
  simp only [Entry.descriptor]
  cases e.expiresAt with
  | none => rfl
  | some expiry => split_ifs <;> rfl

/-- The loop over the fingerprints finds the chunks that both start with. -/
theorem matchLoop_eq_commonPrefix (hinj : Function.Injective blake2b)
    {chunks : List (List Int)} {digests : List String}
    (hdigests : List.Forall₂ (fun chunk digest => tokenFingerprint blake2b chunk = .ok digest)
      chunks digests) {request : List (List Int)} (hfit : ∀ chunk ∈ request, Fit chunk) :
    matchLoop blake2b digests request = .ok (commonPrefix chunks request) := by
  induction hdigests generalizing request with
  | nil => rfl
  | @cons chunk digest chunks digests hdigest _ ih =>
      cases request with
      | nil => rfl
      | cons asked request =>
          obtain ⟨bytes, hbytes⟩ := tokenRunBytes_of_fit (hfit asked (List.mem_cons_self ..))
          have hasked : tokenFingerprint blake2b asked = .ok (blake2b bytes.flatten) := by
            rw [tokenFingerprint, hbytes]
            rfl
          have hrest := ih fun c hc => hfit c (List.mem_cons_of_mem _ hc)
          simp only [matchLoop, hasked, commonPrefix]
          by_cases hsame : chunk = asked
          · have hdigest' : blake2b bytes.flatten = digest := by
              rw [hsame, hasked] at hdigest
              exact Except.ok.inj hdigest
            rw [if_neg (not_not.mpr hdigest'), if_pos hsame, hrest]
            rfl
          · have hdigest' : blake2b bytes.flatten ≠ digest := by
              rintro rfl
              exact hsame (tokenFingerprint_inj hinj hdigest hasked)
            rw [if_pos hdigest', if_neg hsame]

theorem Sound.matchedChunks (h : Sound chunkSize e) (hinj : Function.Injective blake2b)
    (hpos : 0 < chunkSize) (cid : String) {request : Option (List Int)}
    (hfit : Fit (request.getD [])) :
    ExplicitKVCache.matchedChunks blake2b (e.descriptor blake2b chunkSize cid) request =
      .ok (e.shared chunkSize request) := by
  cases request with
  | none =>
      rw [ExplicitKVCache.matchedChunks, h.numChunks]
      rfl
  | some tokens =>
      have hforall := fingerprints_forall₂ (h.digests blake2b cid)
      have hchunks : chunkTokenIds tokens (e.descriptor blake2b chunkSize cid).chunkSize =
          .ok (tokenSlices tokens chunkSize) :=
        chunkTokenIds_of_pos tokens hpos
      rw [ExplicitKVCache.matchedChunks, matchedChunkCount, hchunks]
      exact matchLoop_eq_commonPrefix hinj hforall (fit_of_mem_tokenSlices hfit _)

theorem shared_le (e : Entry) (chunkSize : Nat) (request : Option (List Int)) :
    e.shared chunkSize request ≤ (e.chunks chunkSize).length := by
  cases request with
  | none => exact le_rfl
  | some tokens => exact commonPrefix_le _ _

theorem length_take_chunks (e : Entry) (hpos : 0 < chunkSize) {matched : Nat}
    (hmatched : matched ≤ (e.chunks chunkSize).length) :
    ((e.chunks chunkSize).take matched).flatten.length =
      if matched = (e.chunks chunkSize).length then e.given.tokenIds.length
      else matched * chunkSize := by
  have htake : ((e.chunks chunkSize).take matched).flatten =
      e.given.tokenIds.take (matched * chunkSize) :=
    flatten_take_tokenSlices _ hpos matched
  rw [htake]
  exact (length_take_slices hpos hmatched).1

end Entries

/-! ## Registering, editing and dropping -/

section Changes

variable {t : Catalogue} {s : ExplicitKVCache σ} {cid : String} {e : Entry}

theorem layers_eq (e : Entry) (cid : String) : maxLayers (chunkPuts cid e.byWorker) = e.layers := by
  have hpayloads : (chunkPuts cid e.byWorker).map Prod.snd =
      e.byWorker.entries.flatMap Sigma.snd := by
    rw [chunkPuts, List.map_flatMap]
    congr 1
    funext entry
    rw [List.map_map]
    exact List.zipIdx_map_fst 0 entry.2
  rw [maxLayers, Entry.layers, ← hpayloads, List.foldl_map]

theorem Held.of_view {store store' : σ} (h : Held store cid e)
    (hview : ∀ key : ChunkKey, key.cacheId = cid → view store' key = view store key) :
    Held store' cid e := by
  intro worker index payload hpayload
  rw [hview _ rfl]
  exact h worker index payload hpayload

theorem Represents.set (h : Represents blake2b t s) (store : σ) (hsound : Sound t.chunkSize e)
    (hheld : Held store cid e)
    (hview : ∀ key : ChunkKey, key.cacheId ≠ cid → view store key = view s.store key) :
    Represents blake2b (t.set cid e)
      { s.publish cid (e.descriptor blake2b t.chunkSize cid) with store := store } where
  chunkSize := h.chunkSize
  defaultTtl := h.defaultTtl
  descriptors := h.descriptors.setItem cid e
  sound id e' he' := by
    rw [Catalogue.set, OrderedDict.lookup_setItem] at he'
    split_ifs at he' with hid
    · obtain rfl := Option.some.inj he'
      exact hsound
    · exact h.sound id e' he'
  held id e' he' := by
    rw [Catalogue.set, OrderedDict.lookup_setItem] at he'
    split_ifs at he' with hid
    · obtain rfl := Option.some.inj he'
      subst hid
      exact hheld
    · exact (h.held id e' he').of_view fun key hkey => hview key (hkey ▸ hid)

theorem Represents.of_view (h : Represents blake2b t s) {store : σ}
    (hview : view store = view s.store) : Represents blake2b t { s with store := store } where
  chunkSize := h.chunkSize
  defaultTtl := h.defaultTtl
  descriptors := h.descriptors
  sound := h.sound
  held id e he := (h.held id e he).of_view fun key _ => congrFun hview key

theorem Represents.edit (h : Represents blake2b t s) (he : t.entries.lookup cid = some e)
    (e' : Entry) (hgiven : e'.given = e.given) :
    Represents blake2b (t.set cid e') (s.publish cid (e'.descriptor blake2b t.chunkSize cid)) := by
  have hsound := h.sound cid e he
  have hheld := h.held cid e he
  obtain ⟨given, _, _, _, _, _⟩ := e'
  obtain rfl : given = e.given := hgiven
  exact h.set s.store ⟨hsound.fits, hsound.counts⟩ hheld fun _ _ => rfl

omit [LosslessBackend σ] in
theorem descriptors_delete [StorageBackend σ] (s : ExplicitKVCache σ) (cid : String) :
    (s.delete cid).descriptors = s.descriptors.erase cid := by
  unfold ExplicitKVCache.delete
  cases hd : s.descriptors.lookup cid with
  | none =>
      apply AList.ext
      exact (List.kerase_of_notMem_keys (AList.lookup_eq_none.mp hd)).symm
  | some d => rfl

theorem Represents.drop (h : Represents blake2b t s) (cid : String) :
    Represents blake2b (t.drop cid) (s.delete cid) where
  chunkSize := (sameSettings_delete s cid).1.trans h.chunkSize
  defaultTtl := (sameSettings_delete s cid).2.trans h.defaultTtl
  descriptors := by
    rw [descriptors_delete]
    exact h.descriptors.erase cid
  sound id e he := by
    rw [Catalogue.drop, OrderedDict.lookup_erase] at he
    split_ifs at he
    exact h.sound id e he
  held id e he := by
    rw [Catalogue.drop, OrderedDict.lookup_erase] at he
    split_ifs at he with hid
    apply (h.held id e he).of_view
    intro key hkey
    exact view_delete_other s (hkey ▸ hid)

theorem Represents.sweep (h : Represents blake2b t s) (now again : Time) :
    (s.sweepExpired now again).1 = (t.sweep (sweepTime now again)).1 ∧
      Represents blake2b (t.sweep (sweepTime now again)).2 (s.sweepExpired now again).2 := by
  have hexpired : (OrderedDict.values s.descriptors).filter (·.isExpired (some now) again) =
      (t.entries.entries.filter fun entry => entry.2.ended (sweepTime now again)).map
        fun entry => entry.2.descriptor blake2b t.chunkSize entry.1 := by
    rw [h.descriptors.values, List.filter_map]
    congr 1
    apply List.filter_congr
    intro entry _
    exact isExpired_swept entry.2 entry.1 now again
  unfold ExplicitKVCache.sweepExpired Catalogue.sweep
  simp only [hexpired, List.length_map, List.foldl_map, true_and]
  generalize t.entries.entries.filter (fun entry => entry.2.ended (sweepTime now again)) = gone
  clear hexpired
  generalize t.chunkSize = chunkSize
  induction gone generalizing t s with
  | nil => exact h
  | cons entry gone ih => exact ih (h.drop entry.1)

end Changes

/-! ## The calls -/

section Calls

variable {t : Catalogue} {s : ExplicitKVCache σ}

/-- How both find the cache that a call names. -/
inductive Finds (blake2b : List UInt8 → String) (t : Catalogue) (s : ExplicitKVCache σ)
    (cid : String) (clock : Time) : Prop
  | missed {err t' s'} (hfind : t.find cid clock = (.error err, t'))
      (hlive : s.liveDescriptor cid clock = (.error err, s')) (hnext : Represents blake2b t' s')
  | found {e} (he : t.entries.lookup cid = some e) (hfind : t.find cid clock = (.ok e, t))
      (hlive : s.liveDescriptor cid clock = (.ok (e.descriptor blake2b t.chunkSize cid), s))

theorem finds (h : Represents blake2b t s) (cid : String) (clock : Time) :
    Finds blake2b t s cid clock := by
  have hlookup := h.descriptors.lookup cid
  cases he : t.entries.lookup cid with
  | none =>
      rw [he, Option.map_none] at hlookup
      have hfind : t.find cid clock = (.error (.cacheNotFound cid), t) := by
        simp [Catalogue.find, he]
      have hlive : s.liveDescriptor cid clock = (.error (.cacheNotFound cid), s) := by
        simp [liveDescriptor, hlookup]
      exact .missed hfind hlive h
  | some e =>
      rw [he, Option.map_some] at hlookup
      have hover : (e.descriptor blake2b t.chunkSize cid).isExpired none clock = e.ended clock :=
        isExpired_descriptor e cid clock
      cases hend : e.ended clock with
      | true =>
          have hfind : t.find cid clock = (.error (.cacheExpired cid), t.drop cid) := by
            simp [Catalogue.find, he, hend]
          have hlive : s.liveDescriptor cid clock = (.error (.cacheExpired cid), s.delete cid) := by
            simp [liveDescriptor, hlookup, hover, hend]
          exact .missed hfind hlive (h.drop cid)
      | false =>
          refine .found he ?_ ?_
          · simp [Catalogue.find, he, hend]
          · simp [liveDescriptor, hlookup, hover, hend]

theorem step_of_missed {t' : Catalogue} {op : EngineOp} {cid : String} {clock : Time} {err : Raised}
    (htests : tests op = some (cid, clock)) (hfind : t.find cid clock = (.error err, t')) :
    t.step blake2b op = (refusal op err, t') := by
  cases tests_cases htests with
  | «exists» => simp only [Catalogue.step, hfind]; rfl
  | extendTtl ttl stamp =>
      simp only [Catalogue.step, onFound, hfind]
      cases ttl.addedTo stamp <;> rfl
  | _ => simp only [Catalogue.step, onFound, hfind]; rfl

theorem loadLoop_held {store : σ} {cid : String} {e : Entry} (hheld : Held store cid e)
    {worker : Int} {given : List KVPayload} (hgiven : e.byWorker.lookup worker = some given)
    {count : Nat} (hcount : count ≤ given.length) :
    (loadLoop cid worker (List.range count) store).1 = .ok (given.take count) := by
  rw [loadLoop_ok_iff_view, List.forall₂_iff_get]
  have hlength : (given.take count).length = count := by
    rw [List.length_take]
    omega
  refine ⟨by rw [List.length_range, hlength], fun i hi hi' => ?_⟩
  rw [List.length_range] at hi
  simp only [List.get_eq_getElem, List.getElem_range, List.getElem_take]
  apply hheld worker i
  rw [chunkOf]
  show (e.byWorker.lookup worker).bind _ = _
  rw [hgiven, Option.bind_some]
  exact List.getElem?_eq_getElem (by omega)

theorem register_represents (h : Represents blake2b t s) {r : Registration}
    (hfit : Fit r.tokenIds) (httl : ∀ ttl ∈ r.ttl.or t.defaultTtl, ttl.Addable) (newId : String)
    (now : Time) :
    (s.register blake2b r newId now).1.map .descriptor = (t.register blake2b r newId now).1 ∧
      Represents blake2b (t.register blake2b r newId now).2 (s.register blake2b r newId now).2 := by
  obtain ⟨expiresAt, hexpiry⟩ := (Ttl.expiry_ok_iff now _).mpr httl
  let e : Entry := entryOf r now expiresAt
  have hchunks : chunkTokenIds r.tokenIds s.chunkSize = .ok (e.chunks t.chunkSize) := by
    rw [chunkTokenIds_of_pos _ s.chunkSize_pos, h.chunkSize]
    rfl
  have hasked : tokenSlices r.tokenIds t.chunkSize = e.chunks t.chunkSize := rfl
  have hworkers : normalizePayloads r.payloads = e.byWorker := rfl
  unfold ExplicitKVCache.register Catalogue.register
  simp only [hchunks, hasked, hworkers, hexpiry]
  cases hcounts : checkCounts (e.chunks t.chunkSize).length e.byWorker.entries with
  | error err => exact ⟨rfl, h⟩
  | ok _ =>
      have hsound : Sound t.chunkSize e := ⟨hfit, hcounts⟩
      have hbuilt : ∀ (store : σ) cid, buildDescriptor (tokenFingerprint blake2b)
          { s with store := store } cid (e.chunks t.chunkSize)
          (maxLayers (chunkPuts cid e.byWorker)) (e.byWorker.keys.insertionSort (· ≤ ·)) r.ttl
          r.pin r.name now = .ok (e.descriptor blake2b t.chunkSize cid) := by
        intro store cid
        have htokens : ((e.chunks t.chunkSize).map List.length).sum = r.tokenIds.length :=
          sum_length_tokenSlices _ h.chunkSize_pos
        have hexpiry' : Ttl.expiry now (r.ttl.or s.defaultTtl) = .ok expiresAt :=
          h.defaultTtl ▸ hexpiry
        rw [build_of_ok (s := { s with store := store }) hexpiry' (hsound.digests blake2b cid),
          layers_eq, htokens]
        simp only [h.chunkSize]
        rfl
      simp only [putChunks_ok, hbuilt, publishBuilt, Except.map]
      refine ⟨rfl, h.set (stored s r newId).store hsound ?_ ?_⟩
      · intro worker index payload hpayload
        apply view_stored_of_mem s
        exact (mem_putsOf_iff ..).mpr ⟨worker, index, rfl, hpayload⟩
      · intro key hkey
        apply view_stored_other s
        intro payload hput
        exact hkey (cacheId_of_mem_putsOf hput)

theorem load_of_found (h : Represents blake2b t s) {cid : String} {clock : Time} {e : Entry}
    {worker : Int} (hworker : worker ∈ e.byWorker) (numChunks : Option Int)
    (he : t.entries.lookup cid = some e) (hfind : t.find cid clock = (.ok e, t))
    (hlive : s.liveDescriptor cid clock = (.ok (e.descriptor blake2b t.chunkSize cid), s)) :
    (ExplicitKVCache.step blake2b s (.load cid numChunks worker clock)).1 =
        (t.step blake2b (.load cid numChunks worker clock)).1 ∧
      Represents blake2b (t.step blake2b (.load cid numChunks worker clock)).2
        (ExplicitKVCache.step blake2b s (.load cid numChunks worker clock)).2 := by
  have hsound := h.sound cid e he
  obtain ⟨given, hgiven⟩ := Option.isSome_iff_exists.mp (AList.lookup_isSome.mpr hworker)
  have hlength : given.length = (e.chunks t.chunkSize).length :=
    length_of_checkCounts hsound.counts ⟨worker, given⟩ (AList.mem_lookup_iff.mp hgiven)
  have hpayloads : ∀ count : Int, (loadLoop cid worker
      (List.range (min count (e.chunks t.chunkSize).length).toNat) s.store).1 =
        .ok (given.take count.toNat) := by
    intro count
    have hmin : (min count (e.chunks t.chunkSize).length).toNat =
        min count.toNat given.length := by omega
    rw [hmin, loadLoop_held (h.held cid e he) hgiven (Nat.min_le_right ..),
      ← List.take_eq_take_min]
  have hkept : ∀ idxs, Represents blake2b t
      { s with store := (loadLoop cid worker idxs s.store).2 } :=
    fun idxs => h.of_view (view_loadLoop ..)
  simp only [ExplicitKVCache.step, Catalogue.step, ExplicitKVCache.load, onFound, hlive, hfind,
    hsound.numChunks, Entry.payloads, hgiven, Option.getD_some]
  cases numChunks with
  | none =>
      have hall := loadLoop_held (h.held cid e he) hgiven le_rfl
      rw [List.take_length, hlength] at hall
      exact ⟨by rw [Int.toNat_natCast, hall]; rfl, hkept _⟩
  | some n => exact ⟨by rw [hpayloads]; rfl, hkept _⟩

theorem step_of_found (hinj : Function.Injective blake2b) (h : Represents blake2b t s)
    {op : EngineOp} {cid : String} {clock : Time} (htests : tests op = some (cid, clock))
    (hasks : Asks t op) {e : Entry} (he : t.entries.lookup cid = some e)
    (hfind : t.find cid clock = (.ok e, t))
    (hlive : s.liveDescriptor cid clock = (.ok (e.descriptor blake2b t.chunkSize cid), s)) :
    (ExplicitKVCache.step blake2b s op).1 = (t.step blake2b op).1 ∧
      Represents blake2b (t.step blake2b op).2 (ExplicitKVCache.step blake2b s op).2 := by
  have hsound := h.sound cid e he
  cases tests_cases htests with
  | get =>
      simp only [ExplicitKVCache.step, Catalogue.step, ExplicitKVCache.get, onFound, hlive, hfind]
      exact ⟨rfl, h⟩
  | «exists» =>
      simp only [ExplicitKVCache.step, Catalogue.step, exists', hlive, hfind]
      exact ⟨rfl, h⟩
  | lookup request stamp =>
      have hmatched := hsound.matchedChunks hinj h.chunkSize_pos cid hasks
      have hle := shared_le e t.chunkSize request
      have hlength := length_take_chunks e h.chunkSize_pos hle
      have hedit := h.edit he { e with hits := e.hits + 1, lastUsedAt := some stamp } rfl
      simp only [ExplicitKVCache.step, Catalogue.step, ExplicitKVCache.lookup, onFound, hlive, hfind,
        hmatched, hsound.numChunks, hlength]
      exact ⟨by simp [Except.map, Entry.descriptor], hedit⟩
  | load numChunks worker =>
      have hworker : worker ∈ e.byWorker := by
        rw [Asks, he] at hasks
        exact of_decide_eq_true hasks
      exact load_of_found h hworker numChunks he hfind hlive
  | extendTtl ttl stamp =>
      simp only [ExplicitKVCache.step, Catalogue.step, ExplicitKVCache.extendTtl, onFound, hlive,
        hfind]
      cases ttl.addedTo stamp with
      | error err => exact ⟨rfl, h⟩
      | ok expiresAt => exact ⟨rfl, h.edit he { e with expiresAt := some expiresAt } rfl⟩
  | pin =>
      simp only [ExplicitKVCache.step, Catalogue.step, ExplicitKVCache.pin, onFound, hlive, hfind]
      have hview := view_foldl_pin (chunkKeys cid (e.descriptor blake2b t.chunkSize cid)) s.store
      exact ⟨rfl, (h.edit he { e with pinned := true } rfl).of_view hview⟩
  | unpin =>
      simp only [ExplicitKVCache.step, Catalogue.step, ExplicitKVCache.unpin, onFound, hlive, hfind]
      have hview := view_foldl_unpin (chunkKeys cid (e.descriptor blake2b t.chunkSize cid)) s.store
      exact ⟨rfl, (h.edit he { e with pinned := false } rfl).of_view hview⟩

theorem step_represents (hinj : Function.Injective blake2b) (h : Represents blake2b t s)
    {op : EngineOp} (hasks : Asks t op) :
    (ExplicitKVCache.step blake2b s op).1 = (t.step blake2b op).1 ∧
      Represents blake2b (t.step blake2b op).2 (ExplicitKVCache.step blake2b s op).2 := by
  have htested : ∀ cid clock, tests op = some (cid, clock) →
      (ExplicitKVCache.step blake2b s op).1 = (t.step blake2b op).1 ∧
        Represents blake2b (t.step blake2b op).2 (ExplicitKVCache.step blake2b s op).2 := by
    intro cid clock htests
    cases finds h cid clock with
    | missed hfind hlive hnext =>
        rw [step_of_raised htests hlive, step_of_missed htests hfind]
        exact ⟨rfl, hnext⟩
    | found he hfind hlive => exact step_of_found hinj h htests hasks he hfind hlive
  cases op with
  | register r newId now => exact register_represents h hasks.1 hasks.2 newId now
  | putChunk => exact hasks.elim
  | commit => exact hasks.elim
  | delete cid => exact ⟨rfl, h.drop cid⟩
  | sweepExpired now again =>
      obtain ⟨hcount, hleft⟩ := h.sweep now again
      refine ⟨?_, hleft⟩
      simp only [ExplicitKVCache.step, Catalogue.step, hcount]
  | list now again =>
      obtain ⟨_, hleft⟩ := h.sweep now again
      refine ⟨?_, hleft⟩
      simp only [ExplicitKVCache.step, Catalogue.step, ExplicitKVCache.list, Catalogue.shown,
        hleft.descriptors.values]
  | get | «exists» | lookup | load | extendTtl | pin | unpin => exact htested _ _ rfl

/-- Whatever clients call, as long as a catalogue has an answer to it, the engine
gives that answer. -/
theorem trace_represents (hinj : Function.Injective blake2b) (h : Represents blake2b t s)
    {ops : List EngineOp} (hrun : (Catalogue.machine blake2b).StepsMeet Asks t ops) :
    (ExplicitKVCache.machine blake2b σ).trace s ops = (Catalogue.machine blake2b).trace t ops :=
  ((ExplicitKVCache.machine blake2b σ).run_same (Catalogue.machine blake2b)
    (fun _ _ _ hrel hop => step_represents hinj hrel hop) h hrun).1

end Calls

end LlmCache.Engine.CatalogueRefinement
