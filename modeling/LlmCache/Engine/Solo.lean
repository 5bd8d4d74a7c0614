import LlmCache.Engine.Interleaving
import LlmCache.Engine.Prefix
import Mathlib.Data.Fin.VecNotation

/-!
# Calls that no other call comes between

The functions of the engine and the steps of the concurrent clients are two
translations of one source.  A call whose steps follow on one another does to
the shared state what the function does to the engine, and ends as it ends.
-/

namespace LlmCache.Engine.Solo

open Errors Lib Payload LlmCache.Types Store ExplicitKVCache Descriptors Interleaving Prefix

variable {σ ι : Type}

/-- The shared state is that of the engine, and no two ids share a descriptor. -/
structure Denotes (s : Shared σ ι) (e : ExplicitKVCache σ) : Prop where
  store : e.store = s.store
  chunkSize : e.chunkSize = s.chunkSize
  defaultTtl : e.defaultTtl = s.defaultTtl
  keys : e.descriptors.keys = s.descriptors.keys
  lookup : ∀ cid, e.descriptors.lookup cid = s.current cid
  apart : ∀ cid cid' obj, s.descriptors.lookup cid = some obj →
    s.descriptors.lookup cid' = some obj → cid = cid'

/-- The engine operation that a call is, at one reading of the clock. -/
def operation (clock : Time) : Call → EngineOp
  | .register r newId => .register r newId clock
  | .delete cid => .delete cid
  | .onLive cid .answer => .get cid clock
  | .onLive cid (.count requestTokens) => .lookup cid requestTokens clock clock
  | .onLive cid (.read numChunks worker) => .load cid numChunks worker clock
  | .onLive cid (.extend ttl) => .extendTtl cid ttl clock clock
  | .onLive cid (.mark true) => .pin cid clock
  | .onLive cid (.mark false) => .unpin cid clock
  | .sweep => .sweepExpired clock clock

/-- How a call ends whose operation has the outcome. -/
def ending {α : Type} : Except Raised α → Phase ι
  | .ok _ => .returned
  | .error err => .raised err

@[simp] theorem ending_map {α β : Type} (f : α → β) (outcome : Except Raised α) :
    ending (ι := ι) (outcome.map f) = ending outcome := by
  cases outcome <;> rfl

section Denotes

variable {s : Shared σ ι} {e : ExplicitKVCache σ}

theorem Denotes.withStore (h : Denotes s e) (store : σ) :
    Denotes { s with store := store } { e with store := store } :=
  ⟨rfl, h.chunkSize, h.defaultTtl, h.keys, h.lookup, h.apart⟩

theorem Denotes.drop (h : Denotes s e) (cid : String) :
    Denotes { s with descriptors := s.descriptors.erase cid }
      { e with descriptors := e.descriptors.erase cid } where
  store := h.store
  chunkSize := h.chunkSize
  defaultTtl := h.defaultTtl
  keys := by rw [AList.keys_erase, AList.keys_erase, h.keys]
  lookup := by
    intro k
    have hlookup := h.lookup k
    simp only [Shared.current, OrderedDict.lookup_erase] at hlookup ⊢
    split_ifs with hk
    · rfl
    · exact hlookup
  apart := by
    intro k k' obj hk hk'
    simp only [OrderedDict.lookup_erase] at hk hk'
    split_ifs at hk hk' with hne hne'
    exact h.apart k k' obj hk hk'

theorem Denotes.object (h : Denotes s e) {cid : String} {obj : ι}
    (hobj : s.descriptors.lookup cid = some obj) : ∃ d, s.object obj = some d := by
  have hthere : (e.descriptors.lookup cid).isSome := by
    rw [AList.lookup_isSome, AList.mem_keys, h.keys]
    exact AList.lookup_isSome.mp (Option.isSome_of_eq_some hobj)
  rw [h.lookup, Shared.current, hobj, Option.bind_some] at hthere
  exact Option.isSome_iff_exists.mp hthere

variable [DecidableEq ι]

theorem Denotes.edit (h : Denotes s e) {cid : String} {obj : ι} {d : CacheDescriptor}
    (hobj : s.descriptors.lookup cid = some obj) (hd : s.object obj = some d)
    (change : CacheDescriptor → CacheDescriptor) :
    Denotes (s.edit obj change) (e.publish cid (change d)) where
  store := h.store
  chunkSize := h.chunkSize
  defaultTtl := h.defaultTtl
  keys := by
    have hcid : cid ∈ e.descriptors.keys := by
      rw [h.keys]
      exact AList.lookup_isSome.mp (Option.isSome_of_eq_some hobj)
    simp only [publish, OrderedDict.keys_setItem, if_pos hcid]
    exact h.keys
  lookup := by
    intro k
    have hlookup := h.lookup k
    simp only [publish, OrderedDict.lookup_setItem, Shared.current, Shared.edit] at hlookup ⊢
    split_ifs with hk
    · rw [hk, hobj, Option.bind_some, Function.update_self, hd, Option.map_some]
    · rw [hlookup]
      cases hother : s.descriptors.lookup k with
      | none => rfl
      | some o =>
          have hne : o ≠ obj := by
            rintro rfl
            exact hk (h.apart k cid o hother hobj)
          rw [Option.bind_some, Option.bind_some, Function.update_of_ne hne]
  apart := h.apart

theorem Denotes.publish (h : Denotes s e) {i : ι} (hnew : s.object i = none) (cid : String)
    (d : CacheDescriptor) :
    Denotes { s with
      object := Function.update s.object i (some d)
      descriptors := OrderedDict.setItem s.descriptors cid i } (e.publish cid d) := by
  have hfresh : ∀ k, s.descriptors.lookup k ≠ some i := by
    intro k hk
    obtain ⟨d', hd'⟩ := h.object hk
    rw [hnew] at hd'
    cases hd'
  refine ⟨h.store, h.chunkSize, h.defaultTtl, ?_, ?_, ?_⟩
  · simp only [ExplicitKVCache.publish, OrderedDict.keys_setItem, h.keys]
  · intro k
    have hlookup := h.lookup k
    simp only [ExplicitKVCache.publish, OrderedDict.lookup_setItem, Shared.current] at hlookup ⊢
    split_ifs with hk
    · rw [Option.bind_some, Function.update_self]
    · rw [hlookup]
      cases hother : s.descriptors.lookup k with
      | none => rfl
      | some o =>
          have hne : o ≠ i := by
            rintro rfl
            exact hfresh k hother
          rw [Option.bind_some, Option.bind_some, Function.update_of_ne hne]
  · intro k k' obj hk hk'
    simp only [OrderedDict.lookup_setItem] at hk hk'
    split_ifs at hk hk' with hkey hkey' hkey'
    · rw [hkey, hkey']
    · obtain rfl := Option.some.inj hk
      exact absurd hk' (hfresh k')
    · obtain rfl := Option.some.inj hk'
      exact absurd hk (hfresh k)
    · exact h.apart k k' obj hk hk'

omit [DecidableEq ι] in
theorem Denotes.values (h : Denotes s e) :
    (OrderedDict.values s.descriptors).filterMap s.object = OrderedDict.values e.descriptors := by
  have hshared := OrderedDict.map_entries s.descriptors fun _ obj => obj
  have hengine := OrderedDict.map_entries e.descriptors fun _ d => d
  simp only [OrderedDict.values]
  rw [hshared, hengine, h.keys, List.filterMap_filterMap]
  apply List.filterMap_congr
  intro cid _
  rw [h.lookup]
  simp only [Shared.current, Option.map_id']

omit [DecidableEq ι] in
theorem Denotes.build (h : Denotes s e) (blake2b : List UInt8 → String) (r : Registration)
    (newId : String) (now : Time) :
    s.build blake2b r newId now = buildDescriptor (tokenFingerprint blake2b) e
      (resolveId r.cacheId newId) (tokenSlices r.tokenIds e.chunkSize) (maxLayers (putsOf r newId))
      ((normalizePayloads r.payloads).keys.insertionSort (· ≤ ·)) r.ttl r.pin r.name now := by
  simp only [Shared.build, buildDescriptor, Shared.config, h.chunkSize, h.defaultTtl]

end Denotes

section Steps

variable [StorageBackend σ] [DecidableEq ι]

/-- One call alone, at one reading of the clock. -/
def solo (σ : Type) [StorageBackend σ] (blake2b : List UInt8 → String) (clock : Time) (i : ι) :
    Machine (Phase ι × Shared σ ι) Unit Raised Unit where
  step c _ := (.ok (), advance blake2b c.2 clock i c.1)

variable {blake2b : List UInt8 → String} {clock : Time} {i : ι}

variable (blake2b clock i) in
theorem reaches_advance (p : Phase ι) (s : Shared σ ι) :
    (solo σ blake2b clock i).Reaches (p, s) (advance blake2b s clock i p) :=
  .step _ (p, s) ()

/-! ## Loops -/

variable {s : Shared σ ι} {e : ExplicitKVCache σ}

theorem reaches_removeAll (keys : List ChunkKey) (ids : List String) (failure : Option Raised)
    (s : Shared σ ι) :
    (solo σ blake2b clock i).Reaches (.cleaning keys ids failure, s)
      (.cleaning [] ids failure, { s with store := removeAll s.store keys }) := by
  induction keys generalizing s with
  | nil => exact .refl _ _
  | cons key keys ih => exact (reaches_advance _ _ _ _ s).trans (ih _)

variable (blake2b clock i) in
theorem reaches_delete (h : Denotes s e) (cid : String) (ids : List String)
    (failure : Option Raised) :
    ∃ s', (solo σ blake2b clock i).Reaches (.cleaning [] (cid :: ids) failure, s)
        (.cleaning [] ids failure, s') ∧
      Denotes s' (e.delete cid) := by
  have hlookup := h.lookup cid
  have hstep := reaches_advance blake2b clock i (.cleaning [] (cid :: ids) failure) s
  unfold ExplicitKVCache.delete
  cases hcurrent : s.current cid with
  | none =>
      rw [hcurrent] at hlookup
      simp only [advance, hcurrent] at hstep
      rw [hlookup]
      exact ⟨s, hstep, h⟩
  | some d =>
      rw [hcurrent] at hlookup
      simp only [advance, hcurrent] at hstep
      rw [hlookup]
      refine ⟨_, hstep.trans (reaches_removeAll (chunkKeys cid d) ids failure _), ?_⟩
      rw [h.store]
      exact (h.drop cid).withStore _

variable (blake2b clock i) in
theorem reaches_sweep (h : Denotes s e) (ids : List String) (failure : Option Raised) :
    ∃ s', (solo σ blake2b clock i).Reaches (.cleaning [] ids failure, s)
        (.cleaning [] [] failure, s') ∧
      Denotes s' (ids.foldl ExplicitKVCache.delete e) := by
  induction ids generalizing s e with
  | nil => exact ⟨s, .refl _ _, h⟩
  | cons cid ids ih =>
      obtain ⟨s₁, hfirst, h₁⟩ := reaches_delete blake2b clock i h cid ids failure
      obtain ⟨s₂, hrest, h₂⟩ := ih h₁
      exact ⟨s₂, hfirst.trans hrest, h₂⟩

variable (blake2b clock i) in
theorem reaches_putChunks (r : Registration) (newId : String) (puts : List (ChunkKey × KVPayload))
    (s : Shared σ ι) :
    (∃ err, (putChunks r.pin puts s.store).1 = .error err ∧
      (solo σ blake2b clock i).Reaches (.putting r newId puts, s)
        (.raised err, { s with store := (putChunks r.pin puts s.store).2 })) ∨
    (putChunks r.pin puts s.store).1 = .ok () ∧
      (solo σ blake2b clock i).Reaches (.putting r newId puts, s)
        (.putting r newId [], { s with store := (putChunks r.pin puts s.store).2 }) := by
  induction puts generalizing s with
  | nil => exact .inr ⟨rfl, .refl _ _⟩
  | cons put puts ih =>
      obtain ⟨key, payload⟩ := put
      have hstep := reaches_advance blake2b clock i (.putting r newId ((key, payload) :: puts)) s
      simp only [putChunks]
      cases hput : (KeyedStore.put s.store key payload r.pin).1 with
      | error err =>
          simp only [advance, hput] at hstep
          exact .inl ⟨err, rfl, hstep⟩
      | ok done =>
          simp only [advance, hput] at hstep
          exact (ih _).imp (fun ⟨err, herr, hrest⟩ => ⟨err, herr, hstep.trans hrest⟩)
            fun ⟨hok, hrest⟩ => ⟨hok, hstep.trans hrest⟩

theorem reaches_loadLoop (cid : String) (worker : Int) (idxs : List Nat) (s : Shared σ ι) :
    (solo σ blake2b clock i).Reaches
      (.loading (idxs.map fun idx : Nat => ⟨cid, idx, worker⟩), s)
      (ending (loadLoop cid worker idxs s.store).1,
        { s with store := (loadLoop cid worker idxs s.store).2 }) := by
  induction idxs generalizing s with
  | nil => exact reaches_advance _ _ _ _ s
  | cons idx idxs ih =>
      have hstep := reaches_advance blake2b clock i
        (.loading ((idx :: idxs).map fun idx : Nat => ⟨cid, idx, worker⟩)) s
      simp only [loadLoop]
      cases hget : (KeyedStore.get s.store ⟨cid, idx, worker⟩).1 with
      | error err =>
          simp only [List.map_cons, advance, hget] at hstep
          exact hstep
      | ok found =>
          cases found with
          | none =>
              simp only [List.map_cons, advance, hget, Int.toNat_natCast] at hstep
              exact hstep
          | some payload =>
              simp only [List.map_cons, advance, hget] at hstep
              rw [ending_map]
              exact hstep.trans (ih _)

theorem reaches_pinning (pin : Bool) (keys : List ChunkKey) (s : Shared σ ι) :
    (solo σ blake2b clock i).Reaches (.pinning pin keys, s) (.returned,
      { s with store :=
          keys.foldl (if pin then KeyedStore.pin else KeyedStore.unpin) s.store }) := by
  induction keys generalizing s with
  | nil => exact reaches_advance _ _ _ _ s
  | cons key keys ih =>
      cases pin with
      | true => exact (reaches_advance _ _ _ _ s).trans (ih _)
      | false => exact (reaches_advance _ _ _ _ s).trans (ih _)

/-! ## Calls -/

/-- The call in the phase ends as the operation does, and leaves what it leaves. -/
def EndsAs (blake2b : List UInt8 → String) (clock : Time) (i : ι) (p : Phase ι) (s : Shared σ ι)
    {α : Type} (out : Except Raised α × ExplicitKVCache σ) : Prop :=
  ∃ s', (solo σ blake2b clock i).Reaches (p, s) (ending out.1, s') ∧ Denotes s' out.2

theorem EndsAs.trans {p p' : Phase ι} {s s' : Shared σ ι} {α : Type}
    {out : Except Raised α × ExplicitKVCache σ}
    (hsteps : (solo σ blake2b clock i).Reaches (p, s) (p', s'))
    (h : EndsAs blake2b clock i p' s' out) : EndsAs blake2b clock i p s out := by
  obtain ⟨s'', hrest, hend⟩ := h
  exact ⟨s'', hsteps.trans hrest, hend⟩

theorem EndsAs.map {p : Phase ι} {s : Shared σ ι} {α β : Type}
    {out : Except Raised α × ExplicitKVCache σ} (h : EndsAs blake2b clock i p s out) (f : α → β) :
    EndsAs blake2b clock i p s (out.1.map f, out.2) := by
  obtain ⟨s', hsteps, hend⟩ := h
  refine ⟨s', ?_, hend⟩
  rw [ending_map]
  exact hsteps

theorem finds (h : Denotes s e) (cid : String) (use : Use) :
    (∃ err e', e.liveDescriptor cid clock = (.error err, e') ∧
      ∃ s', (solo σ blake2b clock i).Reaches (.ready (.onLive cid use), s) (.raised err, s') ∧
        Denotes s' e') ∨
    ∃ obj d, e.liveDescriptor cid clock = (.ok d, e) ∧ s.descriptors.lookup cid = some obj ∧
      s.object obj = some d ∧
      (solo σ blake2b clock i).Reaches (.ready (.onLive cid use), s)
        (goOn blake2b cid obj d use, s) := by
  have hlookup := h.lookup cid
  have hready := reaches_advance blake2b clock i (.ready (.onLive cid use)) s
  unfold liveDescriptor
  cases hobj : s.descriptors.lookup cid with
  | none =>
      simp only [advance, hobj] at hready
      simp only [Shared.current, hobj, Option.bind_none] at hlookup
      rw [hlookup]
      exact .inl ⟨_, _, rfl, s, hready, h⟩
  | some obj =>
      simp only [advance, hobj] at hready
      obtain ⟨d, hd⟩ := h.object hobj
      simp only [Shared.current, hobj, Option.bind_some, hd] at hlookup
      have htest := reaches_advance blake2b clock i (.testing cid obj use) s
      simp only [advance, hd] at htest
      rw [hlookup]
      dsimp only
      split_ifs at htest ⊢ with hexpired
      · obtain ⟨s', hdelete, h'⟩ := reaches_delete blake2b clock i h cid []
          (some (.cacheExpired cid))
        have hend := hdelete.trans
          (reaches_advance _ _ _ (.cleaning [] [] (some (.cacheExpired cid))) s')
        exact .inl ⟨_, _, rfl, s', (hready.trans htest).trans hend, h'⟩
      · exact .inr ⟨obj, d, rfl, rfl, hd, hready.trans htest⟩

theorem publish_alone (h : Denotes s e) (hnew : s.object i = none) (r : Registration)
    (newId : String) :
    EndsAs blake2b clock i (.putting r newId []) s
      (e.publishBuilt (resolveId r.cacheId newId) (buildDescriptor (tokenFingerprint blake2b) e
        (resolveId r.cacheId newId) (tokenSlices r.tokenIds e.chunkSize)
        (maxLayers (putsOf r newId))
        ((normalizePayloads r.payloads).keys.insertionSort (· ≤ ·)) r.ttl r.pin r.name clock)) := by
  have hbuild := reaches_advance blake2b clock i (.putting r newId []) s
  simp only [advance, h.build] at hbuild
  cases hbuilt : buildDescriptor (tokenFingerprint blake2b) e (resolveId r.cacheId newId)
      (tokenSlices r.tokenIds e.chunkSize) (maxLayers (putsOf r newId))
      ((normalizePayloads r.payloads).keys.insertionSort (· ≤ ·)) r.ttl r.pin r.name clock with
  | error err =>
      rw [hbuilt] at hbuild
      exact ⟨s, hbuild, h⟩
  | ok d =>
      rw [hbuilt] at hbuild
      exact ⟨_, hbuild.trans (reaches_advance _ _ _ (.publishing (resolveId r.cacheId newId) d) s),
        h.publish hnew _ d⟩

theorem register_alone (h : Denotes s e) (hnew : s.object i = none) (r : Registration)
    (newId : String) :
    EndsAs blake2b clock i (.ready (.register r newId)) s (e.register blake2b r newId clock) := by
  have hready := reaches_advance blake2b clock i (.ready (.register r newId)) s
  simp only [advance, ← h.chunkSize] at hready
  unfold register
  rw [chunkTokenIds_of_pos _ e.chunkSize_pos]
  simp only
  cases hcounts : checkCounts (tokenSlices r.tokenIds e.chunkSize).length
      (normalizePayloads r.payloads).entries with
  | error err =>
      rw [hcounts] at hready
      exact ⟨s, hready, h⟩
  | ok done =>
      rw [hcounts] at hready
      apply EndsAs.trans hready
      simp only
      rw [show chunkPuts (resolveId r.cacheId newId) (normalizePayloads r.payloads) =
        putsOf r newId from rfl, h.store]
      rcases reaches_putChunks blake2b clock i r newId (putsOf r newId) s with
        ⟨err, herr, hputs⟩ | ⟨hok, hputs⟩
      · rw [herr]
        exact ⟨_, hputs, h.withStore _⟩
      · rw [hok]
        apply EndsAs.trans hputs
        exact publish_alone (h.withStore (putChunks r.pin (putsOf r newId) s.store).2) hnew r newId

theorem delete_alone (h : Denotes s e) (cid : String) :
    EndsAs blake2b clock i (.ready (.delete cid)) s
      (.ok EngineReply.done, e.delete cid) := by
  obtain ⟨s', hdelete, h'⟩ := reaches_delete blake2b clock i h cid [] none
  have hend := hdelete.trans (reaches_advance _ _ _ (.cleaning [] [] none) s')
  exact ⟨s', (reaches_advance _ _ _ (.ready (.delete cid)) s).trans hend, h'⟩

theorem sweep_alone (h : Denotes s e) :
    EndsAs blake2b clock i (.ready .sweep) s (.ok (EngineReply.count
      (e.sweepExpired clock clock).1), (e.sweepExpired clock clock).2) := by
  let ids := ((OrderedDict.values e.descriptors).filter (·.isExpired (some clock) clock)).map
    CacheDescriptor.cacheId
  have hsweeping := reaches_advance blake2b clock i (.sweeping clock) s
  simp only [advance, h.values] at hsweeping
  obtain ⟨s', hsweep, h'⟩ := reaches_sweep blake2b clock i h ids none
  have hend := hsweep.trans (reaches_advance _ _ _ (.cleaning [] [] none) s')
  refine ⟨s', ((reaches_advance _ _ _ (.ready .sweep) s).trans hsweeping).trans hend, ?_⟩
  rw [List.foldl_map] at h'
  exact h'

theorem get_alone (h : Denotes s e) (cid : String) :
    EndsAs blake2b clock i (.ready (.onLive cid .answer)) s (e.get cid clock) := by
  unfold ExplicitKVCache.get
  rcases finds h cid .answer with ⟨err, e', hlive, s', hsteps, h'⟩ | ⟨obj, d, hlive, _, _, hsteps⟩
  · rw [hlive]
    exact ⟨s', hsteps, h'⟩
  · rw [hlive]
    exact ⟨s, hsteps, h⟩

theorem lookup_alone (h : Denotes s e) (cid : String) (requestTokens : Option (List Int)) :
    EndsAs blake2b clock i (.ready (.onLive cid (.count requestTokens))) s
      (e.lookup blake2b cid requestTokens clock clock) := by
  unfold ExplicitKVCache.lookup
  rcases finds h cid (.count requestTokens) with
    ⟨err, e', hlive, s', hsteps, h'⟩ | ⟨obj, d, hlive, hobj, hd, hsteps⟩
  · rw [hlive]
    exact ⟨s', hsteps, h'⟩
  · simp only [goOn] at hsteps
    simp only [hlive]
    cases hmatched : matchedChunks blake2b d requestTokens with
    | error err =>
        rw [hmatched] at hsteps
        exact ⟨s, hsteps, h⟩
    | ok matched =>
        rw [hmatched] at hsteps
        exact ⟨_, hsteps.trans (reaches_advance _ _ _ (.touching obj) s), h.edit hobj hd _⟩

theorem load_alone (h : Denotes s e) (cid : String) (numChunks : Option Int) (worker : Int) :
    EndsAs blake2b clock i (.ready (.onLive cid (.read numChunks worker))) s
      (e.load cid numChunks worker clock) := by
  unfold ExplicitKVCache.load
  rcases finds h cid (.read numChunks worker) with
    ⟨err, e', hlive, s', hsteps, h'⟩ | ⟨obj, d, hlive, _, _, hsteps⟩
  · rw [hlive]
    exact ⟨s', hsteps, h'⟩
  · simp only [hlive, h.store]
    exact ⟨_, hsteps.trans (reaches_loadLoop cid worker _ s), h.withStore _⟩

theorem extendTtl_alone (h : Denotes s e) (cid : String) (ttl : Ttl) :
    EndsAs blake2b clock i (.ready (.onLive cid (.extend ttl))) s
      (e.extendTtl cid ttl clock clock) := by
  unfold ExplicitKVCache.extendTtl
  rcases finds h cid (.extend ttl) with
    ⟨err, e', hlive, s', hsteps, h'⟩ | ⟨obj, d, hlive, hobj, hd, hsteps⟩
  · rw [hlive]
    exact ⟨s', hsteps, h'⟩
  · simp only [hlive]
    have hextend := reaches_advance blake2b clock i (.extending cid obj ttl) s
    simp only [advance] at hextend
    cases hsum : ttl.addedTo clock with
    | error err =>
        rw [hsum] at hextend
        exact ⟨s, hsteps.trans hextend, h⟩
    | ok expiresAt =>
        rw [hsum] at hextend
        have hwrite := reaches_advance blake2b clock i (.writing cid obj expiresAt) s
        exact ⟨_, hsteps.trans (hextend.trans hwrite), h.edit hobj hd _⟩

theorem pin_alone (h : Denotes s e) (cid : String) :
    EndsAs blake2b clock i (.ready (.onLive cid (.mark true))) s (e.pin cid clock) := by
  unfold ExplicitKVCache.pin
  rcases finds h cid (.mark true) with
    ⟨err, e', hlive, s', hsteps, h'⟩ | ⟨obj, d, hlive, hobj, hd, hsteps⟩
  · rw [hlive]
    exact ⟨s', hsteps, h'⟩
  · simp only [hlive, h.store]
    have hmark := (reaches_advance blake2b clock i (.marking obj true (chunkKeys cid d)) s).trans
      (reaches_pinning true _ _)
    exact ⟨_, hsteps.trans hmark, (h.edit hobj hd _).withStore _⟩

theorem unpin_alone (h : Denotes s e) (cid : String) :
    EndsAs blake2b clock i (.ready (.onLive cid (.mark false))) s (e.unpin cid clock) := by
  unfold ExplicitKVCache.unpin
  rcases finds h cid (.mark false) with
    ⟨err, e', hlive, s', hsteps, h'⟩ | ⟨obj, d, hlive, hobj, hd, hsteps⟩
  · rw [hlive]
    exact ⟨s', hsteps, h'⟩
  · simp only [hlive, h.store]
    have hmark := (reaches_advance blake2b clock i (.marking obj false (chunkKeys cid d)) s).trans
      (reaches_pinning false _ _)
    exact ⟨_, hsteps.trans hmark, (h.edit hobj hd _).withStore _⟩

/-- A call that runs alone ends as its operation does. -/
theorem endsAs_operation (h : Denotes s e) (hnew : s.object i = none) (call : Call) :
    EndsAs blake2b clock i (.ready call) s
      (ExplicitKVCache.step blake2b e (operation clock call)) := by
  cases call with
  | register r newId => exact (register_alone h hnew r newId).map _
  | delete cid => exact delete_alone h cid
  | sweep => exact sweep_alone h
  | onLive cid use =>
      cases use with
      | answer => exact (get_alone h cid).map _
      | count requestTokens => exact (lookup_alone h cid requestTokens).map _
      | read numChunks worker => exact (load_alone h cid numChunks worker).map _
      | extend ttl => exact (extendTtl_alone h cid ttl).map _
      | mark pin =>
          cases pin with
          | true => exact (pin_alone h cid).map _
          | false => exact (unpin_alone h cid).map _

/-! ## In a world of clients -/

variable (blake2b) in
/-- Steps of one call in a row are those of the call alone. -/
theorem exec_solo (w : World σ ι) (i : ι) (ops : List Unit) :
    let w' := (World.clients blake2b σ ι).exec w (ops.map fun _ => .call i)
    (w'.phase i, w'.shared) = (solo σ blake2b w.clock i).exec (w.phase i, w.shared) ops ∧
      w'.clock = w.clock := by
  induction ops generalizing w with
  | nil => exact ⟨rfl, rfl⟩
  | cons op ops ih =>
      obtain ⟨hsolo, hclock⟩ := ih (w.step blake2b (.call i))
      refine ⟨?_, hclock⟩
      have hphase : (w.step blake2b (.call i)).phase i =
          (advance blake2b w.shared w.clock i (w.phase i)).1 := Function.update_self ..
      rw [hphase] at hsolo
      exact hsolo

theorem object_advance {j : ι} (hj : j ≠ i) (hnone : s.object j = none) (p : Phase ι) :
    (advance blake2b s clock i p).2.object j = none := by
  have hedit : ∀ obj change, (s.edit obj change).object j = none := by
    intro obj change
    simp only [Shared.edit]
    by_cases hobj : j = obj
    · subst hobj
      rw [Function.update_self, hnone, Option.map_none]
    · rw [Function.update_of_ne hobj, hnone]
  unfold advance
  dsimp only
  split
  -- publishing first, then the steps without, with one and with two tests
  all_goals first
    | exact (Function.update_of_ne hj _ _).trans hnone
    | exact hnone
    | exact hedit _ _
    | (split <;> exact hnone)
    | (split <;> [exact hnone; (split <;> exact hnone)])

variable (blake2b) in
/-- From every world whose shared state is that of an engine, a call that has
not started and takes its steps without others in between ends as the engine's
function ends, and leaves the shared state that of the engine. -/
theorem alone_run (w : World σ ι) (e : ExplicitKVCache σ) (h : Denotes w.shared e) (i : ι)
    (call : Call) (hready : w.phase i = .ready call) (hnew : w.shared.object i = none) :
    ∃ n, let w' := (World.clients blake2b σ ι).exec w (List.replicate n (.call i))
      w'.phase i = ending (ExplicitKVCache.step blake2b e (operation w.clock call)).1 ∧
      Denotes w'.shared (ExplicitKVCache.step blake2b e (operation w.clock call)).2 := by
  obtain ⟨s', ⟨ops, hops⟩, hend⟩ := endsAs_operation h hnew call
  obtain ⟨hsolo, _⟩ := exec_solo blake2b w i ops
  rw [hready, ← hops, List.map_const'] at hsolo
  obtain ⟨hphase, hshared⟩ := Prod.mk.inj hsolo
  exact ⟨ops.length, hphase, hshared ▸ hend⟩

theorem exec_ended {w : World σ ι} (hended : (w.phase i).Ended) (n : Nat) :
    (World.clients blake2b σ ι).exec w (List.replicate n (.call i)) = w := by
  have hstep : w.step blake2b (.call i) = w := by
    have hsame : advance blake2b w.shared w.clock i (w.phase i) = (w.phase i, w.shared) ∧
        renewal (w.phase i) = [] := by
      generalize w.phase i = p at hended ⊢
      cases p with
      | returned => exact ⟨rfl, rfl⟩
      | raised err => exact ⟨rfl, rfl⟩
      | _ => exact hended.elim
    simp only [World.step, hsame, Function.update_eq_self, List.append_nil]
  induction n with
  | zero => rfl
  | succ n ih =>
      rw [List.replicate_succ, Machine.exec_cons]
      exact (congrArg (fun w' => (World.clients blake2b σ ι).exec w' _) hstep).trans ih

omit [StorageBackend σ] [DecidableEq ι] in
theorem ended_ending {α : Type} (outcome : Except Raised α) : (ending (ι := ι) outcome).Ended := by
  cases outcome <;> trivial

/-! ## One call after another -/

/-- The schedule in which every call takes `n` steps at once. -/
def serial (n : Nat) : List (Event ι) → List (Event ι)
  | [] => []
  | .clock now :: order => .clock now :: serial n order
  | .call i :: order => List.replicate n (.call i) ++ serial n order

/-- The operations of the calls, each at the reading of the clock that it finds. -/
def operations (calls : ι → Call) : Time → List (Event ι) → List EngineOp
  | _, [] => []
  | clock, .clock now :: order => operations calls (max clock now) order
  | clock, .call i :: order => operation clock (calls i) :: operations calls clock order

theorem exec_object {w : World σ ι} {j : ι} {schedule : List (Event ι)}
    (hnone : w.shared.object j = none) (hj : ∀ event ∈ schedule, caller event ≠ some j) :
    ((World.clients blake2b σ ι).exec w schedule).shared.object j = none := by
  induction schedule generalizing w with
  | nil => exact hnone
  | cons event schedule ih =>
      apply ih ?_ fun other hother => hj other (List.mem_cons_of_mem _ hother)
      cases event with
      | clock now => exact hnone
      | call i =>
          have hne : j ≠ i := by
            rintro rfl
            exact hj _ (List.mem_cons_self ..) rfl
          exact object_advance hne hnone _

theorem exec_phase {w : World σ ι} {j : ι} {schedule : List (Event ι)}
    (hj : ∀ event ∈ schedule, caller event ≠ some j) :
    ((World.clients blake2b σ ι).exec w schedule).phase j = w.phase j := by
  induction schedule generalizing w with
  | nil => rfl
  | cons event schedule ih =>
      refine (ih fun other hother => hj other (List.mem_cons_of_mem _ hother)).trans ?_
      cases event with
      | clock now => rfl
      | call i =>
          have hne : j ≠ i := by
            rintro rfl
            exact hj _ (List.mem_cons_self ..) rfl
          exact Function.update_of_ne hne ..

omit [DecidableEq ι] [StorageBackend σ] in
theorem caller_of_mem_serial {n : Nat} {order : List (Event ι)} {event : Event ι} {j : ι}
    (hevent : event ∈ serial n order) (hj : caller event = some j) :
    j ∈ order.filterMap caller := by
  induction order with
  | nil => cases hevent
  | cons source order ih =>
      cases source with
      | clock now =>
          rcases List.mem_cons.mp hevent with rfl | hrest
          · cases hj
          · exact ih hrest
      | call i =>
          rcases List.mem_append.mp hevent with hhere | hrest
          · obtain rfl := List.eq_of_mem_replicate hhere
            obtain rfl := Option.some.inj hj
            exact List.mem_cons_self ..
          · exact List.mem_cons_of_mem _ (ih hrest)

variable (blake2b) in
theorem exec_clock (w : World σ ι) (i : ι) (n : Nat) :
    ((World.clients blake2b σ ι).exec w (List.replicate n (.call i))).clock = w.clock := by
  have hsolo := (exec_solo blake2b w i (List.replicate n ())).2
  rwa [List.map_replicate] at hsolo

/-- From any world whose shared state is that of an engine. -/
theorem serial_of_denotes (calls : ι → Call) (order : List (Event ι)) (w : World σ ι)
    (e : ExplicitKVCache σ) (h : Denotes w.shared e) (hnodup : (order.filterMap caller).Nodup)
    (hready : ∀ i ∈ order.filterMap caller,
      w.phase i = .ready (calls i) ∧ w.shared.object i = none) :
    ∃ enough, ∀ n ≥ enough,
      let w' := (World.clients blake2b σ ι).exec w (serial n order)
      (order.filterMap caller).map w'.phase =
        ((machine blake2b σ).trace e (operations calls w.clock order)).map
          (fun entry => ending entry.2) ∧
      Denotes w'.shared ((machine blake2b σ).exec e (operations calls w.clock order)) := by
  induction order generalizing w e with
  | nil => exact ⟨0, fun n _ => ⟨rfl, h⟩⟩
  | cons event order ih =>
      cases event with
      | clock now => exact ih (w.step blake2b (.clock now)) e h hnodup hready
      | call i =>
          obtain ⟨hi, hnodup'⟩ := List.nodup_cons.mp hnodup
          obtain ⟨hphase, hnew⟩ := hready i (List.mem_cons_self ..)
          obtain ⟨n₁, hend, h₁⟩ := alone_run blake2b w e h i (calls i) hphase hnew
          have hclock := exec_clock blake2b w i n₁
          generalize hw₁ : (World.clients blake2b σ ι).exec w (List.replicate n₁ (.call i)) = w₁
            at hend h₁ hclock
          have hothers : ∀ j ∈ order.filterMap caller,
              ∀ event ∈ List.replicate n₁ (Event.call i), caller event ≠ some j := by
            intro j hj event hevent
            obtain rfl := List.eq_of_mem_replicate hevent
            simp only [caller, ne_eq, Option.some.injEq]
            rintro rfl
            exact hi hj
          have hready₁ : ∀ j ∈ order.filterMap caller,
              w₁.phase j = .ready (calls j) ∧ w₁.shared.object j = none := by
            intro j hj
            obtain ⟨hphase', hnew'⟩ := hready j (List.mem_cons_of_mem _ hj)
            rw [← hw₁]
            exact ⟨(exec_phase (hothers j hj)).trans hphase', exec_object hnew' (hothers j hj)⟩
          obtain ⟨enough, hrest⟩ := ih w₁ _ h₁ hnodup' hready₁
          refine ⟨max n₁ enough, fun n hn => ?_⟩
          -- the call has ended after its first n₁ steps
          have hblock : (World.clients blake2b σ ι).exec w (List.replicate n (.call i)) = w₁ := by
            have hsplit : n = n₁ + (n - n₁) := by omega
            rw [hsplit, List.replicate_add, Machine.exec_append, hw₁]
            exact exec_ended (hend ▸ ended_ending _) _
          obtain ⟨hphases, hlast⟩ := hrest n (by omega)
          have hserial : serial n (.call i :: order) =
              List.replicate n (.call i) ++ serial n order := rfl
          simp only [hserial, Machine.exec_append, hblock]
          rw [hclock] at hphases hlast
          refine ⟨?_, hlast⟩
          have hkept : ∀ event ∈ serial n order, caller event ≠ some i :=
            fun event hevent hcaller => hi (caller_of_mem_serial hevent hcaller)
          simp only [operations, Machine.trace_cons, List.filterMap_cons, caller, List.map_cons]
          rw [exec_phase hkept, hend]
          exact congrArg _ hphases

/-- When the calls of a schedule run one after another, each of them once, they
end as the operations of an engine do that is called in this order, and leave
the shared state that of the engine. -/
theorem serial_run (store : σ) (chunkSize : Nat) (hpos : 0 < chunkSize)
    (defaultTtl : Option Ttl) (clock : Time) (calls : ι → Call) (order : List (Event ι))
    (honce : (order.filterMap caller).Nodup) :
    ∃ enough, ∀ n ≥ enough,
      let w := (World.clients blake2b σ ι).exec
        (.init store chunkSize hpos defaultTtl clock calls) (serial n order)
      (order.filterMap caller).map w.phase =
        ((machine blake2b σ).trace (⟨store, chunkSize, hpos, defaultTtl, ∅⟩ : ExplicitKVCache σ)
          (operations calls clock order)).map (fun entry => ending entry.2) ∧
      Denotes w.shared ((machine blake2b σ).exec ⟨store, chunkSize, hpos, defaultTtl, ∅⟩
        (operations calls clock order)) := by
  apply serial_of_denotes calls order _ _ _ honce
  · exact fun i _ => ⟨rfl, rfl⟩
  · refine ⟨rfl, rfl, rfl, rfl, fun cid => rfl, fun cid cid' obj hobj => ?_⟩
    simp [World.init] at hobj

end Steps

/-- A registration, a load in time and a deletion. -/
theorem serial_run_load :
    let r : Registration :=
      ⟨[1, 2, 3], .sequence [.ofBytes [7], .ofBytes [8]], some "c", some 9, false, none⟩
    let calls : Fin 3 → Call :=
      ![.register r "new", .onLive "c" (.read none 0), .delete "c"]
    let order : List (Event (Fin 3)) := [.call 0, .clock 5, .call 1, .clock 20, .call 2]
    let start : World UnboundedCPU (Fin 3) := .init .empty 2 (by decide) none 0 calls
    ∃ enough, ∀ n ≥ enough, ∀ i, ((World.clients sampleDigest UnboundedCPU (Fin 3)).exec start
      (serial n order)).phase i = .returned := by
  intro r calls order start
  obtain ⟨enough, hserial⟩ := @serial_run UnboundedCPU (Fin 3) _ _ sampleDigest .empty 2 (by decide)
    none 0 calls order (by decide)
  refine ⟨enough, fun n hn i => ?_⟩
  obtain ⟨hphases, _⟩ := hserial n hn
  have hok : ∀ entry ∈ (machine sampleDigest UnboundedCPU).trace ⟨.empty, 2, by decide, none, ∅⟩
      (operations calls 0 order), entry.2.isOk := by decide +kernel
  have hcaller : i ∈ order.filterMap caller := by
    revert i
    decide
  have hmem := List.mem_map_of_mem (f := ((World.clients sampleDigest UnboundedCPU (Fin 3)).exec
    start (serial n order)).phase) hcaller
  rw [hphases] at hmem
  obtain ⟨⟨op, outcome⟩, hentry, hend⟩ := List.mem_map.mp hmem
  have houtcome := hok _ hentry
  rw [← hend]
  cases outcome with
  | ok reply => rfl
  | error err => cases houtcome

end LlmCache.Engine.Solo
