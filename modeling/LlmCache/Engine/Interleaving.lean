import LlmCache.Engine.Descriptors

/-!
# The engine under concurrent clients

The engine's lock covers its dictionary of descriptors and nothing else: a call
is a sequence of dictionary accesses, clock readings and store calls, between
which other clients may run.  A descriptor is an object that calls share, known
here by the `register` call that made it.
-/

namespace LlmCache.Engine.Interleaving

open Errors Lib Payload LlmCache.Types Store ExplicitKVCache Descriptors

/-- What a call does with the descriptor that it has found live. -/
inductive Use where
  | answer
  | count (requestTokens : Option (List Int))
  | read (numChunks : Option Int) (workerId : Int)
  | extend (ttl : Ttl)
  | mark (pin : Bool)

/-- A call issued by some client.  `get` and `exists` only answer, `lookup`
counts, `load` reads, `extend_ttl` extends, `pin` and `unpin` mark; `list`
sweeps and then only reads the dictionary. -/
inductive Call where
  | register (r : Registration) (newId : String)
  | delete (cacheId : String)
  | onLive (cacheId : String) (use : Use)
  | sweep

/-- The step with which a call goes on, or how it ended. -/
inductive Phase (ι : Type) where
  | ready (call : Call)
  | putting (r : Registration) (newId : String) (rest : List (ChunkKey × KVPayload))
  | publishing (cacheId : String) (d : CacheDescriptor)
  | testing (cacheId : String) (obj : ι) (use : Use)
  | touching (obj : ι)
  | loading (keys : List ChunkKey)
  | extending (cacheId : String) (obj : ι) (ttl : Ttl)
  | writing (cacheId : String) (obj : ι) (expiresAt : Ticks)
  | marking (obj : ι) (pin : Bool) (keys : List ChunkKey)
  | pinning (pin : Bool) (keys : List ChunkKey)
  | sweeping (now : Time)
  | cleaning (keys : List ChunkKey) (ids : List String) (failure : Option Raised)
  | returned
  | raised (err : Raised)

/-- What the calls share: the store and the dictionary, whose entries refer to
descriptor objects. -/
structure Shared (σ ι : Type) where
  store : σ
  chunkSize : Nat
  chunkSize_pos : 0 < chunkSize
  defaultTtl : Option Ttl := none
  object : ι → Option CacheDescriptor := fun _ => none
  descriptors : OrderedDict String ι := ∅

variable {σ ι : Type}

namespace Shared

/-- The engine without its dictionary; building a descriptor reads no more. -/
def config (s : Shared σ ι) : ExplicitKVCache σ where
  store := s.store
  chunkSize := s.chunkSize
  chunkSize_pos := s.chunkSize_pos
  defaultTtl := s.defaultTtl

/-- The descriptor under an id. -/
def current (s : Shared σ ι) (cid : String) : Option CacheDescriptor :=
  (s.descriptors.lookup cid).bind s.object

/-- `_build_descriptor` as `register` calls it. -/
def build (blake2b : List UInt8 → String) (s : Shared σ ι) (r : Registration) (newId : String)
    (now : Time) : Except Raised CacheDescriptor :=
  buildDescriptor (tokenFingerprint blake2b) s.config (resolveId r.cacheId newId)
    (tokenSlices r.tokenIds s.chunkSize) (maxLayers (putsOf r newId))
    ((normalizePayloads r.payloads).keys.insertionSort (· ≤ ·)) r.ttl r.pin r.name now

variable [DecidableEq ι]

/-- An assignment to fields of a descriptor object. -/
def edit (s : Shared σ ι) (obj : ι) (change : CacheDescriptor → CacheDescriptor) : Shared σ ι :=
  { s with object := Function.update s.object obj ((s.object obj).map change) }

end Shared

/-- What a call goes on with after its test of a live descriptor. -/
def goOn (blake2b : List UInt8 → String) (cid : String) (obj : ι) (d : CacheDescriptor) :
    Use → Phase ι
  | .answer => .returned
  | .count requestTokens =>
      match matchedChunks blake2b d requestTokens with
      | .error err => .raised err
      | .ok _ => .touching obj
  | .read numChunks workerId =>
      let count : Int :=
        match numChunks with
        | none => d.numChunks
        | some n => min n d.numChunks
      .loading ((List.range count.toNat).map fun i : Nat => ⟨cid, i, workerId⟩)
  | .extend ttl => .extending cid obj ttl
  | .mark pin => .marking obj pin (chunkKeys cid d)

section Steps

variable [StorageBackend σ] [DecidableEq ι]

/-- The step of call `i` in the given phase: how `i` goes on, and what it leaves. -/
def advance (blake2b : List UInt8 → String) (s : Shared σ ι) (clock : Time) (i : ι) :
    Phase ι → Phase ι × Shared σ ι
  | .ready (.register r newId) =>
      match checkCounts (tokenSlices r.tokenIds s.chunkSize).length
        (normalizePayloads r.payloads).entries with
      | .error err => (.raised err, s)
      | .ok () => (.putting r newId (putsOf r newId), s)
  | .ready (.delete cid) => (.cleaning [] [cid] none, s)
  | .ready (.onLive cid use) =>
      match s.descriptors.lookup cid with
      | none => (.raised (.cacheNotFound cid), s)
      | some obj => (.testing cid obj use, s)
  | .ready .sweep => (.sweeping clock, s)
  | .putting r newId [] =>
      match s.build blake2b r newId clock with
      | .error err => (.raised err, s)
      | .ok d => (.publishing (resolveId r.cacheId newId) d, s)
  | .putting r newId ((key, payload) :: rest) =>
      let out := KeyedStore.put s.store key payload r.pin
      match out.1 with
      | .error err => (.raised err, { s with store := out.2 })
      | .ok () => (.putting r newId rest, { s with store := out.2 })
  | .publishing cid d =>
      (.returned, { s with
        object := Function.update s.object i (some d)
        descriptors := OrderedDict.setItem s.descriptors cid i })
  | .testing cid obj use =>
      match s.object obj with
      | none => (.testing cid obj use, s)
      | some d =>
          if d.isExpired none clock then (.cleaning [] [cid] (some (.cacheExpired cid)), s)
          else (goOn blake2b cid obj d use, s)
  | .touching obj =>
      (.returned, s.edit obj fun d => { d with hits := d.hits + 1, lastUsedAt := some clock })
  | .loading [] => (.returned, s)
  | .loading (key :: keys) =>
      let out := KeyedStore.get s.store key
      match out.1 with
      | .error err => (.raised err, { s with store := out.2 })
      | .ok none =>
          (.raised (.cacheMismatch key.cacheId key.chunkIndex.toNat key.workerId),
            { s with store := out.2 })
      | .ok (some _) => (.loading keys, { s with store := out.2 })
  | .extending cid obj ttl =>
      match ttl.addedTo clock with
      | .error err => (.raised err, s)
      | .ok expiresAt => (.writing cid obj expiresAt, s)
  | .writing _ obj expiresAt =>
      (.returned, s.edit obj fun d => { d with expiresAt := some expiresAt })
  | .marking obj pin keys =>
      (.pinning pin keys, s.edit obj fun d => { d with pinned := pin })
  | .pinning _ [] => (.returned, s)
  | .pinning pin (key :: keys) =>
      (.pinning pin keys, { s with
        store := if pin then KeyedStore.pin s.store key else KeyedStore.unpin s.store key })
  | .sweeping now =>
      let found := (OrderedDict.values s.descriptors).filterMap s.object
      (.cleaning [] ((found.filter (·.isExpired (some now) clock)).map CacheDescriptor.cacheId)
        none, s)
  | .cleaning (key :: keys) ids failure =>
      (.cleaning keys ids failure, { s with store := (KeyedStore.remove s.store key).2 })
  | .cleaning [] (cid :: ids) failure =>
      match s.current cid with
      | none => (.cleaning [] ids failure, s)
      | some d =>
          (.cleaning (chunkKeys cid d) ids failure,
            { s with descriptors := s.descriptors.erase cid })
  | .cleaning [] [] none => (.returned, s)
  | .cleaning [] [] (some err) => (.raised err, s)
  | .returned => (.returned, s)
  | .raised err => (.raised err, s)

end Steps

/-- The shared state, the clock, where each call stands, and the renewals that
have returned: for which id, and the expiry they set. -/
structure World (σ ι : Type) where
  shared : Shared σ ι
  clock : Time
  phase : ι → Phase ι
  renewals : List (String × Option Ticks) := []

/-- A call takes its next step, or time passes. -/
inductive Event (ι : Type) where
  | call (i : ι)
  | clock (now : Time)

/-- Who takes a step. -/
def caller : Event ι → Option ι
  | .call i => some i
  | .clock _ => none

/-- The renewal that a step completes. -/
def renewal : Phase ι → List (String × Option Ticks)
  | .publishing cid d => [(cid, d.expiresAt)]
  | .writing cid _ expiresAt => [(cid, some expiresAt)]
  | _ => []

namespace World

variable [StorageBackend σ] [DecidableEq ι] (blake2b : List UInt8 → String)

/-- The clock never runs backwards. -/
def step (w : World σ ι) : Event ι → World σ ι
  | .call i =>
      { shared := (advance blake2b w.shared w.clock i (w.phase i)).2
        clock := w.clock
        phase := Function.update w.phase i (advance blake2b w.shared w.clock i (w.phase i)).1
        renewals := w.renewals ++ renewal (w.phase i) }
  | .clock now => { w with clock := max w.clock now }

/-- The clients' calls, none of them started, and an engine without caches. -/
def init (store : σ) (chunkSize : Nat) (chunkSize_pos : 0 < chunkSize) (defaultTtl : Option Ttl)
    (clock : Time) (calls : ι → Call) : World σ ι :=
  { shared := { store, chunkSize, chunkSize_pos, defaultTtl }
    clock := clock
    phase := fun i => .ready (calls i) }

/-- The clients as a machine. -/
def clients (σ ι : Type) [StorageBackend σ] [DecidableEq ι] :
    Machine (World σ ι) (Event ι) Raised Unit where
  step w event := (.ok (), w.step blake2b event)

end World

/-! ## Phases seen from one cache id -/

namespace Phase

/-- A `register` call for the id is under way. -/
def Registers (cid : String) : Phase ι → Prop
  | .putting r newId _ => resolveId r.cacheId newId = cid
  | .publishing id _ => id = cid
  | _ => False

/-- The next step is one of a `register` call for the id. -/
def OfRegister (cid : String) : Phase ι → Prop
  | .ready (.register r newId) => resolveId r.cacheId newId = cid
  | p => p.Registers cid

/-- A clean-up has chunks of the id left to remove. -/
def Cleans (cid : String) : Phase ι → Prop
  | .cleaning keys _ _ => ∃ key ∈ keys, key.cacheId = cid
  | _ => False

/-- A `register` call has put a chunk under the key, and has not published yet. -/
def HasPut (key : ChunkKey) : Phase ι → Prop
  | .putting r newId rest =>
      key ∈ (putsOf r newId).map Prod.fst ∧ key ∉ rest.map Prod.fst
  | .publishing cid d => key ∈ chunkKeys cid d
  | _ => False

/-- A clean-up has the chunk left to remove. -/
def Removes (key : ChunkKey) : Phase ι → Prop
  | .cleaning keys _ _ => key ∈ keys
  | _ => False

/-- The next step takes the id out of the dictionary. -/
def Pops (cid : String) : Phase ι → Prop
  | .cleaning [] (id :: _) _ => id = cid
  | _ => False

/-- The call goes on with the object as the descriptor of the id. -/
def Refers (cid : String) (obj : ι) : Phase ι → Prop
  | .testing id o _ | .extending id o _ | .writing id o _ => id = cid ∧ o = obj
  | _ => False

/-- The object that the next step renews for the id. -/
def rewrites (cid : String) : Phase ι → Option ι
  | .writing id obj _ => if id = cid then some obj else none
  | _ => none

/-- The call has returned or raised. -/
def Ended : Phase ι → Prop
  | .returned | .raised _ => True
  | _ => False

/-- The call has not published a descriptor yet. -/
def Unpublished : Phase ι → Prop
  | .ready _ | .putting .. | .publishing .. => True
  | _ => False

/-- The call has started, and neither registers nor has chunks left to remove. -/
def Plain : Phase ι → Prop
  | .ready _ | .putting .. | .publishing .. | .cleaning (_ :: _) _ _ => False
  | _ => True

section Decidable

variable (cid : String) (key : ChunkKey)

instance : DecidablePred (Registers (ι := ι) cid) := fun p =>
  match p with
  | .putting r newId _ => inferInstanceAs (Decidable (resolveId r.cacheId newId = cid))
  | .publishing id _ => inferInstanceAs (Decidable (id = cid))
  | .ready _ | .testing .. | .touching _ | .loading _ | .extending .. | .writing .. | .marking ..
  | .pinning .. | .sweeping _ | .cleaning .. | .returned | .raised _ => .isFalse id

instance : DecidablePred (OfRegister (ι := ι) cid) := fun p =>
  match p with
  | .ready (.register r newId) => inferInstanceAs (Decidable (resolveId r.cacheId newId = cid))
  | .putting r newId _ => inferInstanceAs (Decidable (resolveId r.cacheId newId = cid))
  | .publishing id _ => inferInstanceAs (Decidable (id = cid))
  | .ready (.delete _) | .ready (.onLive ..) | .ready .sweep | .testing .. | .touching _
  | .loading _ | .extending .. | .writing .. | .marking .. | .pinning .. | .sweeping _
  | .cleaning .. | .returned | .raised _ => .isFalse id

instance : DecidablePred (Cleans (ι := ι) cid) := fun p =>
  match p with
  | .cleaning keys _ _ => inferInstanceAs (Decidable (∃ key ∈ keys, key.cacheId = cid))
  | .ready _ | .putting .. | .publishing .. | .testing .. | .touching _ | .loading _
  | .extending .. | .writing .. | .marking .. | .pinning .. | .sweeping _ | .returned
  | .raised _ => .isFalse id

instance : DecidablePred (HasPut (ι := ι) key) := fun p =>
  match p with
  | .putting r newId rest =>
      inferInstanceAs (Decidable (key ∈ (putsOf r newId).map Prod.fst ∧ key ∉ rest.map Prod.fst))
  | .publishing cid d => inferInstanceAs (Decidable (key ∈ chunkKeys cid d))
  | .ready _ | .testing .. | .touching _ | .loading _ | .extending .. | .writing .. | .marking ..
  | .pinning .. | .sweeping _ | .cleaning .. | .returned | .raised _ => .isFalse id

instance : DecidablePred (Removes (ι := ι) key) := fun p =>
  match p with
  | .cleaning keys _ _ => inferInstanceAs (Decidable (key ∈ keys))
  | .ready _ | .putting .. | .publishing .. | .testing .. | .touching _ | .loading _
  | .extending .. | .writing .. | .marking .. | .pinning .. | .sweeping _ | .returned
  | .raised _ => .isFalse id

instance : DecidablePred (Pops (ι := ι) cid) := fun p =>
  match p with
  | .cleaning [] (id :: _) _ => inferInstanceAs (Decidable (id = cid))
  | .cleaning [] [] _ | .cleaning (_ :: _) _ _ | .ready _ | .putting .. | .publishing ..
  | .testing .. | .touching _ | .loading _ | .extending .. | .writing .. | .marking ..
  | .pinning .. | .sweeping _ | .returned | .raised _ => .isFalse id

instance : DecidablePred (Ended (ι := ι)) := fun p =>
  match p with
  | .returned | .raised _ => .isTrue trivial
  | .ready _ | .putting .. | .publishing .. | .testing .. | .touching _ | .loading _
  | .extending .. | .writing .. | .marking .. | .pinning .. | .sweeping _
  | .cleaning .. => .isFalse id

instance (p : Phase ι) : Decidable (p = .returned) :=
  match p with
  | .returned => .isTrue rfl
  | .ready _ | .putting .. | .publishing .. | .testing .. | .touching _ | .loading _
  | .extending .. | .writing .. | .marking .. | .pinning .. | .sweeping _ | .cleaning ..
  | .raised _ => .isFalse fun h => Phase.noConfusion rfl (heq_of_eq h)

end Decidable

theorem Plain.not_unpublished {p : Phase ι} (h : p.Plain) : ¬p.Unpublished := by
  cases p with
  | ready => exact h.elim
  | putting => exact h.elim
  | publishing => exact h.elim
  | _ => exact not_false

theorem Plain.not_registers {p : Phase ι} (h : p.Plain) (cid : String) : ¬p.Registers cid := by
  cases p with
  | putting => exact h.elim
  | publishing => exact h.elim
  | _ => exact not_false

theorem Plain.not_removes {p : Phase ι} (h : p.Plain) (key : ChunkKey) : ¬p.Removes key := by
  cases p with
  | cleaning keys ids failure =>
      cases keys with
      | nil => exact List.not_mem_nil
      | cons key keys => exact h.elim
  | _ => exact not_false

theorem Plain.not_cleans {p : Phase ι} (h : p.Plain) (cid : String) : ¬p.Cleans cid := by
  cases p with
  | cleaning keys ids failure =>
      cases keys with
      | nil => simp [Cleans]
      | cons key keys => exact h.elim
  | _ => exact not_false

end Phase

end LlmCache.Engine.Interleaving
