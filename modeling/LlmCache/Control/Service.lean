import LlmCache.Control.Posts
import LlmCache.Control.Serve
import LlmCache.Store.Stats

/-!
# The control server as a whole

One step answers one request, whatever it asks for.  An exception that a
handler lets escape ends the connection without an answer.
-/

namespace LlmCache.Control.Service

open Errors Lib Payload LlmCache.Types Store Engine ExplicitKVCache
open KeyedStore (StandsFor)
open Engine.Simulation
open Store.ColdTiers (Chunks SafeKey Storable NeverFull neverFull_of_all)
open DiskChunks (SafeId)
open TieredSimulation (IsStorageFull)

/-- A request, with what the server reads off the clock while it handles it and
the id that it would draw. -/
structure HttpRequest where
  method : Method
  target : List Char
  content : Posts.Content
  newId : String
  readings : Readings

/-- The bodies of the answers; `single` has those about one cache. -/
inductive Answer where
  | status
  | stats (s : StoreStats) (numCaches : Nat)
  | caches (ds : List DescriptorDict)
  | single (r : Response)
deriving DecidableEq

section Respond

variable {σ : Type} [StorageBackend σ] [Reporting σ]

def single (out : Except Raised Response × ExplicitKVCache σ) :
    Except Raised Answer × ExplicitKVCache σ :=
  (out.1.map .single, out.2)

/-- What the server does once it has found the handler. -/
def handle (blake2b : List UInt8 → String) (c : Posts.Conversions) (s : ExplicitKVCache σ)
    (r : HttpRequest) : Route → Except Raised Answer × ExplicitKVCache σ
  | .collection .health => (.ok .status, s)
  | .collection .stats =>
      let listed := s.list r.readings.check r.readings.again
      (.ok (.stats (Reporting.stats s.store) listed.1.length), listed.2)
  | .collection .caches =>
      let listed := s.list r.readings.check r.readings.again
      (.ok (.caches (listed.1.map descriptorToDict)), listed.2)
  | .collection .register =>
      single (Posts.register blake2b c s r.content r.newId r.readings.check)
  | .call (.inspect cid) => single (withCache s cid r.readings.check)
  | .call (.mutate cid action) =>
      single (mutate s cid action (Posts.bodyTtl c r.content) r.readings)
  | .call (.delete cid) => single (.ok ⟨200, .deleted cid⟩, s.delete cid)
  | .notFound => (.ok (.single ⟨404, .notFound⟩), s)

def routeOf (r : HttpRequest) : Route :=
  route ⟨r.method, r.target, none⟩

def respond (blake2b : List UInt8 → String) (c : Posts.Conversions) (s : ExplicitKVCache σ)
    (r : HttpRequest) : Except Raised Answer × ExplicitKVCache σ :=
  if maxRequestLine < (requestLine r.method r.target).length then
    (.ok (.single ⟨414, .uriTooLong⟩), s)
  else handle blake2b c s r (routeOf r)

/-- The server, as its clients send one request after another. -/
def service (blake2b : List UInt8 → String) (c : Posts.Conversions) (σ : Type)
    [StorageBackend σ] [Reporting σ] : Machine (ExplicitKVCache σ) HttpRequest Raised Answer where
  step := respond blake2b c

end Respond

/-! ## Another store under the same server -/

section Alike

variable {σ τ : Type} [StorageBackend σ] [StorageBackend τ] {blake2b : List UInt8 → String}
  {ends : Raised → Prop} {id : String → Prop} {obj : KVPayload → Prop} {R : σ → τ → Prop}
  {e : ExplicitKVCache σ} {f : ExplicitKVCache τ}

theorem withCache_alike (hst : StandsForIds σ τ ends id obj R) (h : SameEngine id R e f)
    (cid : String) (clock : Time) :
    EndAlike ends (SameEngine id R) (withCache e cid clock) (withCache f cid clock) := by
  obtain ⟨hsame, hnext⟩ := (get_alike hst h cid clock).same
  unfold withCache
  simp only [hsame]
  split <;> exact .of_eq rfl hnext

theorem act_alike (hst : StandsForIds σ τ ends id obj R) (h : SameEngine id R e f) (cid : String)
    (action : Action) (ttl : Except Raised Ticks) (readings : Readings) :
    EndAlike (fun _ => False) (SameEngine id R) (act e cid action ttl readings)
      (act f cid action ttl readings) := by
  cases action with
  | pin => exact pin_alike hst h cid readings.check
  | unpin => exact unpin_alike hst h cid readings.check
  | ttl =>
      cases ttl with
      | error err => exact .of_eq rfl h
      | ok seconds =>
          have hextend := extendTtl_alike hst h cid (.float seconds) readings.check readings.stamp
          exact hextend.map _ fun hnext => hnext

theorem mutate_alike (hst : StandsForIds σ τ ends id obj R) (h : SameEngine id R e f)
    (cid : String) (action : Action) (ttl : Except Raised Ticks) (readings : Readings) :
    EndAlike ends (SameEngine id R) (mutate e cid action ttl readings)
      (mutate f cid action ttl readings) := by
  obtain ⟨hsame, hnext⟩ := (act_alike hst h cid action ttl readings).same
  unfold mutate
  simp only [hsame]
  rcases (act f cid action ttl readings).1 with err | ⟨⟩
  · cases err <;> exact .of_eq rfl hnext
  · apply EndAlike.map ((get_alike hst hnext cid readings.again).mono fun _ => False.elim)
    exact fun hlast => hlast

variable {c : Posts.Conversions}

theorem putValues_alike (hst : StandsForIds σ τ ends id obj R) {s : σ} {t : τ} (hrel : R s t)
    (hash : Except Raised Unit) (pin : Bool) {puts : List Batches.Chunk}
    (hputs : ∀ chunk ∈ puts, id chunk.1.cacheId ∧ obj chunk.2) :
    EndAlike ends R (Posts.putValues hash pin puts s) (Posts.putValues hash pin puts t) := by
  have hloop := putChunks_alike hst pin hputs hrel
  rcases hash with err | ⟨⟩
  · cases puts with
    | nil => exact hloop
    | cons chunk rest => exact .of_eq rfl hrel
  · exact hloop

omit [StorageBackend σ] [StorageBackend τ] in
theorem describe_alike (h : SameEngine id R e f) (call : Posts.Call) (newId : String)
    (now : Time) :
    Posts.describe blake2b c e call newId now = Posts.describe blake2b c f call newId now := by
  unfold Posts.describe
  rw [h.chunkSize]
  exact buildDescriptor_alike h ..

theorem cacheId_of_mem_callPuts {call : Posts.Call} {newId : String} {chunk : Batches.Chunk}
    (h : chunk ∈ Posts.callPuts c call newId) :
    chunk.1.cacheId = Posts.idText c call.cacheId newId := by
  simp only [Posts.callPuts, chunkPuts, List.mem_flatMap, List.mem_map] at h
  obtain ⟨entry, _, indexed, _, rfl⟩ := h
  rfl

omit [StorageBackend σ] [StorageBackend τ] in
theorem cacheId_of_describe {call : Posts.Call} {newId : String} {now : Time}
    {d : CacheDescriptor} (h : Posts.describe blake2b c e call newId now = .ok d) :
    d.cacheId = Posts.idText c call.cacheId newId :=
  cacheId_of_build h

theorem registerValues_alike (hst : StandsForIds σ τ ends id obj R) (h : SameEngine id R e f)
    {call : Posts.Call} {newId : String} (hid : id (Posts.idText c call.cacheId newId))
    (hputs : ∀ chunk ∈ Posts.callPuts c call newId, obj chunk.2) (now : Time) :
    EndAlike ends (SameEngine id R) (Posts.registerValues blake2b c e call newId now)
      (Posts.registerValues blake2b c f call newId now) := by
  have hloop := putValues_alike hst h.store (Posts.hashId call.cacheId) call.pin
    fun chunk hchunk => ⟨cacheId_of_mem_callPuts hchunk ▸ hid, hputs chunk hchunk⟩
  have hcount : (tokenSlices call.tokenIds f.chunkSize).length =
      (tokenSlices call.tokenIds e.chunkSize).length := by rw [h.chunkSize]
  unfold Posts.registerValues Posts.storeCall
  rw [← describe_alike h, hcount]
  cases checkCounts (tokenSlices call.tokenIds e.chunkSize).length
      (normalizePayloads (.sequence call.payloads)).entries with
  | error err => exact .of_eq rfl h
  | ok _ =>
      simp only
      generalize Posts.putValues (Posts.hashId call.cacheId) call.pin _ e.store = out at hloop ⊢
      generalize Posts.putValues (Posts.hashId call.cacheId) call.pin _ f.store = out' at hloop ⊢
      obtain ⟨result, s⟩ := out
      obtain ⟨result', t⟩ := out'
      rcases hloop with ⟨err, rfl, hends⟩ | ⟨rfl, hstore⟩
      · exact .inl ⟨err, rfl, hends⟩
      · have hstored := h.withStore hstore
        rcases result with err | ⟨⟩
        · exact .of_eq rfl hstored
        · cases hbuilt : Posts.describe blake2b c e call newId now with
          | error err => exact .of_eq rfl hstored
          | ok d =>
              cases Posts.hashId call.cacheId with
              | error err => exact .of_eq rfl hstored
              | ok _ => exact .of_eq rfl (hstored.publish hid (cacheId_of_describe hbuilt))

theorem register_alike (hst : StandsForIds σ τ ends id obj R) (h : SameEngine id R e f)
    (hcaught : ∀ err, ends err → Posts.isCaught err = false) {content : Posts.Content}
    {newId : String} (hcall : ∀ call, Posts.readCall c content = .ok call →
      id (Posts.idText c call.cacheId newId) ∧
        ∀ chunk ∈ Posts.callPuts c call newId, obj chunk.2) (now : Time) :
    EndAlike ends (SameEngine id R) (Posts.register blake2b c e content newId now)
      (Posts.register blake2b c f content newId now) := by
  unfold Posts.register
  cases hread : Posts.readCall c content with
  | error err => exact .of_eq rfl h
  | ok call =>
      obtain ⟨hid, hputs⟩ := hcall call hread
      have hvalues : EndAlike ends (SameEngine id R)
          (Posts.registerValues blake2b c e call newId now)
          (Posts.registerValues blake2b c f call newId now) :=
        registerValues_alike hst h hid hputs now
      simp only
      generalize Posts.registerValues blake2b c e call newId now = out at hvalues ⊢
      generalize Posts.registerValues blake2b c f call newId now = out' at hvalues ⊢
      obtain ⟨result, e'⟩ := out
      obtain ⟨result', f'⟩ := out'
      rcases hvalues with ⟨err, rfl, hends⟩ | ⟨rfl, hnext⟩
      · refine .inl ⟨err, ?_, hends⟩
        simp [Posts.refuse, hcaught err hends]
      · cases result <;> exact .of_eq rfl hnext

end Alike

/-! ## Requests -/

/-- The request does not ask for the statistics, and what it registers has a string
for its id or draws one, which is admitted as its payloads are. -/
structure Admitted (c : Posts.Conversions) (id : String → Prop) (obj : KVPayload → Prop)
    (r : HttpRequest) : Prop where
  not_stats : routeOf r ≠ .collection .stats
  named : routeOf r = .collection .register → ∀ call, Posts.readCall c r.content = .ok call →
    Posts.truthy call.cacheId = true → Posts.IsText call.cacheId
  registers : routeOf r = .collection .register → ∀ call, Posts.readCall c r.content = .ok call →
    id (Posts.idText c call.cacheId r.newId) ∧
      ∀ chunk ∈ Posts.callPuts c call r.newId, obj chunk.2

section Requests

variable {σ τ : Type} [StorageBackend σ] [Reporting σ] [StorageBackend τ] [Reporting τ]
  {blake2b : List UInt8 → String} {ends : Raised → Prop} {id : String → Prop}
  {obj : KVPayload → Prop} {R : σ → τ → Prop} {e : ExplicitKVCache σ} {f : ExplicitKVCache τ}
  {c : Posts.Conversions}

theorem respond_alike (hst : StandsForIds σ τ ends id obj R) (h : SameEngine id R e f)
    (hcaught : ∀ err, ends err → Posts.isCaught err = false) {r : HttpRequest}
    (hr : Admitted c id obj r) :
    EndAlike ends (SameEngine id R) (respond blake2b c e r) (respond blake2b c f r) := by
  unfold respond
  split_ifs
  · exact .of_eq rfl h
  have hstats := hr.not_stats
  have hregister := hr.registers
  generalize routeOf r = target at hstats hregister ⊢
  cases target with
  | collection target =>
      cases target with
      | health => exact .of_eq rfl h
      | stats => exact absurd rfl hstats
      | caches =>
          obtain ⟨hsame, hnext⟩ := list_alike hst h r.readings.check r.readings.again
          refine .of_eq ?_ hnext
          simp only [handle, hsame]
      | register =>
          exact (register_alike hst h hcaught (hregister rfl) r.readings.check).map _
            fun hnext => hnext
  | call call =>
      cases call with
      | inspect cid => exact (withCache_alike hst h cid _).map _ fun hnext => hnext
      | mutate cid action => exact (mutate_alike hst h cid action _ _).map _ fun hnext => hnext
      | delete cid => exact .of_eq rfl (h.delete hst cid)
  | notFound => exact .of_eq rfl h

end Requests

/-! ## The served store -/

section Served

variable {json : JsonText} {matchesPattern : String → String → Bool}

/-- A full store is no error that the handlers catch. -/
theorem isCaught_of_isStorageFull (err : Raised) (h : IsStorageFull err) :
    Posts.isCaught err = false := by
  cases err <;> first | rfl | cases h

end Served

end LlmCache.Control.Service
