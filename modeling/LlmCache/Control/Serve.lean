import LlmCache.Engine.CatalogueRefinement
import LlmCache.Engine.Simulation
import LlmCache.Store.DiskRestarts
import LlmCache.Store.Stats

/-!
# `llmcache serve`

The store that the arguments ask for and the engine over it.  Whatever store it
is, as long as it keeps what it is given, the engine answers as it would over
one plain map.
-/

namespace LlmCache.Control.Serve

open Errors Lib Payload LlmCache.Types Store Engine ExplicitKVCache
open KeyedStore (StandsFor Passes)
open DiskChunks (SafeId Tidy)
open Interchange (Fits Remote)
open Store.ColdTiers
open TieredSimulation (IsStorageFull)
open Engine.Simulation (SameEngine Admits onStore)
open CatalogueRefinement (Asks)

/-! ## The store -/

/-- The choices of `--store`. -/
inductive StoreKind where
  | cpu
  | disk
  | redis
  | tiered
deriving DecidableEq, Repr

/-- What `serve` makes its engine of. -/
structure Args where
  store : StoreKind := .cpu
  diskPath : String := "/tmp/llmcache"
  redisUrl : Option String := none
  redisTtl : Option Int := none
  capacityBytes : Option Nat := none
  chunkSize : Int := 256
  ttl : Option Ticks := none

/-- What the backends reach: the file system, and the server behind a URL, or
what `redis.Redis.from_url` raises. -/
structure World where
  fs : FileSystem
  connect : String → Except Raised RedisClient

variable {json : JsonText} {matchesPattern : String → String → Bool}

/-- The backends that keep chunks outside of the process. -/
inductive Cold (json : JsonText) (matchesPattern : String → String → Bool) where
  | disk (s : DiskStore json)
  | redis (s : Remote json matchesPattern)

instance : StorageBackend (Cold json matchesPattern) where
  put
    | .disk s, key, obj, pin =>
        ((KeyedStore.put s key obj pin).1, .disk (KeyedStore.put s key obj pin).2)
    | .redis s, key, obj, pin =>
        ((KeyedStore.put s key obj pin).1, .redis (KeyedStore.put s key obj pin).2)
  get
    | .disk s, key => ((KeyedStore.get s key).1, .disk (KeyedStore.get s key).2)
    | .redis s, key => ((KeyedStore.get s key).1, .redis (KeyedStore.get s key).2)
  contains
    | .disk s, key => KeyedStore.contains s key
    | .redis s, key => KeyedStore.contains s key
  remove
    | .disk s, key => ((KeyedStore.remove s key).1, .disk (KeyedStore.remove s key).2)
    | .redis s, key => ((KeyedStore.remove s key).1, .redis (KeyedStore.remove s key).2)
  pin
    | .disk s, key => .disk (KeyedStore.pin s key)
    | .redis s, key => .redis (KeyedStore.pin s key)
  unpin
    | .disk s, key => .disk (KeyedStore.unpin s key)
    | .redis s, key => .redis (KeyedStore.unpin s key)
  keys
    | .disk s => KeyedStore.keys s
    | .redis s => KeyedStore.keys s

/-- The stores of `serve`. -/
inductive Built (json : JsonText) (matchesPattern : String → String → Bool) where
  | cpu (s : CPUBackend)
  | cold (s : Cold json matchesPattern)
  | tiered (t : TieredBackend (Cold json matchesPattern))

instance : StorageBackend (Built json matchesPattern) where
  put
    | .cpu s, key, obj, pin =>
        ((KeyedStore.put s key obj pin).1, .cpu (KeyedStore.put s key obj pin).2)
    | .cold s, key, obj, pin =>
        ((KeyedStore.put s key obj pin).1, .cold (KeyedStore.put s key obj pin).2)
    | .tiered t, key, obj, pin =>
        ((KeyedStore.put t key obj pin).1, .tiered (KeyedStore.put t key obj pin).2)
  get
    | .cpu s, key => ((KeyedStore.get s key).1, .cpu (KeyedStore.get s key).2)
    | .cold s, key => ((KeyedStore.get s key).1, .cold (KeyedStore.get s key).2)
    | .tiered t, key => ((KeyedStore.get t key).1, .tiered (KeyedStore.get t key).2)
  contains
    | .cpu s, key => KeyedStore.contains s key
    | .cold s, key => KeyedStore.contains s key
    | .tiered t, key => KeyedStore.contains t key
  remove
    | .cpu s, key => ((KeyedStore.remove s key).1, .cpu (KeyedStore.remove s key).2)
    | .cold s, key => ((KeyedStore.remove s key).1, .cold (KeyedStore.remove s key).2)
    | .tiered t, key => ((KeyedStore.remove t key).1, .tiered (KeyedStore.remove t key).2)
  pin
    | .cpu s, key => .cpu (KeyedStore.pin s key)
    | .cold s, key => .cold (KeyedStore.pin s key)
    | .tiered t, key => .tiered (KeyedStore.pin t key)
  unpin
    | .cpu s, key => .cpu (KeyedStore.unpin s key)
    | .cold s, key => .cold (KeyedStore.unpin s key)
    | .tiered t, key => .tiered (KeyedStore.unpin t key)
  keys
    | .cpu s => KeyedStore.keys s
    | .cold s => KeyedStore.keys s
    | .tiered t => KeyedStore.keys t

instance : Reporting (Cold json matchesPattern) where
  stats
    | .disk s => Reporting.stats s
    | .redis s => Reporting.stats s

instance : Reporting (Built json matchesPattern) where
  stats
    | .cpu s => Reporting.stats s
    | .cold s => Reporting.stats s
    | .tiered t => Reporting.stats t

/-- `DiskBackend(args.disk_path)`. -/
def openDisk (w : World) (args : Args) : Except Raised (Cold json matchesPattern) :=
  (DiskBackend.create w.fs args.diskPath none).map fun s => .disk ⟨s⟩

/-- `RedisBackend(url=args.redis_url, key_ttl=args.redis_ttl)`. -/
def openRedis (w : World) (args : Args) : Except Raised (Cold json matchesPattern) :=
  match args.redisUrl with
  | none => .error (.valueError "RedisBackend needs a client or a url")
  | some url =>
      (w.connect url).map fun client => .redis { client := client, keyTtl := args.redisTtl }

/-- The cold tier of `--store tiered`: an empty URL is none. -/
def openCold (w : World) (args : Args) : Except Raised (Cold json matchesPattern) :=
  if args.redisUrl.getD "" = "" then openDisk w args else openRedis w args

/-- `_build_store`. -/
def buildStore (w : World) (args : Args) : Except Raised (Built json matchesPattern) :=
  match args.store with
  | .cpu => .ok (.cpu { capacityBytes := args.capacityBytes })
  | .disk => (openDisk w args).map .cold
  | .redis => (openRedis w args).map .cold
  | .tiered => (openCold w args).map fun cold =>
      .tiered ⟨{ capacityBytes := args.capacityBytes }, cold⟩

/-- The engine of `_cmd_serve`. -/
def boot (w : World) (args : Args) :
    Except Raised (ExplicitKVCache (Built json matchesPattern)) := do
  let store ← buildStore w args
  ExplicitKVCache.create store args.chunkSize (args.ttl.map .float)

/-! ## What the store stands for -/

namespace Cold

/-- The backend keeps what it is given, and finds nothing that it cannot read. -/
def Keeps : Cold json matchesPattern → Prop
  | .disk s => Tidy json s.backend
  | .redis s => s.keyTtl = none ∧ Readable (Storable json) s

/-- The payload that the backend has under a key. -/
def held : Cold json matchesPattern → ChunkKey → Option KVPayload
  | .disk s, key => s.held key
  | .redis s, key => (s.get key).toOption.join

/-- The backend has the content of the plain map. -/
def Has (c : Cold json matchesPattern) (m : Chunks) : Prop :=
  (∃ s, c = .disk s ∧ OnDisk s m) ∨ ∃ s, c = .redis s ∧ OnServer (Storable json) s m

theorem passes_disk : Passes (Cold.disk : DiskStore json → Cold json matchesPattern) where
  put _ _ _ _ := rfl
  get _ _ := rfl
  contains _ _ := rfl
  remove _ _ := rfl
  pin _ _ := rfl
  unpin _ _ := rfl

theorem passes_redis :
    Passes (Cold.redis : Remote json matchesPattern → Cold json matchesPattern) where
  put _ _ _ _ := rfl
  get _ _ := rfl
  contains _ _ := rfl
  remove _ _ := rfl
  pin _ _ := rfl
  unpin _ _ := rfl

theorem reads_storable (hjson : json.Inverts) :
    Reads (Interchange.framedCodec json matchesPattern) (Storable json) := by
  intro obj hobj
  rcases packPayload_cases json obj with ⟨_, blob, hpack⟩ | ⟨hlong, _⟩
  · exact ⟨blob, hpack, Interchange.unpack_framed hjson ⟨hobj.metadata, hpack⟩⟩
  · exact absurd hobj.fits (not_lt.mpr hlong)

theorem standsFor (hjson : json.Inverts) :
    StandsFor (Cold json matchesPattern) Chunks (fun _ => False) SafeKey (Storable json) Has :=
  ((standsFor_disk Chunks hjson).along passes_disk).or
    ((standsFor_redis Chunks (reads_storable hjson) SafeKey).along passes_redis)

theorem has_content (hjson : json.Inverts) {c : Cold json matchesPattern} (h : c.Keeps) :
    ∃ m : Chunks, (∀ key, SafeKey key → m.view key = c.held key) ∧ c.Has m := by
  cases c with
  | disk s =>
      refine ⟨diskContent hjson s h, fun key hsafe => if_pos hsafe, ?_⟩
      exact .inl ⟨s, rfl, onDisk_content hjson s h⟩
  | redis s =>
      refine ⟨serverContent s h.2, fun _ _ => rfl, ?_⟩
      exact .inr ⟨s, rfl, onServer_content s h.1 h.2⟩

end Cold

namespace Built

/-- No chunk is dropped: there is no capacity, or a cold tier behind it. -/
def Keeps : Built json matchesPattern → Prop
  | .cpu s => s.capacityBytes = none
  | .cold c => c.Keeps
  | .tiered t => t.cold.Keeps

/-- The payload that the backend has under a key outside of the process. -/
def held : Built json matchesPattern → ChunkKey → Option KVPayload
  | .cpu _, _ => none
  | .cold c, key => c.held key
  | .tiered t, key => t.cold.held key

def Has (b : Built json matchesPattern) (m : Chunks) : Prop :=
  (∃ s, b = .cpu s ∧ InMemory SafeKey (Storable json) s m) ∨ (∃ c, b = .cold c ∧ c.Has m) ∨
    ∃ t, b = .tiered t ∧ Tiers SafeKey (Storable json) Cold.Has t m

theorem passes_cpu : Passes (Built.cpu : CPUBackend → Built json matchesPattern) where
  put _ _ _ _ := rfl
  get _ _ := rfl
  contains _ _ := rfl
  remove _ _ := rfl
  pin _ _ := rfl
  unpin _ _ := rfl

theorem passes_cold :
    Passes (Built.cold : Cold json matchesPattern → Built json matchesPattern) where
  put _ _ _ _ := rfl
  get _ _ := rfl
  contains _ _ := rfl
  remove _ _ := rfl
  pin _ _ := rfl
  unpin _ _ := rfl

theorem passes_tiered :
    Passes (Built.tiered : TieredBackend (Cold json matchesPattern) →
      Built json matchesPattern) where
  put _ _ _ _ := rfl
  get _ _ := rfl
  contains _ _ := rfl
  remove _ _ := rfl
  pin _ _ := rfl
  unpin _ _ := rfl

/-- Every store of `serve` stands for one plain map until it is full. -/
theorem standsFor (hjson : json.Inverts) :
    StandsFor (Built json matchesPattern) Chunks IsStorageFull SafeKey (Storable json) Has := by
  refine .or ?cpu (.or ?cold ?tiered)
  case cpu =>
    exact ((standsFor_cpu Chunks SafeKey (Storable json)).along passes_cpu).mono fun _ => False.elim
  case cold => exact ((Cold.standsFor hjson).along passes_cold).mono fun _ => False.elim
  case tiered =>
    exact ((standsFor_tiered (Cold.standsFor hjson)).along passes_tiered).mono fun _ hends =>
      hends.resolve_left id

end Built

/-! ## The engine -/

/-- A store as `serve` starts with it: nothing is in memory. -/
inductive Fresh : Built json matchesPattern → Prop
  | cpu (capacityBytes : Option Nat) : Fresh (.cpu { capacityBytes := capacityBytes })
  | cold (c : Cold json matchesPattern) : Fresh (.cold c)
  | tiered (capacityBytes : Option Nat) (c : Cold json matchesPattern) :
      Fresh (.tiered ⟨{ capacityBytes := capacityBytes }, c⟩)

theorem ok_of_map {α β : Type} {x : Except Raised α} {f : α → β} {b : β}
    (h : x.map f = .ok b) : ∃ a, x = .ok a ∧ f a = b := by
  cases x with
  | error err => cases h
  | ok a => exact ⟨a, rfl, Except.ok.inj h⟩

theorem fresh_buildStore {w : World} {args : Args} {s : Built json matchesPattern}
    (h : buildStore w args = .ok s) : Fresh s := by
  unfold buildStore at h
  cases hkind : args.store with
  | cpu =>
      rw [hkind] at h
      obtain rfl := Except.ok.inj h
      exact .cpu _
  | disk =>
      rw [hkind] at h
      obtain ⟨c, _, rfl⟩ := ok_of_map h
      exact .cold c
  | redis =>
      rw [hkind] at h
      obtain ⟨c, _, rfl⟩ := ok_of_map h
      exact .cold c
  | tiered =>
      rw [hkind] at h
      obtain ⟨c, _, rfl⟩ := ok_of_map h
      exact .tiered _ c

theorem Fresh.has_content (hjson : json.Inverts) {b : Built json matchesPattern} (h : Fresh b)
    (hkeeps : b.Keeps) :
    ∃ m : Chunks, (∀ key, SafeKey key → m.view key = b.held key) ∧ b.Has m := by
  cases h with
  | cpu capacityBytes =>
      refine ⟨.empty _ _ _, fun _ _ => rfl, .inl ⟨_, rfl, ?_⟩⟩
      obtain rfl : capacityBytes = none := hkeeps
      exact inMemory_empty ..
  | cold c =>
      obtain ⟨m, hview, hhas⟩ := Cold.has_content hjson hkeeps
      exact ⟨m, hview, .inr (.inl ⟨c, rfl, hhas⟩)⟩
  | tiered capacityBytes c =>
      obtain ⟨m, hview, hhas⟩ := Cold.has_content hjson hkeeps
      refine ⟨m, hview, .inr (.inr ⟨_, rfl, ?_⟩)⟩
      exact tiers_of_cold (Cold.standsFor hjson) capacityBytes hhas

theorem boot_spec {w : World} {args : Args} {e : ExplicitKVCache (Built json matchesPattern)}
    (h : boot w args = .ok e) : Fresh e.store ∧ e.descriptors = ∅ := by
  unfold boot at h
  generalize hbuild : buildStore w args = built at h
  cases built with
  | error err => cases h
  | ok s =>
      simp only [bind, Except.bind, ExplicitKVCache.create] at h
      split_ifs at h
      obtain rfl := Except.ok.inj h
      exact ⟨fresh_buildStore hbuild, rfl⟩

/-- The served engine and the one over the plain map that its store has at first. -/
theorem boot_same (hjson : json.Inverts) {w : World} {args : Args}
    {e : ExplicitKVCache (Built json matchesPattern)} (hboot : boot w args = .ok e)
    (hkeeps : e.store.Keeps) :
    ∃ m : Chunks, (∀ key, SafeKey key → m.view key = e.store.held key) ∧
      SameEngine SafeId Built.Has e (onStore e m) := by
  obtain ⟨hfresh, hempty⟩ := boot_spec hboot
  obtain ⟨m, hview, hhas⟩ := hfresh.has_content hjson hkeeps
  refine ⟨m, hview, rfl, rfl, rfl, hhas, fun cid d hd => ?_⟩
  rw [hempty] at hd
  cases hd

theorem nothing_in_nothing (name : String) (location : Location) :
    (nodeAt ∅ (name :: location)).isSome →
      nodeAt ∅ location = some Node.directory := by
  simp [nodeAt]

/-- A machine with an empty disk and no server. -/
def sampleWorld : World where
  fs := { closed := nothing_in_nothing }
  connect _ := .error (.runtimeError "redis-py is required for url-based RedisBackend")

/-- `serve --store tiered --disk-path /store`, with room for one chunk in memory. -/
def sampleArgs : Args :=
  { store := .tiered, diskPath := "/store", capacityBytes := some samplePayload.nbytes,
    chunkSize := 2 }

noncomputable def sampleEngine : ExplicitKVCache (Built sampleJson Interchange.prefixMatch) where
  store := .tiered ⟨{ capacityBytes := some samplePayload.nbytes },
    .disk ⟨DiskIsolation.sampleStore⟩⟩
  chunkSize := 2
  chunkSize_pos := Nat.two_pos

theorem boot_sample : boot sampleWorld sampleArgs = .ok sampleEngine := rfl

theorem tidy_sample : Tidy sampleJson DiskIsolation.sampleStore :=
  (@DiskRestarts.faithful_create _ "/store" _ {} none rfl fun _ => rfl).clean.tidy

theorem storable_sample : Storable sampleJson samplePayload where
  metadata := wellFormed_samplePayload
  fits := by decide +kernel

/-- Whatever store is asked for, as long as it drops nothing, a server answers as
a catalogue of prompts until its store is full. -/
theorem catalogue_run (hjson : json.Inverts) {blake2b : List UInt8 → String}
    (hinj : Function.Injective blake2b) {w : World} {args : Args}
    {e : ExplicitKVCache (Built json matchesPattern)} (hboot : boot w args = .ok e)
    (hkeeps : e.store.Keeps) {ops : List EngineOp}
    (hops : ∀ op ∈ ops, Admits SafeId (Storable json) op) :
    let t : Catalogue := { chunkSize := e.chunkSize, defaultTtl := e.defaultTtl }
    (Catalogue.machine blake2b).StepsMeet Asks t ops → NeverFull ((machine blake2b _).trace e ops) →
      (machine blake2b _).trace e ops = (Catalogue.machine blake2b).trace t ops := by
  intro t hasks hroom
  obtain ⟨m, _, hsame⟩ := boot_same hjson hboot hkeeps
  have hplain := (Engine.Simulation.run_alike (Built.standsFor hjson) hsame hops hroom).1
  have hempty : (onStore e m).descriptors = ∅ := (boot_spec hboot).2
  rw [hplain]
  exact CatalogueRefinement.trace_represents hinj
    (CatalogueRefinement.represents_empty hempty) hasks

/-- Two prompts with one of them in memory, a request that goes on as the first
one does, and the sweep that finds it over. -/
theorem catalogue_run_demoted :
    let chunk : Payloads := .sequence [samplePayload]
    let ops : List EngineOp := [.register ⟨[1, 2], chunk, some "a", some 5, false, none⟩ "new" 0,
      .register ⟨[3, 4], chunk, some "b", none, false, none⟩ "new" 1,
      .lookup "a" (some [1, 2, 5]) 2 2, .load "b" none 0 3, .list 6 6, .exists "a" 7]
    (machine Prefix.sampleDigest _).trace sampleEngine ops =
      (Catalogue.machine Prefix.sampleDigest).trace { chunkSize := 2 } ops := by
  intro chunk ops
  have hb : SafeId "b" := ⟨⟨by decide, by decide, by decide, by decide⟩, by decide⟩
  have hputs : ∀ cid : String, ∀ put ∈ chunkPuts cid (normalizePayloads chunk),
      Storable sampleJson put.2 := by
    intro cid put hput
    rw [List.mem_singleton.mp hput]
    exact storable_sample
  have hops : ∀ op ∈ ops, Admits SafeId (Storable sampleJson) op := by
    intro op hop
    simp only [ops, List.mem_cons, List.not_mem_nil, or_false] at hop
    rcases hop with rfl | rfl | rfl | rfl | rfl | rfl
    · exact ⟨Interchange.safeId_sample, hputs "a"⟩
    · exact ⟨hb, hputs "b"⟩
    all_goals trivial
  exact catalogue_run sampleJson_inverts Prefix.sampleDigest_injective boot_sample tidy_sample
    hops (by decide +kernel) (neverFull_of_all (by decide +kernel))

end LlmCache.Control.Serve
