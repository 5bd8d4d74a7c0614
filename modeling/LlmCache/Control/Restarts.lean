import LlmCache.Control.Serve
import LlmCache.Engine.Fleet

/-!
# Processes that share a cold tier

`serve --store tiered`, as one process after another is started with the same
arguments on what the one before has left outside of its memory, and as several
of them run at once.
-/

namespace LlmCache.Control.Restarts

open Errors Lib Payload LlmCache.Types Store Engine ExplicitKVCache
open KeyedStore (StandsFor Steady)
open DiskChunks (SafeId Tidy)
open Engine.Fleet (member joined Fresh)
open Engine.Restarts (Life lives restarted AdmitsLife SparesLife Mirrors taken)
open Engine.Simulation (Admits onStore)
open Engine.Descriptors (putsOf)
open Store.ColdTiers
open Serve (World Args Cold Built openDisk openRedis openCold)
open TieredRestarts (processes mayHold)

variable {json : JsonText} {matchesPattern : String → String → Bool} {w : World} {args : Args}

/-- What a process leaves behind. -/
def left (w : World) : Cold json matchesPattern → World
  | .disk s => { w with fs := s.backend.fs }
  | .redis s => { w with connect := fun _ => .ok s.client }

/-- The cold tier as the next process opens it. -/
def reopen (w : World) (args : Args) (c : Cold json matchesPattern) : Cold json matchesPattern :=
  match openCold (left w c) args with
  | .ok c' => c'
  | .error _ => c

/-- What a backend has of the arguments. -/
def OpenedBy (args : Args) : Cold json matchesPattern → Prop
  | .disk s => args.redisUrl.getD "" = "" ∧ s.backend.root = PurePath.ofString args.diskPath
  | .redis s => args.redisUrl.getD "" ≠ "" ∧ s.«namespace» = "llmcache" ∧
      s.keyTtl = args.redisTtl

theorem openedBy_openCold {c : Cold json matchesPattern} (h : openCold w args = .ok c) :
    OpenedBy args c := by
  unfold openCold at h
  split_ifs at h with hurl
  · obtain ⟨s, hcreate, rfl⟩ := Serve.ok_of_map h
    refine ⟨hurl, ?_⟩
    unfold DiskBackend.create at hcreate
    simp only at hcreate
    split_ifs at hcreate
    split at hcreate
    · cases hcreate
    · rw [← Except.ok.inj hcreate]
  · unfold openRedis at h
    split at h
    · cases h
    · obtain ⟨client, _, rfl⟩ := Serve.ok_of_map h
      exact ⟨hurl, rfl, rfl⟩

theorem steady_openedBy (args : Args) :
    Steady (OpenedBy args : Cold json matchesPattern → Prop) where
  put c k o pin h := by
    cases c with
    | disk s => exact ⟨h.1, (DiskIsolation.root_put ..).trans h.2⟩
    | redis s =>
        obtain ⟨hname, httl⟩ := s.namespace_put k o pin
        exact ⟨h.1, hname.trans h.2.1, httl.trans h.2.2⟩
  get c k h := by
    cases c with
    | disk s => exact ⟨h.1, (DiskIsolation.root_get ..).trans h.2⟩
    | redis s => exact h
  remove c k h := by
    cases c with
    | disk s => exact ⟨h.1, (DiskIsolation.root_remove ..).trans h.2⟩
    | redis s => exact h
  pin c k h := by
    cases c with
    | disk s => exact h
    | redis s => exact h
  unpin c k h := by
    cases c with
    | disk s => exact h
    | redis s =>
        have hsame : (s.unpin k).«namespace» = s.«namespace» ∧ (s.unpin k).keyTtl = s.keyTtl := by
          unfold RedisBackend.unpin
          split <;> exact ⟨rfl, rfl⟩
        exact ⟨h.1, hsame.1.trans h.2.1, hsame.2.trans h.2.2⟩

theorem onDisk_of_same_nodes {s s' : DiskStore json} {m : Chunks} (h : OnDisk s m)
    (hroot : s'.backend.root = s.backend.root)
    (hcwd : s'.backend.fs.cwd = s.backend.fs.cwd)
    (hnode : ∀ l, s'.backend.fs.node l = s.backend.fs.node l) : OnDisk s' m where
  tidy := DiskChunks.tidy_of_same_nodes h.tidy hroot hcwd hnode
  content := by
    intro key hsafe
    have hreads := @DiskIsolation.sameReads_of_node key _ _ json hroot hcwd fun _ => hnode _
    rw [← h.content key hsafe, Interchange.diskCell, Interchange.diskCell, hreads.1]

theorem openCold_left {c : Cold json matchesPattern} {m : Chunks} (hhas : c.Has m)
    (hopened : OpenedBy args c) :
    ∃ c' : Cold json matchesPattern,
      openCold (left w c) args = .ok c' ∧ c'.Has m ∧ OpenedBy args c' := by
  rcases hhas with ⟨s, rfl, hdisk⟩ | ⟨s, rfl, hserver⟩
  · obtain ⟨hurl, hroot⟩ := hopened
    obtain ⟨s', hcreate, hroot', hcwd, hnode⟩ := DiskRestarts.create_of_tidy hdisk.tidy hroot none
    refine ⟨.disk ⟨s'⟩, ?_, .inl ⟨_, rfl, onDisk_of_same_nodes hdisk hroot' hcwd hnode⟩, hurl,
      hroot'.trans hroot⟩
    rw [openCold, if_pos hurl, openDisk]
    simp only [left, hcreate]
    rfl
  · obtain ⟨hurl, hname, httl⟩ := hopened
    have hsame : ({ client := s.client, keyTtl := args.redisTtl } :
        Interchange.Remote json matchesPattern) = s := by
      rw [← httl, ← hname]
    refine ⟨.redis s, ?_, .inr ⟨s, rfl, hserver⟩, hurl, hname, httl⟩
    rw [openCold, if_neg hurl, openRedis]
    cases hgiven : args.redisUrl with
    | none => exact absurd (by rw [hgiven]; rfl) hurl
    | some url =>
        simp only [left, Except.map]
        rw [hsame]

theorem reopen_keeps {c : Cold json matchesPattern} {m : Chunks}
    (h : c.Has m ∧ OpenedBy args c) :
    (reopen w args c).Has m ∧ OpenedBy args (reopen w args c) := by
  obtain ⟨c', hopen, hhas⟩ := openCold_left (w := w) h.1 h.2
  rw [reopen, hopen]
  exact hhas

/-- However often `serve --store tiered` is started anew on its disk or its
server, and whatever is refused for want of room: a chunk is read as something
that was put since its last pinned put, and after a pinned put that nothing
followed it is there, and is read unless there is no room to promote it. -/
theorem chunks_after_restarts (hjson : json.Inverts) {cold : Cold json matchesPattern}
    (hopen : openCold w args = .ok cold) (hkeeps : cold.Keeps)
    {events : List TieredRestarts.Event}
    (hevents : ∀ event ∈ events, event.Admitted SafeKey (Storable json)) {key : ChunkKey}
    (hkey : SafeKey key) :
    let start : TieredBackend (Cold json matchesPattern) :=
      ⟨{ capacityBytes := args.capacityBytes }, cold⟩
    let t := (processes _ (reopen w args)).exec start events
    let past := (processes _ (reopen w args)).trace start events
    (∀ found, (t.get key).1 = .ok found → found ∈ mayHold (cold.held key) past key) ∧
      ∀ o, mayHold (cold.held key) past key = [some o] → t.contains key = true ∧
        ((t.get key).1 = .ok (some o) ∨
          ∃ err, (t.get key).1 = .error err ∧ TieredSimulation.IsStorageFull err) := by
  intro start t past
  obtain ⟨m, hview, hhas⟩ := Cold.has_content hjson hkeeps
  rw [← hview key hkey]
  exact TieredRestarts.read_after_restarts ((Cold.standsFor hjson).and (steady_openedBy args))
    (fun _ _ => reopen_keeps) args.capacityBytes ⟨hhas, openedBy_openCold hopen⟩ hevents hkey

/-- Pinned by the first process, pushed out of memory in the second. -/
theorem chunks_after_restarts_pinned :
    let cold : Cold sampleJson Interchange.prefixMatch := .disk ⟨DiskIsolation.sampleStore⟩
    let start : TieredBackend (Cold sampleJson Interchange.prefixMatch) :=
      ⟨{ capacityBytes := Serve.sampleArgs.capacityBytes }, cold⟩
    let events : List TieredRestarts.Event := [.call (.put ⟨"a", 0, 0⟩ samplePayload true),
      .restart Serve.sampleArgs.capacityBytes, .call (.put ⟨"a", 1, 0⟩ samplePayload false),
      .restart none]
    let t := (processes _ (reopen Serve.sampleWorld Serve.sampleArgs)).exec start events
    t.contains ⟨"a", 0, 0⟩ = true ∧ ((t.get ⟨"a", 0, 0⟩).1 = .ok (some samplePayload) ∨
      ∃ err, (t.get ⟨"a", 0, 0⟩).1 = .error err ∧ TieredSimulation.IsStorageFull err) := by
  intro cold start events t
  have hevents : ∀ event ∈ events, event.Admitted SafeKey (Storable sampleJson) := by
    intro event hevent
    simp only [events, List.mem_cons, List.not_mem_nil, or_false] at hevent
    rcases hevent with rfl | rfl | rfl | rfl
    · refine ⟨⟨_, rfl, Interchange.safeId_sample⟩, ?_⟩
      rintro k o pin ⟨⟩
      exact Serve.storable_sample
    · trivial
    · refine ⟨⟨_, rfl, Interchange.safeId_sample⟩, ?_⟩
      rintro k o pin ⟨⟩
      exact Serve.storable_sample
    · trivial
  have hall := @chunks_after_restarts _ Interchange.prefixMatch Serve.sampleWorld Serve.sampleArgs
    sampleJson_inverts cold rfl Serve.tidy_sample events hevents ⟨"a", 0, 0⟩
    Interchange.safeId_sample
  exact hall.2 samplePayload (by decide +kernel)

/-! ## The engine -/

/-- The engine of `serve --store tiered`. -/
def bootTiered (w : World) (args : Args) :
    Except Raised (ExplicitKVCache (TieredBackend (Cold json matchesPattern))) := do
  let cold ← openCold w args
  ExplicitKVCache.create ⟨{ capacityBytes := args.capacityBytes }, cold⟩ args.chunkSize
    (args.ttl.map .float)

theorem boot_tiered (hstore : args.store = .tiered) :
    Serve.boot w args = (bootTiered w args).map fun e : ExplicitKVCache
      (TieredBackend (Cold json matchesPattern)) => onStore e (Built.tiered e.store) := by
  unfold Serve.boot bootTiered
  simp only [Serve.buildStore, hstore]
  generalize openCold w args = opened
  cases opened with
  | error err => rfl
  | ok cold =>
      simp only [bind, Except.bind, Except.map, ExplicitKVCache.create]
      split_ifs <;> rfl

theorem openCold_of_boot {e : ExplicitKVCache (TieredBackend (Cold json matchesPattern))}
    (h : bootTiered w args = .ok e) :
    openCold w args = .ok e.store.cold ∧
      e.store = ⟨{ capacityBytes := args.capacityBytes }, e.store.cold⟩ ∧ e.descriptors = ∅ ∧
      e.defaultTtl = args.ttl.map .float := by
  unfold bootTiered at h
  generalize hopen : openCold w args = opened at h ⊢
  cases opened with
  | error err => cases h
  | ok cold =>
      simp only [bind, Except.bind, ExplicitKVCache.create] at h
      split_ifs at h
      obtain rfl := Except.ok.inj h
      exact ⟨rfl, rfl, rfl, rfl⟩

/-- A restart is what the next process boots on what is left. -/
theorem boot_left {e : ExplicitKVCache (TieredBackend (Cold json matchesPattern))} {m : Chunks}
    (hhas : e.store.cold.Has m) (hopened : OpenedBy args e.store.cold)
    (hsize : args.chunkSize = e.chunkSize) (httl : args.ttl.map .float = e.defaultTtl) :
    bootTiered (left w e.store.cold) args =
      .ok (restarted (reopen w args) args.capacityBytes e) := by
  obtain ⟨c', hopen, _⟩ := openCold_left (w := w) hhas hopened
  have hreopen : reopen w args e.store.cold = c' := by rw [reopen, hopen]
  obtain ⟨store, size, hpos, ttl, descriptors⟩ := e
  simp only at hsize httl hopen hreopen
  simp only [bootTiered, hopen, bind, Except.bind, ExplicitKVCache.create, hsize, httl, restarted,
    hreopen]
  rw [dif_neg (by omega)]
  simp only [Int.toNat_natCast]

end LlmCache.Control.Restarts
