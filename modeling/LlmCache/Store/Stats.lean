import LlmCache.Store.ColdTiers

/-!
# What the stores report of themselves
-/

namespace LlmCache.Store

open Errors Lib Payload LlmCache.Types
open ColdTiers (DiskStore Chunks)

/-- `stats()` of a store. -/
class Reporting (σ : Type) where
  stats : σ → StoreStats

instance : Reporting CPUBackend where
  stats := CPUBackend.stats

instance : Reporting UnboundedCPU where
  stats s := s.1.stats

/-- `p.stat().st_size` of a file; what a directory takes is not counted here. -/
def fileSize : Node → Nat
  | .directory => 0
  | .file content => content.length

def DiskBackend.stats (s : DiskBackend) : StoreStats :=
  let files := s.keys.filterMap fun key =>
    if (s.path key).hasNul then none else s.fs.node (s.locate (s.path key))
  { numObjects := files.length
    usedBytes := (files.map fileSize).sum
    capacityBytes := s.capacityBytes
    pinnedObjects := s.pinned.card
    pinnedBytes := 0 }

instance {json : JsonText} : Reporting (DiskStore json) where
  stats s := s.backend.stats

def RedisBackend.stats {codec : RedisCodec} (s : RedisBackend codec) : StoreStats :=
  let blobs := s.keys.filterMap fun key => (s.client.lookup (s.name key)).map RedisEntry.value
  { numObjects := blobs.length
    usedBytes := (blobs.map List.length).sum
    capacityBytes := none
    pinnedObjects := 0
    pinnedBytes := 0 }

instance {codec : RedisCodec} : Reporting (RedisBackend codec) where
  stats := RedisBackend.stats

def TieredBackend.stats {σ : Type} [StorageBackend σ] [Reporting σ] (t : TieredBackend σ) :
    StoreStats :=
  let h := t.hot.stats
  let c := Reporting.stats t.cold
  { numObjects := t.keys.length
    usedBytes := h.usedBytes + c.usedBytes
    capacityBytes :=
      match h.capacityBytes, c.capacityBytes with
      | some hot, some cold => some (hot + cold)
      | _, _ => none
    pinnedObjects := h.pinnedObjects + c.pinnedObjects
    pinnedBytes := h.pinnedBytes + c.pinnedBytes }

instance {σ : Type} [StorageBackend σ] [Reporting σ] : Reporting (TieredBackend σ) where
  stats := TieredBackend.stats

/-- Of the plain map there is one copy of each object. -/
noncomputable instance : Reporting Chunks where
  stats m := {
    numObjects := m.finite.toFinset.card
    usedBytes := ((m.finite.toFinset.toList.filterMap m.view).map KVPayload.nbytes).sum
    capacityBytes := none
    pinnedObjects := 0
    pinnedBytes := 0 }

end LlmCache.Store
