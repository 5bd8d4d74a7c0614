import LlmCache.Lib.KeyedStore
import LlmCache.Payload
import LlmCache.Types

/-!
# Storage backend abstraction
-/

namespace LlmCache.Store

open Errors Lib Payload LlmCache.Types

structure StoreStats where
  numObjects : Nat
  usedBytes : Int
  capacityBytes : Option Nat
  pinnedObjects : Nat
  pinnedBytes : Nat
deriving DecidableEq, Repr

/-- A keyed store of payloads with optional pinning. -/
abbrev StorageBackend (σ : Type) := KeyedStore σ ChunkKey KVPayload Raised

/-- A storage backend that never refuses an object and never drops one. -/
abbrev LosslessBackend (σ : Type) := LosslessStore σ ChunkKey KVPayload Raised

end LlmCache.Store
