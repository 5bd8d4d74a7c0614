import LlmCache.Connectors.Simulation
import LlmCache.Control.Serve

/-!
# The adapters over the stores of `serve`

An engine over any of the stores, with a paged buffer to fill and to save from.
-/

namespace LlmCache.Connectors.Served

open Errors Lib Payload LlmCache.Types Store Engine Transfer Vllm
open Control.Serve (World Args Built boot)
open DiskChunks (SafeId)
open LlmCache.Engine.Simulation (onStore)
open LlmCache.Connectors.Simulation (Carries SameConnector AdapterOp Admits adapters adapters_alike)
open Store.ColdTiers

variable {json : JsonText} {matchesPattern : String → String → Bool}

/-- An empty chunk as the transfer saves it. -/
def emptyChunk (t : DictKVTransfer) : KVPayload :=
  { data := [], numTokens := t.chunkSize, numLayers := t.numLayers, fmt := "raw" }

/-- The header of a chunk does not depend on its data. -/
theorem carries_storable {t : DictKVTransfer} (h : Storable json (emptyChunk t)) :
    Carries (Storable json) t := fun _ => ⟨h.metadata, h.fits⟩

/-- A connector with nothing staged. -/
def idle {σ : Type} (e : ExplicitKVCache σ) (t : DictKVTransfer) : ExplicitLMCacheConnector σ :=
  { engine := e, transfer := some t }

/-- Two blocks of one layer, a chunk each. -/
def sampleTransfer : DictKVTransfer where
  blockSize := 2
  blockSize_pos := Nat.two_pos
  chunkSize := 2
  numLayers := 1
  blocks := OrderedDict.setItems ∅ [(0, [1, 2]), (1, [3, 4])]

/-- Texts as for the payload with metadata, and its own one for saved chunks. -/
noncomputable def savedJson : JsonText where
  dumps value :=
    sampleText (Equiv.swap (header samplePayload) (header (emptyChunk sampleTransfer)) value)
  loads text := .ok (Equiv.swap (header samplePayload) (header (emptyChunk sampleTransfer))
    (Function.invFun sampleText text))

theorem savedJson_inverts : savedJson.Inverts := by
  intro value _
  simp only [savedJson, Function.leftInverse_invFun sampleText_injective _, Equiv.swap_apply_self]

/-- `serve --store tiered --disk-path /store --chunk-size 2`. -/
def sampleArgs : Args :=
  { store := .tiered, diskPath := "/store", chunkSize := 2 }

noncomputable def sampleEngine : ExplicitKVCache (Built savedJson Interchange.prefixMatch) where
  store := .tiered ⟨{}, .disk ⟨DiskIsolation.sampleStore⟩⟩
  chunkSize := 2
  chunkSize_pos := Nat.two_pos

end LlmCache.Connectors.Served
