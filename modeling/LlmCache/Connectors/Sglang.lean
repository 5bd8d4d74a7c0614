import LlmCache.Connectors.Transfer
import LlmCache.Engine

/-!
# The SGLang adapter

`store` and `retrieve` move the KV of one prompt between the paged buffer and
the engine, keyed by an explicit cache id.
-/

namespace LlmCache.Connectors.Sglang

open Errors Lib Payload LlmCache.Types Store Engine Transfer

structure SGLangExplicitCache (σ : Type) where
  engine : ExplicitKVCache σ
  transfer : Option DictKVTransfer := none

namespace SGLangExplicitCache

variable {σ : Type} [StorageBackend σ]

/-- The number of chunks is `-(-len(token_ids) // chunk_size)`. -/
def store (blake2b : List UInt8 → String) (c : SGLangExplicitCache σ) (cacheId : String)
    (tokenIds blockIds : List Int) (ttl : Option Ttl) (pin : Bool) (name : Option String)
    (clock : Time) : Except Raised Unit × SGLangExplicitCache σ :=
  match c.transfer with
  | none => (.error (.runtimeError "SGLangExplicitCache needs a KVTransfer to store KV"), c)
  | some transfer =>
      let numChunks : Int := -(-(tokenIds.length : Int)).fdiv c.engine.chunkSize
      match transfer.saveFrom blockIds numChunks.toNat with
      | .error err => (.error err, c)
      | .ok payloads =>
          let puts := payloads.zipIdx.map fun chunk => (⟨cacheId, chunk.2, 0⟩, chunk.1)
          let out := ExplicitKVCache.putChunks pin puts c.engine.store
          let stored := { c.engine with store := out.2 }
          match out.1 with
          | .error err => (.error err, { c with engine := stored })
          | .ok () =>
              let committed := stored.commit blake2b
                { cacheId := cacheId, tokenIds := tokenIds, numLayers := transfer.numLayers,
                  ttl := ttl, pin := pin, name := name } clock
              (committed.1.map fun _ => (), { c with engine := committed.2 })

/-- `clock` is read by `exists`, `clock'` and `stamp` by `lookup`, `clock''` by `load`. -/
def retrieve (blake2b : List UInt8 → String) (c : SGLangExplicitCache σ) (cacheId : String)
    (blockIds : List Int) (requestTokens : Option (List Int)) (clock clock' stamp clock'' : Time) :
    Except Raised Nat × SGLangExplicitCache σ :=
  match c.transfer with
  | none => (.error (.runtimeError "SGLangExplicitCache needs a KVTransfer to retrieve KV"), c)
  | some transfer =>
      let found := c.engine.exists' cacheId clock
      if !found.1 then (.ok 0, { c with engine := found.2 })
      else
        let looked := found.2.lookup blake2b cacheId requestTokens clock' stamp
        match looked.1 with
        | .error err => (.error err, { c with engine := looked.2 })
        | .ok result =>
            let read := looked.2.load cacheId (some result.numChunks) 0 clock''
            match read.1 with
            | .error err => (.error err, { c with engine := read.2 })
            | .ok payloads =>
                let written := transfer.loadInto blockIds payloads
                (written.1.map fun _ => result.numTokens,
                  { engine := read.2, transfer := some written.2 })

end SGLangExplicitCache

end LlmCache.Connectors.Sglang
