import LlmCache.Connectors.Vllm
import LlmCache.Engine.Descriptors

/-!
# Chunk boundaries

Registering, saving and matching cut the tokens into chunks or count the chunks,
each in its own way.
-/

namespace LlmCache.Connectors.Chunking

open Errors Lib Payload LlmCache.Types Store Engine ExplicitKVCache Descriptors Transfer Vllm

/-- The chunks are the tokens, cut after every `chunkSize` of them. -/
structure Partitions (tokens : List Int) (chunkSize : Nat) (chunks : List (List Int)) : Prop where
  flatten : chunks.flatten = tokens
  whole : ∀ chunk ∈ chunks.dropLast, chunk.length = chunkSize
  last : ∀ chunk ∈ chunks.getLast?, 1 ≤ chunk.length ∧ chunk.length ≤ chunkSize

/-- The count that `wait_for_save` and `store` compute is the number of chunks. -/
theorem ceilDiv_length (tokens : List Int) {chunkSize : Nat} (hpos : 0 < chunkSize) :
    ceilDiv tokens.length chunkSize = (tokenSlices tokens chunkSize).length := by
  rw [ceilDiv_eq _ _ hpos, length_tokenSlices]

/-- The chunks partition the tokens, both ceilings count them, and a split behind
whole chunks splits the chunks. -/
theorem chunkTokenIds_partitions (tokens : List Int) {chunkSize : Nat} (hpos : 0 < chunkSize) :
    ∃ chunks, chunkTokenIds tokens chunkSize = .ok chunks ∧
      Partitions tokens chunkSize chunks ∧
      (chunks.length : Int) = ceilDiv tokens.length chunkSize ∧
      (chunks.length : Int) = -(-(tokens.length : Int)).fdiv chunkSize ∧
      ∀ first second, first ++ second = tokens → chunkSize ∣ first.length →
        ∃ chunks₁ chunks₂, chunkTokenIds first chunkSize = .ok chunks₁ ∧
          chunkTokenIds second chunkSize = .ok chunks₂ ∧ chunks = chunks₁ ++ chunks₂ := by
  have hcount := (ceilDiv_length tokens hpos).symm
  refine ⟨tokenSlices tokens chunkSize, chunkTokenIds_of_pos tokens hpos, ?_, hcount, hcount, ?_⟩
  · constructor
    · exact flatten_tokenSlices tokens hpos
    · exact length_of_mem_dropLast hpos tokens
    · exact length_of_mem_getLast hpos tokens
  · rintro first second rfl ⟨count, hcount⟩
    refine ⟨_, _, chunkTokenIds_of_pos first hpos, chunkTokenIds_of_pos second hpos, ?_⟩
    rw [Nat.mul_comm] at hcount
    exact tokenSlices_append hpos hcount second

/-- Five tokens in chunks of two: three chunks, the last one short. -/
theorem chunkTokenIds_partitions_short :
    ∃ chunks, chunkTokenIds [1, 2, 3, 4, 5] 2 = .ok chunks ∧
      Partitions [1, 2, 3, 4, 5] 2 chunks ∧
      (chunks.length : Int) = ceilDiv 5 2 ∧ (chunks.length : Int) = -(-5 : Int).fdiv 2 ∧
      ∀ first second, first ++ second = [1, 2, 3, 4, 5] → 2 ∣ first.length →
        ∃ chunks₁ chunks₂, chunkTokenIds first 2 = .ok chunks₁ ∧
          chunkTokenIds second 2 = .ok chunks₂ ∧ chunks = chunks₁ ++ chunks₂ :=
  chunkTokenIds_partitions [1, 2, 3, 4, 5] (by decide)

/-! ## Saves -/

variable {σ : Type} [StorageBackend σ] {blake2b : List UInt8 → String}

omit [StorageBackend σ] in
theorem commit_of_ok {s : ExplicitKVCache σ} {c : Commit} {now : Time} {d : CacheDescriptor}
    (h : (s.commit blake2b c now).1 = .ok d) :
    Describes blake2b d (.commit c) ∧ d.chunkSize = s.chunkSize ∧
      (s.commit blake2b c now).2 = s.publish c.cacheId d := by
  unfold ExplicitKVCache.commit at h ⊢
  rw [chunkTokenIds_of_pos _ s.chunkSize_pos] at h ⊢
  simp only at h ⊢
  generalize hbuild : buildDescriptor _ _ _ _ _ _ _ _ _ _ = built at h ⊢
  cases built with
  | error err => cases h
  | ok built =>
      cases h
      obtain ⟨hdescribes, hsize, _⟩ := describes_of_build (.commit c) hbuild
      exact ⟨hdescribes, hsize, rfl⟩

theorem length_of_saveFrom {t : DictKVTransfer} {blockIds : List Int} {count : Nat}
    {payloads : List KVPayload} (h : t.saveFrom blockIds count = .ok payloads) :
    payloads.length = count := by
  unfold DictKVTransfer.saveFrom at h
  cases hbpc : t.blocksPerChunk with
  | error err =>
      rw [hbpc] at h
      cases h
  | ok bpc =>
      rw [hbpc] at h
      rw [← Except.ok.inj h, List.length_map, List.length_range]

/-- A save that returns has stored one payload for each chunk that it published. -/
theorem saved_payload_count {e : ExplicitKVCache σ} {t : DictKVTransfer} {op : SaveOp} {now : Time}
    (hok : (saveOps blake2b [op] (fun _ => now) e t).1 = .ok ()) :
    ∃ payloads d, t.saveFrom op.blockIds (ceilDiv op.tokenIds.length e.chunkSize).toNat =
        .ok payloads ∧
      (saveOps blake2b [op] (fun _ => now) e t).2.descriptors.lookup op.cacheId = some d ∧
      payloads.length = d.numChunks := by
  simp only [saveOps] at hok ⊢
  cases hsave : t.saveFrom op.blockIds (ceilDiv op.tokenIds.length e.chunkSize).toNat with
  | error err =>
      simp only [hsave] at hok
      cases hok
  | ok payloads =>
      simp only [hsave] at hok ⊢
      generalize putChunks op.pin _ e.store = out at hok ⊢
      obtain ⟨result, store⟩ := out
      cases result with
      | error err => cases hok
      | ok _ =>
          simp only at hok ⊢
          generalize hcommit : ExplicitKVCache.commit blake2b _ _ now = committed at hok ⊢
          obtain ⟨built, engine⟩ := committed
          cases built with
          | error err => cases hok
          | ok d =>
              obtain ⟨hdescribes, hsize, hend⟩ := commit_of_ok (congrArg Prod.fst hcommit)
              rw [hcommit] at hend
              refine ⟨payloads, d, rfl, ?_, ?_⟩
              · simp only at hend ⊢
                rw [hend]
                exact lookup_publish_self ..
              · have hcount := length_of_saveFrom hsave
                rw [ceilDiv_length _ e.chunkSize_pos, Int.toNat_natCast] at hcount
                rw [hcount, hdescribes.numChunks, hsize]
                rfl

end LlmCache.Connectors.Chunking
