import LlmCache.Errors
import LlmCache.Lib.OrderedDict
import LlmCache.Payload

/-!
# Moving KV between a paged buffer and payloads

`DictKVTransfer` keeps the bytes of each block of a paged buffer.  A load
writes every block of a list of distinct blocks once, with its share of the
chunk that covers it.
-/

namespace LlmCache.Connectors.Transfer

open Errors Lib Payload

structure DictKVTransfer where
  blockSize : Nat := 16
  blockSize_pos : 0 < blockSize := by decide
  chunkSize : Nat := 256
  numLayers : Int := 4
  blocks : OrderedDict Int (List UInt8) := ∅

/-- `data` cut into `n` parts. -/
def split (data : List UInt8) (n : Nat) : List (List UInt8) :=
  if n ≤ 0 then []
  else
    let size := max 1 ((data.length + n - 1) / n)
    let parts := (List.range n).map fun i : Nat => (data.drop (i * size)).take size
    (parts ++ List.replicate (n - parts.length) []).take n

/-- `block_ids[chunk_idx * bpc : (chunk_idx + 1) * bpc]`. -/
def chunkBlocks (bpc : Nat) (blockIds : List Int) (chunkIdx : Nat) : List Int :=
  (blockIds.drop (chunkIdx * bpc)).take bpc

namespace DictKVTransfer

def blocksPerChunk (t : DictKVTransfer) : Except Raised Nat :=
  if t.chunkSize % t.blockSize ≠ 0 then
    .error (.valueError "chunk_size must be a multiple of block_size")
  else .ok (t.chunkSize / t.blockSize)

/-- What a load writes for one chunk. -/
def chunkWrites (bpc : Nat) (blockIds : List Int) (chunkIdx : Nat) (payload : KVPayload) :
    List (Int × List UInt8) :=
  let blocks := chunkBlocks bpc blockIds chunkIdx
  blocks.zip (split payload.data blocks.length)

def loadInto (t : DictKVTransfer) (blockIds : List Int) (payloads : List KVPayload) :
    Except Raised Unit × DictKVTransfer :=
  match t.blocksPerChunk with
  | .error err => (.error err, t)
  | .ok bpc =>
      (.ok (), { t with
        blocks := payloads.zipIdx.foldl
          (fun blocks chunk => OrderedDict.setItems blocks
            (chunkWrites bpc blockIds chunk.2 chunk.1)) t.blocks })

def saveFrom (t : DictKVTransfer) (blockIds : List Int) (numChunks : Nat) :
    Except Raised (List KVPayload) :=
  t.blocksPerChunk.map fun bpc =>
    (List.range numChunks).map fun chunkIdx : Nat =>
      { data := (chunkBlocks bpc blockIds chunkIdx).flatMap fun blk =>
          (t.blocks.lookup blk).getD []
        numTokens := t.chunkSize
        numLayers := t.numLayers
        fmt := "raw" }

end DictKVTransfer

/-! ## What a load writes -/

@[simp] theorem length_split (data : List UInt8) (n : Nat) : (split data n).length = n := by
  unfold split
  split_ifs with hn
  · simp only [List.length_nil]
    omega
  · simp

theorem take_drop_flatten {pieces : List (List UInt8)} {size : Nat}
    (hsize : ∀ piece ∈ pieces, piece.length = size) {i : Nat} (hi : i < pieces.length) :
    (pieces.flatten.drop (i * size)).take size = pieces[i] := by
  induction pieces generalizing i with
  | nil => simp at hi
  | cons piece pieces ih =>
      have hpiece := hsize piece (List.mem_cons_self ..)
      rw [List.flatten_cons]
      cases i with
      | zero =>
          rw [Nat.zero_mul, List.drop_zero, List.take_left' hpiece]
          rfl
      | succ i =>
          have hlt : i < pieces.length := by simpa using hi
          have hdrop : (piece ++ pieces.flatten).drop ((i + 1) * size) =
              pieces.flatten.drop (i * size) := by
            rw [Nat.succ_mul, Nat.add_comm, ← List.drop_drop, List.drop_left' hpiece]
          rw [hdrop, ih (fun p hp => hsize p (List.mem_cons_of_mem _ hp)) hlt]
          rfl

theorem split_flatten {pieces : List (List UInt8)} {size : Nat}
    (hsize : ∀ piece ∈ pieces, piece.length = size) :
    split pieces.flatten pieces.length = pieces := by
  apply List.ext_getElem
  · exact length_split ..
  intro i hi hi'
  have hpos : 0 < pieces.length := by omega
  have hlen : pieces.flatten.length = pieces.length * size := by
    rw [List.length_flatten, List.map_congr_left hsize, List.map_const', List.sum_replicate_nat]
  have hquot : (pieces.length * size + pieces.length - 1) / pieces.length = size := by
    apply Nat.div_eq_of_lt_le
    · rw [Nat.mul_comm]
      omega
    · rw [Nat.succ_mul, Nat.mul_comm]
      omega
  have hget : (split pieces.flatten pieces.length)[i]? =
      some ((pieces.flatten.drop (i * max 1 size)).take (max 1 size)) := by
    simp only [split, hlen, hquot, if_neg (Nat.not_le.mpr hpos)]
    rw [List.getElem?_take_of_lt hi', List.getElem?_append_left (by simpa using hi')]
    simp [hi']
  rw [List.getElem?_eq_getElem hi, Option.some.injEq] at hget
  rw [hget]
  rcases Nat.eq_zero_or_pos size with rfl | hsize_pos
  · -- all pieces are empty, and so is what is cut
    have hnil : pieces.flatten = [] := List.length_eq_zero_iff.mp (by omega)
    have hpiece : pieces[i] = [] :=
      List.length_eq_zero_iff.mp (hsize _ (List.getElem_mem hi'))
    rw [hnil, hpiece, List.drop_nil, List.take_nil]
  · rw [Nat.max_eq_right hsize_pos]
    exact take_drop_flatten hsize hi'

theorem getElem?_chunkBlocks (bpc : Nat) (blockIds : List Int) (chunkIdx offset : Nat) :
    (chunkBlocks bpc blockIds chunkIdx)[offset]? =
      if offset < bpc then blockIds[chunkIdx * bpc + offset]? else none := by
  rw [chunkBlocks, List.getElem?_take, List.getElem?_drop]

namespace DictKVTransfer

/-- The bytes a chunk holds for one of its blocks. -/
def part (bpc : Nat) (blockIds : List Int) (index : Nat) (payload : KVPayload) :
    Option (List UInt8) :=
  (split payload.data (chunkBlocks bpc blockIds (index / bpc)).length)[index % bpc]?

variable {bpc : Nat} {blockIds : List Int}

theorem mem_chunkWrites_iff (hbpc : 0 < bpc) {chunkIdx : Nat} {payload : KVPayload} {blk : Int}
    {bytes : List UInt8} :
    (blk, bytes) ∈ chunkWrites bpc blockIds chunkIdx payload ↔
      ∃ index, index / bpc = chunkIdx ∧ blockIds[index]? = some blk ∧
        part bpc blockIds index payload = some bytes := by
  simp only [chunkWrites, part, List.mem_iff_getElem?, List.getElem?_zip_eq_some,
    getElem?_chunkBlocks]
  constructor
  · rintro ⟨offset, hblk, hbytes⟩
    split_ifs at hblk with hoffset
    have hdiv : (chunkIdx * bpc + offset) / bpc = chunkIdx := by
      rw [Nat.mul_comm, Nat.mul_add_div hbpc, Nat.div_eq_of_lt hoffset, Nat.add_zero]
    have hmod : (chunkIdx * bpc + offset) % bpc = offset := by
      rw [Nat.mul_comm, Nat.mul_add_mod, Nat.mod_eq_of_lt hoffset]
    refine ⟨chunkIdx * bpc + offset, hdiv, hblk, ?_⟩
    rw [hdiv, hmod]
    exact hbytes
  · rintro ⟨index, rfl, hblk, hbytes⟩
    refine ⟨index % bpc, ?_, hbytes⟩
    rw [if_pos (Nat.mod_lt index hbpc), Nat.mul_comm, Nat.div_add_mod]
    exact hblk

theorem part_isSome (hbpc : 0 < bpc) {index : Nat} {blk : Int} (hblk : blockIds[index]? = some blk)
    (payload : KVPayload) : ∃ bytes, part bpc blockIds index payload = some bytes := by
  have hoffset : (chunkBlocks bpc blockIds (index / bpc))[index % bpc]? = some blk := by
    rw [getElem?_chunkBlocks, if_pos (Nat.mod_lt index hbpc), Nat.mul_comm, Nat.div_add_mod]
    exact hblk
  obtain ⟨hlt, _⟩ := List.getElem?_eq_some_iff.mp hoffset
  refine ⟨_, List.getElem?_eq_getElem ?_⟩
  rw [length_split]
  exact hlt

theorem blocksPerChunk_of_dvd {t : DictKVTransfer} (hdvd : t.blockSize ∣ t.chunkSize) :
    t.blocksPerChunk = .ok (t.chunkSize / t.blockSize) := by
  simp [blocksPerChunk, Nat.mod_eq_zero_of_dvd hdvd]

theorem foldl_setItems (chunks : List (KVPayload × Nat)) (blocks : OrderedDict Int (List UInt8)) :
    chunks.foldl (fun blocks chunk => OrderedDict.setItems blocks
        (chunkWrites bpc blockIds chunk.2 chunk.1)) blocks =
      OrderedDict.setItems blocks
        (chunks.flatMap fun chunk => chunkWrites bpc blockIds chunk.2 chunk.1) := by
  induction chunks generalizing blocks with
  | nil => rfl
  | cons chunk chunks ih =>
      rw [List.foldl_cons, ih, List.flatMap_cons, OrderedDict.setItems_append]

/-- A load into distinct blocks gives each block its part of the chunk that
covers it, and leaves the blocks that no chunk covers. -/
theorem lookup_loadInto {t : DictKVTransfer} (hdvd : t.blockSize ∣ t.chunkSize)
    (hbpc : 0 < t.chunkSize / t.blockSize) (hnodup : blockIds.Nodup) (payloads : List KVPayload)
    {index : Nat} {blk : Int} (hblk : blockIds[index]? = some blk) :
    (t.loadInto blockIds payloads).2.blocks.lookup blk =
      match payloads[index / (t.chunkSize / t.blockSize)]? with
      | none => t.blocks.lookup blk
      | some payload => part (t.chunkSize / t.blockSize) blockIds index payload := by
  simp only [loadInto, blocksPerChunk_of_dvd hdvd, foldl_setItems]
  generalize t.chunkSize / t.blockSize = bpc at hbpc ⊢
  -- a write to the block is made for its own index
  have hwrites : ∀ bytes, (blk, bytes) ∈ payloads.zipIdx.flatMap (fun chunk =>
      chunkWrites bpc blockIds chunk.2 chunk.1) →
      ∃ payload, payloads[index / bpc]? = some payload ∧
        part bpc blockIds index payload = some bytes := by
    intro bytes hmem
    obtain ⟨⟨payload, chunkIdx⟩, hchunk, hmem⟩ := List.mem_flatMap.mp hmem
    obtain ⟨index', rfl, hblk', hpart⟩ := (mem_chunkWrites_iff hbpc).mp hmem
    obtain ⟨hlt, heq⟩ := List.getElem?_eq_some_iff.mp hblk
    obtain ⟨hlt', heq'⟩ := List.getElem?_eq_some_iff.mp hblk'
    obtain rfl := (hnodup.getElem_inj_iff).mp (heq.trans heq'.symm)
    exact ⟨payload, List.mem_zipIdx_iff_getElem?.mp hchunk, hpart⟩
  cases hpayload : payloads[index / bpc]? with
  | none =>
      apply OrderedDict.lookup_setItems_of_not_mem
      intro bytes hmem
      obtain ⟨payload, hsome, _⟩ := hwrites bytes hmem
      rw [hpayload] at hsome
      cases hsome
  | some payload =>
      obtain ⟨bytes, hbytes⟩ := part_isSome hbpc hblk payload
      simp only [hbytes]
      apply OrderedDict.lookup_setItems_of_mem
      · apply List.mem_flatMap.mpr
        refine ⟨(payload, index / bpc), List.mem_zipIdx_iff_getElem?.mpr hpayload, ?_⟩
        exact (mem_chunkWrites_iff hbpc).mpr ⟨index, rfl, hblk, hbytes⟩
      · intro bytes' hmem
        obtain ⟨payload', hsome, hpart⟩ := hwrites bytes' hmem
        rw [hpayload] at hsome
        obtain rfl := Option.some.inj hsome
        exact Option.some.inj (hpart.symm.trans hbytes)

theorem lookup_loadInto_of_not_mem (t : DictKVTransfer) {blk : Int} (hblk : blk ∉ blockIds)
    (payloads : List KVPayload) :
    (t.loadInto blockIds payloads).2.blocks.lookup blk = t.blocks.lookup blk := by
  rw [loadInto]
  cases t.blocksPerChunk with
  | error err => rfl
  | ok bpc =>
      simp only [foldl_setItems]
      apply OrderedDict.lookup_setItems_of_not_mem
      intro bytes hmem
      obtain ⟨chunk, _, hwrite⟩ := List.mem_flatMap.mp hmem
      have hchunk := (List.of_mem_zip hwrite).1
      exact hblk (List.mem_of_mem_drop (List.mem_of_mem_take hchunk))

/-- What a load leaves in a block depends on the sizes and on that block. -/
theorem lookup_loadInto_congr {t t' : DictKVTransfer} (hblock : t'.blockSize = t.blockSize)
    (hchunk : t'.chunkSize = t.chunkSize) {blk : Int}
    (hblk : t'.blocks.lookup blk = t.blocks.lookup blk) (payloads : List KVPayload) :
    (t'.loadInto blockIds payloads).2.blocks.lookup blk =
      (t.loadInto blockIds payloads).2.blocks.lookup blk := by
  have hsame : t'.blocksPerChunk = t.blocksPerChunk := by
    rw [blocksPerChunk, blocksPerChunk, hblock, hchunk]
  rw [loadInto, loadInto, hsame]
  cases t.blocksPerChunk with
  | error err => exact hblk
  | ok bpc =>
      simp only [foldl_setItems]
      exact OrderedDict.lookup_setItems_congr _ hblk

theorem loadInto_sizes (t : DictKVTransfer) (payloads : List KVPayload) :
    (t.loadInto blockIds payloads).2.blockSize = t.blockSize ∧
      (t.loadInto blockIds payloads).2.chunkSize = t.chunkSize := by
  rw [loadInto]
  cases t.blocksPerChunk with
  | error err => exact ⟨rfl, rfl⟩
  | ok bpc => exact ⟨rfl, rfl⟩

theorem loadInto_ok_iff (t : DictKVTransfer) (blockIds : List Int) (payloads : List KVPayload) :
    (t.loadInto blockIds payloads).1 = .ok () ↔ t.blockSize ∣ t.chunkSize := by
  rw [loadInto, Nat.dvd_iff_mod_eq_zero]
  by_cases hmod : t.chunkSize % t.blockSize = 0 <;> simp [blocksPerChunk, hmod]

theorem loadInto_fst_of_dvd {t : DictKVTransfer} (hdvd : t.blockSize ∣ t.chunkSize)
    (blockIds : List Int) (payloads : List KVPayload) :
    (t.loadInto blockIds payloads).1 = .ok () :=
  (t.loadInto_ok_iff blockIds payloads).mpr hdvd

end DictKVTransfer

end LlmCache.Connectors.Transfer
