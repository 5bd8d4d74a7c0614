import LlmCache.Connectors.Transfer
import LlmCache.Lib.Strings
import LlmCache.Lib.Tensor

/-!
# Moving KV between paged tensors and payloads

`TorchKVTransfer` keeps one paged buffer for each layer, of the shape
`[2, num_blocks, block_size, ...]`.  A save stacks the blocks of a chunk over all
layers and lists the entries; a load reads the stack back and copies it block by
block.
-/

namespace LlmCache.Connectors.TorchTransfer

open Errors Lib Payload Transfer

variable {α : Type}

/-- What the element type of the buffers brings along: the text of its name, the
bytes of a list of entries, and the entries that are read from bytes as a type
of a given name. -/
structure Dtype (α : Type) where
  name : String
  tobytes : List α → List UInt8
  frombuffer : String → List UInt8 → Except Raised (List α)

/-- `dtype.replace("torch.", "")`. -/
def attributeName (dtype : String) : String :=
  String.ofList (eraseText "torch.".toList 0 dtype.toList)

/-- Entries that are written are read back. -/
def Dtype.Inverse (dtype : Dtype α) : Prop :=
  ∀ values, values ≠ [] →
    dtype.frombuffer (attributeName dtype.name) (dtype.tobytes values) = .ok values

/-- `layers` are the tensors of `kv_caches`, in the order of `layer_names`. -/
structure TorchKVTransfer (α : Type) where
  layers : List (Tensor α)
  blockSize : Nat
  blockSize_pos : 0 < blockSize
  chunkSize : Nat

def orRaise {β : Type} (err : Raised) : Option β → Except Raised β
  | none => .error err
  | some value => .ok value

/-- Where an index of a dimension points; a negative one counts from the end. -/
def position (extent : Nat) (i : Int) : Option Nat :=
  if 0 ≤ i ∧ i < extent then some i.toNat
  else if -extent ≤ i ∧ i < 0 then some (i + extent).toNat
  else none

def outOfRange : Raised :=
  .indexError "index is out of bounds for dimension"

/-- `layer[:, blk]`. -/
def blockSlice (layer : Tensor α) (blk : Int) : Except Raised (Tensor α) :=
  orRaise outOfRange ((position (layer.shape.getD 1 0) blk).bind (layer.select 1))

namespace TorchKVTransfer

def blocksPerChunk (t : TorchKVTransfer α) : Except Raised Nat :=
  if t.chunkSize % t.blockSize ≠ 0 then
    .error (.valueError "chunk_size must be a multiple of block_size")
  else .ok (t.chunkSize / t.blockSize)

/-! ## Saving -/

def emptyStack : Raised :=
  .runtimeError "stack expects a non-empty TensorList"

/-- The blocks of one chunk, stacked for one layer. -/
def stackLayer (layer : Tensor α) (chunkBlocks : List Int) : Except Raised (Tensor α) :=
  (chunkBlocks.mapM (blockSlice layer)).bind fun slices =>
    orRaise emptyStack (Tensor.stack 1 slices)

/-- The blocks of one chunk, stacked over the layers. -/
def stackChunk (layers : List (Tensor α)) (chunkBlocks : List Int) : Except Raised (Tensor α) :=
  (layers.mapM fun layer => stackLayer layer chunkBlocks).bind fun blocks =>
    orRaise emptyStack (Tensor.stack 0 blocks)

def chunkPayload (dtype : Dtype α) (t : TorchKVTransfer α) (stacked : Tensor α) : KVPayload where
  data := dtype.tobytes stacked.entries
  numTokens := t.chunkSize
  numLayers := t.layers.length
  fmt := "torch"
  metadata := [("dtype", .str dtype.name),
    ("shape", .arr (stacked.shape.map fun n : Nat => .int n))]

def saveFrom (dtype : Dtype α) (t : TorchKVTransfer α) (blockIds : List Int) (numChunks : Nat) :
    Except Raised (List KVPayload) :=
  t.blocksPerChunk.bind fun bpc =>
    (List.range numChunks).mapM fun chunkIdx : Nat =>
      (stackChunk t.layers (chunkBlocks bpc blockIds chunkIdx)).map (chunkPayload dtype t)

/-! ## Loading -/

/-- An extent in the metadata of a payload. -/
def extentOf : Json → Option Nat
  | .int n => if 0 ≤ n then some n.toNat else none
  | _ => none

def shapeOf : Json → Option (List Nat)
  | .arr items => items.mapM extentOf
  | _ => none

/-- The tensor that a payload holds. -/
def bufferOf (dtype : Dtype α) (payload : KVPayload) : Except Raised (Tensor α) :=
  match payload.metadata.lookup "dtype", payload.metadata.lookup "shape" with
  | none, _ => .error (.keyError "dtype")
  | some _, none => .error (.keyError "shape")
  | some (.str name), some shape =>
      (dtype.frombuffer (attributeName name) payload.data).bind fun values =>
        (orRaise (.typeError "reshape(): argument must be tuple of ints") (shapeOf shape)).bind
          fun shape =>
            orRaise (.runtimeError "shape is invalid for input") (Tensor.reshape values shape)
  | some _, some _ => .error (.attributeError "object has no attribute 'replace'")

/-- `layer[:, blk].copy_(buf[li, :, bi])`. -/
def copyBlock (buf : Tensor α) (li : Nat) (layer : Tensor α) (blk : Int) (bi : Nat) :
    Except Raised (Tensor α) :=
  (orRaise outOfRange (position (layer.shape.getD 1 0) blk)).bind fun i =>
    (orRaise outOfRange ((buf.select 0 li).bind fun rows => rows.select 1 bi)).bind fun source =>
      orRaise (.runtimeError "The size of the tensors must match") (layer.overwrite 1 i source)

/-- The loop over the blocks of one layer. -/
def copyBlocks (buf : Tensor α) (li : Nat) :
    List (Int × Nat) → Tensor α → Except Raised Unit × Tensor α
  | [], layer => (.ok (), layer)
  | (blk, bi) :: rest, layer =>
      match copyBlock buf li layer blk bi with
      | .error err => (.error err, layer)
      | .ok layer => copyBlocks buf li rest layer

/-- The loop over the layers, the first of which has the number `li`. -/
def copyLayers (buf : Tensor α) (chunkBlocks : List Int) :
    Nat → List (Tensor α) → Except Raised Unit × List (Tensor α)
  | _, [] => (.ok (), [])
  | li, layer :: layers =>
      let out := copyBlocks buf li chunkBlocks.zipIdx layer
      match out.1 with
      | .error err => (.error err, out.2 :: layers)
      | .ok () =>
          let rest := copyLayers buf chunkBlocks (li + 1) layers
          (rest.1, out.2 :: rest.2)

/-- The loop over the chunks. -/
def loadChunks (dtype : Dtype α) (bpc : Nat) (blockIds : List Int) :
    List (KVPayload × Nat) → List (Tensor α) → Except Raised Unit × List (Tensor α)
  | [], layers => (.ok (), layers)
  | (payload, chunkIdx) :: rest, layers =>
      match bufferOf dtype payload with
      | .error err => (.error err, layers)
      | .ok buf =>
          let out := copyLayers buf (chunkBlocks bpc blockIds chunkIdx) 0 layers
          match out.1 with
          | .error err => (.error err, out.2)
          | .ok () => loadChunks dtype bpc blockIds rest out.2

def loadInto (dtype : Dtype α) (t : TorchKVTransfer α) (blockIds : List Int)
    (payloads : List KVPayload) : Except Raised Unit × TorchKVTransfer α :=
  match t.blocksPerChunk with
  | .error err => (.error err, t)
  | .ok bpc =>
      let out := loadChunks dtype bpc blockIds payloads.zipIdx t.layers
      (out.1, { t with layers := out.2 })

end TorchKVTransfer

/-! ## Paged buffers -/

/-- What a paged buffer holds for a block: an entry for each half and each index
inside of the block. -/
def contents (layer : Tensor α) (blk : Nat) : Nat → List Nat → Option α :=
  fun half index => layer.entry (half :: blk :: index)

/-- A paged buffer with keys and values whose blocks have a common shape. -/
def Paged (blockShape : List Nat) (layer : Tensor α) : Prop :=
  ∃ numBlocks, layer.shape = 2 :: numBlocks :: blockShape

/-- The ids of the list are those of blocks of the buffer. -/
def Covers (layer : Tensor α) (blockIds : List Int) : Prop :=
  ∀ blk ∈ blockIds, 0 ≤ blk ∧ blk < layer.shape.getD 1 0

theorem position_of_nonneg {extent : Nat} {i : Int} (h : 0 ≤ i ∧ i < extent) :
    position extent i = some i.toNat :=
  if_pos h

theorem Covers.subset {layer : Tensor α} {blockIds blockIds' : List Int}
    (h : Covers layer blockIds) (hsub : blockIds' ⊆ blockIds) : Covers layer blockIds' :=
  fun blk hblk => h blk (hsub hblk)

theorem chunkBlocks_subset (bpc : Nat) (blockIds : List Int) (chunkIdx : Nat) :
    chunkBlocks bpc blockIds chunkIdx ⊆ blockIds := by
  intro blk hblk
  exact List.mem_of_mem_drop (List.mem_of_mem_take hblk)

theorem mapM_ok {β γ ε : Type} {f : β → Except ε γ} {P : β → γ → Prop} {l : List β}
    (h : ∀ x ∈ l, ∃ y, f x = .ok y ∧ P x y) : ∃ ys, l.mapM f = .ok ys ∧ List.Forall₂ P l ys := by
  induction l with
  | nil => exact ⟨[], rfl, .nil⟩
  | cons x l ih =>
      obtain ⟨y, hy, hP⟩ := h x (List.mem_cons_self ..)
      obtain ⟨ys, hys, hrest⟩ := ih fun x hx => h x (List.mem_cons_of_mem _ hx)
      refine ⟨y :: ys, ?_, .cons hP hrest⟩
      rw [List.mapM_cons, hy, hys]
      rfl

theorem forall_mem_right {β γ : Type} {P : β → γ → Prop} {Q : γ → Prop}
    (himp : ∀ x y, P x y → Q y) {xs : List β} {ys : List γ} (h : List.Forall₂ P xs ys) :
    ∀ y ∈ ys, Q y := by
  induction h with
  | nil => exact fun y hy => by cases hy
  | cons hP _ ih => exact List.forall_mem_cons.mpr ⟨himp _ _ hP, ih⟩

theorem getElem?_right {β γ : Type} {P : β → γ → Prop} {xs : List β} {ys : List γ}
    (h : List.Forall₂ P xs ys) {i : Nat} {x : β} (hx : xs[i]? = some x) :
    ∃ y, ys[i]? = some y ∧ P x y := by
  induction h generalizing i with
  | nil => simp at hx
  | @cons a b xs ys hP _ ih =>
      cases i with
      | zero =>
          obtain rfl : a = x := by simpa using hx
          exact ⟨b, rfl, hP⟩
      | succ i => exact ih hx

theorem ne_nil_right {β γ : Type} {P : β → γ → Prop} {xs : List β} {ys : List γ}
    (h : List.Forall₂ P xs ys) (hne : xs ≠ []) : ys ≠ [] := by
  rintro rfl
  exact hne (List.forall₂_nil_right_iff.mp h)

/-! ## What a save stacks -/

theorem blockSlice_of_covers {blockShape : List Nat} {layer : Tensor α}
    (hpaged : Paged blockShape layer) {blk : Int} (hblk : 0 ≤ blk ∧ blk < layer.shape.getD 1 0) :
    ∃ slice, blockSlice layer blk = .ok slice ∧ slice.shape = 2 :: blockShape ∧
      ∀ half index, slice.entry (half :: index) = contents layer blk.toNat half index := by
  obtain ⟨numBlocks, hshape⟩ := hpaged
  have hlt : blk.toNat < layer.shape.getD 1 0 := by omega
  obtain ⟨slice, hselect, hslice, hentry⟩ := Tensor.select_eq_some hlt
  refine ⟨slice, ?_, ?_, ?_⟩
  · rw [blockSlice, position_of_nonneg hblk, Option.bind_some, hselect]
    rfl
  · rw [hslice, hshape]
    rfl
  · intro half index
    rw [hentry]
    rfl

namespace TorchKVTransfer

theorem stackLayer_spec {blockShape : List Nat} {layer : Tensor α}
    (hpaged : Paged blockShape layer) {blocks : List Int} (hne : blocks ≠ [])
    (hcovers : Covers layer blocks) :
    ∃ stacked, stackLayer layer blocks = .ok stacked ∧
      stacked.shape = 2 :: blocks.length :: blockShape ∧
      ∀ (bi : Nat) (blk : Int), blocks[bi]? = some blk → ∀ half index,
        stacked.entry (half :: bi :: index) = contents layer blk.toNat half index := by
  obtain ⟨slices, hslices, hforall⟩ :=
    mapM_ok fun blk hblk => blockSlice_of_covers hpaged (hcovers blk hblk)
  obtain ⟨stacked, hstack, hshape, hentry⟩ := Tensor.stack_eq_some (ne_nil_right hforall hne)
    (forall_mem_right (fun _ _ h => h.1) hforall) (Nat.succ_le_succ (Nat.zero_le _))
  refine ⟨stacked, ?_, ?_, ?_⟩
  · rw [stackLayer, hslices, Except.bind, hstack]
    rfl
  · rw [hshape, hforall.length_eq]
    rfl
  · intro bi blk hblk half index
    obtain ⟨slice, hslice, _, hcontents⟩ := getElem?_right hforall hblk
    have hone : (half :: bi :: index)[1]? = some bi := rfl
    rw [hentry, hone, Option.bind_some, hslice, Option.bind_some]
    exact hcontents half index

/-- The stack has, for each layer, half and place, the contents of the block at
that place. -/
theorem stackChunk_spec {blockShape : List Nat} {layers : List (Tensor α)} (hne : layers ≠ [])
    {blocks : List Int} (hblocks : blocks ≠ [])
    (h : ∀ layer ∈ layers, Paged blockShape layer ∧ Covers layer blocks) :
    ∃ stacked, stackChunk layers blocks = .ok stacked ∧
      stacked.shape = layers.length :: 2 :: blocks.length :: blockShape ∧
      ∀ (li : Nat) (layer : Tensor α), layers[li]? = some layer →
        ∀ (bi : Nat) (blk : Int), blocks[bi]? = some blk →
          ∀ half index, stacked.entry (li :: half :: bi :: index) =
            contents layer blk.toNat half index := by
  obtain ⟨parts, hparts, hforall⟩ :=
    mapM_ok fun layer hlayer => stackLayer_spec (h layer hlayer).1 hblocks (h layer hlayer).2
  obtain ⟨stacked, hstack, hshape, hentry⟩ := Tensor.stack_eq_some (ne_nil_right hforall hne)
    (forall_mem_right (fun _ _ h => h.1) hforall) (Nat.zero_le _)
  refine ⟨stacked, ?_, ?_, ?_⟩
  · rw [stackChunk, hparts, Except.bind, hstack]
    rfl
  · rw [hshape, hforall.length_eq]
    rfl
  · intro li layer hlayer bi blk hblk half index
    obtain ⟨part, hpart, _, hcontents⟩ := getElem?_right hforall hlayer
    have hzero : (li :: half :: bi :: index)[0]? = some li := rfl
    rw [hentry, hzero, Option.bind_some, hpart, Option.bind_some]
    exact hcontents bi blk hblk half index

theorem shapeOf_extents (shape : List Nat) :
    shapeOf (.arr (shape.map fun n : Nat => .int n)) = some shape := by
  rw [shapeOf]
  induction shape with
  | nil => rfl
  | cons n shape ih =>
      have hn : extentOf (.int n) = some n := by simp [extentOf]
      rw [List.map_cons, List.mapM_cons, hn, ih]
      rfl

theorem bufferOf_chunkPayload {dtype : Dtype α} (hinverse : dtype.Inverse)
    (t : TorchKVTransfer α) {stacked : Tensor α} (hne : stacked.entries ≠ []) :
    bufferOf dtype (chunkPayload dtype t stacked) = .ok stacked := by
  have hdtype : (chunkPayload dtype t stacked).metadata.lookup "dtype" = some (.str dtype.name) :=
    rfl
  have hshape : (chunkPayload dtype t stacked).metadata.lookup "shape" =
      some (.arr (stacked.shape.map fun n : Nat => .int n)) := rfl
  have hvalues : dtype.frombuffer (attributeName dtype.name) (chunkPayload dtype t stacked).data =
      .ok stacked.entries := hinverse stacked.entries hne
  simp only [bufferOf, hdtype, hshape, hvalues, shapeOf_extents, orRaise, Except.bind,
    Tensor.reshape_entries]

/-! ## What a load copies -/

theorem covers_of_shape {layer layer' : Tensor α} (hshape : layer'.shape = layer.shape)
    {blockIds : List Int} (h : Covers layer blockIds) : Covers layer' blockIds := by
  rw [Covers, hshape]
  exact h

theorem paged_of_shape {blockShape : List Nat} {layer layer' : Tensor α}
    (hshape : layer'.shape = layer.shape) (h : Paged blockShape layer) :
    Paged blockShape layer' := by
  rw [Paged, hshape]
  exact h

theorem copyBlock_spec {blockShape : List Nat} {layer : Tensor α} (hpaged : Paged blockShape layer)
    {blk : Int} (hblk : 0 ≤ blk ∧ blk < layer.shape.getD 1 0) {buf : Tensor α} {li bi : Nat}
    {numLayers count : Nat} (hbuf : buf.shape = numLayers :: 2 :: count :: blockShape)
    (hli : li < numLayers) (hbi : bi < count) :
    ∃ layer', copyBlock buf li layer blk bi = .ok layer' ∧ layer'.shape = layer.shape ∧
      contents layer' = Function.update (contents layer) blk.toNat
        fun half index => buf.entry (li :: half :: bi :: index) := by
  obtain ⟨numBlocks, hshape⟩ := hpaged
  have hlt : blk.toNat < layer.shape.getD 1 0 := by omega
  have hli' : li < buf.shape.getD 0 0 := by
    rw [hbuf]
    exact hli
  obtain ⟨rows, hrows, hrows_shape, hrows_entry⟩ := Tensor.select_eq_some hli'
  have hbi' : bi < rows.shape.getD 1 0 := by
    rw [hrows_shape, hbuf]
    exact hbi
  obtain ⟨source, hsource, hsource_shape, hsource_entry⟩ := Tensor.select_eq_some hbi'
  have hsame : source.shape = layer.shape.eraseIdx 1 := by
    rw [hsource_shape, hrows_shape, hbuf, hshape]
    rfl
  obtain ⟨layer', hoverwrite, hlayer_shape, hentry⟩ := Tensor.overwrite_eq_some hlt hsame
  refine ⟨layer', ?_, hlayer_shape, ?_⟩
  · simp only [copyBlock, position_of_nonneg hblk, hrows, Option.bind_some, hsource, hoverwrite,
      orRaise, Except.bind]
  · funext b half index
    have hone : (half :: b :: index)[1]? = some b := rfl
    rw [contents, hentry, hone]
    by_cases hb : b = blk.toNat
    · rw [hb, if_pos rfl, Function.update_self, hsource_entry, hrows_entry]
      rfl
    · rw [if_neg fun h => hb (Option.some.inj h), Function.update_of_ne hb]
      rfl

/-- The blocks that a chunk is loaded into, one after another, with what the buffer
has for them. -/
def blockWrites (buf : Tensor α) (li : Nat) (blocks : List (Int × Nat)) :
    List (Nat × (Nat → List Nat → Option α)) :=
  blocks.map fun block => (block.1.toNat, fun half index =>
    buf.entry (li :: half :: block.2 :: index))

def writeAll {β : Type} (writes : List (Nat × β)) (base : Nat → β) : Nat → β :=
  writes.foldl (fun paged write => Function.update paged write.1 write.2) base

theorem copyBlocks_spec {blockShape : List Nat} {layer : Tensor α}
    (hpaged : Paged blockShape layer) {buf : Tensor α} {li : Nat} {numLayers count : Nat}
    (hbuf : buf.shape = numLayers :: 2 :: count :: blockShape) (hli : li < numLayers)
    {blocks : List (Int × Nat)} (hcovers : Covers layer (blocks.map Prod.fst))
    (hbi : ∀ block ∈ blocks, block.2 < count) :
    ∃ layer', copyBlocks buf li blocks layer = (.ok (), layer') ∧ layer'.shape = layer.shape ∧
      contents layer' = writeAll (blockWrites buf li blocks) (contents layer) := by
  induction blocks generalizing layer with
  | nil => exact ⟨layer, rfl, rfl, rfl⟩
  | cons block blocks ih =>
      obtain ⟨first, hfirst, hfirst_shape, hfirst_contents⟩ := copyBlock_spec hpaged
        (hcovers block.1 (List.mem_cons_self ..)) hbuf hli (hbi block (List.mem_cons_self ..))
      have hrest : Covers first (blocks.map Prod.fst) :=
        covers_of_shape hfirst_shape (hcovers.subset (List.subset_cons_self _ _))
      obtain ⟨layer', hcopied, hshape, hcontents⟩ := ih (paged_of_shape hfirst_shape hpaged) hrest
        fun block hblock => hbi block (List.mem_cons_of_mem _ hblock)
      refine ⟨layer', ?_, hshape.trans hfirst_shape, ?_⟩
      · rw [copyBlocks, hfirst]
        exact hcopied
      · rw [hcontents, hfirst_contents]
        rfl

theorem copyLayers_spec {blockShape : List Nat} {buf : Tensor α} {numLayers count : Nat}
    (hbuf : buf.shape = numLayers :: 2 :: count :: blockShape) {blocks : List Int}
    (hlen : blocks.length = count) {layers : List (Tensor α)} (li : Nat)
    (hli : li + layers.length = numLayers)
    (h : ∀ layer ∈ layers, Paged blockShape layer ∧ Covers layer blocks) :
    ∃ layers', copyLayers buf blocks li layers = (.ok (), layers') ∧
      layers'.length = layers.length ∧
      ∀ (i : Nat) (layer : Tensor α), layers[i]? = some layer →
        ∃ layer', layers'[i]? = some layer' ∧ layer'.shape = layer.shape ∧
          contents layer' = writeAll (blockWrites buf (li + i) blocks.zipIdx) (contents layer) := by
  induction layers generalizing li with
  | nil => exact ⟨[], rfl, rfl, fun i layer hi => by cases hi⟩
  | cons layer layers ih =>
      obtain ⟨hfirst, hrest⟩ := List.forall_mem_cons.mp h
      have hlt : li < numLayers := by
        rw [List.length_cons] at hli
        omega
      have hcovers : Covers layer (blocks.zipIdx.map Prod.fst) := by
        rw [List.zipIdx_map_fst]
        exact hfirst.2
      have hbi : ∀ block ∈ blocks.zipIdx, block.2 < count := by
        intro block hblock
        rw [← hlen]
        exact (List.mem_zipIdx' hblock).1
      obtain ⟨layer', hcopied, hshape, hcontents⟩ :=
        copyBlocks_spec hfirst.1 hbuf hlt hcovers hbi
      have hnext : (li + 1) + layers.length = numLayers := by
        rw [List.length_cons] at hli
        omega
      obtain ⟨layers', hall, hlength, hlayers⟩ := ih (li + 1) hnext hrest
      refine ⟨layer' :: layers', ?_, congrArg (· + 1) hlength, ?_⟩
      · simp only [copyLayers, hcopied, hall]
      · intro i old hi
        cases i with
        | zero =>
            obtain rfl : layer = old := by simpa using hi
            exact ⟨layer', rfl, hshape, hcontents⟩
        | succ i =>
            obtain ⟨new, hnew, hnew_shape, hnew_contents⟩ := hlayers i old hi
            refine ⟨new, hnew, hnew_shape, ?_⟩
            rw [hnew_contents, Nat.add_right_comm, Nat.add_assoc]

/-- What is written when blocks are given the contents that others had. -/
def movedWrites (layer : Tensor α) (moves : List (Int × Int)) :
    List (Nat × (Nat → List Nat → Option α)) :=
  moves.map fun move => (move.1.toNat, contents layer move.2.toNat)

/-- The payload of a chunk holds the contents that its blocks had. -/
def Holds (dtype : Dtype α) (blockShape : List Nat) (layers : List (Tensor α)) (blocks : List Int)
    (payload : KVPayload) : Prop :=
  ∃ buf, bufferOf dtype payload = .ok buf ∧
    buf.shape = layers.length :: 2 :: blocks.length :: blockShape ∧
    ∀ (li : Nat) (layer : Tensor α), layers[li]? = some layer →
      ∀ (bi : Nat) (blk : Int), blocks[bi]? = some blk →
        ∀ half index, buf.entry (li :: half :: bi :: index) =
          contents layer blk.toNat half index

theorem blockWrites_eq_movedWrites {buf layer : Tensor α} {li : Nat} {src dst : List Int}
    (hlen : dst.length = src.length)
    (h : ∀ (bi : Nat) (blk : Int), src[bi]? = some blk → ∀ half index,
      buf.entry (li :: half :: bi :: index) = contents layer blk.toNat half index) :
    blockWrites buf li dst.zipIdx = movedWrites layer (dst.zip src) := by
  apply List.ext_getElem?
  intro i
  simp only [blockWrites, movedWrites, List.getElem?_map, List.getElem?_zipIdx]
  by_cases hi : i < dst.length
  · have hi' : i < src.length := hlen ▸ hi
    have hzip : (dst.zip src)[i]? = some (dst[i], src[i]) := by
      rw [List.getElem?_zip_eq_some]
      exact ⟨List.getElem?_eq_getElem hi, List.getElem?_eq_getElem hi'⟩
    rw [hzip, List.getElem?_eq_getElem hi]
    simp only [Option.map_some, Nat.zero_add]
    congr 2
    funext half index
    exact h i _ (List.getElem?_eq_getElem hi') half index
  · have hi' : src.length ≤ i := by omega
    rw [List.getElem?_eq_none (Nat.not_lt.mp hi), List.getElem?_eq_none]
    · rfl
    · rw [List.length_zip]
      omega

theorem length_chunkBlocks_congr (bpc : Nat) {src dst : List Int} (hlen : src.length = dst.length)
    (chunkIdx : Nat) :
    (chunkBlocks bpc src chunkIdx).length = (chunkBlocks bpc dst chunkIdx).length := by
  simp only [chunkBlocks, List.length_take, List.length_drop, hlen]

/-- A run of chunks gives each of their blocks the contents that the block it is
copied from had. -/
theorem loadChunks_spec {dtype : Dtype α} {blockShape : List Nat} {saved : List (Tensor α)}
    {bpc : Nat} {src dst : List Int} (hlen : src.length = dst.length) {chunks : List Nat}
    {payloads : List KVPayload}
    (hholds : List.Forall₂ (fun chunkIdx => Holds dtype blockShape saved
      (chunkBlocks bpc src chunkIdx)) chunks payloads)
    {layers : List (Tensor α)} (hcount : layers.length = saved.length)
    (h : ∀ layer ∈ layers, Paged blockShape layer ∧ Covers layer dst) :
    ∃ layers', loadChunks dtype bpc dst (payloads.zip chunks) layers = (.ok (), layers') ∧
      layers'.length = layers.length ∧
      ∀ (li : Nat) (old layer : Tensor α), saved[li]? = some old → layers[li]? = some layer →
        ∃ layer', layers'[li]? = some layer' ∧ layer'.shape = layer.shape ∧
          contents layer' = writeAll (chunks.flatMap fun chunkIdx => movedWrites old
            ((chunkBlocks bpc dst chunkIdx).zip (chunkBlocks bpc src chunkIdx)))
            (contents layer) := by
  induction hholds generalizing layers with
  | nil => exact ⟨layers, rfl, rfl, fun _ _ layer _ hlayer => ⟨layer, hlayer, rfl, rfl⟩⟩
  | @cons chunkIdx payload chunks payloads hfirst _ ih =>
      obtain ⟨buf, hbuf, hshape, hentry⟩ := hfirst
      have hblocks := length_chunkBlocks_congr bpc hlen chunkIdx
      have hcovered : ∀ layer ∈ layers, Paged blockShape layer ∧
          Covers layer (chunkBlocks bpc dst chunkIdx) := fun layer hlayer =>
        ⟨(h layer hlayer).1, (h layer hlayer).2.subset (chunkBlocks_subset ..)⟩
      obtain ⟨layers₁, hcopied, hlength₁, hlayers₁⟩ := copyLayers_spec hshape hblocks.symm 0
        (by omega) hcovered
      have hnext : ∀ layer ∈ layers₁, Paged blockShape layer ∧ Covers layer dst := by
        intro layer₁ hmem
        obtain ⟨li, hli⟩ := List.mem_iff_getElem?.mp hmem
        obtain ⟨hlt, _⟩ := List.getElem?_eq_some_iff.mp hli
        have hold : layers[li]? = some layers[li] := List.getElem?_eq_getElem (hlength₁ ▸ hlt)
        obtain ⟨layer', hlayer', hsame, _⟩ := hlayers₁ li _ hold
        obtain rfl := Option.some.inj (hli.symm.trans hlayer')
        have hall := h _ (List.mem_of_getElem? hold)
        exact ⟨paged_of_shape hsame hall.1, covers_of_shape hsame hall.2⟩
      obtain ⟨layers', hloaded, hlength, hlayers⟩ := ih (hlength₁.trans hcount) hnext
      refine ⟨layers', ?_, hlength.trans hlength₁, ?_⟩
      · simp only [List.zip_cons_cons, loadChunks, hbuf, hcopied, hloaded]
      · intro li old layer hold hlayer
        obtain ⟨layer₁, hlayer₁, hsame₁, hcontents₁⟩ := hlayers₁ li layer hlayer
        obtain ⟨layer', hlayer', hsame, hcontents⟩ := hlayers li old layer₁ hold hlayer₁
        refine ⟨layer', hlayer', hsame.trans hsame₁, ?_⟩
        have hwrites := blockWrites_eq_movedWrites hblocks.symm (hentry li old hold)
        rw [hcontents, hcontents₁, Nat.zero_add, hwrites, List.flatMap_cons, writeAll, writeAll,
          writeAll, List.foldl_append]

/-! ## Writes to distinct blocks -/

theorem writeAll_of_not_mem {β : Type} {writes : List (Nat × β)} {blk : Nat}
    (h : ∀ write ∈ writes, write.1 ≠ blk) (base : Nat → β) :
    writeAll writes base blk = base blk := by
  induction writes generalizing base with
  | nil => rfl
  | cons write writes ih =>
      obtain ⟨hfirst, hrest⟩ := List.forall_mem_cons.mp h
      have hstep : writeAll (write :: writes) base =
          writeAll writes (Function.update base write.1 write.2) := rfl
      rw [hstep, ih hrest, Function.update_of_ne hfirst.symm]

theorem writeAll_of_mem {β : Type} {writes : List (Nat × β)} {blk : Nat} {value : β}
    (hmem : (blk, value) ∈ writes) (honly : ∀ write ∈ writes, write.1 = blk → write.2 = value)
    (base : Nat → β) : writeAll writes base blk = value := by
  induction writes generalizing base with
  | nil => cases hmem
  | cons write writes ih =>
      obtain ⟨hfirst, hrest⟩ := List.forall_mem_cons.mp honly
      have hstep : writeAll (write :: writes) base =
          writeAll writes (Function.update base write.1 write.2) := rfl
      rw [hstep]
      by_cases hlater : (blk, value) ∈ writes
      · exact ih hlater hrest _
      · have hhere : write = (blk, value) := ((List.mem_cons.mp hmem).resolve_right hlater).symm
        have hnone : ∀ later ∈ writes, later.1 ≠ blk := by
          intro later hlater' hblk
          apply hlater
          rw [← hblk, ← hrest later hlater' hblk]
          exact hlater'
        rw [writeAll_of_not_mem hnone, hhere, Function.update_self]

theorem flatMap_chunks (layer : Tensor α) (src dst : List Int) (bpc n : Nat) :
    ((List.range n).flatMap fun chunkIdx : Nat => movedWrites layer
        ((chunkBlocks bpc dst chunkIdx).zip (chunkBlocks bpc src chunkIdx))) =
      movedWrites layer ((dst.zip src).take (n * bpc)) := by
  induction n with
  | zero => simp [movedWrites]
  | succ n ih =>
      have hchunk : (chunkBlocks bpc dst n).zip (chunkBlocks bpc src n) =
          ((dst.zip src).drop (n * bpc)).take bpc := by
        simp only [chunkBlocks, List.zip, List.drop_zipWith, List.take_zipWith]
      rw [List.range_succ, List.flatMap_append, ih, List.flatMap_singleton, hchunk, Nat.succ_mul,
        List.take_add, movedWrites, movedWrites, movedWrites, List.map_append]

/-- The first blocks of a list of distinct ones have what their sources had, and
all others what they had themselves. -/
structure Relocated (layer layer' : Tensor α) (src dst : List Int) (count : Nat) : Prop where
  shape : layer'.shape = layer.shape
  copied : ∀ (i : Nat) (d s : Int), i < count → dst[i]? = some d → src[i]? = some s →
    contents layer' d.toNat = contents layer s.toNat
  kept : ∀ blk : Nat, (∀ (i : Nat) (d : Int), i < count → dst[i]? = some d → d.toNat ≠ blk) →
    contents layer' blk = contents layer blk

theorem mem_movedWrites_iff {layer : Tensor α} {src dst : List Int} {count : Nat}
    {write : Nat × (Nat → List Nat → Option α)} :
    write ∈ movedWrites layer ((dst.zip src).take count) ↔
      ∃ i d s, i < count ∧ dst[i]? = some d ∧ src[i]? = some s ∧
        write = (d.toNat, contents layer s.toNat) := by
  rw [movedWrites, List.mem_map]
  constructor
  · rintro ⟨⟨d, s⟩, hmem, rfl⟩
    obtain ⟨i, hi⟩ := List.mem_iff_getElem?.mp hmem
    rw [List.getElem?_take] at hi
    split_ifs at hi with hlt
    obtain ⟨hd, hs⟩ := List.getElem?_zip_eq_some.mp hi
    exact ⟨i, d, s, hlt, hd, hs, rfl⟩
  · rintro ⟨i, d, s, hlt, hd, hs, rfl⟩
    refine ⟨(d, s), List.mem_iff_getElem?.mpr ⟨i, ?_⟩, rfl⟩
    rw [List.getElem?_take, if_pos hlt]
    exact List.getElem?_zip_eq_some.mpr ⟨hd, hs⟩

theorem relocated_of_contents {layer layer' : Tensor α} (hshape : layer'.shape = layer.shape)
    {src dst : List Int} (hnodup : dst.Nodup) (hcovers : Covers layer dst) {count : Nat}
    (h : contents layer' = writeAll (movedWrites layer ((dst.zip src).take count))
      (contents layer)) : Relocated layer layer' src dst count where
  shape := hshape
  copied := by
    intro i d s hi hd hs
    rw [h]
    apply writeAll_of_mem (mem_movedWrites_iff.mpr ⟨i, d, s, hi, hd, hs, rfl⟩)
    intro write hwrite hblk
    obtain ⟨i', d', s', _, hd', hs', rfl⟩ := mem_movedWrites_iff.mp hwrite
    -- distinct ids are those of distinct blocks
    have hnonneg := (hcovers d (List.mem_of_getElem? hd)).1
    have hnonneg' := (hcovers d' (List.mem_of_getElem? hd')).1
    have hsame : d'.toNat = d.toNat := hblk
    obtain rfl : d' = d := by omega
    obtain ⟨hlt, hget⟩ := List.getElem?_eq_some_iff.mp hd
    obtain ⟨hlt', hget'⟩ := List.getElem?_eq_some_iff.mp hd'
    obtain rfl : i' = i := hnodup.getElem_inj_iff.mp (hget'.trans hget.symm)
    obtain rfl := Option.some.inj (hs'.symm.trans hs)
    rfl
  kept := by
    intro blk hother
    rw [h]
    apply writeAll_of_not_mem
    intro write hwrite
    obtain ⟨i, d, s, hi, hd, _, rfl⟩ := mem_movedWrites_iff.mp hwrite
    exact hother i d hi hd

/-! ## The shapes stay -/

theorem overwrite_shape {layer layer' source : Tensor α} {dim i : Nat}
    (h : layer.overwrite dim i source = some layer') : layer'.shape = layer.shape := by
  unfold Tensor.overwrite at h
  split at h
  · cases h
  · split_ifs at h
    rw [← Option.some.inj h]

theorem exists_of_bind_ok {β γ : Type} {x : Except Raised β} {f : β → Except Raised γ} {r : γ}
    (h : x.bind f = .ok r) : ∃ a, x = .ok a ∧ f a = .ok r := by
  cases x with
  | error err => cases h
  | ok a => exact ⟨a, rfl, h⟩

theorem eq_some_of_orRaise {β : Type} {err : Raised} {o : Option β} {value : β}
    (h : orRaise err o = .ok value) : o = some value := by
  cases o with
  | none => cases h
  | some v => exact congrArg some (Except.ok.inj h)

theorem copyBlock_shape {buf layer layer' : Tensor α} {li bi : Nat} {blk : Int}
    (h : copyBlock buf li layer blk bi = .ok layer') : layer'.shape = layer.shape := by
  unfold copyBlock at h
  obtain ⟨i, _, h⟩ := exists_of_bind_ok h
  obtain ⟨source, _, h⟩ := exists_of_bind_ok h
  exact overwrite_shape (eq_some_of_orRaise h)

theorem copyBlocks_shape (buf : Tensor α) (li : Nat) (blocks : List (Int × Nat))
    (layer : Tensor α) : (copyBlocks buf li blocks layer).2.shape = layer.shape := by
  induction blocks generalizing layer with
  | nil => rfl
  | cons block blocks ih =>
      unfold copyBlocks
      split
      · rfl
      · next layer₁ hfirst => rw [ih, copyBlock_shape hfirst]

theorem copyLayers_shapes (buf : Tensor α) (blocks : List Int) (li : Nat)
    (layers : List (Tensor α)) :
    (copyLayers buf blocks li layers).2.map Tensor.shape = layers.map Tensor.shape := by
  induction layers generalizing li with
  | nil => rfl
  | cons layer layers ih =>
      have hfirst := copyBlocks_shape buf li blocks.zipIdx layer
      cases hout : (copyBlocks buf li blocks.zipIdx layer).1 with
      | error err => simp only [copyLayers, hout, List.map_cons, hfirst]
      | ok => simp only [copyLayers, hout, List.map_cons, hfirst, ih]

theorem loadChunks_shapes (dtype : Dtype α) (bpc : Nat) (blockIds : List Int)
    (chunks : List (KVPayload × Nat)) (layers : List (Tensor α)) :
    (loadChunks dtype bpc blockIds chunks layers).2.map Tensor.shape =
      layers.map Tensor.shape := by
  induction chunks generalizing layers with
  | nil => rfl
  | cons chunk chunks ih =>
      cases hbuf : bufferOf dtype chunk.1 with
      | error err => simp only [loadChunks, hbuf]
      | ok buf =>
          cases hout : (copyLayers buf (chunkBlocks bpc blockIds chunk.2) 0 layers).1 with
          | error err => simp only [loadChunks, hbuf, hout, copyLayers_shapes]
          | ok => simp only [loadChunks, hbuf, hout, ih, copyLayers_shapes]

/-- A load leaves the layers their shapes, also when it raises. -/
theorem loadInto_shapes (dtype : Dtype α) (t : TorchKVTransfer α) (blockIds : List Int)
    (payloads : List KVPayload) :
    (t.loadInto dtype blockIds payloads).2.layers.map Tensor.shape =
      t.layers.map Tensor.shape := by
  unfold loadInto
  split
  · rfl
  · exact loadChunks_shapes ..

/-! ## A save and a load -/

/-- `t.load_into(dst, t.save_from(src, num_chunks))`. -/
def relocate (dtype : Dtype α) (t : TorchKVTransfer α) (src dst : List Int) (numChunks : Nat) :
    Except Raised Unit × TorchKVTransfer α :=
  match t.saveFrom dtype src numChunks with
  | .error err => (.error err, t)
  | .ok payloads => t.loadInto dtype dst payloads

theorem blocksPerChunk_of_dvd {t : TorchKVTransfer α} (hdvd : t.blockSize ∣ t.chunkSize) :
    t.blocksPerChunk = .ok (t.chunkSize / t.blockSize) :=
  if_neg (not_not_intro (Nat.mod_eq_zero_of_dvd hdvd))

theorem relocate_shapes (dtype : Dtype α) (t : TorchKVTransfer α) (src dst : List Int)
    (numChunks : Nat) :
    (t.relocate dtype src dst numChunks).2.layers.map Tensor.shape =
      t.layers.map Tensor.shape := by
  unfold relocate
  split
  · rfl
  · exact loadInto_shapes ..

theorem chunkBlocks_ne_nil {bpc n : Nat} (hbpc : 0 < bpc) {src : List Int}
    (hn : n * bpc < src.length + bpc) {chunkIdx : Nat} (hchunk : chunkIdx < n) :
    chunkBlocks bpc src chunkIdx ≠ [] := by
  have hle : (chunkIdx + 1) * bpc ≤ n * bpc := Nat.mul_le_mul_right bpc hchunk
  rw [Nat.succ_mul] at hle
  apply List.ne_nil_of_length_pos
  rw [chunkBlocks, List.length_take, List.length_drop]
  omega

section Relocate

variable {dtype : Dtype α} {t : TorchKVTransfer α} {blockShape : List Nat} {src dst : List Int}
  {n : Nat}

theorem saveFrom_spec (hinverse : dtype.Inverse) (hdvd : t.blockSize ∣ t.chunkSize)
    (hlayers : ∀ layer ∈ t.layers, Paged blockShape layer ∧ Covers layer src)
    (hn : n * (t.chunkSize / t.blockSize) < src.length + t.chunkSize / t.blockSize)
    (hsome : n = 0 ∨ 0 < t.chunkSize / t.blockSize ∧ t.layers ≠ [] ∧ 0 < blockShape.prod) :
    ∃ payloads, t.saveFrom dtype src n = .ok payloads ∧
      List.Forall₂ (fun chunkIdx => Holds dtype blockShape t.layers
        (chunkBlocks (t.chunkSize / t.blockSize) src chunkIdx)) (List.range n) payloads := by
  have hsave : ∀ chunkIdx ∈ List.range n, ∃ payload,
      (stackChunk t.layers (chunkBlocks (t.chunkSize / t.blockSize) src chunkIdx)).map
          (chunkPayload dtype t) = .ok payload ∧
        Holds dtype blockShape t.layers
          (chunkBlocks (t.chunkSize / t.blockSize) src chunkIdx) payload := by
    intro chunkIdx hmem
    have hchunk : chunkIdx < n := List.mem_range.mp hmem
    obtain ⟨hbpc, hne, hpos⟩ := hsome.resolve_left (by omega)
    have hblocks := chunkBlocks_ne_nil hbpc hn hchunk
    obtain ⟨stacked, hstacked, hshape, hentry⟩ := stackChunk_spec hne hblocks fun layer hlayer =>
      ⟨(hlayers layer hlayer).1, (hlayers layer hlayer).2.subset (chunkBlocks_subset ..)⟩
    have hentries : stacked.entries ≠ [] := by
      apply List.ne_nil_of_length_pos
      rw [stacked.length_entries, hshape, List.prod_cons, List.prod_cons, List.prod_cons]
      exact Nat.mul_pos (List.length_pos_of_ne_nil hne) (Nat.mul_pos Nat.two_pos
        (Nat.mul_pos (List.length_pos_of_ne_nil hblocks) hpos))
    refine ⟨chunkPayload dtype t stacked, ?_, stacked, bufferOf_chunkPayload hinverse t hentries,
      hshape, hentry⟩
    rw [hstacked]
    rfl
  obtain ⟨payloads, hpayloads, hforall⟩ := mapM_ok hsave
  refine ⟨payloads, ?_, hforall⟩
  rw [saveFrom, blocksPerChunk_of_dvd hdvd]
  exact hpayloads

theorem relocate_of_nonempty (hinverse : dtype.Inverse) (hdvd : t.blockSize ∣ t.chunkSize)
    (hlayers : ∀ layer ∈ t.layers, Paged blockShape layer ∧ Covers layer src ∧ Covers layer dst)
    (hlen : src.length = dst.length) (hnodup : dst.Nodup)
    (hn : n * (t.chunkSize / t.blockSize) < src.length + t.chunkSize / t.blockSize)
    (hsome : n = 0 ∨ 0 < t.chunkSize / t.blockSize ∧ t.layers ≠ [] ∧ 0 < blockShape.prod) :
    (t.relocate dtype src dst n).1 = .ok () ∧
      ∀ (li : Nat) (layer : Tensor α), t.layers[li]? = some layer →
        ∃ layer', (t.relocate dtype src dst n).2.layers[li]? = some layer' ∧
          Relocated layer layer' src dst (n * (t.chunkSize / t.blockSize)) := by
  obtain ⟨payloads, hsave, hholds⟩ := saveFrom_spec hinverse hdvd
    (fun layer hlayer => ⟨(hlayers layer hlayer).1, (hlayers layer hlayer).2.1⟩) hn hsome
  obtain ⟨layers', hload, _, hrelocated⟩ := loadChunks_spec hlen hholds rfl
    fun layer hlayer => ⟨(hlayers layer hlayer).1, (hlayers layer hlayer).2.2⟩
  have hzip : payloads.zipIdx = payloads.zip (List.range n) := by
    rw [List.zipIdx_eq_zip_range', ← hholds.length_eq, List.length_range, List.range_eq_range']
  have hrelocate : t.relocate dtype src dst n = (.ok (), { t with layers := layers' }) := by
    simp only [relocate, hsave, loadInto, blocksPerChunk_of_dvd hdvd, hzip, hload]
  rw [hrelocate]
  refine ⟨rfl, ?_⟩
  intro li layer hlayer
  obtain ⟨layer', hlayer', hshape, hcontents⟩ := hrelocated li layer layer hlayer hlayer
  rw [flatMap_chunks] at hcontents
  exact ⟨layer', hlayer', relocated_of_contents hshape hnodup
    (hlayers layer (List.mem_of_getElem? hlayer)).2.2 hcontents⟩

theorem contents_of_prod_eq_zero {layer : Tensor α} (hpaged : Paged blockShape layer)
    (hzero : blockShape.prod = 0) (blk : Nat) : contents layer blk = fun _ _ => none := by
  obtain ⟨numBlocks, hshape⟩ := hpaged
  funext half index
  rw [contents, Tensor.entry_eq_none_iff, hshape, InBounds, List.forall₂_cons, List.forall₂_cons]
  rintro ⟨_, _, hindex⟩
  have hpos := Tensor.prod_pos_of_inBounds hindex
  omega

theorem saveFrom_of_no_blocks (hdvd : t.blockSize ∣ t.chunkSize)
    (hbpc : t.chunkSize / t.blockSize = 0) (hne : t.layers ≠ []) (hpos : n ≠ 0)
    (src : List Int) : t.saveFrom dtype src n = .error emptyStack := by
  have hblocks : ∀ chunkIdx, chunkBlocks 0 src chunkIdx = [] := fun chunkIdx => List.take_zero
  obtain ⟨layer, layers, hlayers⟩ := List.exists_cons_of_ne_nil hne
  have hstack : stackChunk t.layers [] = .error emptyStack := by
    rw [stackChunk, hlayers, List.mapM_cons]
    rfl
  obtain ⟨m, rfl⟩ := Nat.exists_eq_succ_of_ne_zero hpos
  rw [saveFrom, blocksPerChunk_of_dvd hdvd, hbpc, Except.bind, List.range_succ_eq_map,
    List.mapM_cons, hblocks, hstack]
  rfl

/-- After a save of blocks and a load of what was saved, each of the blocks that the
load covers has, in every layer, the contents that its source had, and every other
block has its own.  Neither raises, provided that there is something to save. -/
theorem relocate_exact (hinverse : dtype.Inverse) (hdvd : t.blockSize ∣ t.chunkSize)
    (hlayers : ∀ layer ∈ t.layers, Paged blockShape layer ∧ Covers layer src ∧ Covers layer dst)
    (hlen : src.length = dst.length) (hnodup : dst.Nodup)
    (hn : n * (t.chunkSize / t.blockSize) < src.length + t.chunkSize / t.blockSize) :
    (∀ (li : Nat) (layer : Tensor α), t.layers[li]? = some layer →
      ∃ layer', (t.relocate dtype src dst n).2.layers[li]? = some layer' ∧
        Relocated layer layer' src dst (n * (t.chunkSize / t.blockSize))) ∧
    (n = 0 ∨ 0 < t.chunkSize / t.blockSize ∧ t.layers ≠ [] ∧ 0 < blockShape.prod →
      (t.relocate dtype src dst n).1 = .ok ()) := by
  by_cases hsome : n = 0 ∨ 0 < t.chunkSize / t.blockSize ∧ t.layers ≠ [] ∧ 0 < blockShape.prod
  · obtain ⟨hok, hrelocated⟩ := relocate_of_nonempty hinverse hdvd hlayers hlen hnodup hn hsome
    exact ⟨hrelocated, fun _ => hok⟩
  · refine ⟨?_, fun h => absurd h hsome⟩
    intro li layer hlayer
    have hmem : layer ∈ t.layers := List.mem_of_getElem? hlayer
    have hne : t.layers ≠ [] := List.ne_nil_of_mem hmem
    by_cases hbpc : t.chunkSize / t.blockSize = 0
    · have hpos : n ≠ 0 := fun h => hsome (.inl h)
      have hsame : t.relocate dtype src dst n = (.error emptyStack, t) := by
        rw [relocate, saveFrom_of_no_blocks hdvd hbpc hne hpos]
      rw [hsame, hbpc]
      exact ⟨layer, hlayer, rfl, fun i _ _ hi => by omega, fun _ _ => rfl⟩
    · have hzero : blockShape.prod = 0 := by
        by_contra hprod
        exact hsome (.inr ⟨Nat.pos_of_ne_zero hbpc, hne, Nat.pos_of_ne_zero hprod⟩)
      have hshapes := congrArg (·[li]?) (relocate_shapes dtype t src dst n)
      simp only [List.getElem?_map, hlayer, Option.map_some, Option.map_eq_some_iff] at hshapes
      obtain ⟨layer', hlayer', hshape⟩ := hshapes
      have hpaged := (hlayers layer hmem).1
      have hempty' := contents_of_prod_eq_zero (paged_of_shape hshape hpaged) hzero
      have hempty := contents_of_prod_eq_zero hpaged hzero
      refine ⟨layer', hlayer', hshape, ?_, ?_⟩
      · intro i d s _ _ _
        rw [hempty', hempty]
      · intro blk _
        rw [hempty', hempty]

end Relocate

/-- Bytes, as `torch.uint8`. -/
def uint8 : Dtype UInt8 where
  name := "torch.uint8"
  tobytes := id
  frombuffer name data :=
    if name = "uint8" then
      if data = [] then .error (.valueError "both buffer length (0) and count (-1) must not be 0")
      else .ok data
    else .error (.attributeError "module 'torch' has no attribute")

theorem uint8_inverse : uint8.Inverse := by
  intro values hne
  have hname : attributeName uint8.name = "uint8" := by decide +kernel
  rw [hname]
  exact if_neg hne

/-- Two layers of three blocks of one byte. -/
def samplePaged : TorchKVTransfer UInt8 where
  layers := [Tensor.ofFn [2, 3, 1] fun index => .ofNat (index.getD 1 0),
    Tensor.ofFn [2, 3, 1] fun index => .ofNat (index.getD 0 0)]
  blockSize := 1
  blockSize_pos := Nat.one_pos
  chunkSize := 1

theorem paged_samplePaged : ∀ layer ∈ samplePaged.layers,
    Paged [1] layer ∧ Covers layer [0, 1] ∧ Covers layer [1, 2] := by
  intro layer hlayer
  have hshape : layer.shape = [2, 3, 1] := by
    rcases List.mem_cons.mp hlayer with rfl | hlayer
    · rfl
    · rw [List.mem_singleton.mp hlayer]
      rfl
  unfold Paged Covers
  rw [hshape]
  exact ⟨⟨3, rfl⟩, by decide, by decide⟩

/-- Blocks 0 and 1 moved to blocks 1 and 2. -/
theorem relocate_exact_sample :
    (∀ (li : Nat) (layer : Tensor UInt8), samplePaged.layers[li]? = some layer →
      ∃ layer', (samplePaged.relocate uint8 [0, 1] [1, 2] 2).2.layers[li]? = some layer' ∧
        Relocated layer layer' [0, 1] [1, 2] 2) ∧
    (2 = 0 ∨ 0 < 1 ∧ samplePaged.layers ≠ [] ∧ 0 < [1].prod →
      (samplePaged.relocate uint8 [0, 1] [1, 2] 2).1 = .ok ()) :=
  relocate_exact uint8_inverse (dvd_refl 1) paged_samplePaged rfl (by decide) (by decide)

end TorchKVTransfer

end LlmCache.Connectors.TorchTransfer
