import LlmCache.Store.CPU
import LlmCache.Store.DiskChunks
import LlmCache.Store.Redis

/-!
# Three backends side by side

Key by key each backend is a cell that holds an object or none and is pinned or
not.  The cells differ in what they do with a pin when an object is replaced or
absent, and in which objects they accept.
-/

namespace LlmCache.Store.Interchange

open Errors Lib Payload LlmCache.Types KeyedStore
open DiskChunks (SafeId Framed Tidy)

/-! ## Cells -/

/-- What a store holds under a key, and whether the key is pinned in it. -/
structure Cell where
  held : Option UnpackedPayload
  pinned : Bool
deriving DecidableEq

/-- How a store treats pins, and whether it frames what it stores. -/
structure Policy where
  /-- A put without a pin leaves the pin of the key. -/
  keepsPin : Bool
  /-- A key that is not held can be pinned. -/
  pinsMissing : Bool
  frames : Bool

/-- The header of the object fits the length field of a frame. -/
def Fits (json : JsonText) (obj : KVPayload) : Prop :=
  (headerBytes json obj).length < 2 ^ 32

instance (json : JsonText) (obj : KVPayload) : Decidable (Fits json obj) :=
  inferInstanceAs (Decidable (_ < _))

namespace Cell

/-- What a call about the key makes of its cell. -/
def next (json : JsonText) (policy : Policy) : Op ChunkKey KVPayload → Cell → Cell
  | .put _ obj pin, c =>
      if policy.frames ∧ ¬Fits json obj then c
      else ⟨some obj.fields, pin || (policy.keepsPin && c.pinned)⟩
  | .remove _, _ => ⟨none, false⟩
  | .pin _, c => ⟨c.held, c.pinned || policy.pinsMissing || c.held.isSome⟩
  | .unpin _, c => ⟨c.held, false⟩
  | .get _, c | .contains _, c | .clear, c => c

/-- What the calls that read or remove a key answer. -/
def reply (c : Cell) : Op ChunkKey KVPayload → Option (Reply UnpackedPayload)
  | .get _ => some (.object c.held)
  | .contains _ | .remove _ => some (.flag c.held.isSome)
  | .put .. | .pin _ | .unpin _ | .clear => none

theorem pinned_next {json : JsonText} {policy : Policy} {op : Op ChunkKey KVPayload} {c : Cell}
    (hpolicy : ¬policy.pinsMissing) (hc : c.pinned → c.held.isSome) :
    (c.next json policy op).pinned → (c.next json policy op).held.isSome := by
  cases op with
  | put key obj pin =>
      simp only [next]
      split_ifs
      · exact hc
      · exact fun _ => rfl
  | remove key => exact fun h => absurd h Bool.false_ne_true
  | unpin key => exact fun h => absurd h Bool.false_ne_true
  | pin key =>
      simp only [next, Bool.eq_false_of_not_eq_true hpolicy, Bool.or_false, Bool.or_eq_true]
      exact fun h => h.elim hc id
  | get key => exact hc
  | contains key => exact hc
  | clear => exact hc

end Cell

/-- A call about a key with a safe id, with metadata that JSON gives back. -/
structure Admissible (op : Op ChunkKey KVPayload) : Prop where
  safe : ∃ key, op.key = some key ∧ SafeId key.cacheId
  metadata : ∀ key obj pin, op = .put key obj pin → (Json.obj obj.metadata).WellFormed

/-- A store that is made of cells, as long as its invariant holds. -/
structure Cellular {σ : Type} (json : JsonText) (policy : Policy)
    (step : σ → Op ChunkKey KVPayload → Except Raised (Reply UnpackedPayload) × σ)
    (keys : σ → List ChunkKey) (inv : σ → Prop) (cell : σ → ChunkKey → Cell) : Prop where
  keeps : ∀ s op, inv s → Admissible op → inv (step s op).2
  other : ∀ s op key, inv s → Admissible op → SafeId key.cacheId → op.key ≠ some key →
    cell (step s op).2 key = cell s key
  self : ∀ s op key, inv s → Admissible op → op.key = some key →
    cell (step s op).2 key = (cell s key).next json policy op
  answers : ∀ s op key reply, inv s → Admissible op → op.key = some key →
    (cell s key).reply op = some reply → (step s op).1 = .ok reply
  lists : ∀ s key, inv s → (key ∈ keys s ↔ SafeId key.cacheId ∧ (cell s key).held.isSome)
  fits : ∀ s key obj, inv s → policy.frames → SafeId key.cacheId →
    (cell s key).held = some obj.fields → Fits json obj
  pins : ∀ s key, inv s → ¬policy.pinsMissing → SafeId key.cacheId →
    (cell s key).pinned → (cell s key).held.isSome

/-! ## The three stores -/

def cpuPolicy : Policy where
  keepsPin := true
  pinsMissing := false
  frames := false

def diskPolicy : Policy where
  keepsPin := true
  pinsMissing := true
  frames := true

def redisPolicy : Policy where
  keepsPin := false
  pinsMissing := false
  frames := true

section CPU

/-- The objects as the other stores return them. -/
def cpuStep (s : UnboundedCPU) (op : Op ChunkKey KVPayload) :
    Except Raised (Reply UnpackedPayload) × UnboundedCPU :=
  ((KeyedStore.step s op).1.map (Reply.map KVPayload.fields), (KeyedStore.step s op).2)

def cpuCell (s : UnboundedCPU) (key : ChunkKey) : Cell where
  held := (s.1.resident key).map KVPayload.fields
  pinned := decide (key ∈ s.1.pinned)

/-- Only keys with safe ids reside, and only keys that reside are pinned. -/
structure CPUTidy (s : UnboundedCPU) : Prop where
  safe : ∀ key, (cpuCell s key).held.isSome → SafeId key.cacheId
  pinned : ∀ key, (cpuCell s key).pinned → (cpuCell s key).held.isSome

theorem resident_put (s : UnboundedCPU) (key k : ChunkKey) (obj : KVPayload) (pin : Bool) :
    (KeyedStore.put s key obj pin).2.1.resident k =
      if k = key then some obj else s.1.resident k :=
  (congrFun (LosslessStore.view_put s key obj pin) k).trans (Function.update_apply ..)

theorem mem_pinned_put (s : UnboundedCPU) (key k : ChunkKey) (obj : KVPayload) (pin : Bool) :
    k ∈ (KeyedStore.put s key obj pin).2.1.pinned ↔ k ∈ s.1.pinned ∨ k = key ∧ pin = true := by
  have hput : (KeyedStore.put s key obj pin).2.1 =
      (s.1.put noCallback () key obj pin).hot := rfl
  rw [hput, CPUBackend.put_of_unbounded s.2]
  cases pin <;> simp [CPUBackend.store, or_comm]

theorem cpuCell_eq {s s' : UnboundedCPU} {key : ChunkKey}
    (hheld : s'.1.resident key = s.1.resident key)
    (hpinned : key ∈ s'.1.pinned ↔ key ∈ s.1.pinned) :
    cpuCell s' key = cpuCell s key := by
  rw [cpuCell, cpuCell, hheld, decide_eq_decide.mpr hpinned]

theorem notMem_pinned_remove {s : UnboundedCPU} (hs : CPUTidy s) (key : ChunkKey) :
    key ∉ (s.1.remove key).2.pinned := by
  intro hmem
  unfold CPUBackend.remove at hmem
  cases hlookup : s.1.data.lookup key with
  | none =>
      -- nothing is removed, and what is absent was not pinned
      rw [hlookup] at hmem
      have hsome := hs.pinned key (decide_eq_true hmem)
      simp [cpuCell, CPUBackend.resident, hlookup] at hsome
  | some obj =>
      rw [hlookup] at hmem
      exact Finset.notMem_erase key _ hmem

theorem cpuCell_step (s : UnboundedCPU) (hs : CPUTidy s) {op : Op ChunkKey KVPayload}
    {key : ChunkKey} (hop : op.key = some key) (json : JsonText) (k : ChunkKey) :
    cpuCell (cpuStep s op).2 k =
      if k = key then (cpuCell s key).next json cpuPolicy op else cpuCell s k := by
  cases op with
  | put x obj pin =>
      obtain rfl := Option.some.inj hop
      have hheld := resident_put s x k obj pin
      have hpinned := mem_pinned_put s x k obj pin
      split_ifs with hk
      · subst hk
        rw [if_pos rfl] at hheld
        simp only [true_and] at hpinned
        simp only [cpuCell, cpuStep, KeyedStore.step, hheld, hpinned, Cell.next, cpuPolicy]
        cases pin <;> simp
      · rw [if_neg hk] at hheld
        exact cpuCell_eq hheld (hpinned.trans (or_iff_left fun h => hk h.1))
  | get x =>
      obtain rfl := Option.some.inj hop
      have hsame : cpuCell (cpuStep s (.get x)).2 k = cpuCell s k := by
        apply cpuCell_eq
        · exact CPUBackend.resident_get s.1 x k
        · exact Iff.of_eq (congrArg (k ∈ ·) (CPUBackend.pinned_get s.1 x))
      split_ifs with hk
      · rw [hsame, hk]
        rfl
      · exact hsame
  | contains x =>
      obtain rfl := Option.some.inj hop
      split_ifs with hk
      · rw [hk]
        rfl
      · rfl
  | remove x =>
      obtain rfl := Option.some.inj hop
      have hheld : (cpuStep s (.remove x)).2.1.resident k = _ :=
        CPUBackend.resident_remove s.1 x k
      split_ifs with hk
      · subst hk
        rw [if_pos rfl] at hheld
        have hpinned : k ∉ (cpuStep s (.remove k)).2.1.pinned := notMem_pinned_remove hs k
        simp only [cpuCell, hheld, hpinned, Cell.next]
        rfl
      · rw [if_neg hk] at hheld
        exact cpuCell_eq hheld (CPUBackend.mem_pinned_remove s.1 hk)
  | pin x =>
      obtain rfl := Option.some.inj hop
      have hheld : (cpuStep s (.pin x)).2.1.resident k = _ := CPUBackend.resident_pin s.1 x k
      have hpinned : k ∈ (cpuStep s (.pin x)).2.1.pinned ↔ _ := CPUBackend.mem_pinned_pin s.1 x k
      split_ifs with hk
      · subst hk
        simp only [true_and] at hpinned
        simp [cpuCell, hheld, hpinned, Cell.next, cpuPolicy]
      · exact cpuCell_eq hheld (hpinned.trans (or_iff_left fun h => hk h.1))
  | unpin x =>
      obtain rfl := Option.some.inj hop
      split_ifs with hk
      · subst hk
        have hpinned : k ∉ (cpuStep s (.unpin k)).2.1.pinned := Finset.notMem_erase k _
        simp only [cpuCell, hpinned, Cell.next]
        rfl
      · exact cpuCell_eq rfl (CPUBackend.mem_pinned_unpin s.1 hk)
  | clear => cases hop

theorem cpu_cellular (json : JsonText) :
    Cellular json cpuPolicy cpuStep KeyedStore.keys CPUTidy cpuCell where
  keeps := by
    intro s op hs hop
    obtain ⟨key, hkey, hsafe⟩ := hop.safe
    refine ⟨fun k => ?_, fun k => ?_⟩
    · rw [cpuCell_step s hs hkey json]
      split_ifs with hk
      · exact fun _ => hk ▸ hsafe
      · exact hs.safe k
    · rw [cpuCell_step s hs hkey json]
      split_ifs with hk
      · exact Cell.pinned_next Bool.false_ne_true (hs.pinned key)
      · exact hs.pinned k
  other := by
    intro s op key hs hop _ hne
    obtain ⟨k, hk, -⟩ := hop.safe
    rw [cpuCell_step s hs hk json, if_neg]
    rintro rfl
    exact hne hk
  self := by
    intro s op key hs _ hop
    rw [cpuCell_step s hs hop json, if_pos rfl]
  answers := by
    intro s op key reply _ _ hkey hreply
    cases op with
    | get k =>
        obtain rfl := Option.some.inj hkey
        rw [← Option.some.inj hreply]
        simp [cpuStep, KeyedStore.step, Except.map, Reply.map, cpuCell, LosslessStore.view]
    | contains k =>
        obtain rfl := Option.some.inj hkey
        rw [← Option.some.inj hreply]
        simp [cpuStep, KeyedStore.step, Except.map, Reply.map, cpuCell, LosslessStore.view]
    | remove k =>
        obtain rfl := Option.some.inj hkey
        rw [← Option.some.inj hreply]
        simp [cpuStep, KeyedStore.step, Except.map, Reply.map, cpuCell, LosslessStore.view]
    | put k obj pin => cases hreply
    | pin k => cases hreply
    | unpin k => cases hreply
    | clear => cases hreply
  lists := by
    intro s key hs
    have hkeys : key ∈ KeyedStore.keys s ↔ (cpuCell s key).held.isSome := by
      rw [cpuCell, Option.isSome_map]
      exact LosslessStore.mem_keys s key
    rw [hkeys]
    exact ⟨fun h => ⟨hs.safe key h, h⟩, And.right⟩
  fits := by
    intro s key obj _ hframes
    cases hframes
  pins := by
    intro s key hs _ _
    exact hs.pinned key

end CPU

section Disk

variable {json : JsonText}

def diskCell (json : JsonText) (s : DiskBackend) (key : ChunkKey) : Cell where
  held := (s.get json key).1.toOption.join
  pinned := decide (key ∈ s.pinned)

theorem diskCell_held (hjson : json.Inverts) {s : DiskBackend} (ht : Tidy json s)
    {key : ChunkKey} (hsafe : SafeId key.cacheId) :
    (s.fs.node (DiskIsolation.fileAt s.root s.fs.cwd key) = none ∧
        (diskCell json s key).held = none) ∨
      ∃ obj blob, Framed json obj blob ∧
        s.fs.node (DiskIsolation.fileAt s.root s.fs.cwd key) = some (.file blob) ∧
        (diskCell json s key).held = some obj.fields := by
  obtain ⟨-, hnone, hsome⟩ := DiskChunks.reads_spec hjson ht hsafe
  cases hnode : s.fs.node (DiskIsolation.fileAt s.root s.fs.cwd key) with
  | none =>
      refine .inl ⟨rfl, ?_⟩
      rw [diskCell, hnone hnode]
      rfl
  | some n =>
      obtain ⟨obj, blob, hframed, rfl⟩ := DiskChunks.chunk_of_node ht hsafe hnode
      refine .inr ⟨obj, blob, hframed, rfl, ?_⟩
      rw [diskCell, hsome obj blob hframed hnode]
      rfl

theorem get_of_tidy (hjson : json.Inverts) {s : DiskBackend} (ht : Tidy json s)
    {key : ChunkKey} (hsafe : SafeId key.cacheId) :
    (s.get json key).1 = .ok (diskCell json s key).held := by
  obtain ⟨-, hnone, hsome⟩ := DiskChunks.reads_spec hjson ht hsafe
  rcases diskCell_held hjson ht hsafe with ⟨hnode, hheld⟩ | ⟨obj, blob, hframed, hnode, hheld⟩
  · rw [hnone hnode, hheld]
  · rw [hsome obj blob hframed hnode, hheld]

theorem isSome_held (hjson : json.Inverts) {s : DiskBackend} (ht : Tidy json s)
    {key : ChunkKey} (hsafe : SafeId key.cacheId) :
    (diskCell json s key).held.isSome =
      (s.fs.node (DiskIsolation.fileAt s.root s.fs.cwd key)).isSome := by
  rcases diskCell_held hjson ht hsafe with ⟨hnode, hheld⟩ | ⟨obj, blob, hframed, hnode, hheld⟩
  · rw [hnode, hheld]
    rfl
  · rw [hnode, hheld]
    rfl

theorem diskCell_eq {s s' : DiskBackend} {key : ChunkKey} (hroot : s'.root = s.root)
    (hcwd : s'.fs.cwd = s.fs.cwd)
    (hnode : s'.fs.node (DiskIsolation.fileAt s.root s.fs.cwd key) =
      s.fs.node (DiskIsolation.fileAt s.root s.fs.cwd key))
    (hpinned : key ∈ s'.pinned ↔ key ∈ s.pinned) : diskCell json s' key = diskCell json s key := by
  have hreads := DiskIsolation.sameReads_of_node json hroot hcwd fun _ => hnode
  rw [diskCell, diskCell, hreads.1, decide_eq_decide.mpr hpinned]

theorem fileAt_apart {s : DiskBackend} {key k : ChunkKey} (hsafe : SafeId key.cacheId)
    (hsafe' : SafeId k.cacheId) (hne : k ≠ key) :
    DiskIsolation.fileAt s.root s.fs.cwd k ≠ DiskIsolation.fileAt s.root s.fs.cwd key ∧
      DiskIsolation.fileAt s.root s.fs.cwd k ≠ DiskIsolation.directory s.root s.fs.cwd key := by
  refine ⟨fun h => hne (DiskChunks.fileAt_inj hsafe' hsafe h), fun h => ?_⟩
  rw [DiskChunks.fileAt_eq hsafe', DiskChunks.directory_eq hsafe] at h
  have hlength := congrArg List.length h
  simp only [List.length_cons] at hlength
  omega

theorem disk_keeps {s : DiskBackend} (ht : Tidy json s)
    {op : Op ChunkKey KVPayload} (hop : Admissible op) : Tidy json (s.step json op).2 := by
  obtain ⟨key, hkey, hsafe⟩ := hop.safe
  cases op with
  | put k obj pin =>
      obtain rfl := Option.some.inj hkey
      exact DiskChunks.tidy_put ht hsafe (hop.metadata _ _ _ rfl) pin
  | get k =>
      have hframe := DiskIsolation.get_frame json s k
      exact DiskChunks.tidy_of_same_nodes ht DiskIsolation.root_get hframe.cwd
        fun l => hframe.node l (Set.notMem_empty l)
  | contains k =>
      have hframe := DiskIsolation.contains_frame s k
      exact DiskChunks.tidy_of_same_nodes ht DiskIsolation.root_contains hframe.cwd
        fun l => hframe.node l (Set.notMem_empty l)
  | remove k =>
      obtain rfl := Option.some.inj hkey
      exact DiskChunks.tidy_remove ht hsafe
  | pin k => exact DiskChunks.tidy_of_same_nodes ht rfl rfl fun _ => rfl
  | unpin k => exact DiskChunks.tidy_of_same_nodes ht rfl rfl fun _ => rfl
  | clear => cases hkey

theorem diskCell_put (hjson : json.Inverts) {s : DiskBackend} (ht : Tidy json s)
    {key : ChunkKey} (hsafe : SafeId key.cacheId) {obj : KVPayload}
    (hmeta : (Json.obj obj.metadata).WellFormed) (pin : Bool) {k : ChunkKey}
    (hsafe' : SafeId k.cacheId) :
    diskCell json (s.put json key obj pin).2 k =
      if k = key then (diskCell json s key).next json diskPolicy (.put key obj pin)
      else diskCell json s k := by
  have hroot := @DiskIsolation.root_put json s key obj pin
  have hcwd := (DiskIsolation.put_frame json s key obj pin).cwd
  have htmp := DiskIsolation.fileAt_ne_tmpAt s.root s.fs.cwd k key
  obtain ⟨hok, herror⟩ := DiskChunks.put_spec ht hsafe obj pin
  rcases packPayload_cases json obj with ⟨hfits, blob, hpack⟩ | ⟨hlong, err, hpack⟩
  · obtain ⟨-, hpinned, hnode⟩ := hok blob hpack
    split_ifs with hk
    · subst hk
      have hfile := (hnode _).trans ((if_neg htmp).trans (if_pos rfl))
      have ht' := DiskChunks.tidy_put ht hsafe hmeta pin
      obtain ⟨-, -, hsome⟩ := DiskChunks.reads_spec hjson ht' hsafe
      rw [hroot, hcwd] at hsome
      have hget := hsome obj blob ⟨hmeta, hpack⟩ hfile
      have hframes : ¬(diskPolicy.frames = true ∧ ¬Fits json obj) := fun h => h.2 hfits
      rw [Cell.next, if_neg hframes, diskCell, hget, hpinned]
      cases pin <;> simp [diskCell, diskPolicy, Except.toOption]
    · obtain ⟨hfile, hdir⟩ := fileAt_apart (s := s) hsafe hsafe' hk
      apply diskCell_eq hroot hcwd
      · rw [hnode, if_neg htmp, if_neg hfile, if_neg hdir]
      · rw [hpinned]
        split_ifs <;> simp [hk]
  · obtain ⟨-, hpinned, hnode⟩ := herror err hpack
    have hsame : diskCell json (s.put json key obj pin).2 k = diskCell json s k := by
      apply diskCell_eq hroot hcwd
      · rw [hnode, if_neg htmp, if_neg]
        by_cases hk : k = key
        · rw [hk]
          exact (DiskChunks.directory_ne_fileAt _ _ _).symm
        · exact (fileAt_apart hsafe hsafe' hk).2
      · rw [hpinned]
    have hframes : diskPolicy.frames = true ∧ ¬Fits json obj := ⟨rfl, not_lt.mpr hlong⟩
    rw [hsame, Cell.next, if_pos hframes]
    split_ifs with hk
    · rw [hk]
    · rfl

theorem diskCell_remove (hjson : json.Inverts) {s : DiskBackend} (ht : Tidy json s)
    {key : ChunkKey} (hsafe : SafeId key.cacheId) {k : ChunkKey} (hsafe' : SafeId k.cacheId) :
    diskCell json (s.remove key).2 k = if k = key then ⟨none, false⟩ else diskCell json s k := by
  obtain ⟨-, hpinned, hgone, -, hkeep⟩ := DiskChunks.remove_spec ht hsafe
  have hroot := @DiskIsolation.root_remove s key
  have hcwd := (DiskIsolation.remove_frame s key).cwd
  split_ifs with hk
  · subst hk
    obtain ⟨-, hnone, -⟩ :=
      DiskChunks.reads_spec hjson (DiskChunks.tidy_remove ht hsafe) hsafe
    rw [hroot, hcwd] at hnone
    rw [diskCell, hnone hgone, hpinned]
    simp [Except.toOption]
  · obtain ⟨hfile, hdir⟩ := fileAt_apart (s := s) hsafe hsafe' hk
    apply diskCell_eq hroot hcwd (hkeep _ hfile hdir)
    rw [hpinned]
    simp [hk]

/-- What a call makes of the cell of any safe key. -/
theorem diskCell_step (hjson : json.Inverts) {s : DiskBackend} (ht : Tidy json s)
    {op : Op ChunkKey KVPayload} (hop : Admissible op) {key : ChunkKey}
    (hkey : op.key = some key) {k : ChunkKey} (hsafe : SafeId key.cacheId)
    (hsafe' : SafeId k.cacheId) :
    diskCell json (s.step json op).2 k =
      if k = key then (diskCell json s key).next json diskPolicy op else diskCell json s k := by
  have hread : ∀ s' : DiskBackend, diskCell json s' k = diskCell json s k →
      diskCell json s' k = if k = key then diskCell json s key else diskCell json s k := by
    intro s' h
    rw [h]
    split_ifs with hk
    · rw [hk]
    · rfl
  cases op with
  | put x obj pin =>
      obtain rfl := Option.some.inj hkey
      exact diskCell_put hjson ht hsafe (hop.metadata _ _ _ rfl) pin hsafe'
  | get x =>
      have hframe := DiskIsolation.get_frame json s x
      apply hread
      exact diskCell_eq DiskIsolation.root_get hframe.cwd (hframe.node _ (Set.notMem_empty _))
        (by rw [DiskBackend.step, DiskIsolation.pinned_get])
  | contains x =>
      have hframe := DiskIsolation.contains_frame s x
      apply hread
      exact diskCell_eq DiskIsolation.root_contains hframe.cwd
        (hframe.node _ (Set.notMem_empty _))
        (by rw [DiskBackend.step, DiskIsolation.pinned_contains])
  | remove x =>
      obtain rfl := Option.some.inj hkey
      exact diskCell_remove hjson ht hsafe hsafe'
  | pin x =>
      obtain rfl := Option.some.inj hkey
      split_ifs with hk
      · subst hk
        have hreads : DiskIsolation.SameReads json k s (s.pin k) :=
          DiskIsolation.sameReads_of_node json rfl rfl fun _ => rfl
        rw [DiskBackend.step, diskCell, hreads.1]
        simp [DiskBackend.pin, Cell.next, diskPolicy, diskCell]
      · exact diskCell_eq rfl rfl rfl (by simp [DiskBackend.step, DiskBackend.pin, hk])
  | unpin x =>
      obtain rfl := Option.some.inj hkey
      split_ifs with hk
      · subst hk
        have hreads : DiskIsolation.SameReads json k s (s.unpin k) :=
          DiskIsolation.sameReads_of_node json rfl rfl fun _ => rfl
        rw [DiskBackend.step, diskCell, hreads.1]
        simp [DiskBackend.unpin, Cell.next, diskCell]
      · exact diskCell_eq rfl rfl rfl (by simp [DiskBackend.step, DiskBackend.unpin, hk])
  | clear => cases hkey

theorem disk_cellular (hjson : json.Inverts) :
    Cellular json diskPolicy (DiskBackend.step json) DiskBackend.keys (Tidy json)
      (diskCell json) where
  keeps := fun s op ht hop => disk_keeps ht hop
  other := by
    intro s op key ht hop hsafe hne
    obtain ⟨k, hk, hsafe'⟩ := hop.safe
    rw [diskCell_step hjson ht hop hk hsafe' hsafe, if_neg]
    rintro rfl
    exact hne hk
  self := by
    intro s op key ht hop hkey
    obtain ⟨k, hk, hsafe⟩ := hop.safe
    obtain rfl := Option.some.inj (hk.symm.trans hkey)
    rw [diskCell_step hjson ht hop hkey hsafe hsafe, if_pos rfl]
  answers := by
    intro s op key reply ht hop hkey hreply
    obtain ⟨k, hk, hsafe⟩ := hop.safe
    obtain rfl := Option.some.inj (hk.symm.trans hkey)
    cases op with
    | get x =>
        obtain rfl := Option.some.inj hkey
        rw [← Option.some.inj hreply, DiskBackend.step, get_of_tidy hjson ht hsafe]
        rfl
    | contains x =>
        obtain rfl := Option.some.inj hkey
        rw [← Option.some.inj hreply, isSome_held hjson ht hsafe, DiskBackend.step,
          (DiskChunks.reads_spec hjson ht hsafe).1]
    | remove x =>
        obtain rfl := Option.some.inj hkey
        rw [← Option.some.inj hreply, isSome_held hjson ht hsafe, DiskBackend.step,
          (DiskChunks.remove_spec ht hsafe).1]
        rfl
    | put x obj pin => cases hreply
    | pin x => cases hreply
    | unpin x => cases hreply
    | clear => cases hreply
  lists := by
    intro s key ht
    rw [DiskChunks.mem_keys_iff ht]
    exact and_congr_right fun hsafe => by rw [isSome_held hjson ht hsafe]
  fits := by
    intro s key obj ht _ hsafe hheld
    rcases diskCell_held hjson ht hsafe with ⟨-, hnone⟩ | ⟨obj', blob, hframed, -, hsome⟩
    · rw [hheld] at hnone
      cases hnone
    · obtain rfl := KVPayload.fields_injective (Option.some.inj (hheld.symm.trans hsome))
      rcases packPayload_cases json obj with ⟨hfits, -⟩ | ⟨-, err, herr⟩
      · exact hfits
      · rw [hframed.2] at herr
        cases herr
  pins := fun _ _ _ hpolicy => absurd rfl hpolicy

end Disk

section Redis

/-- A payload with fields of the types that `pack_payload` writes; Python would
go on with whatever a header holds. -/
def typed (p : UnpackedPayload) : Except Raised KVPayload :=
  match p.numTokens, p.numLayers, p.fmt, p.metadata with
  | .int numTokens, .int numLayers, .str fmt, .obj metadata =>
      .ok {
        data := p.data
        numTokens := numTokens
        numLayers := numLayers
        fmt := fmt
        metadata := metadata }
  | _, _, _, _ => .error (.typeError "header of another writer")

/-- The shared framing. -/
def framedCodec (json : JsonText) (matchesPattern : String → String → Bool) : RedisCodec where
  pack := packPayload json
  unpack blob := do typed (← unpackPayload json blob)
  matchesPattern := matchesPattern

abbrev Remote (json : JsonText) (matchesPattern : String → String → Bool) : Type :=
  RedisBackend (framedCodec json matchesPattern)

variable {json : JsonText} {matchesPattern : String → String → Bool}

/-- The objects as the other stores return them. -/
def redisStep (s : Remote json matchesPattern) (op : Op ChunkKey KVPayload) :
    Except Raised (Reply UnpackedPayload) × Remote json matchesPattern :=
  ((KeyedStore.step s op).1.map (Reply.map KVPayload.fields), (KeyedStore.step s op).2)

def redisCell (s : Remote json matchesPattern) (key : ChunkKey) : Cell where
  held := (s.get key).toOption.join.map KVPayload.fields
  pinned := decide (s.Durable key)

/-- A server with nothing on it but framed objects under names of keys with safe
ids, listed by `SCAN`, and a default expiry. -/
structure Stocked (ttl : Int) (s : Remote json matchesPattern) : Prop where
  ttl : s.keyTtl = some ttl
  names : ∀ name e, s.client.lookup name = some e →
    ∃ key obj, SafeId key.cacheId ∧ name = s.name key ∧ Framed json obj e.value
  scans : ∀ name, (s.«namespace» ++ ":").toList <+: name.toList →
    matchesPattern (s.«namespace» ++ ":*") name = true

variable {ttl : Int} {s s' : Remote json matchesPattern} {key k : ChunkKey}

theorem unpack_framed (hjson : json.Inverts) {obj : KVPayload} {blob : List UInt8}
    (hframed : Framed json obj blob) :
    (framedCodec json matchesPattern).unpack blob = .ok obj := by
  simp only [framedCodec, unpackPayload_of_pack hjson hframed.1 hframed.2]
  rfl

theorem redisCell_of_entry (hjson : json.Inverts) {obj : KVPayload} {e : RedisEntry}
    (hentry : s.entry key = some e) (hframed : Framed json obj e.value) :
    s.get key = .ok (some obj) ∧
      redisCell s key = ⟨some obj.fields, decide (e.expiry = none)⟩ := by
  have hget : s.get key = .ok (some obj) := by
    have hlookup : s.client.lookup (s.name key) = some e := hentry
    rw [RedisBackend.get, hlookup]
    simp only [unpack_framed hjson hframed]
    rfl
  refine ⟨hget, ?_⟩
  simp [redisCell, hget, Except.toOption, RedisBackend.Durable, hentry]

theorem redisCell_of_none (hentry : s.entry key = none) :
    s.get key = .ok none ∧ redisCell s key = ⟨none, false⟩ := by
  have hget : s.get key = .ok none := by
    have hlookup : s.client.lookup (s.name key) = none := hentry
    rw [RedisBackend.get, hlookup]
  refine ⟨hget, ?_⟩
  simp [redisCell, hget, Except.toOption, RedisBackend.Durable, hentry]

theorem Stocked.framed (hs : Stocked ttl s) {e : RedisEntry} (hentry : s.entry key = some e) :
    SafeId key.cacheId ∧ ∃ obj, Framed json obj e.value := by
  obtain ⟨k, obj, hsafe, hname, hframed⟩ := hs.names _ e hentry
  obtain rfl := s.name_inj hname
  exact ⟨hsafe, obj, hframed⟩

theorem redisCell_eq (hname : s'.name = s.name)
    (hentry : s'.client.lookup (s.name key) = s.client.lookup (s.name key)) :
    redisCell s' key = redisCell s key := by
  have hentry' : s'.entry key = s.entry key := by
    rw [RedisBackend.entry, RedisBackend.entry, hname, hentry]
  have hget : s'.get key = s.get key := by
    rw [RedisBackend.get, RedisBackend.get, hname, hentry]
  have hdurable : s'.Durable key ↔ s.Durable key := by
    rw [RedisBackend.Durable, RedisBackend.Durable, hentry']
  rw [redisCell, redisCell, hget, decide_eq_decide.mpr hdurable]

theorem lookup_of_ne {client : RedisClient}
    (hkeep : ∀ n, n ≠ s.name key → client.lookup n = s.client.lookup n) (hk : k ≠ key) :
    client.lookup (s.name k) = s.client.lookup (s.name k) :=
  hkeep _ fun h => hk (s.name_inj h)

theorem redisCell_put (hjson : json.Inverts) (hpos : 0 < ttl) (hs : Stocked ttl s)
    (hsafe : SafeId key.cacheId) {obj : KVPayload}
    (hmeta : (Json.obj obj.metadata).WellFormed) (pin : Bool) :
    Stocked ttl (s.put key obj pin).2 ∧
      redisCell (s.put key obj pin).2 k =
        if k = key then (redisCell s key).next json redisPolicy (.put key obj pin)
        else redisCell s k := by
  rcases packPayload_cases json obj with ⟨hfits, blob, hpack⟩ | ⟨hlong, err, hpack⟩
  · obtain ⟨-, hlookup⟩ := RedisBackend.put_of_pack key hpack hs.ttl hpos pin
    obtain ⟨hnamespace, httl⟩ := s.namespace_put key obj pin
    have hname := RedisBackend.name_congr hnamespace
    refine ⟨⟨httl.trans hs.ttl, fun n e he => ?_, hnamespace ▸ hs.scans⟩, ?_⟩
    · rw [hlookup] at he
      rw [hname]
      by_cases hn : n = s.name key
      · rw [if_pos hn] at he
        refine ⟨key, obj, hsafe, hn, hmeta, ?_⟩
        rw [← Option.some.inj he]
        exact hpack
      · rw [if_neg hn] at he
        exact hs.names n e he
    · split_ifs with hk
      · subst hk
        have hentry : (s.put k obj pin).2.entry k =
            some ⟨blob, if pin then none else some ttl⟩ := by
          rw [RedisBackend.entry, hname, hlookup, if_pos rfl]
        have hframes : ¬(redisPolicy.frames = true ∧ ¬Fits json obj) := fun h => h.2 hfits
        rw [(redisCell_of_entry hjson hentry ⟨hmeta, hpack⟩).2, Cell.next, if_neg hframes]
        cases pin <;> simp [redisPolicy]
      · exact redisCell_eq hname (lookup_of_ne (fun n hn => (hlookup n).trans (if_neg hn)) hk)
  · have hframes : redisPolicy.frames = true ∧ ¬Fits json obj := ⟨rfl, not_lt.mpr hlong⟩
    rw [s.put_of_pack_error key hpack, Cell.next, if_pos hframes]
    refine ⟨hs, ?_⟩
    split_ifs with hk
    · rw [hk]
    · rfl

theorem redisCell_retime (s' : Remote json matchesPattern) (k : ChunkKey) (hjson : json.Inverts)
    (hs : Stocked ttl s)
    (hnamespace : s'.«namespace» = s.«namespace») (httl : s'.keyTtl = s.keyTtl)
    {expiry : Option Int}
    (hlookup : ∀ n, s'.client.lookup n =
      if n = s.name key then (s.client.lookup (s.name key)).map ({ · with expiry := expiry })
      else s.client.lookup n) :
    Stocked ttl s' ∧
      redisCell s' k =
        if k = key then ⟨(redisCell s key).held, (redisCell s key).held.isSome && expiry.isNone⟩
        else redisCell s k := by
  have hname := RedisBackend.name_congr hnamespace
  refine ⟨⟨httl.trans hs.ttl, fun n e he => ?_, hnamespace ▸ hs.scans⟩, ?_⟩
  · rw [hlookup] at he
    rw [hname]
    by_cases hn : n = s.name key
    · rw [if_pos hn, Option.map_eq_some_iff] at he
      obtain ⟨old, hold, rfl⟩ := he
      rw [hn]
      exact hs.names _ old hold
    · rw [if_neg hn] at he
      exact hs.names n e he
  · split_ifs with hk
    · subst hk
      cases hentry : s.entry k with
      | none =>
          have hentry' : s'.entry k = none := by
            rw [RedisBackend.entry] at hentry
            rw [RedisBackend.entry, hname, hlookup, if_pos rfl, hentry]
            rfl
          rw [(redisCell_of_none hentry').2, (redisCell_of_none hentry).2]
          rfl
      | some e =>
          obtain ⟨-, obj, hframed⟩ := hs.framed hentry
          have hentry' : s'.entry k = some { e with expiry := expiry } := by
            rw [RedisBackend.entry] at hentry
            rw [RedisBackend.entry, hname, hlookup, if_pos rfl, hentry]
            rfl
          rw [(redisCell_of_entry hjson hentry' hframed).2,
            (redisCell_of_entry hjson hentry hframed).2]
          cases expiry <;> simp
    · exact redisCell_eq hname (lookup_of_ne (fun n hn => (hlookup n).trans (if_neg hn)) hk)

theorem redisCell_remove (hs : Stocked ttl s) :
    Stocked ttl (s.remove key).2 ∧
      redisCell (s.remove key).2 k = if k = key then ⟨none, false⟩ else redisCell s k := by
  have hlookup : ∀ n, (s.remove key).2.client.lookup n =
      if n = s.name key then none else s.client.lookup n :=
    OrderedDict.lookup_erase s.client (s.name key)
  refine ⟨⟨hs.ttl, fun n e he => ?_, hs.scans⟩, ?_⟩
  · rw [hlookup] at he
    by_cases hn : n = s.name key
    · rw [if_pos hn] at he
      cases he
    · rw [if_neg hn] at he
      exact hs.names n e he
  · split_ifs with hk
    · subst hk
      exact (redisCell_of_none ((hlookup _).trans (if_pos rfl))).2
    · exact redisCell_eq rfl (lookup_of_ne (fun n hn => (hlookup n).trans (if_neg hn)) hk)

theorem redisCell_pinned (hjson : json.Inverts) (hs : Stocked ttl s) (key : ChunkKey) :
    (redisCell s key).pinned → (redisCell s key).held.isSome := by
  cases hentry : s.entry key with
  | none =>
      rw [(redisCell_of_none hentry).2]
      exact fun h => absurd h Bool.false_ne_true
  | some e =>
      obtain ⟨-, obj, hframed⟩ := hs.framed hentry
      rw [(redisCell_of_entry hjson hentry hframed).2]
      exact fun _ => rfl

/-- What a call makes of the server and of the cell of any key. -/
theorem redisCell_step (k : ChunkKey) (hjson : json.Inverts) (hpos : 0 < ttl) (hs : Stocked ttl s)
    {op : Op ChunkKey KVPayload} (hop : Admissible op) (hkey : op.key = some key) :
    Stocked ttl (redisStep s op).2 ∧
      redisCell (redisStep s op).2 k =
        if k = key then (redisCell s key).next json redisPolicy op else redisCell s k := by
  obtain ⟨x, hx, hsafe⟩ := hop.safe
  obtain rfl := Option.some.inj (hx.symm.trans hkey)
  have hread : redisCell s k = if k = x then redisCell s x else redisCell s k := by
    split_ifs with hk
    · rw [hk]
    · rfl
  cases op with
  | put y obj pin =>
      obtain rfl := Option.some.inj hkey
      exact redisCell_put hjson hpos hs hsafe (hop.metadata _ _ _ rfl) pin
  | get y => exact ⟨hs, hread⟩
  | contains y => exact ⟨hs, hread⟩
  | remove y =>
      obtain rfl := Option.some.inj hkey
      exact redisCell_remove hs
  | pin y =>
      obtain rfl := Option.some.inj hkey
      have hretime := redisCell_retime (s.pin y) k hjson hs rfl rfl
        (RedisClient.lookup_persist s.client (s.name y))
      have hcell : (redisCell s y).next json redisPolicy (.pin y) =
          ⟨(redisCell s y).held, (redisCell s y).held.isSome && (none : Option Int).isNone⟩ := by
        have hpinned := redisCell_pinned hjson hs y
        cases hp : (redisCell s y).pinned with
        | false => simp [Cell.next, redisPolicy, hp]
        | true => simp [Cell.next, redisPolicy, hp, hpinned hp]
      rw [hcell]
      exact hretime
  | unpin y =>
      obtain rfl := Option.some.inj hkey
      have hunpin : s.unpin y =
          { s with client := RedisClient.expire s.client (s.name y) ttl } := by
        rw [RedisBackend.unpin, hs.ttl]
      have hlookup : ∀ n, (s.unpin y).client.lookup n =
          if n = s.name y then (s.client.lookup (s.name y)).map ({ · with expiry := some ttl })
          else s.client.lookup n := by
        rw [hunpin]
        exact fun n => RedisClient.lookup_expire s.client (s.name y) n hpos
      have hretime := redisCell_retime (s.unpin y) k hjson hs (by rw [hunpin]) (by rw [hunpin])
        hlookup
      have hcell : (redisCell s y).next json redisPolicy (.unpin y) =
          ⟨(redisCell s y).held, (redisCell s y).held.isSome && (some ttl).isNone⟩ := by
        simp [Cell.next]
      rw [hcell]
      exact hretime
  | clear => cases hkey

theorem redis_reads (hjson : json.Inverts) (hs : Stocked ttl s) (key : ChunkKey) :
    ((s.get key).map Reply.object).map (Reply.map KVPayload.fields) =
        .ok (.object (redisCell s key).held) ∧
      s.contains key = (redisCell s key).held.isSome := by
  rw [RedisBackend.contains_eq]
  cases hentry : s.entry key with
  | none =>
      obtain ⟨hget, hcell⟩ := redisCell_of_none hentry
      rw [hget, hcell]
      exact ⟨rfl, rfl⟩
  | some e =>
      obtain ⟨-, obj, hframed⟩ := hs.framed hentry
      obtain ⟨hget, hcell⟩ := redisCell_of_entry hjson hentry hframed
      rw [hget, hcell]
      exact ⟨rfl, rfl⟩

theorem mem_redis_keys (hs : Stocked ttl s) :
    key ∈ KeyedStore.keys s ↔ SafeId key.cacheId ∧ (s.entry key).isSome := by
  have hmem : ∀ name, name ∈ s.client.keys ↔ (s.client.lookup name).isSome := fun name =>
    AList.lookup_isSome.symm
  have hkeys : key ∈ KeyedStore.keys s ↔ ∃ name,
      (name ∈ s.client.keys ∧ matchesPattern (s.«namespace» ++ ":*") name) ∧
        s.parse name = some key := by
    rw [show KeyedStore.keys s = s.keys from rfl, RedisBackend.keys, List.mem_filterMap]
    simp only [List.mem_filter]
    rfl
  rw [hkeys]
  constructor
  · rintro ⟨name, ⟨hname, -⟩, hparse⟩
    obtain ⟨e, he⟩ := Option.isSome_iff_exists.mp ((hmem name).mp hname)
    obtain ⟨k, obj, hsafe, rfl, -⟩ := hs.names name e he
    obtain rfl := Option.some.inj ((s.parse_name k).symm.trans hparse)
    exact ⟨hsafe, Option.isSome_iff_exists.mpr ⟨e, he⟩⟩
  · rintro ⟨-, hsome⟩
    exact ⟨s.name key, ⟨(hmem _).mpr hsome, hs.scans _ (s.prefix_name key)⟩, s.parse_name key⟩

theorem redis_cellular (hjson : json.Inverts) (hpos : 0 < ttl) :
    Cellular json redisPolicy
      (redisStep : Remote json matchesPattern → Op ChunkKey KVPayload → _) KeyedStore.keys
      (Stocked ttl) redisCell where
  keeps := by
    intro s op hs hop
    obtain ⟨key, hkey, -⟩ := hop.safe
    exact (redisCell_step key hjson hpos hs hop hkey).1
  other := by
    intro s op key hs hop _ hne
    obtain ⟨k, hk, -⟩ := hop.safe
    rw [(redisCell_step key hjson hpos hs hop hk).2, if_neg]
    rintro rfl
    exact hne hk
  self := by
    intro s op key hs hop hkey
    rw [(redisCell_step key hjson hpos hs hop hkey).2, if_pos rfl]
  answers := by
    intro s op key reply hs _ hkey hreply
    obtain ⟨hget, hcontains⟩ := redis_reads hjson hs key
    cases op with
    | get y =>
        obtain rfl := Option.some.inj hkey
        rw [← Option.some.inj hreply]
        exact hget
    | contains y =>
        obtain rfl := Option.some.inj hkey
        rw [← Option.some.inj hreply, ← hcontains]
        rfl
    | remove y =>
        obtain rfl := Option.some.inj hkey
        rw [← Option.some.inj hreply, ← hcontains]
        rfl
    | put y obj pin => cases hreply
    | pin y => cases hreply
    | unpin y => cases hreply
    | clear => cases hreply
  lists := by
    intro s key hs
    obtain ⟨-, hcontains⟩ := redis_reads hjson hs key
    rw [← hcontains, RedisBackend.contains_eq]
    exact mem_redis_keys hs
  fits := by
    intro s key obj hs _ hsafe hheld
    cases hentry : s.entry key with
    | none =>
        rw [(redisCell_of_none hentry).2] at hheld
        cases hheld
    | some e =>
        obtain ⟨-, obj', hframed⟩ := hs.framed hentry
        rw [(redisCell_of_entry hjson hentry hframed).2] at hheld
        obtain rfl := KVPayload.fields_injective (Option.some.inj hheld)
        rcases packPayload_cases json obj' with ⟨hfits, -⟩ | ⟨-, err, herr⟩
        · exact hfits
        · rw [hframed.2] at herr
          cases herr
  pins := fun s key hs _ _ => redisCell_pinned hjson hs _

end Redis

/-! ## Side by side -/

/-- One key in the three stores: the same object, and if there is one the same pin. -/
structure Same (cpu disk redis : Cell) : Prop where
  disk_held : disk.held = cpu.held
  redis_held : redis.held = cpu.held
  disk_pinned : cpu.held.isSome → disk.pinned = cpu.pinned
  redis_pinned : cpu.held.isSome → redis.pinned = cpu.pinned

/-- The call puts an object that can be framed, and if it does so without a pin
the key is in no pinned set of the disk. -/
def KeepsPins (json : JsonText) (pinned : ChunkKey → Bool) : Op ChunkKey KVPayload → Prop
  | .put key obj pin => Fits json obj ∧ (pin = true ∨ pinned key = false)
  | _ => True

instance (json : JsonText) (pinned : ChunkKey → Bool) (op : Op ChunkKey KVPayload) :
    Decidable (KeepsPins json pinned op) :=
  match op with
  | .put key obj pin =>
      inferInstanceAs (Decidable (Fits json obj ∧ (pin = true ∨ pinned key = false)))
  | .get _ | .contains _ | .remove _ | .pin _ | .unpin _ | .clear => isTrue trivial

/-- Cells that are the same stay so exactly under the calls that keep pins. -/
theorem same_next_iff {json : JsonText} {cpu disk redis : Cell} (h : Same cpu disk redis)
    (hpins : cpu.pinned → cpu.held.isSome)
    (hfits : ∀ obj : KVPayload, redis.held = some obj.fields → Fits json obj)
    (op : Op ChunkKey KVPayload) :
    Same (cpu.next json cpuPolicy op) (disk.next json diskPolicy op)
        (redis.next json redisPolicy op) ↔
      KeepsPins json (fun _ => disk.pinned) op := by
  cases op with
  | put key obj pin =>
      by_cases hobj : Fits json obj
      · have hcpu : cpu.next json cpuPolicy (.put key obj pin) =
            ⟨some obj.fields, pin || cpu.pinned⟩ := rfl
        have hdisk : disk.next json diskPolicy (.put key obj pin) =
            ⟨some obj.fields, pin || disk.pinned⟩ := if_neg fun h => h.2 hobj
        have hredis : redis.next json redisPolicy (.put key obj pin) =
            ⟨some obj.fields, pin || false⟩ := if_neg fun h => h.2 hobj
        rw [hcpu, hdisk, hredis, KeepsPins]
        constructor
        · intro hsame
          refine ⟨hobj, ?_⟩
          have hpinned := (hsame.disk_pinned rfl).trans (hsame.redis_pinned rfl).symm
          cases pin with
          | true => exact .inl rfl
          | false => exact .inr hpinned
        · rintro ⟨-, hkeeps⟩
          have hcpu : pin = false → cpu.pinned = false := by
            intro hpin
            have hdisk := hkeeps.resolve_left (by simp [hpin])
            cases hheld : cpu.held with
            | none =>
                apply Bool.eq_false_of_not_eq_true
                intro hp
                simpa [hheld] using hpins hp
            | some p => rw [← h.disk_pinned (by rw [hheld]; rfl), hdisk]
          refine ⟨rfl, rfl, fun _ => ?_, fun _ => ?_⟩
          · cases pin with
            | true => rfl
            | false => simp [hcpu rfl, hkeeps.resolve_left Bool.false_ne_true]
          · cases pin with
            | true => rfl
            | false => simp [hcpu rfl]
      · -- only the store that frames nothing takes the object
        have hredis : redis.next json redisPolicy (.put key obj pin) = redis :=
          if_pos ⟨rfl, hobj⟩
        refine iff_of_false (fun hsame => ?_) fun h => hobj h.1
        have hheld := hsame.redis_held
        rw [hredis] at hheld
        exact hobj (hfits obj hheld)
  | remove key =>
      exact iff_of_true ⟨rfl, rfl, fun _ => rfl, fun _ => rfl⟩ trivial
  | unpin key =>
      exact iff_of_true ⟨h.disk_held, h.redis_held, fun _ => rfl, fun _ => rfl⟩ trivial
  | pin key =>
      refine iff_of_true ⟨h.disk_held, h.redis_held, fun hsome => ?_, fun hsome => ?_⟩ trivial
      · have hsome' : cpu.held.isSome := hsome
        simp [Cell.next, diskPolicy, cpuPolicy, hsome']
      · have hsome' : cpu.held.isSome := hsome
        simp [Cell.next, redisPolicy, cpuPolicy, hsome', h.redis_held]
  | get key => exact iff_of_true h trivial
  | contains key => exact iff_of_true h trivial
  | clear => exact iff_of_true h trivial

section Trio

variable {json : JsonText} {matchesPattern : String → String → Bool}

variable (json matchesPattern) in
/-- Three stores that get the same calls. -/
structure Trio where
  cpu : UnboundedCPU
  disk : DiskBackend
  redis : Remote json matchesPattern

structure Answers where
  cpu : Except Raised (Reply UnpackedPayload)
  disk : Except Raised (Reply UnpackedPayload)
  redis : Except Raised (Reply UnpackedPayload)

variable (json matchesPattern) in
def trio : Machine (Trio json matchesPattern) (Op ChunkKey KVPayload) Raised Answers where
  step t op :=
    (.ok ⟨(cpuStep t.cpu op).1, (t.disk.step json op).1, (redisStep t.redis op).1⟩,
      ⟨(cpuStep t.cpu op).2, (t.disk.step json op).2, (redisStep t.redis op).2⟩)

/-- The stores answer alike, list the same keys and have the same ones pinned. -/
structure Agree (t : Trio json matchesPattern) : Prop where
  answers : ∀ key, SafeId key.cacheId → ∀ op ∈ [.get key, .contains key, .remove key],
    (t.disk.step json op).1 = (cpuStep t.cpu op).1 ∧
      (redisStep t.redis op).1 = (cpuStep t.cpu op).1
  listed : ∀ key, (key ∈ t.disk.keys ↔ key ∈ keys t.cpu) ∧
    (key ∈ keys t.redis ↔ key ∈ keys t.cpu)
  pins : ∀ key ∈ keys t.cpu, (key ∈ t.disk.pinned ↔ key ∈ t.cpu.1.pinned) ∧
    (t.redis.Durable key ↔ key ∈ t.cpu.1.pinned)

/-- The stores on their own are in order. -/
structure Ordered (ttl : Int) (t : Trio json matchesPattern) : Prop where
  cpu : CPUTidy t.cpu
  disk : Tidy json t.disk
  redis : Stocked ttl t.redis

variable {ttl : Int} {t : Trio json matchesPattern}

theorem admissible_of_safe {op : Op ChunkKey KVPayload} {key : ChunkKey} (hkey : op.key = some key)
    (hsafe : SafeId key.cacheId) (hop : ∀ obj pin, op ≠ .put key obj pin) : Admissible op where
  safe := ⟨key, hkey, hsafe⟩
  metadata := by
    rintro k obj pin rfl
    obtain rfl := Option.some.inj hkey
    exact absurd rfl (hop obj pin)

/-- What the three stores answer to a call that reads or removes a safe key. -/
theorem answers_of_ordered (op : Op ChunkKey KVPayload) (hjson : json.Inverts) (hpos : 0 < ttl)
    (ht : Ordered ttl t) {key : ChunkKey} (hsafe : SafeId key.cacheId)
    (hop : op ∈ [.get key, .contains key, .remove key]) :
    ∃ f : Cell → Reply UnpackedPayload, (∀ c, c.reply op = some (f c)) ∧
      (cpuStep t.cpu op).1 = .ok (f (cpuCell t.cpu key)) ∧
      (t.disk.step json op).1 = .ok (f (diskCell json t.disk key)) ∧
      (redisStep t.redis op).1 = .ok (f (redisCell t.redis key)) := by
  have hkey : op.key = some key ∧ ∀ obj pin, op ≠ .put key obj pin := by
    simp only [List.mem_cons, List.not_mem_nil, or_false] at hop
    rcases hop with rfl | rfl | rfl <;> exact ⟨rfl, by simp⟩
  have hadm := admissible_of_safe hkey.1 hsafe hkey.2
  have hreply : ∃ f : Cell → Reply UnpackedPayload, ∀ c, c.reply op = some (f c) := by
    simp only [List.mem_cons, List.not_mem_nil, or_false] at hop
    rcases hop with rfl | rfl | rfl
    · exact ⟨fun c => .object c.held, fun c => rfl⟩
    · exact ⟨fun c => .flag c.held.isSome, fun c => rfl⟩
    · exact ⟨fun c => .flag c.held.isSome, fun c => rfl⟩
  obtain ⟨f, hf⟩ := hreply
  refine ⟨f, hf, ?_, ?_, ?_⟩
  · exact (cpu_cellular json).answers _ _ _ _ ht.cpu hadm hkey.1 (hf _)
  · exact (disk_cellular hjson).answers _ _ _ _ ht.disk hadm hkey.1 (hf _)
  · exact (redis_cellular hjson hpos).answers _ _ _ _ ht.redis hadm hkey.1 (hf _)

theorem agree_iff (hjson : json.Inverts) (hpos : 0 < ttl) (ht : Ordered ttl t) :
    Agree t ↔ ∀ key, SafeId key.cacheId →
      Same (cpuCell t.cpu key) (diskCell json t.disk key) (redisCell t.redis key) := by
  have hcpu := fun key => (cpu_cellular json).lists t.cpu key ht.cpu
  have hdisk := fun key => (disk_cellular hjson).lists t.disk key ht.disk
  have hredis := fun key => (redis_cellular hjson hpos).lists t.redis key ht.redis
  constructor
  · intro h key hsafe
    obtain ⟨f, hf, hcpuget, hdiskget, hredisget⟩ :=
      answers_of_ordered (.get key) hjson hpos ht hsafe (by simp)
    obtain ⟨hsame, hsame'⟩ := h.answers key hsafe (.get key) (by simp)
    rw [hcpuget] at hsame hsame'
    have hobject : ∀ c d : Cell, f c = f d → c.held = d.held := by
      intro c d hcd
      have hc : some (Reply.object c.held) = some (f c) := hf c
      have hd : some (Reply.object d.held) = some (f d) := hf d
      rw [hcd, ← hd] at hc
      exact Reply.object.inj (Option.some.inj hc)
    have hpins : (cpuCell t.cpu key).held.isSome →
        (key ∈ t.disk.pinned ↔ key ∈ t.cpu.1.pinned) ∧
          (t.redis.Durable key ↔ key ∈ t.cpu.1.pinned) :=
      fun hsome => h.pins key ((hcpu key).mpr ⟨hsafe, hsome⟩)
    refine ⟨?_, ?_, fun hsome => ?_, fun hsome => ?_⟩
    · exact hobject _ _ (Except.ok.inj (hdiskget.symm.trans hsame))
    · exact hobject _ _ (Except.ok.inj (hredisget.symm.trans hsame'))
    · exact decide_eq_decide.mpr (hpins hsome).1
    · exact decide_eq_decide.mpr (hpins hsome).2
  · intro h
    refine ⟨fun key hsafe op hop => ?_, fun key => ?_, fun key hkey => ?_⟩
    · obtain ⟨f, hf, hcpuop, hdiskop, hredisop⟩ := answers_of_ordered op hjson hpos ht hsafe hop
      have hreply : ∀ c d : Cell, c.held = d.held → f c = f d := by
        intro c d hcd
        have hsame : c.reply op = d.reply op := by cases op <;> simp [Cell.reply, hcd]
        rw [hf, hf] at hsame
        exact Option.some.inj hsame
      rw [hcpuop, hdiskop, hredisop, hreply _ _ (h key hsafe).disk_held,
        hreply _ _ (h key hsafe).redis_held]
      exact ⟨rfl, rfl⟩
    · rw [hcpu, hdisk, hredis]
      refine ⟨and_congr_right fun hsafe => ?_, and_congr_right fun hsafe => ?_⟩
      · rw [(h key hsafe).disk_held]
      · rw [(h key hsafe).redis_held]
    · obtain ⟨hsafe, hsome⟩ := (hcpu key).mp hkey
      have hdiskpin := (h key hsafe).disk_pinned hsome
      have hredispin := (h key hsafe).redis_pinned hsome
      exact ⟨decide_eq_decide.mp hdiskpin, decide_eq_decide.mp hredispin⟩

/-- One call keeps the stores in order, and in agreement exactly when it keeps pins. -/
theorem trio_step (hjson : json.Inverts) (hpos : 0 < ttl) (ht : Ordered ttl t)
    {op : Op ChunkKey KVPayload} (hop : Admissible op) :
    Ordered ttl ((trio json matchesPattern).step t op).2 ∧
      (Agree t → (Agree ((trio json matchesPattern).step t op).2 ↔
        KeepsPins json (fun key => decide (key ∈ t.disk.pinned)) op)) := by
  have hnext : Ordered ttl ((trio json matchesPattern).step t op).2 :=
    ⟨(cpu_cellular json).keeps _ _ ht.cpu hop, (disk_cellular hjson).keeps _ _ ht.disk hop,
      (redis_cellular hjson hpos).keeps _ _ ht.redis hop⟩
  refine ⟨hnext, fun hagree => ?_⟩
  obtain ⟨key, hkey, hsafe⟩ := hop.safe
  have hsame := (agree_iff hjson hpos ht).mp hagree
  have hself := same_next_iff (hsame key hsafe)
    ((cpu_cellular json).pins _ _ ht.cpu Bool.false_ne_true hsafe)
    (fun obj => (redis_cellular hjson hpos).fits _ _ _ ht.redis rfl hsafe) op
  rw [← (cpu_cellular json).self _ _ _ ht.cpu hop hkey,
    ← (disk_cellular hjson).self _ _ _ ht.disk hop hkey,
    ← (redis_cellular hjson hpos).self _ _ _ ht.redis hop hkey] at hself
  have hguard : KeepsPins json (fun key => decide (key ∈ t.disk.pinned)) op ↔
      KeepsPins json (fun _ => (diskCell json t.disk key).pinned) op := by
    cases op with
    | put k obj pin =>
        obtain rfl := Option.some.inj hkey
        exact Iff.rfl
    | _ => exact Iff.rfl
  rw [agree_iff hjson hpos hnext, hguard, ← hself]
  constructor
  · exact fun h => h key hsafe
  · intro h k hsafe'
    by_cases hk : k = key
    · rw [hk]
      exact h
    · -- the other cells are not touched
      have hne : op.key ≠ some k := fun hkey' => hk (Option.some.inj (hkey'.symm.trans hkey))
      have hkept := hsame k hsafe'
      rw [← (cpu_cellular json).other _ _ _ ht.cpu hop hsafe' hne,
        ← (disk_cellular hjson).other _ _ _ ht.disk hop hsafe' hne,
        ← (redis_cellular hjson hpos).other _ _ _ ht.redis hop hsafe' hne] at hkept
      exact hkept

/-- Three stores before their first call: the disk has its root and nothing in
it, the server is empty. -/
structure Fresh (ttl : Int) (t : Trio json matchesPattern) : Prop where
  cpu : t.cpu = UnboundedCPU.empty
  no_nul : t.disk.root.hasNul = false
  root : t.disk.fs.node (DiskChunks.rootLocation t.disk) = some .directory
  empty : ∀ name, t.disk.fs.node (name :: DiskChunks.rootLocation t.disk) = none
  pinned : t.disk.pinned = ∅
  client : t.redis.client = ∅
  ttl : t.redis.keyTtl = some ttl
  /-- `SCAN` finds what starts with the namespace and a colon. -/
  scans : ∀ name, (t.redis.«namespace» ++ ":").toList <+: name.toList →
    matchesPattern (t.redis.«namespace» ++ ":*") name = true

theorem Fresh.ordered (h : Fresh ttl t) : Ordered ttl t where
  cpu := by
    rw [h.cpu]
    exact ⟨fun key hsome => absurd hsome Bool.false_ne_true,
      fun key hpinned => absurd hpinned (by simp [cpuCell, UnboundedCPU.empty])⟩
  disk := by
    refine ⟨h.no_nul, h.root, fun dir content => ?_, fun name dir n hn => ?_⟩
    · rw [h.empty]
      exact Option.some_ne_none _ ∘ Eq.symm
    · have hparent := FileSystem.node_parent (Option.isSome_iff_exists.mpr ⟨n, hn⟩)
      rw [h.empty] at hparent
      cases hparent
  redis := by
    refine ⟨h.ttl, fun name e he => ?_, h.scans⟩
    rw [h.client] at he
    cases he

theorem Fresh.agree (hjson : json.Inverts) (hpos : 0 < ttl) (h : Fresh ttl t) : Agree t := by
  apply (agree_iff hjson hpos h.ordered).mpr
  intro key hsafe
  have hcpu : cpuCell t.cpu key = ⟨none, false⟩ := by
    rw [h.cpu]
    rfl
  have hredis : redisCell t.redis key = ⟨none, false⟩ := by
    apply (redisCell_of_none _).2
    rw [RedisBackend.entry, h.client]
    rfl
  have hdisk : (diskCell json t.disk key).held = none := by
    have hnode : t.disk.fs.node
        (DiskIsolation.fileAt t.disk.root t.disk.fs.cwd key) = none := by
      rw [DiskChunks.fileAt_eq hsafe]
      by_contra hsome
      have hparent := FileSystem.node_parent (Option.isSome_iff_ne_none.mpr hsome)
      rw [h.empty] at hparent
      cases hparent
    have hheld := isSome_held hjson h.ordered.disk hsafe
    rw [hnode] at hheld
    exact Option.isSome_eq_false_iff.mp hheld |> Option.isNone_iff_eq_none.mp
  rw [hcpu, hredis]
  exact ⟨hdisk, rfl, fun hsome => absurd hsome Bool.false_ne_true,
    fun hsome => absurd hsome Bool.false_ne_true⟩

/-- Over any run the three stores agree exactly as long as every put is of an
object that can be framed, and no put without a pin is on a key that the disk
has in its pinned set. -/
theorem always_agree_iff (hjson : json.Inverts) (hpos : 0 < ttl) (hfresh : Fresh ttl t)
    {ops : List (Op ChunkKey KVPayload)} (hops : ∀ op ∈ ops, Admissible op) :
    (trio json matchesPattern).Always Agree t ops ↔
      (trio json matchesPattern).StepsMeet
        (fun t op => KeepsPins json (fun key => decide (key ∈ t.disk.pinned)) op) t ops := by
  apply Machine.always_iff_stepsMeet _ (J := Ordered ttl) (R := fun _ op => Admissible op)
  · exact fun t op ht hop => (trio_step hjson hpos ht hop).1
  · exact fun t op ht hop => (trio_step hjson hpos ht hop).2
  · exact hfresh.ordered
  · exact hfresh.agree hjson hpos
  · exact Machine.stepsMeet_of_forall _ hops t

end Trio

/-- `SCAN` with a pattern that ends in its only star. -/
def prefixMatch (pattern name : String) : Bool :=
  pattern.toList.dropLast.isPrefixOf name.toList

noncomputable def sampleTrio : Trio sampleJson prefixMatch where
  cpu := UnboundedCPU.empty
  disk := DiskIsolation.sampleStore
  redis := { keyTtl := some 60 }

theorem fresh_sampleTrio : Fresh 60 sampleTrio where
  cpu := rfl
  no_nul := by decide +kernel
  root := by decide +kernel
  empty := by
    intro name
    have hlocation : DiskChunks.rootLocation sampleTrio.disk = ["store"] := by decide +kernel
    rw [hlocation]
    apply (FileSystem.frame_makeDirs {} ["store"]).node
    intro hsuffix
    have hlength := hsuffix.length_le
    simp at hlength
  pinned := rfl
  client := rfl
  ttl := rfl
  scans := by
    intro name hprefix
    have hpattern : (sampleTrio.redis.«namespace» ++ ":*").toList.dropLast =
        (sampleTrio.redis.«namespace» ++ ":").toList := by decide +kernel
    rw [prefixMatch, hpattern]
    exact List.isPrefixOf_iff_prefix.mpr hprefix

theorem safeId_sample : SafeId "a" where
  plain := ⟨by decide, by decide, by decide, by decide⟩
  no_nul := by decide

/-- A key that is pinned, put again with a pin, removed and put without one. -/
def sampleOps : List (Op ChunkKey KVPayload) :=
  [.put ⟨"a", 0, 0⟩ samplePayload false, .pin ⟨"a", 0, 0⟩, .put ⟨"a", 0, 0⟩ samplePayload true,
    .get ⟨"a", 0, 0⟩, .remove ⟨"a", 0, 0⟩, .put ⟨"a", 0, 0⟩ samplePayload false]

theorem always_agree_iff_sample :
    (trio sampleJson prefixMatch).Always Agree sampleTrio sampleOps := by
  have hops : ∀ op ∈ sampleOps, Admissible op := by
    intro op hop
    refine ⟨⟨⟨"a", 0, 0⟩, ?_, safeId_sample⟩, ?_⟩
    · revert op
      decide
    · rintro key obj pin rfl
      simp only [sampleOps, List.mem_cons, Op.put.injEq, reduceCtorEq, List.not_mem_nil, or_false,
        false_or] at hop
      have hobj : obj = samplePayload := by tauto
      rw [hobj]
      exact wellFormed_samplePayload
  refine (always_agree_iff sampleJson_inverts (by decide) fresh_sampleTrio hops).mpr ?_
  decide +kernel

/-- The second put leaves the pin in memory and on disk, and ends it on the server. -/
theorem replaced_pin_lost_on_server :
    let ops : List (Op ChunkKey KVPayload) :=
      [.put ⟨"a", 0, 0⟩ samplePayload true, .put ⟨"a", 0, 0⟩ samplePayload false];
    let t := (trio sampleJson prefixMatch).exec sampleTrio ops;
    ⟨"a", 0, 0⟩ ∈ keys t.cpu ∧ ⟨"a", 0, 0⟩ ∈ t.cpu.1.pinned ∧ ⟨"a", 0, 0⟩ ∈ t.disk.pinned ∧
      ⟨"a", 0, 0⟩ ∈ keys t.redis ∧ ¬t.redis.Durable ⟨"a", 0, 0⟩ := by
  decide +kernel

end LlmCache.Store.Interchange
