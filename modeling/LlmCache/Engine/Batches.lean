import LlmCache.Engine.Chunks
import LlmCache.Store.Eviction

/-!
# The chunks of one registration in a bounded store

The chunks are put one after another, under distinct keys.  Each put evicts from
the oldest object on, so what the store keeps of the chunks depends on what was
pinned before and on the chunks themselves, not on the other objects.
-/

namespace LlmCache.Engine.Batches

open Errors Lib Payload LlmCache.Types Store ExplicitKVCache CPUBackend CPUInvariants Eviction

/-- A key with the object that is put under it. -/
abbrev Chunk := ChunkKey × KVPayload

def keysOf (chunks : List Chunk) : List ChunkKey :=
  chunks.map Prod.fst

/-- The bytes of all chunks. -/
def size (chunks : List Chunk) : Nat :=
  (chunks.map fun chunk => chunk.2.nbytes).sum

/-- A put of the key leaves its object pinned: a pin is not lost with the object
it was made for. -/
def StaysPinned (s : CPUBackend) (pin : Bool) (key : ChunkKey) : Prop :=
  pin = true ∨ key ∈ s.pinned

instance (s : CPUBackend) (pin : Bool) : DecidablePred (StaysPinned s pin) := fun key =>
  inferInstanceAs (Decidable (pin = true ∨ key ∈ s.pinned))

def pinnedChunks (s : CPUBackend) (pin : Bool) (chunks : List Chunk) : List Chunk :=
  chunks.filter fun chunk => StaysPinned s pin chunk.1

/-- The bytes of the chunks that stay pinned. -/
def pinnedSize (s : CPUBackend) (pin : Bool) (chunks : List Chunk) : Nat :=
  size (pinnedChunks s pin chunks)

def pinnedKeys (s : CPUBackend) (keys : List ChunkKey) : List ChunkKey :=
  s.keys.filter fun key => key ∈ s.pinned ∧ key ∉ keys

/-- The bytes of the pinned objects under other keys. -/
def pinnedOutside (s : CPUBackend) (keys : List ChunkKey) : Nat :=
  bytesOf s (pinnedKeys s keys)

/-- After `before` and `kept`, the chunk `next` fits beside all of `kept`, what
stays pinned of `before`, and the other pinned objects. -/
def FitsBeside (s : CPUBackend) (pin : Bool) (before kept : List Chunk) (next : Chunk) : Prop :=
  ∀ capacity ∈ s.capacityBytes,
    next.2.nbytes + pinnedOutside s (next.1 :: keysOf (before ++ kept)) + pinnedSize s pin before +
      size kept ≤ capacity

/-- The store has room for each of the chunks after those before it. -/
def Accepted (s : CPUBackend) (pin : Bool) (chunks : List Chunk) : Prop :=
  ∀ before next later, chunks = before ++ next :: later → FitsBeside s pin before [] next

/-- A chunk that was put after `before` is still there after `later`. -/
def Survives (s : CPUBackend) (pin : Bool) (before : List Chunk) (chunk : Chunk)
    (later : List Chunk) : Prop :=
  StaysPinned s pin chunk.1 ∨
    ∀ mid next rest, later = mid ++ next :: rest → FitsBeside s pin before (chunk :: mid) next

/-! ## Sizes -/

@[simp] theorem keysOf_nil : keysOf [] = [] := rfl

@[simp] theorem keysOf_append (chunks more : List Chunk) :
    keysOf (chunks ++ more) = keysOf chunks ++ keysOf more :=
  List.map_append

@[simp] theorem keysOf_cons (chunk : Chunk) (chunks : List Chunk) :
    keysOf (chunk :: chunks) = chunk.1 :: keysOf chunks := rfl

theorem next_notMem_keysOf {done rest : List Chunk} {next : Chunk}
    (h : (keysOf (done ++ next :: rest)).Nodup) : next.1 ∉ keysOf done := by
  rw [keysOf_append] at h
  intro hin
  exact (List.nodup_append.mp h).2.2 _ hin _ (List.mem_cons_self ..) rfl

@[simp] theorem size_nil : size [] = 0 := rfl

theorem size_cons (chunk : Chunk) (chunks : List Chunk) :
    size (chunk :: chunks) = chunk.2.nbytes + size chunks :=
  List.sum_cons

theorem size_append (chunks more : List Chunk) :
    size (chunks ++ more) = size chunks + size more := by
  rw [size, List.map_append, List.sum_append, size, size]

theorem pinnedSize_cons (s : CPUBackend) (pin : Bool) (chunk : Chunk) (chunks : List Chunk) :
    pinnedSize s pin (chunk :: chunks) =
      (if StaysPinned s pin chunk.1 then chunk.2.nbytes else 0) + pinnedSize s pin chunks := by
  unfold pinnedSize pinnedChunks
  by_cases hpinned : StaysPinned s pin chunk.1
  · rw [List.filter_cons_of_pos (by simpa using hpinned), size_cons, if_pos hpinned]
  · rw [List.filter_cons_of_neg (by simpa using hpinned), if_neg hpinned, Nat.zero_add]

theorem pinnedSize_append (s : CPUBackend) (pin : Bool) (chunks more : List Chunk) :
    pinnedSize s pin (chunks ++ more) = pinnedSize s pin chunks + pinnedSize s pin more := by
  rw [pinnedSize, pinnedChunks, List.filter_append, size_append]
  rfl

theorem pinnedSize_le (s : CPUBackend) (pin : Bool) (chunks : List Chunk) :
    pinnedSize s pin chunks ≤ size chunks := by
  induction chunks with
  | nil => exact Nat.le_refl _
  | cons chunk chunks ih =>
      rw [pinnedSize_cons, size_cons]
      split_ifs <;> omega

theorem pinnedSize_eq {s : CPUBackend} {pin : Bool} {chunks : List Chunk}
    (h : ∀ chunk ∈ chunks, StaysPinned s pin chunk.1) : pinnedSize s pin chunks = size chunks := by
  rw [pinnedSize, pinnedChunks, List.filter_eq_self.mpr]
  intro chunk hchunk
  simpa using h chunk hchunk

theorem bytesOf_append (s : CPUBackend) (keys more : List ChunkKey) :
    bytesOf s (keys ++ more) = bytesOf s keys + bytesOf s more := by
  rw [bytesOf, List.map_append, List.sum_append, bytesOf, bytesOf]

theorem bytesOf_perm (s : CPUBackend) {keys more : List ChunkKey} (h : keys.Perm more) :
    bytesOf s keys = bytesOf s more :=
  (h.map (sizeOf s)).sum_eq

theorem bytesOf_congr {s t : CPUBackend} {keys : List ChunkKey}
    (h : ∀ key ∈ keys, s.resident key = t.resident key) : bytesOf s keys = bytesOf t keys := by
  apply congrArg List.sum
  apply List.map_congr_left
  intro key hkey
  rw [Eviction.sizeOf, Eviction.sizeOf, h key hkey]

theorem bytesOf_keysOf {t : CPUBackend} {chunks : List Chunk}
    (h : ∀ chunk ∈ chunks, t.resident chunk.1 = some chunk.2) :
    bytesOf t (keysOf chunks) = size chunks := by
  rw [bytesOf, keysOf, List.map_map]
  apply congrArg List.sum
  apply List.map_congr_left
  intro chunk hchunk
  simp only [Function.comp_apply, Eviction.sizeOf, h chunk hchunk]

/-! ## One put -/

section Put

variable {t : CPUBackend} {key : ChunkKey} {obj : KVPayload} {pin : Bool}

theorem accepts_noCallback : Accepts noCallback := fun _ _ _ => rfl

theorem put_ok_iff (h : Accounted t) (key : ChunkKey) (obj : KVPayload) (pin : Bool) :
    (KeyedStore.put t key obj pin).1 = .ok () ↔
      ∀ capacity ∈ t.capacityBytes, obj.nbytes + pinnedBytes t key ≤ capacity :=
  Eviction.put_ok_iff accepts_noCallback h () key obj pin

theorem pinned_put (hok : (KeyedStore.put t key obj pin).1 = .ok ()) (k : ChunkKey) :
    k ∈ (KeyedStore.put t key obj pin).2.pinned ↔ k ∈ t.pinned ∨ pin = true ∧ k = key := by
  have hpinned : (KeyedStore.put t key obj pin).2.pinned =
      if pin then insert key t.pinned else t.pinned :=
    pinned_put_of_ok receives_noCallback hok
  rw [hpinned]
  cases pin
  · simp
  · simp [or_comm]

theorem resident_put_of_mem {k : ChunkKey} (hk : k ≠ key)
    (hmem : k ∈ (KeyedStore.put t key obj pin).2.keys) :
    (KeyedStore.put t key obj pin).2.resident k = t.resident k := by
  rw [mem_keys_iff] at hmem
  obtain ⟨held, hheld⟩ := Option.isSome_iff_exists.mp hmem
  rw [hheld, Chunks.forgets_put_other t obj pin hk held hheld]

theorem mem_keys_of_put {k : ChunkKey} (hk : k ≠ key)
    (hmem : k ∈ (KeyedStore.put t key obj pin).2.keys) : k ∈ t.keys := by
  have hold := resident_put_of_mem hk hmem
  rw [mem_keys_iff, hold, ← mem_keys_iff] at hmem
  exact hmem

theorem resident_put_of_pinned {k : ChunkKey} (hk : k ≠ key) (hpinned : k ∈ t.pinned) :
    (KeyedStore.put t key obj pin).2.resident k = t.resident k :=
  ((put_effect_other receives_noCallback t () obj pin hk).of_spared hpinned).1

theorem keys_put (h : Accounted t) (hok : (KeyedStore.put t key obj pin).1 = .ok ()) :
    ∃ kept, (KeyedStore.put t key obj pin).2.keys = kept ++ [key] ∧ kept.Sublist t.keys ∧
      key ∉ kept := by
  obtain ⟨n, _, hhot, _⟩ := put_spec accepts_noCallback h hok
  refine ⟨_, (congrArg CPUBackend.keys hhot).trans keys_put_of_ok, List.filter_sublist, ?_⟩
  simp

theorem nodup_candidates (s : CPUBackend) (key : ChunkKey) : (candidates s key).Nodup :=
  (nodup_keys s).filter _

theorem fitsWithout_take (h : Accounted t) {keys : List ChunkKey} (hnodup : keys.Nodup)
    {incoming n : Nat} (hfits : FitsWithout t key incoming (keys.take n)) :
    FitsWithout t key incoming keys := by
  cases hcap : t.capacityBytes with
  | none => simp [FitsWithout, hcap]
  | some capacity =>
      rw [fitsWithout_iff h hcap key incoming (hnodup.sublist (List.take_sublist ..))] at hfits
      rw [fitsWithout_iff h hcap key incoming hnodup]
      have hle := bytesOf_take_le (t.dropOld key) keys n
      omega

/-- An object that may be evicted stays exactly when the new one fits beside it,
the newer objects and the pinned ones. -/
theorem mem_keys_put_iff (h : Accounted t) (hok : (KeyedStore.put t key obj pin).1 = .ok ())
    {older newer : List ChunkKey} {c : ChunkKey} (hsplit : t.keys = older ++ c :: newer)
    (hc : ¬(c = key ∨ c ∈ t.pinned)) :
    c ∈ (KeyedStore.put t key obj pin).2.keys ↔ ∀ capacity ∈ t.capacityBytes,
      bytesOf t (t.keys.filter fun k => k ≠ key ∧ (k ∈ t.pinned ∨ k ∈ c :: newer)) + obj.nbytes ≤
        capacity := by
  obtain ⟨n, hn, hhot, hfits, hmin⟩ := put_spec accepts_noCallback h hok
  let first := older.filter fun k => ¬(k = key ∨ k ∈ t.pinned)
  let rest := newer.filter fun k => ¬(k = key ∨ k ∈ t.pinned)
  have hcandidates : candidates t key = first ++ c :: rest := by
    rw [candidates, hsplit, List.filter_append, List.filter_cons_of_pos (by simpa using hc)]
  have hnodup : (first ++ c :: rest).Nodup := hcandidates ▸ nodup_candidates t key
  have hfirst : first = (candidates t key).take first.length := by
    rw [hcandidates, List.take_left]
  -- the object stays when the run of evicted candidates ends before it
  have hstays : c ∈ (KeyedStore.put t key obj pin).2.keys ↔ n ≤ first.length := by
    have hkeys : (KeyedStore.put t key obj pin).2.keys =
        (t.keys.filter fun k => k ≠ key ∧ k ∉ (candidates t key).take n) ++ [key] :=
      (congrArg CPUBackend.keys hhot).trans keys_put_of_ok
    have hmem : c ∈ t.keys := by simp [hsplit]
    have hne : c ≠ key := fun heq => hc (.inl heq)
    simp only [hkeys, hcandidates, List.mem_append, List.mem_filter, decide_eq_true_eq, hmem, hne,
      ne_eq, not_false_eq_true, true_and, List.mem_singleton, or_false]
    by_cases hle : n ≤ first.length
    · have hnot : c ∉ first := fun hfirst =>
        (List.nodup_append.mp hnodup).2.2 c hfirst c (List.mem_cons_self ..) rfl
      rw [List.take_append_of_le_length hle]
      simp only [hle, iff_true]
      exact fun htake => hnot (List.mem_of_mem_take htake)
    · obtain ⟨m, hm⟩ := Nat.exists_eq_add_of_lt (Nat.lt_of_not_le hle)
      rw [List.take_append, show n - first.length = m + 1 by omega, List.take_succ_cons]
      simp [hle]
  have hroom : FitsWithout t key obj.nbytes first ↔ n ≤ first.length := by
    constructor
    · intro hfirstFits
      by_contra hlt
      rw [hfirst] at hfirstFits
      exact hmin first.length (by omega) hfirstFits
    · intro hle
      apply fitsWithout_take h (hnodup.sublist (List.sublist_append_left ..)) (n := n)
      rw [hcandidates, List.take_append_of_le_length hle] at hfits
      exact hfits
  have hleft : (t.keys.filter fun k => k ≠ key ∧ k ∉ first) =
      t.keys.filter fun k => k ≠ key ∧ (k ∈ t.pinned ∨ k ∈ c :: newer) := by
    have hdisjoint := (List.nodup_append.mp (hsplit ▸ nodup_keys t)).2.2
    apply List.filter_congr
    intro k hk
    rw [hsplit, List.mem_append] at hk
    have hnew : k ∈ older → k ∉ c :: newer := fun hold hnew => hdisjoint k hold k hnew rfl
    apply decide_eq_decide.mpr
    simp only [first, List.mem_filter, decide_eq_true_eq]
    tauto
  rw [hstays, ← hroom, FitsWithout, hleft]

end Put

/-! ## The store after a few chunks -/

/-- The state `t` that the puts of `done` lead to from `s`. -/
structure After (s : CPUBackend) (pin : Bool) (done : List Chunk) (t : CPUBackend) : Prop where
  accounted : Accounted t
  capacity : t.capacityBytes = s.capacityBytes
  nodup : (keysOf done).Nodup
  pinned : ∀ key, key ∈ t.pinned ↔ key ∈ s.pinned ∨ pin = true ∧ key ∈ keysOf done
  order : ∃ older recent, t.keys = older ++ recent ∧ recent.Sublist (keysOf done) ∧
    ∀ key ∈ older, key ∉ keysOf done
  stored : ∀ chunk ∈ done, chunk.1 ∈ t.keys → t.resident chunk.1 = some chunk.2
  outside : ∀ key ∉ keysOf done, key ∈ s.pinned → t.resident key = s.resident key
  others : ∀ key ∉ keysOf done, key ∈ t.keys → key ∈ s.keys
  held : ∀ before chunk later, done = before ++ chunk :: later →
    (chunk.1 ∈ t.keys ↔ Survives s pin before chunk later)
  accepted : Accepted s pin done

variable {s t : CPUBackend} {pin : Bool} {done : List Chunk}

theorem After.start (h : Accounted s) : After s pin [] s where
  accounted := h
  capacity := rfl
  nodup := List.nodup_nil
  pinned key := by simp [keysOf]
  order := ⟨s.keys, [], (List.append_nil _).symm, List.Sublist.refl _, by simp [keysOf]⟩
  stored := by simp
  outside _ _ _ := rfl
  others _ _ hmem := hmem
  held before chunk later hdone := by simp at hdone
  accepted before next later hdone := by simp at hdone

theorem After.mem_of_pinned (h : After s pin done t) {chunk : Chunk} (hmem : chunk ∈ done)
    (hpinned : StaysPinned s pin chunk.1) : chunk.1 ∈ t.keys := by
  obtain ⟨before, later, hdone⟩ := List.append_of_mem hmem
  exact (h.held before chunk later hdone).mpr (.inl hpinned)

theorem After.pinned_of_mem (h : After s pin done t) {key : ChunkKey} (hmem : key ∈ keysOf done) :
    key ∈ t.pinned ↔ StaysPinned s pin key := by
  rw [h.pinned, StaysPinned]
  tauto

theorem mem_pinnedKeys_iff (h : After s pin done t) {keys : List ChunkKey}
    (hkeys : keysOf done ⊆ keys) (key : ChunkKey) :
    key ∈ pinnedKeys s keys ↔ key ∈ t.keys ∧ key ∈ s.pinned ∧ key ∉ keys := by
  simp only [pinnedKeys, List.mem_filter, decide_eq_true_eq, mem_keys_iff]
  apply and_congr_left
  intro hkey
  rw [h.outside key (fun hmem => hkey.2 (hkeys hmem)) hkey.1]

theorem mem_keysOf_pinnedChunks (s : CPUBackend) (pin : Bool) (chunks : List Chunk)
    (key : ChunkKey) :
    key ∈ keysOf (pinnedChunks s pin chunks) ↔ key ∈ keysOf chunks ∧ StaysPinned s pin key := by
  simp only [keysOf, pinnedChunks, List.mem_map, List.mem_filter, decide_eq_true_eq]
  constructor
  · rintro ⟨chunk, ⟨hmem, hpinned⟩, rfl⟩
    exact ⟨⟨chunk, hmem, rfl⟩, hpinned⟩
  · rintro ⟨⟨chunk, hmem, rfl⟩, hpinned⟩
    exact ⟨chunk, ⟨hmem, hpinned⟩, rfl⟩

/-- The keys that are left when everything has gone that is neither pinned nor
one of the last chunks. -/
theorem After.keys_left (h : After s pin done t) {before kept : List Chunk}
    (hdone : done = before ++ kept) (hkept : ∀ chunk ∈ kept, chunk.1 ∈ t.keys) {key : ChunkKey}
    (hkey : key ∉ keysOf done) :
    (t.keys.filter fun k => k ≠ key ∧ (k ∈ t.pinned ∨ k ∈ keysOf kept)).Perm
      (pinnedKeys s (key :: keysOf done) ++
        (keysOf (pinnedChunks s pin before) ++ keysOf kept)) := by
  have hothers := mem_pinnedKeys_iff h (List.subset_cons_self key (keysOf done))
  have hpins := mem_keysOf_pinnedChunks s pin before
  have hnodup := h.nodup
  rw [hdone, keysOf_append] at hnodup
  obtain ⟨hbefore, hlast, hdisjoint⟩ := List.nodup_append.mp hnodup
  rw [List.perm_ext_iff_of_nodup ((nodup_keys t).filter _)]
  · intro k
    simp only [List.mem_append, hothers, hpins, List.mem_filter, decide_eq_true_eq]
    by_cases hk : k ∈ keysOf done
    · have hne : k ≠ key := fun heq => hkey (heq ▸ hk)
      obtain ⟨chunk, hmem, rfl⟩ := List.mem_map.mp hk
      have hpinned := h.pinned_of_mem hk
      have hthere := h.mem_of_pinned hmem
      have hlater : chunk.1 ∈ keysOf kept → chunk.1 ∈ t.keys := by
        intro hlater
        obtain ⟨chunk', hmem', heq⟩ := List.mem_map.mp hlater
        exact heq ▸ hkept chunk' hmem'
      rw [hdone, keysOf_append, List.mem_append] at hk
      simp only [List.mem_cons, hdone, keysOf_append, List.mem_append, hk, or_true,
        not_true_eq_false, and_false, false_or]
      tauto
    · have hpinned := h.pinned k
      rw [hdone, keysOf_append, List.mem_append, not_or] at hk
      simp only [List.mem_cons, hdone, keysOf_append, List.mem_append, hk, or_false, and_false,
        false_and, or_self] at hpinned ⊢
      tauto
  · rw [List.nodup_append, List.nodup_append]
    refine ⟨(nodup_keys s).filter _, ⟨?_, hlast, ?_⟩, ?_⟩
    · exact hbefore.sublist (List.filter_sublist.map _)
    · intro k hk k' hk'
      exact hdisjoint k ((hpins k).mp hk).1 k' hk'
    · intro k hk k' hk' heq
      apply ((hothers k).mp hk).2.2
      rw [heq, hdone, keysOf_append]
      apply List.mem_cons_of_mem
      rw [List.mem_append] at hk' ⊢
      exact hk'.imp_left fun hk' => ((hpins k').mp hk').1

theorem After.bytes_left (h : After s pin done t) {before kept : List Chunk}
    (hdone : done = before ++ kept) (hkept : ∀ chunk ∈ kept, chunk.1 ∈ t.keys) {key : ChunkKey}
    (hkey : key ∉ keysOf done) :
    bytesOf t (t.keys.filter fun k => k ≠ key ∧ (k ∈ t.pinned ∨ k ∈ keysOf kept)) =
      pinnedOutside s (key :: keysOf done) + pinnedSize s pin before + size kept := by
  have hothers : bytesOf t (pinnedKeys s (key :: keysOf done)) =
      pinnedOutside s (key :: keysOf done) := by
    apply bytesOf_congr
    intro k hk
    obtain ⟨_, hpinned, hnot⟩ :=
      (mem_pinnedKeys_iff h (List.subset_cons_self key (keysOf done)) k).mp hk
    exact h.outside k (fun hmem => hnot (List.mem_cons_of_mem _ hmem)) hpinned
  have hpins : bytesOf t (keysOf (pinnedChunks s pin before)) = pinnedSize s pin before := by
    apply bytesOf_keysOf
    intro chunk hchunk
    obtain ⟨hmem, hpinned⟩ := List.mem_filter.mp hchunk
    have hin : chunk ∈ done := hdone ▸ List.mem_append_left _ hmem
    exact h.stored chunk hin (h.mem_of_pinned hin (by simpa using hpinned))
  have hlast : bytesOf t (keysOf kept) = size kept := by
    apply bytesOf_keysOf
    intro chunk hchunk
    exact h.stored chunk (hdone ▸ List.mem_append_right _ hchunk) (hkept chunk hchunk)
  rw [bytesOf_perm t (h.keys_left hdone hkept hkey), bytesOf_append, bytesOf_append, hothers,
    hpins, hlast, Nat.add_assoc]

/-! ## The next put -/

theorem FitsBeside.mono {before more kept : List Chunk} {next : Chunk}
    (h : FitsBeside s pin before (more ++ kept) next) :
    FitsBeside s pin (before ++ more) kept next := by
  intro capacity hcapacity
  have hfits := h capacity hcapacity
  have hle := pinnedSize_le s pin more
  rw [size_append] at hfits
  rw [pinnedSize_append, List.append_assoc]
  omega

theorem survives_nil (s : CPUBackend) (pin : Bool) (before : List Chunk) (chunk : Chunk) :
    Survives s pin before chunk [] := by
  right
  intro mid next rest hnil
  simp at hnil

theorem survives_snoc_iff {before later : List Chunk} {chunk next : Chunk}
    (hunpinned : ¬StaysPinned s pin chunk.1) :
    Survives s pin before chunk (later ++ [next]) ↔
      Survives s pin before chunk later ∧ FitsBeside s pin before (chunk :: later) next := by
  simp only [Survives, hunpinned, false_or]
  constructor
  · intro h
    constructor
    · intro mid next' rest hlater
      exact h mid next' (rest ++ [next]) (by simp [hlater])
    · exact h later next [] rfl
  · rintro ⟨hlater, hnext⟩ mid next' rest hsplit
    rcases List.eq_nil_or_concat' rest with rfl | ⟨rest, last, rfl⟩
    · obtain ⟨rfl, hlast⟩ := List.append_inj' hsplit rfl
      obtain rfl := List.singleton_inj.mp hlast
      exact hnext
    · rw [← List.cons_append, ← List.append_assoc] at hsplit
      exact hlater mid next' rest (List.append_inj' hsplit rfl).1

/-- The objects go from the oldest on, so with a chunk all later ones stay. -/
theorem Survives.later {before mid later : List Chunk} {chunk chunk' : Chunk}
    (h : Survives s pin before chunk (mid ++ chunk' :: later))
    (hunpinned : ¬StaysPinned s pin chunk.1) :
    Survives s pin (before ++ chunk :: mid) chunk' later := by
  right
  intro mid' next rest hlater
  apply FitsBeside.mono
  exact h.resolve_left hunpinned (mid ++ chunk' :: mid') next rest (by simp [hlater])

theorem After.later_mem (h : After s pin done t) {before later : List Chunk} {chunk : Chunk}
    (hdone : done = before ++ chunk :: later) (hunpinned : ¬StaysPinned s pin chunk.1)
    (hmem : chunk.1 ∈ t.keys) : ∀ chunk' ∈ chunk :: later, chunk'.1 ∈ t.keys := by
  intro chunk' hchunk'
  rcases List.mem_cons.mp hchunk' with rfl | hlater
  · exact hmem
  · obtain ⟨mid, rest, rfl⟩ := List.append_of_mem hlater
    have hsurvives := ((h.held before chunk _ hdone).mp hmem).later hunpinned
    exact (h.held (before ++ chunk :: mid) chunk' rest (by simp [hdone])).mpr hsurvives

theorem After.split (h : After s pin done t) {before later : List Chunk} {chunk : Chunk}
    (hdone : done = before ++ chunk :: later) (hmem : chunk.1 ∈ t.keys) :
    ∃ older newer, t.keys = older ++ chunk.1 :: newer ∧
      ∀ key ∈ t.keys, key ∈ chunk.1 :: newer ↔ key ∈ keysOf (chunk :: later) := by
  obtain ⟨older, recent, hkeys, hrecent, holder⟩ := h.order
  have hnodup := h.nodup
  rw [hdone, keysOf_append] at hrecent holder hnodup
  obtain ⟨_, hlast, hdisjoint⟩ := List.nodup_append.mp hnodup
  obtain ⟨first, rest, rfl, hfirst, hrest⟩ := List.sublist_append_iff.mp hrecent
  have hlater : ∀ key ∈ keysOf (chunk :: later), key ∉ older ++ first := by
    intro key hkey hin
    rcases List.mem_append.mp hin with hin | hin
    · exact holder key hin (List.mem_append_right _ hkey)
    · exact hdisjoint key (hfirst.subset hin) key hkey rfl
  have hhead := hlater chunk.1 (List.mem_cons_self ..)
  rw [← List.append_assoc] at hkeys
  rw [hkeys, List.mem_append] at hmem
  rcases List.sublist_cons_iff.mp hrest with hnot | ⟨newer, rfl, hnewer⟩
  · have hmem' := hnot.subset (hmem.resolve_left hhead)
    exact absurd hmem' (List.nodup_cons.mp hlast).1
  · refine ⟨older ++ first, newer, hkeys, fun key hkey => ⟨fun hin => ?_, fun hin => ?_⟩⟩
    · exact hrest.subset hin
    · rw [hkeys, List.mem_append] at hkey
      exact hkey.resolve_left (hlater key hin)

theorem After.room_iff (h : After s pin done t) {next : Chunk} (hnext : next.1 ∉ keysOf done) :
    (KeyedStore.put t next.1 next.2 pin).1 = .ok () ↔ FitsBeside s pin done [] next := by
  have hleft := h.bytes_left (List.append_nil done).symm (by simp) hnext
  have hpinned : pinnedBytes t next.1 =
      pinnedOutside s (next.1 :: keysOf done) + pinnedSize s pin done := by
    rw [pinnedBytes]
    simpa using hleft
  rw [put_ok_iff h.accounted, h.capacity, FitsBeside, hpinned]
  simp only [List.append_nil, size_nil, Nat.add_zero, Nat.add_assoc]

theorem After.stays_iff (h : After s pin done t) {next : Chunk} (hnext : next.1 ∉ keysOf done)
    (hok : (KeyedStore.put t next.1 next.2 pin).1 = .ok ()) {before later : List Chunk}
    {chunk : Chunk} (hdone : done = before ++ chunk :: later)
    (hunpinned : ¬StaysPinned s pin chunk.1) (hmem : chunk.1 ∈ t.keys) :
    chunk.1 ∈ (KeyedStore.put t next.1 next.2 pin).2.keys ↔
      FitsBeside s pin before (chunk :: later) next := by
  have hin : chunk.1 ∈ keysOf done := by simp [hdone]
  have hfree : ¬(chunk.1 = next.1 ∨ chunk.1 ∈ t.pinned) := by
    rw [h.pinned_of_mem hin]
    rintro (heq | hpinned)
    · exact hnext (heq ▸ hin)
    · exact hunpinned hpinned
  obtain ⟨older, newer, hkeys, hnewer⟩ := h.split hdone hmem
  have hsame : (t.keys.filter fun k => k ≠ next.1 ∧ (k ∈ t.pinned ∨ k ∈ chunk.1 :: newer)) =
      t.keys.filter fun k => k ≠ next.1 ∧ (k ∈ t.pinned ∨ k ∈ keysOf (chunk :: later)) := by
    apply List.filter_congr
    intro k hk
    apply decide_eq_decide.mpr
    rw [hnewer k hk]
  rw [mem_keys_put_iff h.accounted hok hkeys hfree, hsame,
    h.bytes_left hdone (h.later_mem hdone hunpinned hmem) hnext, h.capacity, FitsBeside, hdone]
  apply forall₂_congr
  intro capacity _
  omega

theorem Accepted.snoc {next : Chunk} (h : Accepted s pin done)
    (hnext : FitsBeside s pin done [] next) : Accepted s pin (done ++ [next]) := by
  intro before next' later hsplit
  rcases List.eq_nil_or_concat' later with rfl | ⟨later, last, rfl⟩
  · obtain ⟨rfl, hlast⟩ := List.append_inj' hsplit rfl
    obtain rfl := List.singleton_inj.mp hlast
    exact hnext
  · rw [← List.cons_append, ← List.append_assoc] at hsplit
    exact h before next' later (List.append_inj' hsplit rfl).1

theorem After.held_put (h : After s pin done t) {next : Chunk} (hnext : next.1 ∉ keysOf done)
    (hok : (KeyedStore.put t next.1 next.2 pin).1 = .ok ()) {before later : List Chunk}
    {chunk : Chunk} (hsplit : done ++ [next] = before ++ chunk :: later) :
    chunk.1 ∈ (KeyedStore.put t next.1 next.2 pin).2.keys ↔ Survives s pin before chunk later := by
  rcases List.eq_nil_or_concat' later with rfl | ⟨later, last, rfl⟩
  · obtain ⟨rfl, hlast⟩ := List.append_inj' hsplit rfl
    obtain rfl := List.singleton_inj.mp hlast
    refine iff_of_true ?_ (survives_nil ..)
    have hself : (KeyedStore.put t next.1 next.2 pin).2.resident next.1 = some next.2 :=
      put_self_of_ok hok
    rw [mem_keys_iff, hself]
    rfl
  · rw [← List.cons_append, ← List.append_assoc] at hsplit
    obtain ⟨hdone, hlast⟩ := List.append_inj' hsplit rfl
    obtain rfl := List.singleton_inj.mp hlast
    have hin : chunk.1 ∈ keysOf done := by simp [hdone]
    have hne : chunk.1 ≠ next.1 := fun heq => hnext (heq ▸ hin)
    by_cases hpinned : StaysPinned s pin chunk.1
    · refine iff_of_true ?_ (.inl hpinned)
      have hmem : chunk.1 ∈ t.keys := h.mem_of_pinned (by simp [hdone]) hpinned
      rw [mem_keys_iff, resident_put_of_pinned hne ((h.pinned_of_mem hin).mpr hpinned),
        ← mem_keys_iff]
      exact hmem
    · rw [survives_snoc_iff hpinned, ← h.held before chunk later hdone]
      by_cases hmem : chunk.1 ∈ t.keys
      · rw [h.stays_iff hnext hok hdone hpinned hmem]
        simp [hmem]
      · simp only [hmem, false_and, iff_false]
        exact fun hput => hmem (mem_keys_of_put hne hput)

theorem After.put (h : After s pin done t) {next : Chunk} (hnext : next.1 ∉ keysOf done)
    (hok : (KeyedStore.put t next.1 next.2 pin).1 = .ok ()) :
    After s pin (done ++ [next]) (KeyedStore.put t next.1 next.2 pin).2 where
  accounted := h.accounted.put () next.1 next.2 pin
  capacity := (capacityBytes_put noCallback t () next.1 next.2 pin).trans h.capacity
  nodup := by
    rw [keysOf_append]
    exact List.nodup_append_comm.mp (List.nodup_cons.mpr ⟨hnext, h.nodup⟩)
  pinned key := by
    rw [pinned_put hok, h.pinned]
    simp only [keysOf_append, keysOf_cons, keysOf_nil, List.mem_append, List.mem_singleton]
    tauto
  order := by
    obtain ⟨older, recent, hkeys, hrecent, holder⟩ := h.order
    obtain ⟨kept, hput, hkept, hself⟩ := keys_put h.accounted hok
    rw [hkeys] at hkept
    obtain ⟨first, rest, rfl, hfirst, hrest⟩ := List.sublist_append_iff.mp hkept
    refine ⟨first, rest ++ [next.1], by rw [hput, List.append_assoc], ?_, ?_⟩
    · rw [keysOf_append]
      exact (hrest.trans hrecent).append (List.Sublist.refl _)
    · intro key hkey hin
      rw [keysOf_append, List.mem_append] at hin
      rcases hin with hin | hin
      · exact holder key (hfirst.subset hkey) hin
      · rw [List.mem_singleton.mp hin] at hkey
        exact hself (List.mem_append_left _ hkey)
  stored := by
    intro chunk hchunk hmem
    by_cases hsame : chunk.1 = next.1
    · rcases List.mem_append.mp hchunk with hin | hin
      · exact absurd (List.mem_map_of_mem hin) (hsame ▸ hnext)
      · rw [List.mem_singleton.mp hin]
        exact put_self_of_ok hok
    · have hold : (KeyedStore.put t next.1 next.2 pin).2.resident chunk.1 = t.resident chunk.1 :=
        resident_put_of_mem hsame hmem
      have hin : chunk ∈ done := by
        rcases List.mem_append.mp hchunk with hin | hin
        · exact hin
        · exact absurd (congrArg Prod.fst (List.mem_singleton.mp hin)) hsame
      exact hold.trans (h.stored chunk hin (mem_keys_of_put hsame hmem))
  outside := by
    intro key hkey hpinned
    rw [keysOf_append, List.mem_append, not_or] at hkey
    have hne : key ≠ next.1 := fun heq => hkey.2 (List.mem_singleton.mpr heq)
    exact (resident_put_of_pinned hne ((h.pinned key).mpr (.inl hpinned))).trans
      (h.outside key hkey.1 hpinned)
  others := by
    intro key hkey hmem
    rw [keysOf_append, List.mem_append, not_or] at hkey
    have hne : key ≠ next.1 := fun heq => hkey.2 (List.mem_singleton.mpr heq)
    exact h.others key hkey.1 (mem_keys_of_put hne hmem)
  held := fun _ _ _ => h.held_put hnext hok
  accepted := h.accepted.snoc ((h.room_iff hnext).mp hok)

/-! ## The whole batch -/

/-- Either every chunk is stored, or the puts stop at the first one that finds
no room. -/
theorem After.putChunks_cases (h : After s pin done t) {chunks : List Chunk}
    (hnodup : (keysOf (done ++ chunks)).Nodup) :
    ((putChunks pin chunks t).1 = .ok () ∧
        After s pin (done ++ chunks) (putChunks pin chunks t).2) ∨
      ∃ before next later t' err, chunks = before ++ next :: later ∧
        After s pin (done ++ before) t' ∧ (KeyedStore.put t' next.1 next.2 pin).1 = .error err ∧
        putChunks pin chunks t = (.error err, (KeyedStore.put t' next.1 next.2 pin).2) := by
  induction chunks generalizing done t with
  | nil =>
      left
      rw [List.append_nil]
      exact ⟨rfl, h⟩
  | cons chunk chunks ih =>
      have hnext : chunk.1 ∉ keysOf done := next_notMem_keysOf hnodup
      simp only [putChunks]
      cases hput : (KeyedStore.put t chunk.1 chunk.2 pin).1 with
      | error err =>
          right
          refine ⟨[], chunk, chunks, t, err, rfl, ?_, hput, rfl⟩
          rw [List.append_nil]
          exact h
      | ok _ =>
          have hrest := ih (h.put hnext hput) (by simpa using hnodup)
          rw [List.append_assoc] at hrest
          refine hrest.imp_right ?_
          rintro ⟨before, next, later, t', err, rfl, hafter, herr, hputs⟩
          refine ⟨chunk :: before, next, later, t', err, rfl, ?_, herr, hputs⟩
          rw [List.append_assoc] at hafter
          exact hafter

theorem putChunks_cases (h : Accounted s) {chunks : List Chunk} (hnodup : (keysOf chunks).Nodup)
    (pin : Bool) :
    ((putChunks pin chunks s).1 = .ok () ∧ After s pin chunks (putChunks pin chunks s).2) ∨
      ∃ before next later t err, chunks = before ++ next :: later ∧ After s pin before t ∧
        ¬FitsBeside s pin before [] next ∧
        (KeyedStore.put t next.1 next.2 pin).1 = .error err ∧
        putChunks pin chunks s = (.error err, (KeyedStore.put t next.1 next.2 pin).2) := by
  refine ((After.start h).putChunks_cases hnodup).imp_right ?_
  rintro ⟨before, next, later, t, err, rfl, hafter, herr, hputs⟩
  rw [List.nil_append] at hafter
  refine ⟨before, next, later, t, err, rfl, hafter, ?_, herr, hputs⟩
  have hnext : next.1 ∉ keysOf before := next_notMem_keysOf hnodup
  rw [← hafter.room_iff hnext, herr]
  simp

/-- The puts go through when there is room for each chunk beside what cannot be
evicted. -/
theorem putChunks_ok_iff (h : Accounted s) {chunks : List Chunk} (hnodup : (keysOf chunks).Nodup)
    (pin : Bool) : (putChunks pin chunks s).1 = .ok () ↔ Accepted s pin chunks := by
  rcases putChunks_cases h hnodup pin with
    ⟨hok, hafter⟩ | ⟨before, next, later, _, err, hsplit, _, hroom, _, hputs⟩
  · exact iff_of_true hok hafter.accepted
  · apply iff_of_false
    · rw [hputs]
      simp
    · exact fun haccepted => hroom (haccepted before next later hsplit)

theorem split_at_unpinned (s : CPUBackend) (pin : Bool) (chunks : List Chunk) :
    (∀ chunk ∈ chunks, StaysPinned s pin chunk.1) ∨
      ∃ first chunk rest, chunks = first ++ chunk :: rest ∧
        (∀ chunk ∈ first, StaysPinned s pin chunk.1) ∧ ¬StaysPinned s pin chunk.1 := by
  induction chunks with
  | nil => simp
  | cons head chunks ih =>
      by_cases hhead : StaysPinned s pin head.1
      · rcases ih with hall | ⟨first, chunk, rest, rfl, hfirst, hchunk⟩
        · exact .inl (List.forall_mem_cons.mpr ⟨hhead, hall⟩)
        · exact .inr ⟨head :: first, chunk, rest, rfl, List.forall_mem_cons.mpr ⟨hhead, hfirst⟩,
            hchunk⟩
      · exact .inr ⟨[], head, chunks, rfl, by simp, hhead⟩

/-- All chunks stay exactly when the store could have taken them pinned. -/
theorem survives_iff_accepted {chunks : List Chunk} (haccepted : Accepted s pin chunks) :
    (∀ before chunk later, chunks = before ++ chunk :: later →
        Survives s pin before chunk later) ↔
      Accepted s true chunks := by
  have hpinned : ∀ before : List Chunk, pinnedSize s true before = size before :=
    fun before => pinnedSize_eq fun _ _ => .inl rfl
  constructor
  · intro hall before next later hsplit capacity hcapacity
    rw [hpinned]
    rcases split_at_unpinned s pin before with hall' | ⟨first, chunk, mid, rfl, hfirst, hunpinned⟩
    · have hfits := haccepted before next later hsplit capacity hcapacity
      rwa [pinnedSize_eq hall'] at hfits
    · -- of the chunks that may be evicted, the first needs the most room to stay
      have hsurvives := hall first chunk (mid ++ next :: later) (by simp [hsplit])
      have hfits := hsurvives.resolve_left hunpinned mid next later rfl capacity hcapacity
      rw [pinnedSize_eq hfirst] at hfits
      rw [size_append, List.append_nil, size_nil]
      omega
  · intro htrue before chunk later hsplit
    right
    intro mid next rest hlater capacity hcapacity
    have hfits := htrue (before ++ chunk :: mid) next rest (by simp [hsplit, hlater]) capacity
      hcapacity
    have hle := pinnedSize_le s pin before
    rw [hpinned, List.append_nil, size_append] at hfits
    omega

/-- What is left of the chunks that were put before one that finds no room: with
any pin in the store it has evicted everything else, without one nothing. -/
def RemainsBeside (s : CPUBackend) (pin : Bool) (done before : List Chunk) (chunk : Chunk)
    (later : List Chunk) : Prop :=
  if s.pinned = ∅ ∧ (pin = true → done = []) then Survives s pin before chunk later
  else StaysPinned s pin chunk.1

theorem After.pinned_eq_empty_iff (h : After s pin done t) :
    t.pinned = ∅ ↔ s.pinned = ∅ ∧ (pin = true → done = []) := by
  simp only [Finset.eq_empty_iff_forall_notMem, h.pinned, not_or, not_and, forall_and]
  apply and_congr_right
  intro _
  cases done with
  | nil => simp
  | cons chunk rest =>
      simp only [keysOf_cons, List.mem_cons, not_or, reduceCtorEq, imp_false]
      constructor
      · exact fun hall hpin => (hall chunk.1 hpin).1 rfl
      · exact fun hpin _ hpin' => absurd hpin' hpin

theorem After.remains_iff (h : After s pin done t) {next : Chunk} (hnext : next.1 ∉ keysOf done)
    {err : Raised} (herr : (KeyedStore.put t next.1 next.2 pin).1 = .error err)
    {before later : List Chunk} {chunk : Chunk} (hdone : done = before ++ chunk :: later) :
    chunk.1 ∈ (KeyedStore.put t next.1 next.2 pin).2.keys ↔
      RemainsBeside s pin done before chunk later := by
  have hin : chunk.1 ∈ keysOf done := by simp [hdone]
  have hne : chunk.1 ≠ next.1 := fun heq => hnext (heq ▸ hin)
  have hfull := put_ok_iff h.accounted next.1 next.2 pin
  rw [herr] at hfull
  simp only [reduceCtorEq, false_iff, not_forall, Nat.not_le] at hfull
  obtain ⟨capacity, hcapacity, hfull⟩ := hfull
  have hhot : (KeyedStore.put t next.1 next.2 pin).2 = if t.pinned = ∅ then t.dropOld next.1
      else evictAll (t.dropOld next.1) (candidates (t.dropOld next.1) next.1) :=
    hot_put_of_full h.accounted hcapacity accepts_noCallback () pin hfull
  rw [hhot, RemainsBeside, ← h.held before chunk later hdone]
  simp only [← h.pinned_eq_empty_iff]
  split_ifs with hpins
  · simp [keys_dropOld, hne]
  · rw [keys_evictAll, candidates, ← h.pinned_of_mem hin]
    simp only [List.mem_filter, keys_dropOld, pinned_dropOld, hne, decide_eq_true_eq]
    have hthere : chunk.1 ∈ t.pinned → chunk.1 ∈ t.keys := fun hpinned =>
      h.mem_of_pinned (by simp [hdone]) ((h.pinned_of_mem hin).mp hpinned)
    tauto

theorem stop_unique {before before' later later' : List Chunk} {next next' : Chunk}
    (hsplit : before ++ next :: later = before' ++ next' :: later')
    (haccepted : Accepted s pin before) (haccepted' : Accepted s pin before')
    (hfull : ¬FitsBeside s pin before [] next) (hfull' : ¬FitsBeside s pin before' [] next') :
    before = before' ∧ next = next' := by
  rcases List.append_eq_append_iff.mp hsplit with ⟨mid, rfl, hmid⟩ | ⟨mid, rfl, hmid⟩
  · cases mid with
    | nil => exact ⟨(List.append_nil _).symm, (List.cons.inj hmid).1⟩
    | cons chunk mid =>
        obtain ⟨rfl, _⟩ := List.cons.inj hmid
        exact absurd (haccepted' before next mid rfl) hfull
  · cases mid with
    | nil => exact ⟨List.append_nil _, (List.cons.inj hmid).1.symm⟩
    | cons chunk mid =>
        obtain ⟨rfl, _⟩ := List.cons.inj hmid
        exact absurd (haccepted before' next' mid rfl) hfull'

/-! ## Registrations -/

theorem nodup_putsOf (r : Registration) (newId : String) :
    (keysOf (Descriptors.putsOf r newId)).Nodup := by
  rw [keysOf, Descriptors.putsOf, chunkPuts, List.map_flatMap, List.nodup_flatMap]
  constructor
  · intro entry _
    rw [List.map_map]
    apply List.Nodup.of_map fun key : ChunkKey => key.chunkIndex
    rw [List.map_map]
    have hindexes : entry.2.zipIdx.map ((fun key : ChunkKey => key.chunkIndex) ∘
        Prod.fst ∘ fun chunk : KVPayload × Nat =>
          ((⟨resolveId r.cacheId newId, chunk.2, entry.1⟩, chunk.1) : ChunkKey × KVPayload)) =
        (List.range' 0 entry.2.length).map fun index : Nat => (index : Int) := by
      rw [← List.zipIdx_map_snd, List.map_map]
      rfl
    rw [hindexes]
    exact List.Nodup.map (fun _ _ heq => Int.ofNat_inj.mp heq) (List.nodup_range' ..)
  · have hworkers := (normalizePayloads r.payloads).nodupKeys
    rw [List.NodupKeys, List.keys, List.Nodup, List.pairwise_map] at hworkers
    apply hworkers.imp
    intro entry entry' hne key hkey hkey'
    simp only [List.mem_map] at hkey hkey'
    obtain ⟨_, ⟨_, _, rfl⟩, rfl⟩ := hkey
    obtain ⟨_, ⟨_, _, rfl⟩, heq⟩ := hkey'
    exact hne (congrArg ChunkKey.workerId heq).symm

/-! ## Every reachable engine -/

variable {σ : Type} [StorageBackend σ]

/-- What each call of the engine on its store keeps. -/
structure Closed (P : σ → Prop) : Prop where
  put : ∀ store key obj pin, P store → P (KeyedStore.put store key obj pin).2
  get : ∀ store key, P store → P (KeyedStore.get store key).2
  remove : ∀ store key, P store → P (KeyedStore.remove store key).2
  pin : ∀ store key, P store → P (KeyedStore.pin store key)
  unpin : ∀ store key, P store → P (KeyedStore.unpin store key)

variable {P : σ → Prop}

omit [StorageBackend σ] in
theorem foldl_keeps (f : σ → ChunkKey → σ) (hf : ∀ store key, P store → P (f store key))
    (keys : List ChunkKey) {store : σ} (h : P store) : P (keys.foldl f store) := by
  induction keys generalizing store with
  | nil => exact h
  | cons key keys ih => exact ih (hf store key h)

theorem Closed.putChunks (hP : Closed P) (pin : Bool) (chunks : List Chunk) {store : σ}
    (h : P store) : P (putChunks pin chunks store).2 := by
  induction chunks generalizing store with
  | nil => exact h
  | cons chunk chunks ih =>
      have hput := hP.put store chunk.1 chunk.2 pin h
      simp only [ExplicitKVCache.putChunks]
      cases (KeyedStore.put store chunk.1 chunk.2 pin).1 with
      | error err => exact hput
      | ok _ => exact ih hput

theorem Closed.loadLoop (hP : Closed P) (cid : String) (worker : Int) (idxs : List Nat) {store : σ}
    (h : P store) : P (loadLoop cid worker idxs store).2 := by
  induction idxs generalizing store with
  | nil => exact h
  | cons idx idxs ih =>
      have hget := hP.get store ⟨cid, idx, worker⟩ h
      simp only [ExplicitKVCache.loadLoop]
      cases (KeyedStore.get store ⟨cid, idx, worker⟩).1 with
      | error err => exact hget
      | ok held =>
          cases held with
          | none => exact hget
          | some payload => exact ih hget

theorem Closed.delete (hP : Closed P) {s : ExplicitKVCache σ} (h : P s.store) (cid : String) :
    P (s.delete cid).store := by
  unfold ExplicitKVCache.delete
  cases s.descriptors.lookup cid with
  | none => exact h
  | some d => exact foldl_keeps _ hP.remove _ h

theorem Closed.foldl_delete (hP : Closed P) (ds : List CacheDescriptor) {s : ExplicitKVCache σ}
    (h : P s.store) : P (ds.foldl (fun s d => s.delete d.cacheId) s).store := by
  induction ds generalizing s with
  | nil => exact h
  | cons d ds ih => exact ih (hP.delete h d.cacheId)

theorem Closed.step (hP : Closed P) {blake2b : List UInt8 → String} {s : ExplicitKVCache σ}
    (h : P s.store) (op : EngineOp) : P (step blake2b s op).2.store := by
  have hchange : Descriptors.Change blake2b s op (ExplicitKVCache.step blake2b s op).1
      (ExplicitKVCache.step blake2b s op).2 := Descriptors.change_step s op
  generalize ExplicitKVCache.step blake2b s op = result at hchange ⊢
  obtain ⟨out, s'⟩ := result
  cases hchange with
  | unchanged => exact h
  | registered hend =>
      cases hend with
      | refused => exact h
      | full => exact hP.putChunks _ _ h
      | overflow => exact hP.putChunks _ _ h
      | published => exact hP.putChunks _ _ h
  | chunkPut => exact hP.put _ _ _ _ h
  | committed => exact h
  | deleted => exact hP.delete h _
  | swept => exact hP.foldl_delete _ h
  | touched => exact h
  | pinned => exact foldl_keeps _ hP.pin _ h
  | unpinned => exact foldl_keeps _ hP.unpin _ h
  | loaded => exact hP.loadLoop _ _ _ h

theorem Closed.run (hP : Closed P) {blake2b : List UInt8 → String} {s : ExplicitKVCache σ}
    (h : P s.store) (ops : List EngineOp) : P ((machine blake2b σ).exec s ops).store :=
  (machine blake2b σ).exec_induction (I := fun s => P s.store)
    (fun _ op hs _ => hP.step hs op) h ((machine blake2b σ).stepsMeet_true s ops)

theorem closed_accounted : Closed Accounted where
  put _ key obj pin h := accounted_step h (.put key obj pin)
  get _ key h := accounted_step h (.get key)
  remove _ key h := accounted_step h (.remove key)
  pin _ key h := accounted_step h (.pin key)
  unpin _ key h := accounted_step h (.unpin key)

theorem accounted_engine (blake2b : List UInt8 → String) {s : ExplicitKVCache CPUBackend}
    {capacity : Option Nat} (hempty : s.store = { capacityBytes := capacity })
    (ops : List EngineOp) : Accounted ((machine blake2b CPUBackend).exec s ops).store := by
  apply closed_accounted.run
  rw [hempty]
  exact accounted_empty capacity

end LlmCache.Engine.Batches
