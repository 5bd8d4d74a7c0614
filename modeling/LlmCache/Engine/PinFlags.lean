import LlmCache.Engine.Completeness
import LlmCache.Engine.Liveness

/-!
# The pin flag of a descriptor and the pins of the store

Pins are kept twice: as a flag in the descriptor, and chunk by chunk in the
store.  `pin` and `unpin` change both, and a put only ever adds a pin, so a
registration that does not pin takes over the pins that it finds.
-/

namespace LlmCache.Engine.PinFlags

open Errors Lib Payload LlmCache.Types Store ExplicitKVCache Descriptors Chunks Prefix Effects
  Unbounded Completeness Liveness

open LosslessStore (view)

variable {blake2b : List UInt8 → String} {store : UnboundedCPU} {k : ChunkKey}

/-! ## The loops and the pinned set -/

theorem mem_pinned_putChunks (pin : Bool) (puts : List (ChunkKey × KVPayload))
    (store : UnboundedCPU) :
    k ∈ (putChunks pin puts store).2.1.pinned ↔
      k ∈ store.1.pinned ∨ pin = true ∧ k ∈ puts.map Prod.fst := by
  induction puts generalizing store with
  | nil => simp [putChunks]
  | cons chunk rest ih =>
      have hput : (KeyedStore.put store chunk.1 chunk.2 pin).2.1.pinned =
          if pin then insert chunk.1 store.1.pinned else store.1.pinned :=
        CPUBackend.pinned_put_of_ok CPUBackend.receives_noCallback
          (LosslessStore.put_ok store chunk.1 chunk.2 pin)
      rw [snd_putChunks_cons, ih, hput, List.map_cons, List.mem_cons]
      cases pin with
      | false => simp
      | true =>
          rw [if_pos rfl, Finset.mem_insert]
          tauto

theorem mem_pinned_removeAll {keys : List ChunkKey} (hk : k ∉ keys) (store : UnboundedCPU) :
    k ∈ (removeAll store keys).1.pinned ↔ k ∈ store.1.pinned := by
  unfold removeAll
  induction keys generalizing store with
  | nil => rfl
  | cons key keys ih =>
      rw [List.mem_cons, not_or] at hk
      exact (ih hk.2 _).trans (store.1.mem_pinned_remove hk.1)

theorem mem_pinned_foldl_pin (keys : List ChunkKey) (store : UnboundedCPU) :
    k ∈ (keys.foldl KeyedStore.pin store).1.pinned ↔
      k ∈ store.1.pinned ∨ k ∈ keys ∧ (view store k).isSome := by
  induction keys generalizing store with
  | nil => simp
  | cons key keys ih =>
      have hpin : k ∈ (KeyedStore.pin store key).1.pinned ↔
          k ∈ store.1.pinned ∨ k = key ∧ (view store key).isSome :=
        store.1.mem_pinned_pin key k
      rw [List.foldl_cons, ih, hpin, LosslessStore.view_pin, List.mem_cons]
      by_cases hk : k = key
      · subst hk
        tauto
      · tauto

theorem mem_pinned_foldl_unpin (keys : List ChunkKey) (store : UnboundedCPU) :
    k ∈ (keys.foldl KeyedStore.unpin store).1.pinned ↔ k ∈ store.1.pinned ∧ k ∉ keys := by
  induction keys generalizing store with
  | nil => simp
  | cons key keys ih =>
      have hunpin : (KeyedStore.unpin store key).1.pinned = store.1.pinned.erase key := rfl
      rw [List.foldl_cons, ih, hunpin, Finset.mem_erase, List.mem_cons]
      tauto

theorem pinned_loadLoop (cid : String) (worker : Int) (idxs : List Nat) (store : UnboundedCPU) :
    (loadLoop cid worker idxs store).2.1.pinned = store.1.pinned :=
  loadLoop_frame (f := fun s : UnboundedCPU => s.1.pinned) (fun s key => s.1.pinned_get key) cid
    worker idxs store

theorem mem_pinned_delete_other (s : ExplicitKVCache UnboundedCPU) {cid : String}
    (hk : k.cacheId ≠ cid) : k ∈ (s.delete cid).store.1.pinned ↔ k ∈ s.store.1.pinned := by
  unfold ExplicitKVCache.delete
  cases s.descriptors.lookup cid with
  | none => rfl
  | some d => exact mem_pinned_removeAll (fun hmem => hk (cacheId_of_mem_chunkKeys hmem)) s.store

theorem mem_pinned_foldl_delete_other {ds : List CacheDescriptor}
    (hk : k.cacheId ∉ ds.map CacheDescriptor.cacheId) (s : ExplicitKVCache UnboundedCPU) :
    k ∈ (ds.foldl (fun s d => s.delete d.cacheId) s).store.1.pinned ↔ k ∈ s.store.1.pinned := by
  induction ds generalizing s with
  | nil => rfl
  | cons d ds ih =>
      rw [List.map_cons, List.mem_cons, not_or] at hk
      exact (ih hk.2 _).trans (mem_pinned_delete_other s hk.1)

/-- A call on a live cache does to the pin of each stored chunk what it does to
the flag. -/
theorem mem_pinned_visited {op : EngineOp} {cid : String} {clock : Time} {d : CacheDescriptor}
    (htests : tests op = some (cid, clock))
    (hstored : k ∈ chunkKeys cid d → (view store k).isSome) :
    k ∈ (visited d op store).1.pinned ↔
      if k ∈ chunkKeys cid d then flagged op (decide (k ∈ store.1.pinned)) = true
      else k ∈ store.1.pinned := by
  cases tests_cases htests with
  | pin =>
      simp only [visited, mem_pinned_foldl_pin, flagged]
      split_ifs with hmem
      · simp [hmem, hstored hmem]
      · simp [hmem]
  | unpin =>
      simp only [visited, mem_pinned_foldl_unpin, flagged]
      split_ifs with hmem <;> simp [hmem]
  | load =>
      simp only [visited, pinned_loadLoop, flagged]
      simp
  | get => simp [visited, flagged]
  | «exists» => simp [visited, flagged]
  | lookup => simp [visited, flagged]
  | extendTtl => simp [visited, flagged]

/-! ## Agreement -/

/-- The pin flag of every held descriptor is that of each of its chunks. -/
def FlagsAgree (s : ExplicitKVCache UnboundedCPU) : Prop :=
  ∀ cid d, s.descriptors.lookup cid = some d →
    ∀ key ∈ chunkKeys cid d, key ∈ s.store.1.pinned ↔ d.pinned = true

/-- The condition on a step: a registration that does not pin puts no chunk
under a pinned key. -/
def FindsUnpinned (s : ExplicitKVCache UnboundedCPU) : EngineOp → Prop
  | .register r newId _ => r.pin = false →
      ∀ key ∈ (putsOf r newId).map Prod.fst, key ∉ s.store.1.pinned
  | _ => True

instance (s : ExplicitKVCache UnboundedCPU) (op : EngineOp) : Decidable (FindsUnpinned s op) :=
  match op with
  | .register .. => inferInstanceAs (Decidable (_ → ∀ _ ∈ _, _))
  | .putChunk .. | .commit .. | .get .. | .exists .. | .lookup .. | .load .. | .delete ..
  | .extendTtl .. | .pin .. | .unpin .. | .list .. | .sweepExpired .. =>
      inferInstanceAs (Decidable True)

theorem flagsAgree_register_iff {s : ExplicitKVCache UnboundedCPU} (h : FlagsAgree s)
    {r : Registration} {newId : String} {now : Time}
    (hreturns : Returns blake2b s (.register r newId now)) :
    FlagsAgree (step blake2b s (.register r newId now)).2 ↔
      FindsUnpinned s (.register r newId now) := by
  obtain ⟨d, hstep, hmade, hpinned, _⟩ := register_of_returns hreturns
  have hlookup : ∀ k, ((stored s r newId).publish (resolveId r.cacheId newId)
      d).descriptors.lookup k = if k = resolveId r.cacheId newId then some d
      else s.descriptors.lookup k := fun k => OrderedDict.lookup_setItem ..
  have hpins : ∀ key, key ∈ (stored s r newId).store.1.pinned ↔
      key ∈ s.store.1.pinned ∨ r.pin = true ∧ key ∈ (putsOf r newId).map Prod.fst := fun key =>
    mem_pinned_putChunks r.pin (putsOf r newId) s.store
  rw [hstep]
  constructor
  · intro hagree hpin key hkey hbefore
    rw [mem_keys_putsOf_iff, ← mem_chunkKeys_of_made hmade] at hkey
    have hflag : d.pinned = true :=
      (hagree _ d ((hlookup _).trans (if_pos rfl)) key hkey).mp ((hpins key).mpr (.inl hbefore))
    rw [hpinned, hpin] at hflag
    cases hflag
  · intro hfree k d' hd' key hkey
    rw [hlookup] at hd'
    change key ∈ (stored s r newId).store.1.pinned ↔ _
    rw [hpins]
    split_ifs at hd' with hk
    · obtain rfl := Option.some.inj hd'
      have hput : key ∈ (putsOf r newId).map Prod.fst := by
        rw [mem_keys_putsOf_iff, ← mem_chunkKeys_of_made hmade, ← hk]
        exact hkey
      rw [hpinned]
      constructor
      · rintro (hbefore | ⟨hpin, _⟩)
        · by_contra hpin
          exact hfree (Bool.not_eq_true _ ▸ hpin) key hput hbefore
        · exact hpin
      · exact fun hpin => .inr ⟨hpin, hput⟩
    · have hput : key ∉ (putsOf r newId).map Prod.fst := by
        rw [mem_keys_putsOf_iff]
        rintro ⟨obj, hobj⟩
        exact hk ((cacheId_of_mem_chunkKeys hkey).symm.trans (cacheId_of_mem_putsOf hobj))
      rw [or_iff_left fun hright => hput hright.2]
      exact h k d' hd' key hkey

theorem flagsAgree_of_kept {s s' : ExplicitKVCache UnboundedCPU} (h : FlagsAgree s)
    (hkept : ∀ cid d, s'.descriptors.lookup cid = some d → s.descriptors.lookup cid = some d ∧
      ∀ key, key.cacheId = cid → (key ∈ s'.store.1.pinned ↔ key ∈ s.store.1.pinned)) :
    FlagsAgree s' := by
  intro cid d hd key hkey
  obtain ⟨hbefore, hpins⟩ := hkept cid d hd
  rw [hpins key (cacheId_of_mem_chunkKeys hkey)]
  exact h cid d hbefore key hkey

theorem flagsAgree_delete {s : ExplicitKVCache UnboundedCPU} (h : FlagsAgree s) (cid : String) :
    FlagsAgree (s.delete cid) := by
  apply flagsAgree_of_kept h
  intro k d hd
  rw [lookup_delete] at hd
  split_ifs at hd with hk
  refine ⟨hd, ?_⟩
  rintro key rfl
  exact mem_pinned_delete_other s hk

theorem flagsAgree_foldl_delete {s : ExplicitKVCache UnboundedCPU} (h : FlagsAgree s)
    (ds : List CacheDescriptor) : FlagsAgree (ds.foldl (fun s d => s.delete d.cacheId) s) := by
  apply flagsAgree_of_kept h
  intro k d hd
  rw [lookup_foldl_delete] at hd
  split_ifs at hd with hk
  refine ⟨hd, ?_⟩
  rintro key rfl
  exact mem_pinned_foldl_delete_other hk s

theorem flagsAgree_visit {P : String → Registration → Prop} {s s' : ExplicitKVCache UnboundedCPU}
    (h : FlagsAgree s) (hinv : Complete blake2b P s) {op : EngineOp} {cid : String}
    {d d' : CacheDescriptor} (hd : FindsLive s op cid d) (hvisit : Visit s op cid d d' s') :
    FlagsAgree s' := by
  obtain ⟨hd, clock, htests, _⟩ := hd
  intro k e he key hkey
  rw [hvisit.lookup] at he
  rw [hvisit.store, mem_pinned_visited htests (hinv.isSome hd)]
  split_ifs at he with hk
  · obtain rfl := Option.some.inj he
    subst hk
    rw [chunkKeys_of_same hvisit.same] at hkey
    have hflag : decide (key ∈ s.store.1.pinned) = d.pinned := by
      rw [Bool.eq_iff_iff, decide_eq_true_iff]
      exact h k d hd key hkey
    rw [if_pos hkey, hflag, hvisit.pinned]
  · have hother : key ∉ chunkKeys cid d := fun hmem =>
      hk ((cacheId_of_mem_chunkKeys hkey).symm.trans (cacheId_of_mem_chunkKeys hmem))
    rw [if_neg hother]
    exact h k e he key hkey

theorem flagsAgree_tests {P : String → Registration → Prop} {s : ExplicitKVCache UnboundedCPU}
    (h : FlagsAgree s) (hinv : Complete blake2b P s) {op : EngineOp} {cid : String} {clock : Time}
    (htests : tests op = some (cid, clock)) : FlagsAgree (step blake2b s op).2 := by
  cases hd : s.descriptors.lookup cid with
  | none =>
      rw [step_of_absent htests hd]
      exact h
  | some d =>
      cases hexpired : d.isExpired none clock with
      | true =>
          rw [step_of_expired htests hd hexpired]
          exact flagsAgree_delete h cid
      | false =>
          have hlive : FindsLive s op cid d := ⟨hd, clock, htests, hexpired⟩
          obtain ⟨d', hvisit⟩ := step_of_live hlive
          exact flagsAgree_visit h hinv hlive hvisit

theorem flagsAgree_step_iff {P : String → Registration → Prop} {s : ExplicitKVCache UnboundedCPU}
    (h : FlagsAgree s) (hinv : Complete blake2b P s) {op : EngineOp}
    (hreturns : Returns blake2b s op) :
    FlagsAgree (step blake2b s op).2 ↔ FindsUnpinned s op := by
  cases kind op with
  | registers => exact flagsAgree_register_iff h hreturns
  | puts => exact hreturns.elim
  | commits => exact hreturns.elim
  | deletes cid => exact iff_of_true (flagsAgree_delete h cid) trivial
  | tests cid clock htests =>
      have hfree : FindsUnpinned s op := by cases tests_cases htests <;> trivial
      exact iff_of_true (flagsAgree_tests h hinv htests) hfree
  | sweeps now again hsweeps =>
      have hfree : FindsUnpinned s op := by cases op <;> trivial
      rw [step_of_sweep hsweeps]
      exact iff_of_true (flagsAgree_foldl_delete h _) hfree

/-- In a run from an engine without descriptors whose registrations return,
flags and pins agree all along exactly when no registration without a pin puts
a chunk under a pinned key. -/
theorem flags_agree_run (s : ExplicitKVCache UnboundedCPU) (hempty : s.descriptors = ∅)
    (ops : List EngineOp)
    (hrun : (machine blake2b UnboundedCPU).StepsMeet (Returns blake2b) s ops) :
    (machine blake2b UnboundedCPU).Always FlagsAgree s ops ↔
      (machine blake2b UnboundedCPU).StepsMeet FindsUnpinned s ops := by
  apply (machine blake2b UnboundedCPU).always_iff_stepsMeet (J := Complete blake2b fun _ _ => True)
  · intro s op hinv hreturns
    exact complete_step hinv hreturns (fun _ _ _ _ => trivial) fun _ _ _ => trivial
  · exact fun s op hinv hreturns h => flagsAgree_step_iff h hinv hreturns
  · exact complete_of_empty hempty _
  · intro cid d hd
    simp [hempty] at hd
  · exact hrun

/-- An id registered pinned, unpinned, and registered again without a pin. -/
theorem flags_agree_run_unpinned :
    let first : Registration := ⟨[1, 2, 3], .sequence [.ofBytes [7], .ofBytes [8]], some "c",
      none, true, none⟩
    let second : Registration := { first with pin := false }
    let ops : List EngineOp :=
      [.register first "new" 0, .unpin "c" 1, .register second "new" 2, .pin "c" 3]
    let start : ExplicitKVCache UnboundedCPU := ⟨.empty, 2, by decide, none, ∅⟩
    (machine sampleDigest UnboundedCPU).Always FlagsAgree start ops := by
  intro first second ops start
  have hrun : (machine sampleDigest UnboundedCPU).StepsMeet (Returns sampleDigest) start ops := by
    decide +kernel
  have hfree : (machine sampleDigest UnboundedCPU).StepsMeet FindsUnpinned start ops := by
    decide +kernel
  exact (flags_agree_run start rfl ops hrun).mpr hfree

/-- A pinned id registered again without a pin keeps the pins of its chunks. -/
theorem unpinned_register_keeps_pins :
    let first : Registration := ⟨[1], .sequence [.ofBytes [7]], some "c", none, true, none⟩
    let second : Registration := { first with pin := false }
    let ops : List EngineOp := [.register first "new" 0, .register second "new" 1]
    let start : ExplicitKVCache UnboundedCPU := ⟨.empty, 2, by decide, none, ∅⟩
    (machine sampleDigest UnboundedCPU).NeverRaises start ops ∧
      ¬FlagsAgree ((machine sampleDigest UnboundedCPU).exec start ops) := by
  intro first second ops start
  refine ⟨by decide +kernel, ?_⟩
  have hshown : ∃ d ∈ ((machine sampleDigest UnboundedCPU).exec start ops).descriptors.lookup "c",
      d.pinned = false ∧ (⟨"c", 0, 0⟩ : ChunkKey) ∈ chunkKeys "c" d := by
    decide +kernel
  have hpinned : (⟨"c", 0, 0⟩ : ChunkKey) ∈
      ((machine sampleDigest UnboundedCPU).exec start ops).store.1.pinned := by
    decide +kernel
  generalize (machine sampleDigest UnboundedCPU).exec start ops = s at hshown hpinned
  obtain ⟨d, hd, hflag, hkey⟩ := hshown
  intro h
  have hagree := (h "c" d hd _ hkey).mp hpinned
  rw [hflag] at hagree
  cases hagree

end LlmCache.Engine.PinFlags
