import LlmCache.Store.CPU

/-!
# What holds of the in-memory store in every run

The byte count is that of the resident objects and stays within the capacity; a
pinned object stays, whatever is put under other keys.  A pin goes with its
object, unless a put drops the object of a pinned key and then raises.
-/

namespace LlmCache.Store.CPUInvariants

open Errors Lib Payload LlmCache.Types CPUBackend

/-- The backend as its clients see it. -/
abbrev cpu : Machine CPUBackend (KeyedStore.Op ChunkKey KVPayload) Raised
    (KeyedStore.Reply KVPayload) :=
  KeyedStore.machine CPUBackend

/-! ## Byte accounting -/

/-- The bytes of all resident objects. -/
def residentBytes (s : CPUBackend) : Nat :=
  ((OrderedDict.values s.data).map KVPayload.nbytes).sum

/-- The keys are distinct, the byte count is right and the capacity is kept. -/
structure Accounted (s : CPUBackend) : Prop where
  keys_nodup : s.keys.Nodup
  used_eq : s.used = residentBytes s
  used_le : ∀ capacity ∈ s.capacityBytes, s.used ≤ capacity

theorem nodup_keys (s : CPUBackend) : s.keys.Nodup := s.data.nodupKeys

theorem residentBytes_evict {s : CPUBackend} {key : ChunkKey} {victim : KVPayload}
    (h : s.data.lookup key = some victim) :
    residentBytes s = victim.nbytes + residentBytes (s.evict key victim) := by
  have hperm := (OrderedDict.values_perm_erase h).map KVPayload.nbytes
  calc
    residentBytes s
        = ((victim :: OrderedDict.values (s.data.erase key)).map KVPayload.nbytes).sum :=
      hperm.sum_eq
    _ = victim.nbytes + residentBytes (s.evict key victim) := by
      rw [List.map_cons, List.sum_cons]
      rfl

theorem Accounted.evict {s : CPUBackend} (h : Accounted s) {key : ChunkKey} {victim : KVPayload}
    (hvictim : s.data.lookup key = some victim) : Accounted (s.evict key victim) where
  keys_nodup := nodup_keys _
  used_eq := by
    have hused := h.used_eq
    have hbytes := residentBytes_evict hvictim
    simp only [CPUBackend.evict] at hbytes ⊢
    omega
  used_le := by
    intro capacity hcapacity
    have hle := h.used_le capacity hcapacity
    simp only [CPUBackend.evict]
    omega

theorem Accounted.dropOld {s : CPUBackend} (h : Accounted s) (key : ChunkKey) :
    Accounted (s.dropOld key) := by
  unfold CPUBackend.dropOld
  cases hold : s.data.lookup key with
  | none => exact h
  | some old => exact h.evict hold

section Room

variable {τ : Type} {onEvict : EvictCallback τ}

theorem Accounted.evictLoop {s : CPUBackend} (h : Accounted s) (capacity incoming : Nat)
    (protect : ChunkKey) (keys : List ChunkKey) (t : τ) :
    Accounted (evictLoop onEvict capacity incoming protect keys s t).hot := by
  induction keys generalizing s t with
  | nil => exact h
  | cons key rest ih =>
      simp only [CPUBackend.evictLoop]
      split_ifs
      · exact h
      · exact ih h t
      · cases hvictim : s.data.lookup key with
        | none => exact ih h t
        | some victim =>
            have hevict := h.evict hvictim
            simp only
            rcases onEvict key victim t with ⟨err | _, t'⟩
            · exact hevict
            · exact ih hevict t'

theorem Accounted.ensureRoom {s : CPUBackend} (h : Accounted s) (t : τ) (incoming : Nat)
    (protect : ChunkKey) : Accounted (s.ensureRoom onEvict t incoming protect).hot := by
  unfold CPUBackend.ensureRoom
  cases s.capacityBytes with
  | none => exact h
  | some capacity =>
      have hloop : Accounted
          (CPUBackend.evictLoop onEvict capacity incoming protect s.data.keys s t).hot :=
        h.evictLoop capacity incoming protect s.data.keys t
      simp only
      by_cases hbig : capacity < incoming ∧ s.pinned = ∅
      · rw [if_pos hbig]
        exact h
      · rw [if_neg hbig]
        generalize CPUBackend.evictLoop onEvict capacity incoming protect s.data.keys s t = room
          at hloop ⊢
        rcases room with ⟨err | _, hot, lower⟩
        · exact hloop
        · simp only
          split_ifs <;> exact hloop

theorem ensureRoom_fits {s : CPUBackend} {t : τ} {incoming : Nat} {protect : ChunkKey}
    {capacity : Nat} (hcapacity : s.capacityBytes = some capacity)
    (hok : (s.ensureRoom onEvict t incoming protect).result = .ok ()) :
    (s.ensureRoom onEvict t incoming protect).hot.used + incoming ≤ capacity := by
  unfold CPUBackend.ensureRoom at hok ⊢
  simp only [hcapacity] at hok ⊢
  by_cases hbig : capacity < incoming ∧ s.pinned = ∅
  · rw [if_pos hbig] at hok
    cases hok
  · rw [if_neg hbig] at hok ⊢
    generalize CPUBackend.evictLoop onEvict capacity incoming protect s.data.keys s t = room
      at hok ⊢
    rcases room with ⟨err | _, hot, lower⟩
    · cases hok
    · by_cases hfull : (capacity : Int) < hot.used + incoming
      · simp [hfull] at hok
      · simp only [if_neg hfull]
        omega

end Room

theorem Accounted.store {s : CPUBackend} (h : Accounted s) {key : ChunkKey} (hkey : key ∉ s.data)
    {obj : KVPayload} (pin : Bool)
    (hfits : ∀ capacity ∈ s.capacityBytes, s.used + obj.nbytes ≤ capacity) :
    Accounted (s.store key obj pin) where
  keys_nodup := nodup_keys _
  used_eq := by
    have hperm : (OrderedDict.values (s.store key obj pin).data).Perm
        (obj :: OrderedDict.values s.data) := by
      apply (OrderedDict.values_moveToEnd_perm ..).trans
      rw [OrderedDict.values_setItem_of_notMem hkey]
      exact List.perm_append_singleton ..
    have hsum : residentBytes (s.store key obj pin) = obj.nbytes + residentBytes s :=
      (hperm.map KVPayload.nbytes).sum_eq.trans List.sum_cons
    have hused := h.used_eq
    rw [hsum]
    simp only [CPUBackend.store]
    omega
  used_le := hfits

theorem Accounted.put {τ : Type} {onEvict : EvictCallback τ} {s : CPUBackend} (h : Accounted s)
    (t : τ) (key : ChunkKey) (obj : KVPayload) (pin : Bool) :
    Accounted (s.put onEvict t key obj pin).hot := by
  have hroom : Accounted ((s.dropOld key).ensureRoom onEvict t obj.nbytes key).hot :=
    (h.dropOld key).ensureRoom t obj.nbytes key
  rcases put_cases onEvict s t key obj pin with ⟨hok, hhot, _⟩ | ⟨_, _, hhot, _⟩
  · rw [hhot]
    have hresult : ((s.dropOld key).ensureRoom onEvict t obj.nbytes key).result = .ok () := by
      unfold CPUBackend.put at hok
      rcases hroom' : (s.dropOld key).ensureRoom onEvict t obj.nbytes key with
        ⟨_ | _, hot, lower⟩
      · simp [hroom'] at hok
      · rfl
    apply hroom.store
    · rw [mem_data_iff, ensureRoom_protects, resident_dropOld, if_pos rfl]
      exact Bool.false_ne_true
    · intro capacity hcapacity
      rw [capacityBytes_ensureRoom] at hcapacity
      exact ensureRoom_fits hcapacity hresult
  · rw [hhot]
    exact hroom

theorem Accounted.get {s : CPUBackend} (h : Accounted s) (key : ChunkKey) :
    Accounted (s.get key).2 := by
  unfold CPUBackend.get
  cases hobj : s.data.lookup key with
  | none => exact h
  | some obj =>
      refine ⟨nodup_keys _, ?_, h.used_le⟩
      have hperm := (OrderedDict.values_moveToEnd_perm s.data key).map KVPayload.nbytes
      rw [residentBytes, hperm.sum_eq]
      exact h.used_eq

theorem Accounted.remove {s : CPUBackend} (h : Accounted s) (key : ChunkKey) :
    Accounted (s.remove key).2 := by
  unfold CPUBackend.remove
  cases hobj : s.data.lookup key with
  | none => exact h
  | some obj =>
      have hevict := h.evict hobj
      exact ⟨nodup_keys _, hevict.used_eq, hevict.used_le⟩

theorem Accounted.pin {s : CPUBackend} (h : Accounted s) (key : ChunkKey) :
    Accounted (s.pin key) := by
  unfold CPUBackend.pin
  split_ifs
  · exact ⟨nodup_keys _, h.used_eq, h.used_le⟩
  · exact h

theorem Accounted.foldl_remove {s : CPUBackend} (h : Accounted s) (keys : List ChunkKey) :
    Accounted (keys.foldl (fun s key => (KeyedStore.remove s key).2) s) := by
  induction keys generalizing s with
  | nil => exact h
  | cons key keys ih => exact ih (h.remove key)

theorem accounted_step {s : CPUBackend} (h : Accounted s) (op : KeyedStore.Op ChunkKey KVPayload) :
    Accounted (cpu.step s op).2 := by
  cases op with
  | put key obj pin => exact h.put () key obj pin
  | get key => exact h.get key
  | contains key => exact h
  | remove key => exact h.remove key
  | pin key => exact h.pin key
  | unpin key => exact ⟨nodup_keys _, h.used_eq, h.used_le⟩
  | clear => exact h.foldl_remove _

theorem accounted_empty (capacity : Option Nat) : Accounted { capacityBytes := capacity } := by
  refine ⟨nodup_keys _, rfl, fun capacity _ => ?_⟩
  exact Int.natCast_nonneg capacity

theorem accounted_exec {s : CPUBackend} (h : Accounted s)
    (ops : List (KeyedStore.Op ChunkKey KVPayload)) : Accounted (cpu.exec s ops) :=
  cpu.exec_induction (I := Accounted) (fun _ op hs _ => accounted_step hs op) h
    (cpu.stepsMeet_true _ ops)

/-- In every run from an empty backend the byte count is right and within the
capacity. -/
theorem accounted_run (capacity : Option Nat) (ops : List (KeyedStore.Op ChunkKey KVPayload)) :
    Accounted (cpu.exec { capacityBytes := capacity } ops) :=
  accounted_exec (accounted_empty capacity) ops

/-! ## Pinned objects -/

/-- The calls that may take a pinned object away from a key. -/
def Releases (k : ChunkKey) : KeyedStore.Op ChunkKey KVPayload → Prop
  | .put key .. | .remove key | .unpin key => key = k
  | .clear => True
  | .get _ | .contains _ | .pin _ => False

instance (k : ChunkKey) : DecidablePred (Releases k) := fun op =>
  match op with
  | .put key .. | .remove key | .unpin key => inferInstanceAs (Decidable (key = k))
  | .clear => .isTrue trivial
  | .get _ | .contains _ | .pin _ => .isFalse id

theorem pinned_step {s : CPUBackend} {k : ChunkKey} {held : KVPayload}
    (h : s.resident k = some held ∧ k ∈ s.pinned) {op : KeyedStore.Op ChunkKey KVPayload}
    (hop : ¬Releases k op) :
    (cpu.step s op).2.resident k = some held ∧ k ∈ (cpu.step s op).2.pinned := by
  obtain ⟨hres, hpin⟩ := h
  cases op with
  | put key obj pin =>
      have hk : k ≠ key := Ne.symm hop
      have heffect := put_effect_other receives_noCallback s () obj pin hk
      have hkept := (heffect.of_spared hpin).1
      exact ⟨hkept.trans hres, mem_pinned_put receives_noCallback s () key obj pin hpin⟩
  | get key => exact ⟨(s.resident_get key k).trans hres, (s.pinned_get key).symm ▸ hpin⟩
  | contains key => exact ⟨hres, hpin⟩
  | remove key =>
      have hk : k ≠ key := Ne.symm hop
      have hkept := (s.resident_remove key k).trans (if_neg hk)
      exact ⟨hkept.trans hres, (s.mem_pinned_remove hk).mpr hpin⟩
  | pin key => exact ⟨(s.resident_pin key k).trans hres, (s.mem_pinned_pin key k).mpr (.inl hpin)⟩
  | unpin key => exact ⟨hres, (s.mem_pinned_unpin (Ne.symm hop)).mpr hpin⟩
  | clear => exact absurd trivial hop

/-- A pinned object stays, and stays pinned, in every run that does not put,
remove or unpin its key and does not clear the backend. -/
theorem pinned_run (s : CPUBackend) (k : ChunkKey) (held : KVPayload)
    (hres : s.resident k = some held) (hpin : k ∈ s.pinned)
    (ops : List (KeyedStore.Op ChunkKey KVPayload)) (hops : ∀ op ∈ ops, ¬Releases k op) :
    (cpu.exec s ops).resident k = some held ∧ k ∈ (cpu.exec s ops).pinned := by
  induction ops generalizing s with
  | nil => exact ⟨hres, hpin⟩
  | cons op ops ih =>
      obtain ⟨hres', hpin'⟩ := pinned_step ⟨hres, hpin⟩ (hops op (List.mem_cons_self ..))
      exact ih _ hres' hpin' fun op' hop' => hops op' (List.mem_cons_of_mem _ hop')

/-- A pinned byte under a capacity of two, while three other keys are put. -/
theorem pinned_run_pressure :
    let k : ChunkKey := ⟨"c", 0, 0⟩
    let ops : List (KeyedStore.Op ChunkKey KVPayload) :=
      [.put ⟨"d", 0, 0⟩ (.ofBytes [1]) false, .put ⟨"d", 1, 0⟩ (.ofBytes [2]) false,
        .put ⟨"d", 2, 0⟩ (.ofBytes [3, 4]) true]
    let s := cpu.exec { capacityBytes := some 2 } [.put k (.ofBytes [7]) true]
    (cpu.exec s ops).resident k = some (.ofBytes [7]) ∧ k ∈ (cpu.exec s ops).pinned := by
  intro k ops s
  exact pinned_run s k (.ofBytes [7]) (by decide +kernel) (by decide +kernel) ops
    (by decide +kernel)

/-! ## Pins and their objects -/

/-- Every pin is that of a resident object.  So the count of pinned objects
counts resident ones, and an object that is put without a pin under a key that
is not resident can be evicted. -/
structure PinsResident (s : CPUBackend) : Prop where
  resident : ∀ key ∈ s.pinned, (s.resident key).isSome
  counted : s.stats.pinnedObjects = (s.keys.filter fun key => key ∈ s.pinned).length
  evictable : ∀ key obj, s.resident key = none →
    (KeyedStore.put s key obj false).1 = .ok () →
      ((KeyedStore.put s key obj false).2.resident key).isSome ∧
        key ∉ (KeyedStore.put s key obj false).2.pinned

theorem pinsResident_iff (s : CPUBackend) :
    PinsResident s ↔ ∀ key ∈ s.pinned, (s.resident key).isSome := by
  refine ⟨PinsResident.resident, fun h => ⟨h, ?_, ?_⟩⟩
  · have hset : (s.keys.filter fun key => key ∈ s.pinned).toFinset = s.pinned := by
      ext key
      simp only [List.mem_toFinset, List.mem_filter, mem_keys_iff, decide_eq_true_eq]
      exact ⟨And.right, fun hpin => ⟨h key hpin, hpin⟩⟩
    have hnodup : (s.keys.filter fun key => key ∈ s.pinned).Nodup := (nodup_keys s).filter _
    rw [← List.toFinset_card_of_nodup hnodup, hset]
    rfl
  · intro key obj hnone hok
    have hpinned : (KeyedStore.put s key obj false).2.pinned = s.pinned :=
      pinned_put_of_ok receives_noCallback hok
    have hres : (KeyedStore.put s key obj false).2.resident key = some obj := put_self_of_ok hok
    refine ⟨by rw [hres]; rfl, fun hpin => ?_⟩
    rw [hpinned] at hpin
    have hsome := h key hpin
    rw [hnone] at hsome
    cases hsome

/-- The condition on a step: a put under a pinned key finds room. -/
def PutFits (s : CPUBackend) : KeyedStore.Op ChunkKey KVPayload → Prop
  | .put key obj _ => key ∈ s.pinned → ¬(s.dropOld key).NoRoom key obj.nbytes
  | _ => True

theorem pinsResident_put_iff {s : CPUBackend} (h : PinsResident s) (key : ChunkKey)
    (obj : KVPayload) (pin : Bool) :
    PinsResident (s.put noCallback () key obj pin).hot ↔ PutFits s (.put key obj pin) := by
  have hraises := put_raises_iff receives_noCallback s () key obj pin
  -- other keys keep their object while they are pinned
  have hother : ∀ k, k ≠ key → k ∈ s.pinned →
      ((s.put noCallback () key obj pin).hot.resident k).isSome := by
    intro k hk hpin
    have heffect := put_effect_other receives_noCallback s () obj pin hk
    rw [(heffect.of_spared hpin).1]
    exact h.resident k hpin
  rw [pinsResident_iff]
  rcases put_cases noCallback s () key obj pin with ⟨hok, _, _⟩ | ⟨err, herr, _, _⟩
  · have hnoRoom : ¬(s.dropOld key).NoRoom key obj.nbytes := by
      rw [← hraises]
      rintro ⟨err, herr⟩
      rw [hok] at herr
      cases herr
    refine iff_of_true ?_ fun _ => hnoRoom
    intro k hpin
    by_cases hk : k = key
    · rw [hk, put_self_of_ok hok]
      rfl
    · rw [pinned_put_of_ok receives_noCallback hok] at hpin
      apply hother k hk
      split_ifs at hpin
      · exact (Finset.mem_insert.mp hpin).resolve_left hk
      · exact hpin
  · have hnoRoom : (s.dropOld key).NoRoom key obj.nbytes := hraises.mp ⟨err, herr⟩
    rw [pinned_put_of_error receives_noCallback herr]
    constructor
    · intro hall hpin
      have hsome := hall key hpin
      rw [put_self_of_error receives_noCallback herr] at hsome
      cases hsome
    · intro hfits k hpin
      have hk : k ≠ key := by
        rintro rfl
        exact hfits hpin hnoRoom
      exact hother k hk hpin

theorem pinsResident_remove {s : CPUBackend} (h : PinsResident s) (key : ChunkKey) :
    PinsResident (s.remove key).2 := by
  rw [pinsResident_iff]
  intro k hpin
  by_cases hk : k = key
  · exfalso
    subst hk
    unfold CPUBackend.remove at hpin
    cases hobj : s.data.lookup k with
    | none =>
        rw [hobj] at hpin
        have hsome := h.resident k hpin
        rw [CPUBackend.resident, hobj] at hsome
        cases hsome
    | some obj => simp [hobj] at hpin
  · rw [resident_remove, if_neg hk]
    exact h.resident k ((s.mem_pinned_remove hk).mp hpin)

theorem pinsResident_step_iff {s : CPUBackend} (h : PinsResident s)
    (op : KeyedStore.Op ChunkKey KVPayload) :
    PinsResident (cpu.step s op).2 ↔ PutFits s op := by
  cases op with
  | put key obj pin => exact pinsResident_put_iff h key obj pin
  | get key =>
      refine iff_of_true ((pinsResident_iff _).mpr fun k hpin => ?_) trivial
      have hres : (cpu.step s (.get key)).2.resident k = s.resident k := s.resident_get key k
      have hpinned : (cpu.step s (.get key)).2.pinned = s.pinned := s.pinned_get key
      rw [hpinned] at hpin
      rw [hres]
      exact h.resident k hpin
  | contains key => exact iff_of_true h trivial
  | remove key => exact iff_of_true (pinsResident_remove h key) trivial
  | pin key =>
      refine iff_of_true ((pinsResident_iff _).mpr fun k hpin => ?_) trivial
      have hres : (cpu.step s (.pin key)).2.resident k = s.resident k := s.resident_pin key k
      rw [hres]
      rcases (s.mem_pinned_pin key k).mp hpin with hbefore | ⟨rfl, hsome⟩
      · exact h.resident k hbefore
      · exact hsome
  | unpin key =>
      refine iff_of_true ((pinsResident_iff _).mpr fun k hpin => ?_) trivial
      exact h.resident k (Finset.mem_of_mem_erase hpin)
  | clear =>
      refine iff_of_true ?_ trivial
      have hall : ∀ (keys : List ChunkKey) {s : CPUBackend}, PinsResident s →
          PinsResident (keys.foldl (fun s key => (KeyedStore.remove s key).2) s) := by
        intro keys
        induction keys with
        | nil => exact fun h => h
        | cons key keys ih => exact fun h => ih (pinsResident_remove h key)
      exact hall _ h

/-- In a run from an empty backend, every pin is that of a resident object all
along exactly when every put under a pinned key finds room. -/
theorem pins_resident_run (capacity : Option Nat)
    (ops : List (KeyedStore.Op ChunkKey KVPayload)) :
    cpu.Always PinsResident { capacityBytes := capacity } ops ↔
      cpu.StepsMeet PutFits { capacityBytes := capacity } ops := by
  have hstart : PinsResident { capacityBytes := capacity } :=
    (pinsResident_iff _).mpr fun key hpin => absurd hpin (Finset.notMem_empty key)
  exact cpu.always_iff_stepsMeet (J := fun _ => True) (P := PinsResident) (G := PutFits)
    (fun _ _ _ _ => trivial) (fun s op _ _ h => pinsResident_step_iff h op) trivial hstart
    (cpu.stepsMeet_true _ ops)

/-- A put under a pinned key drops its object, finds no room and raises. -/
theorem raising_put_leaves_pin :
    let k : ChunkKey := ⟨"c", 0, 0⟩
    ¬PinsResident (cpu.exec { capacityBytes := some 1 }
      [.put k (.ofBytes [7]) true, .put k (.ofBytes [8, 9]) false]) := by
  intro k
  rw [pinsResident_iff]
  decide +kernel

end LlmCache.Store.CPUInvariants
