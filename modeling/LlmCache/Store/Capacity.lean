import LlmCache.Lib.Recency
import LlmCache.Store.Eviction

/-!
# A larger budget loses nothing

While nothing is pinned and all objects are of one size, the in-memory store is
a list of keys in the order of their last uses, bounded by as many slots as the
budget holds objects.  What a store with a smaller budget finds, one with a
larger budget finds too.
-/

namespace LlmCache.Store.Capacity

open Errors Lib Lib.Recency Payload LlmCache.Types CPUBackend CPUInvariants Eviction

/-- How many objects of `size` bytes the budget holds. -/
def slots (size : Nat) (capacity : Option Nat) : Option Nat :=
  if size = 0 then none else capacity.map (· / size)

/-- Nothing is pinned, and every object has `size` bytes. -/
structure Uniform (size : Nat) (s : CPUBackend) : Prop where
  accounted : Accounted s
  unpinned : s.pinned = ∅
  sizes : ∀ key obj, s.resident key = some obj → obj.nbytes = size

/-- A call that pins nothing, and puts objects of `size` bytes only. -/
def Plain (size : Nat) : KeyedStore.Op ChunkKey KVPayload → Prop
  | .put _ obj pin => obj.nbytes = size ∧ pin = false
  | .pin _ => False
  | _ => True

variable {size : Nat} {s : CPUBackend}

theorem le_slots_iff (size : Nat) (capacity : Option Nat) (count : Nat) :
    (∀ n ∈ slots size capacity, count ≤ n) ↔ ∀ c ∈ capacity, count * size ≤ c := by
  unfold slots
  split_ifs with hsize
  · simp [hsize]
  · have hpos : 0 < size := Nat.pos_of_ne_zero hsize
    cases capacity with
    | none => simp
    | some c => simpa using Nat.le_div_iff_mul_le hpos

theorem slots_atMost {capacity capacity' : Option Nat} (h : AtMost capacity capacity')
    (size : Nat) : AtMost (slots size capacity) (slots size capacity') := by
  intro n' hn'
  unfold slots at hn' ⊢
  split_ifs at hn' ⊢ with hsize
  · cases hn'
  · obtain ⟨c', hc', rfl⟩ := Option.mem_map.mp hn'
    obtain ⟨c, hc, hle⟩ := h c' hc'
    exact ⟨c / size, Option.mem_map.mpr ⟨c, hc, rfl⟩, Nat.div_le_div_right hle⟩

theorem uniform_empty (size : Nat) (capacity : Option Nat) :
    Uniform size { capacityBytes := capacity } where
  accounted := accounted_empty capacity
  unpinned := rfl
  sizes _ _ hobj := by cases hobj

/-! ## One store of one size -/

theorem Uniform.sizeOf (h : Uniform size s) {key : ChunkKey} (hkey : key ∈ s.keys) :
    sizeOf s key = size := by
  obtain ⟨obj, hobj⟩ := Option.isSome_iff_exists.mp ((mem_keys_iff s key).mp hkey)
  rw [Eviction.sizeOf, hobj]
  exact h.sizes key obj hobj

theorem Uniform.bytesOf (h : Uniform size s) {keys : List ChunkKey}
    (hkeys : ∀ key ∈ keys, key ∈ s.keys) : bytesOf s keys = keys.length * size := by
  have hsizes : keys.map (Eviction.sizeOf s) = List.replicate keys.length size := by
    apply List.eq_replicate_iff.mpr
    refine ⟨List.length_map .., fun n hn => ?_⟩
    obtain ⟨key, hkey, rfl⟩ := List.mem_map.mp hn
    exact h.sizeOf (hkeys key hkey)
  rw [Eviction.bytesOf, hsizes, List.sum_replicate_nat]

theorem Uniform.length_le (h : Uniform size s) :
    ∀ n ∈ slots size s.capacityBytes, s.keys.length ≤ n := by
  rw [le_slots_iff]
  intro capacity hcapacity
  have hused := used_eq_bytesOf h.accounted
  rw [h.bytesOf fun _ hkey => hkey] at hused
  have hle := h.accounted.used_le capacity hcapacity
  omega

theorem Uniform.candidates (h : Uniform size s) (key : ChunkKey) :
    candidates s key = s.keys.filter (· ≠ key) := by
  apply List.filter_congr
  intro k _
  simp [h.unpinned]

theorem Uniform.put_ok_iff (h : Uniform size s) {obj : KVPayload} (hobj : obj.nbytes = size)
    (key : ChunkKey) (pin : Bool) :
    (s.put noCallback () key obj pin).result = .ok () ↔ slots size s.capacityBytes ≠ some 0 := by
  have hnone : pinnedBytes s key = 0 := by simp [pinnedBytes, h.unpinned, Eviction.bytesOf]
  have hone := le_slots_iff size s.capacityBytes 1
  rw [Nat.one_mul] at hone
  rw [Eviction.put_ok_iff (fun _ _ _ => rfl) h.accounted, hobj, hnone, Nat.add_zero, ← hone]
  constructor
  · intro hall hzero
    exact Nat.not_succ_le_zero 0 (hall 0 hzero)
  · intro hne n hn
    apply Nat.pos_of_ne_zero
    rintro rfl
    exact hne hn

/-- Without `gone` many of the oldest other objects, the new one has its slot. -/
theorem Uniform.fitsWithout_iff (h : Uniform size s) (key : ChunkKey) (gone : Nat) :
    FitsWithout s key size ((s.keys.filter (· ≠ key)).take gone) ↔
      ∀ n ∈ slots size s.capacityBytes, (s.keys.filter (· ≠ key)).length - gone + 1 ≤ n := by
  have hnodup : (s.keys.filter (· ≠ key)).Nodup := (nodup_keys s).filter _
  have hkept : (s.keys.filter fun k => k ≠ key ∧ k ∉ (s.keys.filter (· ≠ key)).take gone) =
      (s.keys.filter (· ≠ key)).drop gone := by
    rw [← filter_notMem_take hnodup gone, List.filter_filter]
    apply List.filter_congr
    intro k _
    simp [Bool.and_comm]
  have hbytes : Eviction.bytesOf s ((s.keys.filter (· ≠ key)).drop gone) =
      ((s.keys.filter (· ≠ key)).length - gone) * size := by
    rw [h.bytesOf, List.length_drop]
    intro k hk
    exact List.mem_of_mem_filter (List.mem_of_mem_drop hk)
  rw [le_slots_iff, FitsWithout, hkept, hbytes]
  simp only [Nat.add_mul, Nat.one_mul]

/-- A put makes its key the newest, and keeps as many keys as there are slots. -/
theorem Uniform.keys_put (h : Uniform size s) {obj : KVPayload} (hobj : obj.nbytes = size)
    (key : ChunkKey) (pin : Bool) :
    (s.put noCallback () key obj pin).hot.keys = enter (slots size s.capacityBytes) key s.keys := by
  have haccepts : Accepts noCallback := fun _ _ _ => rfl
  set rest := s.keys.filter (· ≠ key) with hrest
  have hnodup : rest.Nodup := (nodup_keys s).filter _
  cases hresult : (s.put noCallback () key obj pin).result with
  | error err =>
      -- no slot: nothing was there, and nothing is there now
      have hzero : slots size s.capacityBytes = some 0 := by
        by_contra hne
        rw [(h.put_ok_iff hobj key pin).mpr hne] at hresult
        cases hresult
      have hempty : s.keys = [] :=
        List.length_eq_zero_iff.mp (Nat.le_zero.mp (h.length_le 0 hzero))
      have hsublist := keys_put_of_error haccepts h.accounted hresult
      rw [hempty] at hsublist
      rw [List.sublist_nil.mp hsublist, hzero, enter, newest, List.rtake_zero]
  | ok u =>
      obtain ⟨n, hn, hhot, hfits, hmin⟩ := put_spec haccepts h.accounted hresult
      rw [h.candidates, ← hrest] at hn hhot hfits hmin
      have hkeys : (s.put noCallback () key obj pin).hot.keys = rest.drop n ++ [key] := by
        rw [hhot, keys_put_of_ok, ← filter_notMem_take hnodup n, hrest, List.filter_filter]
        congr 1
        apply List.filter_congr
        intro k _
        simp [Bool.and_comm]
      rw [hobj, hrest, h.fitsWithout_iff key n, ← hrest] at hfits
      have hmin' : ∀ m < n, ¬∀ c ∈ slots size s.capacityBytes, rest.length - m + 1 ≤ c := by
        intro m hm
        have hnot := hmin m hm
        rwa [hobj, hrest, h.fitsWithout_iff key m, ← hrest] at hnot
      rw [hkeys, enter, ← hrest]
      cases hslots : slots size s.capacityBytes with
      | none =>
          have hzero : n = 0 := by
            by_contra hne
            exact hmin' 0 (Nat.pos_of_ne_zero hne) (by simp [hslots])
          rw [hzero, newest, List.drop_zero]
      | some c =>
          have hfit : rest.length - n + 1 ≤ c := hfits c hslots
          have hleast : n = rest.length + 1 - c := by
            by_contra hne
            apply hmin' (rest.length + 1 - c) (by omega)
            intro c' hc'
            rw [hslots] at hc'
            obtain rfl : c = c' := Option.some.inj hc'
            omega
          rw [newest, List.rtake, List.length_append, List.length_singleton,
            List.drop_append_of_le_length (by omega), hleast]

theorem keys_get_eq_touch (s : CPUBackend) (key : ChunkKey) :
    (s.get key).2.keys = touch key s.keys := by
  rw [keys_get, touch]
  simp only [mem_keys_iff]

theorem keys_remove (s : CPUBackend) (key : ChunkKey) :
    (s.remove key).2.keys = s.keys.filter (· ≠ key) := by
  have hdrop := keys_dropOld s key
  unfold dropOld at hdrop
  unfold CPUBackend.remove
  cases hobj : s.data.lookup key with
  | none =>
      rw [hobj] at hdrop
      exact hdrop
  | some obj =>
      rw [hobj] at hdrop
      exact hdrop

theorem resident_clear (s : CPUBackend) (key : ChunkKey) :
    (KeyedStore.clear s).resident key = none := by
  have hclear := @KeyedStore.content_clear CPUBackend ChunkKey KVPayload Raised _ _ resident
    (fun s key => funext fun k => by
      rw [Function.update_apply]
      exact resident_remove s key k) mem_keys_iff s
  exact congrFun hclear key

theorem keys_clear (s : CPUBackend) : (KeyedStore.clear s).keys = [] := by
  apply List.eq_nil_iff_forall_not_mem.mpr
  intro key hkey
  rw [mem_keys_iff, resident_clear] at hkey
  cases hkey

/-! ## One call -/

/-- What a call writes under a key. -/
def written : KeyedStore.Op ChunkKey KVPayload → ChunkKey → Option KVPayload
  | .put k obj _, key => if key = k then some obj else none
  | _, _ => none

theorem resident_of_step {op : KeyedStore.Op ChunkKey KVPayload} {key : ChunkKey}
    {obj : KVPayload} (h : (cpu.step s op).2.resident key = some obj) :
    (written op key).or (s.resident key) = some obj := by
  cases op with
  | put k new pin =>
      change (s.put noCallback () k new pin).hot.resident key = some obj at h
      by_cases hkey : key = k
      · subst hkey
        rw [written, if_pos rfl, Option.some_or, ← h]
        rcases put_cases noCallback s () key new pin with ⟨hok, _, _⟩ | ⟨err, herr, _, _⟩
        · exact (put_self_of_ok hok).symm
        · rw [put_self_of_error receives_noCallback herr] at h
          cases h
      · rw [written, if_neg hkey, Option.none_or]
        exact (put_effect_other receives_noCallback s () new pin hkey).of_resident h
  | get k => exact (resident_get s k key).symm.trans h
  | contains k => exact h
  | remove k =>
      change (s.remove k).2.resident key = some obj at h
      rw [resident_remove] at h
      split_ifs at h
      exact h
  | pin k => exact (resident_pin s k key).symm.trans h
  | unpin k => exact h
  | clear =>
      rw [show (cpu.step s .clear).2 = KeyedStore.clear s from rfl, resident_clear] at h
      cases h

theorem unpinned_remove (h : s.pinned = ∅) (key : ChunkKey) : (s.remove key).2.pinned = ∅ := by
  unfold CPUBackend.remove
  cases s.data.lookup key with
  | none => exact h
  | some obj =>
      show s.pinned.erase key = ∅
      rw [h, Finset.erase_empty]

theorem unpinned_clear (h : s.pinned = ∅) : (KeyedStore.clear s).pinned = ∅ := by
  unfold KeyedStore.clear
  generalize KeyedStore.keys s = keys
  induction keys generalizing s with
  | nil => exact h
  | cons key rest ih => exact ih (unpinned_remove h key)

theorem Uniform.step (h : Uniform size s) {op : KeyedStore.Op ChunkKey KVPayload}
    (hop : Plain size op) : Uniform size (cpu.step s op).2 where
  accounted := accounted_step h.accounted op
  unpinned := by
    cases op with
    | put key obj pin =>
        obtain ⟨_, rfl⟩ := hop
        show (s.put noCallback () key obj false).hot.pinned = ∅
        cases hresult : (s.put noCallback () key obj false).result with
        | error err => rw [pinned_put_of_error receives_noCallback hresult, h.unpinned]
        | ok u =>
            rw [pinned_put_of_ok receives_noCallback hresult, h.unpinned]
            rfl
    | get key => exact (pinned_get s key).trans h.unpinned
    | contains key => exact h.unpinned
    | remove key => exact unpinned_remove h.unpinned key
    | pin key => exact absurd hop not_false
    | unpin key =>
        show s.pinned.erase key = ∅
        rw [h.unpinned, Finset.erase_empty]
    | clear => exact unpinned_clear h.unpinned
  sizes key obj hobj := by
    have hsource := resident_of_step hobj
    cases op with
    | put k new pin =>
        rw [written] at hsource
        split_ifs at hsource
        · rw [← Option.some.inj hsource]
          exact hop.1
        · exact h.sizes key obj hsource
    | get k | contains k | remove k | pin k | unpin k | clear => exact h.sizes key obj hsource

theorem capacityBytes_step (s : CPUBackend) (op : KeyedStore.Op ChunkKey KVPayload) :
    (cpu.step s op).2.capacityBytes = s.capacityBytes := by
  cases op with
  | put key obj pin => exact capacityBytes_put noCallback s () key obj pin
  | get key => exact capacityBytes_get s key
  | contains key => rfl
  | remove key => exact capacityBytes_remove s key
  | pin key => exact capacityBytes_pin s key
  | unpin key => rfl
  | clear => exact capacityBytes_clear s

/-! ## Two budgets -/

/-- The store `s'` holds what `s` holds, in the same order, and more only as far
as its budget is larger. -/
structure Within (size : Nat) (s s' : CPUBackend) : Prop where
  fewer : Uniform size s
  more : Uniform size s'
  covers : Covers (slots size s.capacityBytes) (slots size s'.capacityBytes) s.keys s'.keys
  agree : ∀ key obj, s.resident key = some obj → s'.resident key = some obj

/-- The answer says that an object is there, or that the call is done. -/
def Finds : Except Raised (KeyedStore.Reply KVPayload) → Prop
  | .ok .done => True
  | .ok (.object obj) => obj.isSome
  | .ok (.flag value) => value
  | .error _ => False

variable {s' : CPUBackend}

theorem within_empty {capacity capacity' : Option Nat} (h : AtMost capacity capacity')
    (size : Nat) : Within size { capacityBytes := capacity } { capacityBytes := capacity' } where
  fewer := uniform_empty size capacity
  more := uniform_empty size capacity'
  covers := Covers.nil (slots_atMost h size)
  agree _ _ hobj := by cases hobj

theorem Within.covers_step (h : Within size s s') {op : KeyedStore.Op ChunkKey KVPayload}
    (hop : Plain size op) :
    Covers (slots size s.capacityBytes) (slots size s'.capacityBytes) (cpu.step s op).2.keys
      (cpu.step s' op).2.keys := by
  cases op with
  | put key obj pin =>
      show Covers _ _ (s.put noCallback () key obj pin).hot.keys
        (s'.put noCallback () key obj pin).hot.keys
      rw [h.fewer.keys_put hop.1, h.more.keys_put hop.1]
      exact h.covers.enter key
  | get key =>
      show Covers _ _ (s.get key).2.keys (s'.get key).2.keys
      rw [keys_get_eq_touch, keys_get_eq_touch]
      exact h.covers.touch key
  | contains key => exact h.covers
  | remove key =>
      show Covers _ _ (s.remove key).2.keys (s'.remove key).2.keys
      rw [keys_remove, keys_remove]
      exact h.covers.filter _
  | pin key => exact absurd hop not_false
  | unpin key => exact h.covers
  | clear =>
      show Covers _ _ (KeyedStore.clear s).keys (KeyedStore.clear s').keys
      rw [keys_clear, keys_clear]
      have hnone := h.covers.filter fun _ => false
      simpa only [List.filter_false] using hnone

theorem Within.step (h : Within size s s') {op : KeyedStore.Op ChunkKey KVPayload}
    (hop : Plain size op) : Within size (cpu.step s op).2 (cpu.step s' op).2 where
  fewer := h.fewer.step hop
  more := h.more.step hop
  covers := by
    rw [capacityBytes_step, capacityBytes_step]
    exact h.covers_step hop
  agree key obj hobj := by
    have hkey : key ∈ (cpu.step s' op).2.keys := by
      apply (h.covers_step hop).subset
      rw [mem_keys_iff, hobj]
      rfl
    obtain ⟨obj', hobj'⟩ := Option.isSome_iff_exists.mp ((mem_keys_iff _ key).mp hkey)
    have hsource := resident_of_step hobj
    have hsource' := resident_of_step hobj'
    rw [hobj', ← hsource']
    cases hwritten : written op key with
    | some new =>
        rw [hwritten, Option.some_or] at hsource
        rw [Option.some_or, hsource]
    | none =>
        rw [hwritten, Option.none_or] at hsource
        rw [Option.none_or, h.agree key obj hsource]

theorem Within.isSome (h : Within size s s') {key : ChunkKey} (hkey : (s.resident key).isSome) :
    s'.resident key = s.resident key := by
  obtain ⟨obj, hobj⟩ := Option.isSome_iff_exists.mp hkey
  rw [hobj, h.agree key obj hobj]

theorem Within.slots_ne_zero (h : Within size s s') (hslots : slots size s.capacityBytes ≠ some 0) :
    slots size s'.capacityBytes ≠ some 0 := by
  intro hzero
  obtain ⟨n, hn, hle⟩ := h.covers.slack 0 hzero
  have hlength := h.covers.sublist.length_le
  have hnone : n = 0 := by omega
  exact hslots (hnone ▸ hn)

theorem Within.answers (h : Within size s s') {op : KeyedStore.Op ChunkKey KVPayload}
    (hop : Plain size op) (hfinds : Finds (cpu.step s op).1) :
    (cpu.step s' op).1 = (cpu.step s op).1 := by
  cases op with
  | put key obj pin =>
      have hanswer : ∀ s : CPUBackend, (cpu.step s (.put key obj pin)).1 =
          (s.put noCallback () key obj pin).result.map fun _ => .done := fun _ => rfl
      rw [hanswer] at hfinds
      cases hresult : (s.put noCallback () key obj pin).result with
      | error err =>
          rw [hresult] at hfinds
          exact absurd hfinds not_false
      | ok u =>
          have hslots := (h.fewer.put_ok_iff hop.1 key pin).mp hresult
          have hresult' := (h.more.put_ok_iff hop.1 key pin).mpr (h.slots_ne_zero hslots)
          rw [hanswer, hanswer, hresult, hresult']
  | get key =>
      have hanswer : ∀ s : CPUBackend, (cpu.step s (.get key)).1 = .ok (.object (s.resident key)) :=
        fun s => congrArg (fun obj => Except.ok (KeyedStore.Reply.object obj)) (get_fst s key)
      rw [hanswer] at hfinds
      rw [hanswer, hanswer, h.isSome hfinds]
  | contains key =>
      have hanswer : ∀ s : CPUBackend,
          (cpu.step s (.contains key)).1 = .ok (.flag (s.resident key).isSome) :=
        fun s => congrArg (fun b => Except.ok (KeyedStore.Reply.flag b)) (contains_eq s key)
      rw [hanswer] at hfinds
      rw [hanswer, hanswer, h.isSome hfinds]
  | remove key =>
      have hanswer : ∀ s : CPUBackend,
          (cpu.step s (.remove key)).1 = .ok (.flag (s.resident key).isSome) :=
        fun s => congrArg (fun b => Except.ok (KeyedStore.Reply.flag b)) (remove_fst s key)
      rw [hanswer] at hfinds
      rw [hanswer, hanswer, h.isSome hfinds]
  | pin key => exact absurd hop not_false
  | unpin key => rfl
  | clear => rfl

theorem Within.run (h : Within size s s') {ops : List (KeyedStore.Op ChunkKey KVPayload)}
    (hops : ∀ op ∈ ops, Plain size op) :
    List.Forall₂ (fun found found' => Finds found.2 → found' = found) (cpu.trace s ops)
        (cpu.trace s' ops) ∧
      Within size (cpu.exec s ops) (cpu.exec s' ops) := by
  induction ops generalizing s s' with
  | nil => exact ⟨.nil, h⟩
  | cons op ops ih =>
      have hop := hops op (List.mem_cons_self ..)
      obtain ⟨htrace, hend⟩ := ih (h.step hop) fun o ho => hops o (List.mem_cons_of_mem _ ho)
      refine ⟨.cons (fun hfinds => ?_) htrace, hend⟩
      rw [h.answers hop hfinds]

/-- In every run without pins over objects of one size, what a store with some
budget finds is found with a larger one, and what it holds in the end is held
there, used in the same order. -/
theorem larger_budget_run {capacity capacity' : Option Nat} (hle : AtMost capacity capacity')
    (size : Nat) {ops : List (KeyedStore.Op ChunkKey KVPayload)}
    (hops : ∀ op ∈ ops, Plain size op) :
    let s : CPUBackend := { capacityBytes := capacity }
    let s' : CPUBackend := { capacityBytes := capacity' }
    List.Forall₂ (fun found found' => Finds found.2 → found' = found) (cpu.trace s ops)
        (cpu.trace s' ops) ∧
      (cpu.exec s ops).keys.Sublist (cpu.exec s' ops).keys ∧
      ∀ key obj, (cpu.exec s ops).resident key = some obj →
        (cpu.exec s' ops).resident key = some obj := by
  intro s s'
  obtain ⟨htrace, hend⟩ := (within_empty hle size).run hops
  exact ⟨htrace, hend.covers.sublist, hend.agree⟩

/-- Three objects under budgets of two and of three: the first one is found with
the larger budget only. -/
theorem larger_budget_run_three :
    let ops : List (KeyedStore.Op ChunkKey KVPayload) := [.put ⟨"a", 0, 0⟩ (.ofBytes [1]) false,
      .put ⟨"b", 0, 0⟩ (.ofBytes [2]) false, .put ⟨"c", 0, 0⟩ (.ofBytes [3]) false,
      .get ⟨"a", 0, 0⟩, .get ⟨"b", 0, 0⟩]
    (cpu.exec { capacityBytes := some 2 } ops).keys.Sublist
      (cpu.exec { capacityBytes := some 3 } ops).keys := by
  intro ops
  have hle : AtMost (some 2) (some 3) := by
    intro n' hn'
    obtain rfl : 3 = n' := Option.some.inj hn'
    exact ⟨2, rfl, by decide⟩
  refine (larger_budget_run hle 1 ?_).2.1
  intro op hop
  simp only [ops, List.mem_cons, List.not_mem_nil, or_false] at hop
  rcases hop with rfl | rfl | rfl | rfl | rfl
  · exact ⟨rfl, rfl⟩
  · exact ⟨rfl, rfl⟩
  · exact ⟨rfl, rfl⟩
  · trivial
  · trivial

/-- With two sizes a larger budget can lose an object: it keeps `b`, whose later
use makes `c` the oldest. -/
example :
    let ops : List (KeyedStore.Op ChunkKey KVPayload) := [.put ⟨"a", 0, 0⟩ (.ofBytes [1]) false,
      .put ⟨"b", 0, 0⟩ (.ofBytes [2, 2]) false, .put ⟨"c", 0, 0⟩ (.ofBytes [3, 3]) false,
      .get ⟨"b", 0, 0⟩, .put ⟨"d", 0, 0⟩ (.ofBytes [4]) false]
    (cpu.exec { capacityBytes := some 3 } ops).keys = [⟨"c", 0, 0⟩, ⟨"d", 0, 0⟩] ∧
      (cpu.exec { capacityBytes := some 4 } ops).keys = [⟨"b", 0, 0⟩, ⟨"d", 0, 0⟩] := by
  decide +kernel

end LlmCache.Store.Capacity
