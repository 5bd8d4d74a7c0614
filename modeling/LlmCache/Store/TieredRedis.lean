import LlmCache.Store.Redis
import LlmCache.Store.Tiered

/-!
# Pins over an expiring remote tier

A pinned object is guarded twice: by membership in the hot tier's pinned set,
or by being stored in Redis without an expiry.  Demotion writes the object with
the default expiry, whatever the key was promised before.
-/

namespace LlmCache.Store.TieredRedis

open Errors Lib Payload LlmCache.Types KeyedStore

variable {codec : RedisCodec}

/-- The key resides pinned in hot, or in Redis without an expiry. -/
def Protected (t : TieredBackend (RedisBackend codec)) (k : ChunkKey) : Prop :=
  ((t.hot.resident k).isSome ∧ k ∈ t.hot.pinned) ∨ t.cold.Durable k

instance (t : TieredBackend (RedisBackend codec)) (k : ChunkKey) : Decidable (Protected t k) :=
  inferInstanceAs (Decidable (_ ∨ _))

/-- The calls that promise durability: a pinned put that returns, or a pin of a
key that the store contains. -/
def Guarantees (k : ChunkKey) (t : TieredBackend (RedisBackend codec)) :
    Op ChunkKey KVPayload → Prop
  | .put key obj pin => key = k ∧ pin = true ∧ (t.put key obj pin).1 = .ok ()
  | .pin key => key = k ∧ t.contains key = true
  | _ => False

instance (k : ChunkKey) (t : TieredBackend (RedisBackend codec)) (op : Op ChunkKey KVPayload) :
    Decidable (Guarantees k t op) := by
  cases op <;> (unfold Guarantees; infer_instance)

/-- The calls that leave the promise standing. -/
def Spares (k : ChunkKey) : Op ChunkKey KVPayload → Prop
  | .put key _ _ | .remove key | .unpin key => key ≠ k
  | .clear => False
  | .get _ | .contains _ | .pin _ => True

instance (k : ChunkKey) (op : Op ChunkKey KVPayload) : Decidable (Spares k op) := by
  cases op <;> (unfold Spares; infer_instance)

/-- The object that a get of the key would promote. -/
def toPromote (t : TieredBackend (RedisBackend codec)) (key : ChunkKey) : Option KVPayload :=
  match t.hot.resident key, t.cold.get key with
  | none, .ok found => found
  | _, _ => none

/-- The call does not demote the key into an expiring tier: Redis has no
default expiry, or no room is made at the cost of `k`. -/
def NotDemoted (k : ChunkKey) (t : TieredBackend (RedisBackend codec))
    (op : Op ChunkKey KVPayload) : Prop :=
  t.cold.keyTtl = none ∨
    match op with
    | .put key obj _ => ¬(t.hot.dropOld key).Evicts key obj.nbytes k
    | .get key => ∀ obj ∈ toPromote t key, ¬(t.hot.dropOld key).Evicts key obj.nbytes k
    | _ => True

instance (k : ChunkKey) (t : TieredBackend (RedisBackend codec)) (op : Op ChunkKey KVPayload) :
    Decidable (NotDemoted k t op) := by
  cases op <;> (unfold NotDemoted; infer_instance)

/-- A hot write that does not demote the key, to this key or another, keeps its
guard.  The key itself is written only when it is absent from hot. -/
theorem protected_hotPut {t : TieredBackend (RedisBackend codec)} {k : ChunkKey}
    (hk : Protected t k) (key : ChunkKey) (obj : KVPayload) (pin : Bool)
    (hself : key = k → t.hot.resident k = none)
    (hguard : t.cold.keyTtl = none ∨ ¬(t.hot.dropOld key).Evicts key obj.nbytes k) :
    Protected (t.hotPut key obj pin).2 k := by
  rcases hk with ⟨hres, hpinned⟩ | hdurable
  · -- a pinned resident is not evicted, whatever the guard says
    have hne : k ≠ key := by
      intro h
      rw [hself h.symm] at hres
      cases hres
    have hspared : ¬(t.hot.dropOld key).Evicts key obj.nbytes k := by
      unfold CPUBackend.Evicts
      split
      · exact id
      · rintro ⟨_, _, hnot, _⟩
        rw [CPUBackend.pinned_dropOld] at hnot
        exact hnot hpinned
    obtain ⟨hhot, hsub, _⟩ := @CPUBackend.put_keeps _ TieredBackend.demote (fun _ => True) k
      (fun _ _ _ _ _ => trivial) t.hot t.cold trivial key obj pin hspared
    have hkept : (t.hotPut key obj pin).2.hot.resident k = t.hot.resident k := hhot hne
    refine .inl ⟨?_, hsub hpinned⟩
    rw [hkept]
    exact hres
  · rcases hguard with httl | hspared
    · have hclosed := @CPUBackend.lower_put_of_closed _ TieredBackend.demote
        (fun cold : RedisBackend codec => cold.keyTtl = none ∧ cold.Durable k)
        (fun x o cold hcold => ⟨(cold.put_cases x o false).1.trans hcold.1,
          RedisBackend.durable_put_of_no_ttl hcold.1 hcold.2 x o false⟩)
        t.hot t.cold ⟨httl, hdurable⟩ key obj pin
      exact .inr hclosed.2
    · obtain ⟨_, _, hlower⟩ := @CPUBackend.put_keeps _ TieredBackend.demote
        (fun cold : RedisBackend codec => cold.Durable k) k
        (fun x o cold hne hd => hd.of_entry_eq (cold.entry_put_other o false hne.symm))
        t.hot t.cold hdurable key obj pin hspared
      exact .inr hlower

theorem protected_put {t : TieredBackend (RedisBackend codec)} {k : ChunkKey}
    (hk : Protected t k) {key : ChunkKey} (hne : key ≠ k) (obj : KVPayload) (pin : Bool)
    (hguard : t.cold.keyTtl = none ∨ ¬(t.hot.dropOld key).Evicts key obj.nbytes k) :
    Protected (t.put key obj pin).2 k := by
  have hhot := protected_hotPut hk key obj pin (fun h => absurd h hne) hguard
  unfold TieredBackend.put
  generalize t.hotPut key obj pin = out at hhot ⊢
  rcases out with ⟨err | _, t'⟩
  · exact hhot
  · cases pin with
    | false => exact hhot
    | true =>
        -- the mirror of another key in Redis
        exact hhot.imp id fun hdurable =>
          hdurable.of_entry_eq (t'.cold.entry_put_other obj true hne.symm)

theorem protected_get {t : TieredBackend (RedisBackend codec)} {k : ChunkKey}
    (hk : Protected t k) (key : ChunkKey) (hguard : NotDemoted k t (.get key)) :
    Protected (t.get key).2 k := by
  cases hres : t.hot.resident key with
  | some obj =>
      have hget : t.get key = (.ok (some obj), { t with hot := (t.hot.get key).2 }) := by
        have hfst := t.hot.get_fst key
        rw [hres] at hfst
        unfold TieredBackend.get
        generalize t.hot.get key = read at hfst ⊢
        obtain ⟨found, hot⟩ := read
        simp only at hfst
        subst hfst
        rfl
      rw [hget]
      refine hk.imp (fun h => ?_) id
      simpa using h
  | none =>
      have hmiss : t.hot.get key = (none, t.hot) := CPUBackend.get_of_absent hres
      have hread : KeyedStore.get t.cold key = (t.cold.get key, t.cold) := rfl
      have hpromote : ∀ obj, t.cold.get key = .ok (some obj) →
          Protected (t.hotPut key obj false).2 k := by
        intro obj hobj
        apply protected_hotPut hk
        · rintro rfl
          exact hres
        · refine hguard.imp id fun h => h obj ?_
          rw [toPromote, hres, hobj]
          rfl
      unfold TieredBackend.get
      simp only [hmiss, hread]
      cases hcold : t.cold.get key with
      | error err => exact hk
      | ok found =>
          cases found with
          | none => exact hk
          | some obj =>
              have hnext := hpromote obj hcold
              simp only
              generalize TieredBackend.hotPut ⟨t.hot, t.cold⟩ key obj false = out at hnext ⊢
              rcases out with ⟨err | _, t'⟩ <;> exact hnext

theorem protected_step {t : TieredBackend (RedisBackend codec)} {k : ChunkKey}
    (hk : Protected t k) (op : Op ChunkKey KVPayload) (hspares : Spares k op)
    (hguard : NotDemoted k t op) : Protected (step t op).2 k := by
  cases op with
  | put key obj pin => exact protected_put hk hspares obj pin hguard
  | get key => exact protected_get hk key hguard
  | contains key => exact hk
  | remove key =>
      have hne : k ≠ key := fun h => hspares h.symm
      rcases hk with ⟨hres, hpinned⟩ | hdurable
      · refine .inl ⟨?_, (t.hot.mem_pinned_remove hne).mpr hpinned⟩
        have hsame := (t.hot.resident_remove key k).trans (if_neg hne)
        exact hsame ▸ hres
      · exact .inr (hdurable.of_entry_eq (t.cold.entry_remove_other hne))
  | pin key =>
      rcases hk with ⟨hres, hpinned⟩ | hdurable
      · refine .inl ⟨?_, (t.hot.mem_pinned_pin key k).mpr (.inl hpinned)⟩
        exact (t.hot.resident_pin key k).symm ▸ hres
      · exact .inr (RedisBackend.durable_pin_of_durable hdurable key)
  | unpin key =>
      have hne : k ≠ key := fun h => hspares h.symm
      rcases hk with ⟨hres, hpinned⟩ | hdurable
      · exact .inl ⟨hres, (t.hot.mem_pinned_unpin hne).mpr hpinned⟩
      · exact .inr (hdurable.of_entry_eq (t.cold.entry_unpin_other hne))
  | clear => exact hspares.elim

theorem protected_of_guarantees {t : TieredBackend (RedisBackend codec)} {k : ChunkKey}
    {op : Op ChunkKey KVPayload} (h : Guarantees k t op) : Protected (step t op).2 k := by
  cases op with
  | put key obj pin =>
      obtain ⟨rfl, rfl, hok⟩ := h
      change Protected (t.put key obj true).2 key
      unfold TieredBackend.put at hok ⊢
      generalize t.hotPut key obj true = out at hok ⊢
      rcases out with ⟨err | _, t'⟩
      · cases hok
      · exact .inr (RedisBackend.durable_put_pin hok)
  | pin key =>
      obtain ⟨rfl, hcontains⟩ := h
      rw [TieredBackend.contains, Bool.or_eq_true, CPUBackend.contains_eq] at hcontains
      rcases hcontains with hhot | hcold
      · refine .inl ⟨?_, (t.hot.mem_pinned_pin key key).mpr (.inr ⟨rfl, hhot⟩)⟩
        exact (t.hot.resident_pin key key).symm ▸ hhot
      · exact .inr (RedisBackend.durable_pin_of_contains hcold)
  | get key => exact h.elim
  | contains key => exact h.elim
  | remove key => exact h.elim
  | unpin key => exact h.elim
  | clear => exact h.elim

/-- Once promised, a key stays protected as long as no call takes the promise
back and none demotes the key into an expiring tier. -/
theorem protected_since (t : TieredBackend (RedisBackend codec)) (k : ChunkKey)
    (op : Op ChunkKey KVPayload) (hop : Guarantees k t op) (since : List (Op ChunkKey KVPayload))
    (hrun : (machine (TieredBackend (RedisBackend codec))).StepsMeet
      (fun t op => Spares k op ∧ NotDemoted k t op) (step t op).2 since) :
    Protected ((machine (TieredBackend (RedisBackend codec))).exec (step t op).2 since) k :=
  (machine (TieredBackend (RedisBackend codec))).exec_induction (I := fun t => Protected t k)
    (fun _ op hk hg => protected_step hk op hg.1 hg.2) (protected_of_guarantees hop) hrun

/-- The bytes that frame a one-layer payload of raw bytes without metadata. -/
def rawFrame : List UInt8 :=
  ("LKVP1\n".toList ++ [Char.ofNat 60, Char.ofNat 0, Char.ofNat 0, Char.ofNat 0] ++
    "\x7b\"num_tokens\": 0, \"num_layers\": 1, \"fmt\": \"raw\", \"meta\": \x7b\x7d\x7d".toList).map
      fun c => c.toNat.toUInt8

/-- The framing of such payloads. -/
def rawCodec : RedisCodec where
  pack obj :=
    if obj = .ofBytes obj.data then .ok (rawFrame ++ obj.data)
    else .error (.serialization "not a raw payload")
  unpack blob :=
    if blob.take rawFrame.length = rawFrame then .ok (.ofBytes (blob.drop rawFrame.length))
    else .error (.serialization "bad payload framing")
  matchesPattern pattern name := pattern.toList.dropLast.isPrefixOf name.toList

/-- A pinned object among demotions, promotions and a refused put. -/
theorem protected_since_pressure :
    let t : TieredBackend (RedisBackend rawCodec) :=
      ⟨{ capacityBytes := some 2 }, { keyTtl := some 30 }⟩
    let op : Op ChunkKey KVPayload := .put ⟨"c", 0, 0⟩ (.ofBytes [1]) true
    let since : List (Op ChunkKey KVPayload) :=
      [.put ⟨"c", 1, 0⟩ (.ofBytes [2]) false, .put ⟨"c", 2, 0⟩ (.ofBytes [3]) false,
        .get ⟨"c", 1, 0⟩, .put ⟨"c", 3, 0⟩ (.ofBytes [4, 5]) false, .unpin ⟨"c", 1, 0⟩]
    Protected ((machine (TieredBackend (RedisBackend rawCodec))).exec (step t op).2 since)
      ⟨"c", 0, 0⟩ :=
  protected_since _ ⟨"c", 0, 0⟩ _ (by decide) _ (by decide)

/-- Pinned while only Redis holds it, promoted without the pin, then demoted
with the default expiry. -/
theorem demotion_expires_pinned :
    let start : TieredBackend (RedisBackend rawCodec) :=
      ⟨{ capacityBytes := some 1 }, { keyTtl := some 30 }⟩
    let store := machine (TieredBackend (RedisBackend rawCodec))
    let t := store.exec start
      [.put ⟨"c", 0, 0⟩ (.ofBytes [1]) false, .put ⟨"c", 1, 0⟩ (.ofBytes [2]) false]
    let since : List (Op ChunkKey KVPayload) := [.get ⟨"c", 0, 0⟩, .get ⟨"c", 1, 0⟩]
    Guarantees ⟨"c", 0, 0⟩ t (.pin ⟨"c", 0, 0⟩) ∧ (∀ op ∈ since, Spares ⟨"c", 0, 0⟩ op) ∧
      ¬Protected (store.exec (step t (.pin ⟨"c", 0, 0⟩)).2 since) ⟨"c", 0, 0⟩ := by
  decide +kernel

end LlmCache.Store.TieredRedis
