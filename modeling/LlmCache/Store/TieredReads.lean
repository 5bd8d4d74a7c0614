import LlmCache.Store.Eviction
import LlmCache.Store.TieredRefinement

/-!
# Reads that promote

A read that hits the cold tier writes the object to hot, under all the rules of
such a write.  Objects pinned in hot can leave it no room.
-/

namespace LlmCache.Store.TieredReads

open Errors Lib Payload LlmCache.Types KeyedStore CPUInvariants Eviction
open TieredBackend (current coldCopy hotPut)

variable {σ : Type} [LosslessBackend σ]

/-- An object that only cold holds fits into hot beside what is pinned there. -/
def Promotable (t : TieredBackend σ) (key : ChunkKey) : Prop :=
  t.hot.resident key = none → ∀ obj ∈ t.coldCopy key, ∀ capacity ∈ t.hot.capacityBytes,
    obj.nbytes + pinnedBytes t.hot key ≤ capacity

/-! ## The hot tier's byte count -/

theorem accounted_hotPut {t : TieredBackend σ} (h : Accounted t.hot) (key : ChunkKey)
    (obj : KVPayload) (pin : Bool) : Accounted (t.hotPut key obj pin).2.hot :=
  h.put t.cold key obj pin

theorem accounted_get {t : TieredBackend σ} (h : Accounted t.hot) (key : ChunkKey) :
    Accounted (t.get key).2.hot := by
  have hread : Accounted (t.hot.get key).2 := h.get key
  unfold TieredBackend.get
  generalize t.hot.get key = read at hread ⊢
  obtain ⟨found, hot⟩ := read
  cases found with
  | some obj => exact hread
  | none =>
      generalize KeyedStore.get t.cold key = coldRead
      obtain ⟨result, cold⟩ := coldRead
      cases result with
      | error err => exact hread
      | ok copy =>
          cases copy with
          | none => exact hread
          | some obj =>
              have hput : Accounted (hotPut ⟨hot, cold⟩ key obj false).2.hot :=
                accounted_hotPut hread key obj false
              simp only
              generalize hotPut ⟨hot, cold⟩ key obj false = out at hput ⊢
              obtain ⟨answer, t'⟩ := out
              cases answer <;> exact hput

theorem accounted_foldl_remove {t : TieredBackend σ} (h : Accounted t.hot)
    (keys : List ChunkKey) :
    Accounted (keys.foldl (fun t key => (KeyedStore.remove t key).2) t).hot := by
  induction keys generalizing t with
  | nil => exact h
  | cons key rest ih =>
      apply ih
      exact h.remove key

theorem accounted_step {t : TieredBackend σ} (h : Accounted t.hot)
    (op : Op ChunkKey KVPayload) : Accounted (step t op).2.hot := by
  cases op with
  | put key obj pin =>
      have hhot : (t.put key obj pin).2.hot = (t.hotPut key obj pin).2.hot :=
        (TieredBackend.put_cases t key obj pin).2.1
      show Accounted (t.put key obj pin).2.hot
      rw [hhot]
      exact accounted_hotPut h key obj pin
  | get key => exact accounted_get h key
  | contains key => exact h
  | remove key => exact h.remove key
  | pin key => exact h.pin key
  | unpin key => exact ⟨nodup_keys _, h.used_eq, h.used_le⟩
  | clear => exact accounted_foldl_remove h _

theorem accounted_tiered (capacity : Option Nat) (cold : σ) (ops : List (Op ChunkKey KVPayload)) :
    Accounted ((machine (TieredBackend σ)).exec (.init capacity cold) ops).hot := by
  apply (machine (TieredBackend σ)).exec_induction (I := fun t => Accounted t.hot)
    (G := fun _ _ => True)
  · intro t op ht _
    exact accounted_step ht op
  · exact accounted_empty capacity
  · exact (machine (TieredBackend σ)).stepsMeet_true _ ops

/-! ## Whether a read returns -/

theorem get_fst_of_cold_hit {t : TieredBackend σ} {key : ChunkKey} {obj : KVPayload}
    (hhot : t.hot.resident key = none) (hcold : t.coldCopy key = some obj) :
    ∃ cold : σ, (t.get key).1 =
      (t.hot.put TieredBackend.demote cold key obj false).result.map fun _ => some obj := by
  have hread : (KeyedStore.get t.cold key).1 = .ok (some obj) := by
    rw [LosslessStore.get_ok]
    exact congrArg Except.ok hcold
  refine ⟨(KeyedStore.get t.cold key).2, ?_⟩
  unfold TieredBackend.get
  rw [CPUBackend.get_of_absent hhot]
  generalize KeyedStore.get t.cold key = coldRead at hread ⊢
  obtain ⟨result, cold⟩ := coldRead
  simp only at hread
  subst hread
  have hput : (hotPut ⟨t.hot, cold⟩ key obj false).1 =
      (t.hot.put TieredBackend.demote cold key obj false).result := rfl
  simp only
  rw [← hput]
  generalize hotPut ⟨t.hot, cold⟩ key obj false = out
  obtain ⟨answer, t'⟩ := out
  cases answer <;> rfl

theorem accepts_demote : Accepts (TieredBackend.demote (σ := σ)) :=
  fun key obj cold => LosslessStore.put_ok cold key obj false

/-- A read returns the current copy unless it has to promote an object that the
pinned ones leave no room for. -/
theorem get_ok_iff {t : TieredBackend σ} (h : Accounted t.hot) (key : ChunkKey) :
    (t.get key).1 = .ok (t.current key) ↔ Promotable t key := by
  rcases TieredBackend.get_cases t key with
    ⟨obj, hres, hfst, _⟩ | ⟨hres, hcopy, hfst, _⟩ | ⟨obj, _, hres, hcopy, _⟩
  · apply iff_of_true
    · rw [hfst, current, hres]
      rfl
    · intro habsent
      rw [hres] at habsent
      cases habsent
  · apply iff_of_true
    · rw [hfst, current, hres, hcopy]
      rfl
    · intro _ obj hobj
      rw [hcopy] at hobj
      cases hobj
  · obtain ⟨cold, hfst⟩ := get_fst_of_cold_hit hres hcopy
    have hcurrent : t.current key = some obj := by
      rw [current, hres, hcopy]
      rfl
    have hpromoted : (t.get key).1 = .ok (t.current key) ↔
        (t.hot.put TieredBackend.demote cold key obj false).result = .ok () := by
      rw [hfst, hcurrent]
      cases (t.hot.put TieredBackend.demote cold key obj false).result <;> simp [Except.map]
    rw [hpromoted, put_ok_iff accepts_demote h]
    simp [Promotable, hres, hcopy]

/-- After every run, raising calls included, a read of a stored key returns its
object exactly when that object is in hot or can be promoted. -/
theorem stored_read_iff (capacity : Option Nat) (cold : σ) (ops : List (Op ChunkKey KVPayload))
    (key : ChunkKey) :
    let t := (machine (TieredBackend σ)).exec (.init capacity cold) ops
    (t.contains key = true → (t.get key).1 = .ok (t.current key)) ↔ Promotable t key := by
  intro t
  rw [← get_ok_iff (accounted_tiered capacity cold ops)]
  constructor
  · intro hreads
    cases hcontains : t.contains key with
    | true => exact hreads hcontains
    | false =>
        -- nothing is stored, hence nothing is promoted
        rw [get_ok_iff (accounted_tiered capacity cold ops)]
        intro hres obj hobj
        rw [TieredBackend.contains_eq, current, hres, Option.mem_def.mp hobj] at hcontains
        cases hcontains
  · intro hget _
    exact hget

/-- An object is demoted by a pinned one as large as the hot tier. -/
theorem stored_read_raises :
    let key : ChunkKey := ⟨"c", 0, 0⟩
    let ops : List (Op ChunkKey KVPayload) :=
      [.put key (.ofBytes [1]) false, .put ⟨"c", 1, 0⟩ (.ofBytes [2]) true]
    let t := (machine (TieredBackend UnboundedCPU)).exec (.init (some 1) UnboundedCPU.empty) ops
    ¬(t.contains key = true → (t.get key).1 = .ok (t.current key)) := by
  intro key ops t hreads
  have hget : (t.get key).1 = .ok (t.current key) := hreads (by decide +kernel)
  have hraises : (t.get key).1.isOk = false := by decide +kernel
  rw [hget] at hraises
  cases hraises

end LlmCache.Store.TieredReads
