import LlmCache.Lib.Simulation
import LlmCache.Store.TieredReads
import LlmCache.Store.TieredRefinement

/-!
# Other cold tiers under the same hot tier

The hot tier reaches the cold one through its interface only, so a cold tier
may be replaced by one that it stands for.  Over a lossless cold tier the two
tiers stand for a lossless store, until a put finds no room in hot.
-/

namespace LlmCache.Store.TieredSimulation

open Errors Lib Payload LlmCache.Types KeyedStore
open CPUBackend (evictLoop)
open TieredBackend (demote hotPut)

/-! ## Another cold tier -/

section Cold

variable {σ τ : Type} [StorageBackend σ] [StorageBackend τ] {ends : Raised → Prop}
  {key : ChunkKey → Prop} {obj : KVPayload → Prop} {R : σ → τ → Prop}

/-- The same hot tier, with nothing in it that a cold tier may not get, over
related cold tiers. -/
structure SameHot (key : ChunkKey → Prop) (obj : KVPayload → Prop) (R : σ → τ → Prop)
    (t : TieredBackend σ) (u : TieredBackend τ) : Prop where
  hot : t.hot = u.hot
  cold : R t.cold u.cold
  admitted : ∀ k o, t.hot.resident k = some o → key k ∧ obj o

/-- How a call that makes room ends over either cold tier. -/
def RoomsAlike (ends : Raised → Prop) (key : ChunkKey → Prop) (obj : KVPayload → Prop)
    (R : σ → τ → Prop) (room : Room σ) (room' : Room τ) : Prop :=
  EndAlike ends (SameHot key obj R) (room.result, ⟨room.hot, room.lower⟩)
    (room'.result, ⟨room'.hot, room'.lower⟩)

variable {s : CPUBackend} {a : σ} {b : τ}

theorem evictLoop_alike (h : StandsFor σ τ ends key obj R) (capacity incoming : Nat)
    (protect : ChunkKey) (keys : List ChunkKey) (hs : SameHot key obj R ⟨s, a⟩ ⟨s, b⟩) :
    RoomsAlike ends key obj R (evictLoop demote capacity incoming protect keys s a)
      (evictLoop demote capacity incoming protect keys s b) := by
  induction keys generalizing s a b with
  | nil => exact .of_eq rfl hs
  | cons k rest ih =>
      simp only [evictLoop]
      split_ifs with hfits hspared
      · exact .of_eq rfl hs
      · exact ih hs
      cases hlook : s.data.lookup k with
      | none => exact ih hs
      | some victim =>
          obtain ⟨hk, ho⟩ := hs.admitted k victim hlook
          have hleft : ∀ k' o, (s.evict k victim).resident k' = some o → key k' ∧ obj o := by
            intro k' o hres
            rw [CPUBackend.resident_evict] at hres
            split_ifs at hres with heq
            exact hs.admitted k' o hres
          have hput := h.put k victim false hs.cold hk ho
          simp only [demote] at hput ⊢
          generalize KeyedStore.put a k victim false = out at hput ⊢
          generalize KeyedStore.put b k victim false = out' at hput ⊢
          obtain ⟨result, a'⟩ := out
          obtain ⟨result', b'⟩ := out'
          rcases hput with ⟨err, rfl, hends⟩ | ⟨rfl, hcold⟩
          · exact .inl ⟨err, rfl, hends⟩
          · cases result with
            | error err => exact .of_eq rfl ⟨rfl, hcold, hleft⟩
            | ok _ => exact ih ⟨rfl, hcold, hleft⟩

theorem ensureRoom_alike (h : StandsFor σ τ ends key obj R) (incoming : Nat) (protect : ChunkKey)
    (hs : SameHot key obj R ⟨s, a⟩ ⟨s, b⟩) :
    RoomsAlike ends key obj R (s.ensureRoom demote a incoming protect)
      (s.ensureRoom demote b incoming protect) := by
  unfold CPUBackend.ensureRoom
  cases s.capacityBytes with
  | none => exact .of_eq rfl hs
  | some capacity =>
      simp only
      by_cases hbig : capacity < incoming ∧ s.pinned = ∅
      · rw [if_pos hbig, if_pos hbig]
        exact .of_eq rfl hs
      rw [if_neg hbig, if_neg hbig]
      have hloop := evictLoop_alike h capacity incoming protect s.data.keys hs
      generalize evictLoop demote capacity incoming protect s.data.keys s a = room at hloop ⊢
      generalize evictLoop demote capacity incoming protect s.data.keys s b = room' at hloop ⊢
      obtain ⟨result, hot, lower⟩ := room
      obtain ⟨result', hot', lower'⟩ := room'
      rcases hloop with ⟨err, rfl, hends⟩ | ⟨rfl, hsame⟩
      · exact .inl ⟨err, rfl, hends⟩
      · obtain rfl : hot = hot' := hsame.hot
        cases result with
        | error err => exact .of_eq rfl hsame
        | ok _ =>
            simp only
            split_ifs <;> exact .of_eq rfl hsame

variable {t : TieredBackend σ} {u : TieredBackend τ} {k : ChunkKey} {o : KVPayload}

theorem hotPut_alike (h : StandsFor σ τ ends key obj R) (hrel : SameHot key obj R t u)
    (hk : key k) (ho : obj o) (pin : Bool) :
    EndAlike ends (SameHot key obj R) (t.hotPut k o pin) (u.hotPut k o pin) := by
  obtain ⟨hot, a⟩ := t
  obtain ⟨hot', b⟩ := u
  obtain rfl : hot = hot' := hrel.hot
  have hdropped : SameHot key obj R ⟨hot.dropOld k, a⟩ ⟨hot.dropOld k, b⟩ := by
    refine ⟨rfl, hrel.cold, fun k' o' hres => ?_⟩
    rw [CPUBackend.resident_dropOld] at hres
    split_ifs at hres with heq
    exact hrel.admitted k' o' hres
  have hroom := ensureRoom_alike h o.nbytes k hdropped
  simp only [hotPut, CPUBackend.put]
  generalize (hot.dropOld k).ensureRoom demote a o.nbytes k = room at hroom ⊢
  generalize (hot.dropOld k).ensureRoom demote b o.nbytes k = room' at hroom ⊢
  obtain ⟨result, roomHot, lower⟩ := room
  obtain ⟨result', roomHot', lower'⟩ := room'
  rcases hroom with ⟨err, rfl, hends⟩ | ⟨rfl, hsame⟩
  · exact .inl ⟨err, rfl, hends⟩
  · obtain rfl : roomHot = roomHot' := hsame.hot
    cases result with
    | error err => exact .of_eq rfl hsame
    | ok _ =>
        refine .of_eq rfl ⟨rfl, hsame.cold, fun k' o' hres => ?_⟩
        rw [CPUBackend.resident_store] at hres
        split_ifs at hres with heq
        · rw [heq, ← Option.some.inj hres]
          exact ⟨hk, ho⟩
        · exact hsame.admitted k' o' hres

theorem put_alike (h : StandsFor σ τ ends key obj R) (hrel : SameHot key obj R t u)
    (hk : key k) (ho : obj o) (pin : Bool) :
    EndAlike ends (SameHot key obj R) (t.put k o pin) (u.put k o pin) := by
  have hput := hotPut_alike h hrel hk ho pin
  simp only [TieredBackend.put]
  generalize t.hotPut k o pin = out at hput ⊢
  generalize u.hotPut k o pin = out' at hput ⊢
  obtain ⟨result, t'⟩ := out
  obtain ⟨result', u'⟩ := out'
  rcases hput with ⟨err, rfl, hends⟩ | ⟨rfl, hnext⟩
  · exact .inl ⟨err, rfl, hends⟩
  · cases result with
    | error err => exact .of_eq rfl hnext
    | ok _ =>
        cases pin with
        | false => exact .of_eq rfl hnext
        | true =>
            rcases h.put k o true hnext.cold hk ho with hraised | ⟨hsame, hcold⟩
            · exact .inl hraised
            · exact .of_eq hsame ⟨hnext.hot, hcold, hnext.admitted⟩

theorem get_alike (h : StandsFor σ τ ends key obj R) (hrel : SameHot key obj R t u)
    (hk : key k) :
    EndAlike ends (SameHot key obj R) (t.get k) (u.get k) := by
  obtain ⟨hot, a⟩ := t
  obtain ⟨hot', b⟩ := u
  obtain rfl : hot = hot' := hrel.hot
  have hres := CPUBackend.resident_get hot k
  simp only [TieredBackend.get]
  generalize hot.get k = read at hres ⊢
  obtain ⟨found, hot'⟩ := read
  have hread : ∀ {a' : σ} {b' : τ}, R a' b' →
      SameHot key obj R ⟨hot', a'⟩ ⟨hot', b'⟩ := by
    intro a' b' hcold
    refine ⟨rfl, hcold, fun k' o' h' => hrel.admitted k' o' ?_⟩
    rw [← h']
    exact (hres k').symm
  cases found with
  | some p => exact .of_eq rfl (hread hrel.cold)
  | none =>
      have hcold := h.get k hrel.cold hk
      have hgot := fun p => h.got k p hrel.cold hk
      simp only at hcold hgot ⊢
      generalize KeyedStore.get a k = out at hcold hgot ⊢
      generalize KeyedStore.get b k = out' at hcold ⊢
      obtain ⟨result, a'⟩ := out
      obtain ⟨result', b'⟩ := out'
      rcases hcold with ⟨err, rfl, hends⟩ | ⟨rfl, hnext⟩
      · exact .inl ⟨err, rfl, hends⟩
      · rcases result with err | _ | p
        · exact .of_eq rfl (hread hnext)
        · exact .of_eq rfl (hread hnext)
        · -- a cold hit is promoted
          have hput := hotPut_alike h (hread hnext) hk (hgot p rfl) false
          simp only
          generalize hotPut ⟨hot', a'⟩ k p false = out at hput ⊢
          generalize hotPut ⟨hot', b'⟩ k p false = out' at hput ⊢
          obtain ⟨result, t'⟩ := out
          obtain ⟨result', u'⟩ := out'
          rcases hput with ⟨err, rfl, hends⟩ | ⟨rfl, hpromoted⟩
          · exact .inl ⟨err, rfl, hends⟩
          · cases result <;> exact .of_eq rfl hpromoted

theorem got_admitted (h : StandsFor σ τ ends key obj R) (hrel : SameHot key obj R t u)
    (hk : key k) (hget : (t.get k).1 = .ok (some o)) : obj o := by
  have hfst := CPUBackend.get_fst t.hot k
  have hgot := fun p => h.got k p hrel.cold hk
  simp only [TieredBackend.get] at hget
  generalize t.hot.get k = read at hfst hget
  generalize KeyedStore.get t.cold k = out at hgot hget
  obtain ⟨found, hot⟩ := read
  obtain ⟨result, cold⟩ := out
  cases found with
  | some p =>
      obtain rfl := Option.some.inj (Except.ok.inj hget)
      exact (hrel.admitted k p hfst.symm).2
  | none =>
      rcases result with err | _ | p
      · cases hget
      · cases hget
      · apply hgot
        simp only at hget ⊢
        generalize hotPut ⟨hot, cold⟩ k p false = out at hget
        obtain ⟨err | _, t'⟩ := out
        · cases hget
        · exact hget

/-- The cold tier may be replaced by what it stands for. -/
theorem standsFor_cold (h : StandsFor σ τ ends key obj R) :
    StandsFor (TieredBackend σ) (TieredBackend τ) ends key obj (SameHot key obj R) where
  put k o pin := fun hrel hk ho => put_alike h hrel hk ho pin
  get k := fun hrel hk => get_alike h hrel hk
  got k o := fun hrel hk hget => got_admitted h hrel hk hget
  contains k hrel hk := by
    simp only [KeyedStore.contains, TieredBackend.contains]
    rw [hrel.hot, h.contains k hrel.cold hk]
  remove k hrel hk := by
    obtain ⟨hsame, hcold⟩ := h.remove k hrel.cold hk
    simp only [KeyedStore.remove, TieredBackend.remove]
    refine ⟨by rw [hrel.hot, hsame], by rw [hrel.hot], hcold, fun k' o hres => ?_⟩
    rw [CPUBackend.resident_remove] at hres
    split_ifs at hres with heq
    exact hrel.admitted k' o hres
  pin k hrel hk := by
    refine ⟨congrArg (·.pin k) hrel.hot, h.pin k hrel.cold hk, fun k' o hres => ?_⟩
    exact hrel.admitted k' o ((CPUBackend.resident_pin _ k k').symm.trans hres)
  unpin k hrel hk :=
    ⟨congrArg (·.unpin k) hrel.hot, h.unpin k hrel.cold hk, hrel.admitted⟩

end Cold

/-! ## A lossless cold tier -/

section Lossless

variable {σ τ : Type} [LosslessBackend σ] [LosslessBackend τ] {key : ChunkKey → Prop}
  {obj : KVPayload → Prop} {t : TieredBackend σ} {u : τ} {k : ChunkKey}

def IsStorageFull : Raised → Prop
  | .storageFull _ => True
  | _ => False

theorem isStorageFull_of_hotPut {o : KVPayload} {pin : Bool} {err : Raised}
    (herr : (t.hotPut k o pin).1 = .error err) : IsStorageFull err := by
  obtain ⟨msg, rfl⟩ := Eviction.put_error_storageFull TieredReads.accepts_demote herr
  trivial

/-- The current copies of the two tiers are what the other store holds. -/
structure Shows (key : ChunkKey → Prop) (obj : KVPayload → Prop) (t : TieredBackend σ) (u : τ) :
    Prop where
  current_eq : t.current = LosslessStore.view u
  admitted : ∀ k o, key k → t.current k = some o → obj o

theorem Shows.of_current {t' : TieredBackend σ} {u' : τ} (h : Shows key obj t u)
    (ht : t'.current = t.current) (hu : LosslessStore.view u' = LosslessStore.view u) :
    Shows key obj t' u' where
  current_eq := by rw [ht, hu, h.current_eq]
  admitted := by
    rw [ht]
    exact h.admitted

theorem Shows.update {t' : TieredBackend σ} {u' : τ} (h : Shows key obj t u)
    {o : Option KVPayload} (ho : ∀ p ∈ o, obj p)
    (ht : t'.current = Function.update t.current k o)
    (hu : LosslessStore.view u' = Function.update (LosslessStore.view u) k o) :
    Shows key obj t' u' where
  current_eq := by rw [ht, hu, h.current_eq]
  admitted := by
    intro k' p hk' hp
    rw [ht, Function.update_apply] at hp
    split_ifs at hp with hk
    · exact ho p hp
    · exact h.admitted k' p hk' hp

theorem put_shows (hrel : Shows key obj t u) {o : KVPayload} (ho : obj o) (pin : Bool) :
    EndAlike IsStorageFull (Shows key obj) (t.put k o pin) (KeyedStore.put u k o pin) := by
  cases hput : (t.put k o pin).1 with
  | error err =>
      refine .inl ⟨err, hput, ?_⟩
      exact isStorageFull_of_hotPut ((TieredBackend.put_cases t k o pin).1.symm.trans hput)
  | ok _ =>
      refine .of_eq (hput.trans (LosslessStore.put_ok u k o pin).symm) ?_
      refine hrel.update (o := some o) ?_ (TieredRefinement.current_put_of_ok hput)
        (LosslessStore.view_put u k o pin)
      rintro p ⟨⟩
      exact ho

/-- A get raises when it promotes to a hot tier without room. -/
theorem isStorageFull_of_get {err : Raised} (herr : (t.get k).1 = .error err) :
    IsStorageFull err := by
  rcases TieredBackend.get_cases t k with
    ⟨_, _, hfst, _⟩ | ⟨_, _, hfst, _⟩ | ⟨o, t₁, _, _, _, _, _, hfst, _⟩
  · rw [herr] at hfst
    cases hfst
  · rw [herr] at hfst
    cases hfst
  · rw [herr] at hfst
    cases hput : (t₁.hotPut k o false).1 with
    | error err' =>
        rw [hput] at hfst
        obtain rfl := Except.error.inj hfst
        exact isStorageFull_of_hotPut hput
    | ok _ =>
        rw [hput] at hfst
        cases hfst

theorem get_shows (hrel : Shows key obj t u) :
    EndAlike IsStorageFull (Shows key obj) (t.get k) (KeyedStore.get u k) := by
  cases hget : (t.get k).1 with
  | error err => exact .inl ⟨err, hget, isStorageFull_of_get hget⟩
  | ok found =>
      obtain ⟨hfound, hcurrent⟩ := TieredRefinement.get_of_ok hget
      refine .of_eq ?_ (hrel.of_current hcurrent (LosslessStore.view_get u k))
      rw [LosslessStore.get_ok, ← hrel.current_eq, ← hfound]
      exact hget

/-- Until hot finds no room, the two tiers stand for a lossless store. -/
theorem standsFor_lossless (σ τ : Type) [LosslessBackend σ] [LosslessBackend τ]
    (key : ChunkKey → Prop) (obj : KVPayload → Prop) :
    StandsFor (TieredBackend σ) τ IsStorageFull key obj (Shows key obj) where
  put k o pin := fun hrel _ ho => put_shows hrel ho pin
  get k := fun hrel _ => get_shows hrel
  got k o hrel hk hget :=
    hrel.admitted k o hk (TieredRefinement.get_of_ok hget).1.symm
  contains k hrel _ := by
    rw [LosslessStore.contains_eq, ← hrel.current_eq]
    exact TieredBackend.contains_eq _ k
  remove k hrel _ := by
    refine ⟨?_, ?_⟩
    · rw [LosslessStore.remove_eq, ← hrel.current_eq]
      exact TieredBackend.remove_fst _ k
    · exact hrel.update (o := none) (fun p hp => by cases hp) (TieredBackend.current_remove _ k)
        (LosslessStore.view_remove _ k)
  pin k hrel _ := hrel.of_current (TieredBackend.current_pin _ k) (LosslessStore.view_pin _ k)
  unpin k hrel _ :=
    hrel.of_current (TieredBackend.current_unpin _ k) (LosslessStore.view_unpin _ k)

end Lossless

end LlmCache.Store.TieredSimulation
