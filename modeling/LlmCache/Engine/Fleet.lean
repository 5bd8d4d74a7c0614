import LlmCache.Engine.Restarts
import LlmCache.Lib.Sharing

/-!
# Engines that share a cold tier

Several processes, each with an engine over its own memory and one cold tier
behind all of them.  As long as they use ids of their own, none of them can
tell that the others are there.
-/

namespace LlmCache.Engine.Fleet

open Errors Lib Payload LlmCache.Types Store ExplicitKVCache
open Restarts (Life lives AdmitsLife Mirrors lives_alike)
open Simulation (StandsForIds SameEngine onStore)
open TieredSimulation (SameHot)
open Store.ColdTiers (Chunks)
open Machine (seenBy ofMember)

variable {σ α : Type} {blake2b : List UInt8 → String} {reopen : σ → σ}

/-- A member over the cold tier that it shares; its own store is its hot tier. -/
def joined (cold : σ) (e : ExplicitKVCache CPUBackend) : ExplicitKVCache (TieredBackend σ) :=
  onStore e ⟨e.store, cold⟩

/-- One process of the fleet, which may end and start anew. -/
def member [StorageBackend σ] (blake2b : List UInt8 → String) (reopen : σ → σ) :
    Machine (σ × ExplicitKVCache CPUBackend) Life Raised EngineReply where
  step s life :=
    let out := (lives blake2b reopen).step (joined s.1 s.2) life
    (out.1, out.2.store.cold, onStore out.2 out.2.store.hot)

/-- A process that has just started. -/
structure Fresh (e : ExplicitKVCache CPUBackend) : Prop where
  hot : ∀ key, e.store.resident key = none
  descriptors : e.descriptors = ∅

theorem member_trace [StorageBackend σ] (cold : σ) (e : ExplicitKVCache CPUBackend)
    (lifes : List Life) :
    (member blake2b reopen).trace (cold, e) lifes =
      (lives blake2b reopen).trace (joined cold e) lifes := by
  induction lifes generalizing cold e with
  | nil => rfl
  | cons life lifes ih =>
      rw [Machine.trace_cons, Machine.trace_cons]
      exact congrArg (List.cons _) (ih _ _)

section Shared

variable [StorageBackend σ] {ids : String → Prop} {obj : KVPayload → Prop}
  {R : σ → Chunks → Prop} {owns : α → String → Prop} {i j : α} {cold : σ}

/-- The cold tier, and a plain map with the same chunks of the member's caches. -/
def ColdOf (owns : α → String → Prop) (obj : KVPayload → Prop) (R : σ → Chunks → Prop) (i : α)
    (cold : σ) (u : Chunks) : Prop :=
  ∃ m, R cold m ∧ LosslessStore.SameOn (fun key : ChunkKey => owns i key.cacheId) obj m u

/-- The member, and one over a plain map that nobody else writes to. -/
def MemberAlone (owns : α → String → Prop) (obj : KVPayload → Prop) (R : σ → Chunks → Prop)
    (i : α) (cold : σ) (e : ExplicitKVCache CPUBackend) (f : ExplicitKVCache (TieredBackend Chunks)) :
    Prop :=
  Mirrors (owns i) obj (ColdOf owns obj R i) (joined cold e) f

theorem standsFor_coldOf (h : StandsForIds σ Chunks (fun _ => False) ids obj R)
    (hids : ∀ i cid, owns i cid → ids cid) (i : α) :
    StandsForIds σ Chunks (fun _ => False) (owns i) obj (ColdOf owns obj R i) := by
  have hown := h.restrict fun key : ChunkKey => hids i key.cacheId
  exact (hown.trans (LosslessStore.standsFor_sameOn Chunks Chunks _ obj)).mono fun _ => or_self_iff.mp

omit [StorageBackend σ] in
theorem coldOf_reopen (hreopen : ∀ s m, R s m → R (reopen s) m) (i : α) (u : Chunks)
    (h : ColdOf owns obj R i cold u) : ColdOf owns obj R i (reopen cold) u := by
  obtain ⟨m, hm, hsame⟩ := h
  exact ⟨m, hreopen _ _ hm, hsame⟩

omit [StorageBackend σ] in
theorem ColdOf.of_beside (hdisjoint : ∀ i j cid, owns i cid → owns j cid → i = j) (hij : i ≠ j)
    {cold' : σ} {m m' u : Chunks}
    (hsame : LosslessStore.SameOn (fun key : ChunkKey => owns i key.cacheId) obj m u)
    (hbeside : ∀ key : ChunkKey, ¬owns j key.cacheId →
      LosslessStore.view m' key = LosslessStore.view m key) (hm' : R cold' m') :
    ColdOf owns obj R i cold' u := by
  refine ⟨m', hm', hsame.of_view (fun key hkey => hbeside key ?_) fun _ _ => rfl⟩
  exact fun hother => hij (hdisjoint i j key.cacheId hkey hother)

theorem memberAlone_own (h : StandsForIds σ Chunks (fun _ => False) ids obj R)
    (hreopen : ∀ s m, R s m → R (reopen s) m) (hids : ∀ i cid, owns i cid → ids cid)
    {e : ExplicitKVCache CPUBackend} {f : ExplicitKVCache (TieredBackend Chunks)}
    (hsame : MemberAlone owns obj R i cold e f) {life : Life}
    (hlife : AdmitsLife (owns i) obj life) :
    EndAlike (fun _ => False) (fun s f => MemberAlone owns obj R i s.1 s.2 f)
      ((member blake2b reopen).step (cold, e) life) ((lives blake2b id).step f life) := by
  obtain ⟨houtcome, hnext⟩ := (lives_alike (standsFor_coldOf h hids i)
    (fun _ u => coldOf_reopen hreopen i u) hsame hlife).same
  exact .of_eq houtcome hnext

theorem memberAlone_others (h : StandsForIds σ Chunks (fun _ => False) ids obj R)
    (hreopen : ∀ s m, R s m → R (reopen s) m) (hids : ∀ i cid, owns i cid → ids cid)
    (hdisjoint : ∀ i j cid, owns i cid → owns j cid → i = j) (hij : i ≠ j)
    {e e' : ExplicitKVCache CPUBackend} {f f' : ExplicitKVCache (TieredBackend Chunks)}
    (hsame : MemberAlone owns obj R i cold e f) (hother : MemberAlone owns obj R j cold e' f')
    {life : Life} (hlife : AdmitsLife (owns j) obj life) :
    MemberAlone owns obj R i ((member blake2b reopen).step (cold, e') life).2.1 e f := by
  obtain ⟨m, hm, hcontent⟩ := hsame.store.cold
  have hbeside := LosslessStore.standsFor_beside
    (h.restrict fun key : ChunkKey => hids j key.cacheId) (LosslessStore.view m)
  have hstart : Mirrors (owns j) obj (fun s t => R s t ∧ ∀ key : ChunkKey, ¬owns j key.cacheId →
      LosslessStore.view t key = LosslessStore.view m key) (joined cold e') (joined m e') :=
    ⟨rfl, rfl, rfl, ⟨rfl, ⟨hm, fun _ _ => rfl⟩, hother.store.admitted⟩, hother.keyed⟩
  obtain ⟨_, hnext⟩ := (lives_alike hbeside (fun s t hst => ⟨hreopen s t hst.1, hst.2⟩) hstart
    hlife).same
  obtain ⟨hm', hview⟩ := hnext.store.cold
  refine ⟨hsame.chunkSize, hsame.defaultTtl, hsame.descriptors, ?_, hsame.keyed⟩
  exact ⟨hsame.store.hot, .of_beside hdisjoint hij hcontent hview hm', hsame.store.admitted⟩

theorem memberAlone_fresh (h : StandsForIds σ Chunks (fun _ => False) ids obj R)
    (hids : ∀ i cid, owns i cid → ids cid) {m : Chunks} (hm : R cold m)
    {e : ExplicitKVCache CPUBackend} (hfresh : Fresh e) (i : α) :
    MemberAlone owns obj R i cold e (joined m e) := by
  refine ⟨rfl, rfl, rfl, ⟨rfl, ⟨m, hm, fun _ _ => rfl, fun key o hkey ho => ?_⟩, ?_⟩, ?_⟩
  · exact LosslessStore.admitted_of_standsFor h hm (hids i key.cacheId hkey) ho
  · intro key o hres
    have hnone := hfresh.hot key
    rw [show (joined cold e).store.hot = e.store from rfl, hnone] at hres
    cases hres
  · intro cid d hd
    rw [show (joined cold e).descriptors = e.descriptors from rfl, hfresh.descriptors] at hd
    cases hd

/-- A member is answered as if there were no others. -/
theorem seenBy_fleet [DecidableEq α] (h : StandsForIds σ Chunks (fun _ => False) ids obj R)
    (hreopen : ∀ s m, R s m → R (reopen s) m) (hids : ∀ i cid, owns i cid → ids cid)
    (hdisjoint : ∀ i j cid, owns i cid → owns j cid → i = j) {m : Chunks} (hm : R cold m)
    {engines : α → ExplicitKVCache CPUBackend} (hfresh : ∀ i, Fresh (engines i))
    {ops : List (α × Life)} (hops : ∀ op ∈ ops, AdmitsLife (owns op.1) obj op.2) (i : α) :
    seenBy i (((member blake2b reopen).sharing α).trace (cold, engines) ops) =
      (lives blake2b reopen).trace (joined cold (engines i)) (ofMember i ops) := by
  have hown : ∀ i cold e f life, MemberAlone owns obj R i cold e f →
      AdmitsLife (owns i) obj life → EndAlike (fun _ => False)
        (fun s f => MemberAlone owns obj R i s.1 s.2 f)
        ((member blake2b reopen).step (cold, e) life) ((lives blake2b id).step f life) :=
    fun _ _ _ _ _ hsame hlife => memberAlone_own h hreopen hids hsame hlife
  have hstart : ∀ i, MemberAlone owns obj R i cold (engines i) (joined m (engines i)) :=
    fun i => memberAlone_fresh h hids hm (hfresh i) i
  rw [← member_trace]
  exact (member blake2b reopen).sharing_alone (lives blake2b id) hown
    (fun _ _ hij _ _ _ _ _ _ hsame hother hlife =>
      memberAlone_others h hreopen hids hdisjoint hij hsame hother hlife) hstart hops i

end Shared

end LlmCache.Engine.Fleet
