import LlmCache.Engine.Effects
import LlmCache.Engine.Prefix
import Mathlib.Data.Fin.VecNotation

/-!
# Registrations and deletions of one id

Chunks are written before a descriptor is published and removed after it is
taken out, one store call at a time, so two calls may meet on a chunk.  As long
as no call undoes what another one relies on, the chunks of a descriptor are
those of the call that published it.
-/

namespace LlmCache.Engine.RegisterDelete

open Errors Lib Payload LlmCache.Types Store ExplicitKVCache Descriptors Chunks Interleaving
  Effects Prefix

open LosslessStore (view)

variable {σ ι : Type} [LosslessBackend σ] [DecidableEq ι] {blake2b : List UInt8 → String}

/-- The call is a registration, and what is held under the keys of the
descriptor are the payloads that it supplies. -/
def Supplied (cid : String) (call : Call) (d : CacheDescriptor)
    (held : ChunkKey → Option KVPayload) : Prop :=
  ∃ r newId, call = .register r newId ∧ ∀ worker ∈ d.workerIds, ∀ index < d.numChunks,
    ∃ payload, chunkOf r worker index = some payload ∧ held ⟨cid, index, worker⟩ = some payload

/-- Once all calls have ended, the store holds for a live descriptor the
payloads of the `register` call that published it. -/
def Consistent (calls : ι → Call) (cid : String) (w : World σ ι) : Prop :=
  (∀ i, (w.phase i).Ended) → ∀ obj d, w.shared.descriptors.lookup cid = some obj →
    w.shared.object obj = some d → d.isExpired none w.clock = false →
    Supplied cid (calls obj) d (view w.shared.store)

/-- The condition on the next step of a call.  A `put` puts the payload that
its chunk holds already, if another registration has put the chunk and not yet
published; a `remove` spares such chunks; a descriptor is published when no
clean-up has one of its chunks left to remove; and a registration that has made
its puts has a lifetime that can be added and gets its fingerprints. -/
def Spares (blake2b : List UInt8 → String) (cid : String) (w : World σ ι) : Phase ι → Prop
  | .putting _ _ ((key, payload) :: _) =>
      key.cacheId = cid → ∀ j, (w.phase j).HasPut key → view w.shared.store key = some payload
  | .putting r newId [] => resolveId r.cacheId newId = cid →
      (∀ ttl ∈ r.ttl.or w.shared.defaultTtl, ttl.Addable) ∧
        (fingerprints blake2b (tokenSlices r.tokenIds w.shared.chunkSize)).isOk
  | .publishing id d => id = cid → ∀ key ∈ chunkKeys id d, ∀ j, ¬(w.phase j).Removes key
  | .cleaning (key :: _) _ _ => key.cacheId = cid → ∀ j, ¬(w.phase j).HasPut key
  | _ => True

instance [Fintype ι] (cid : String) (w : World σ ι) : DecidablePred (Spares blake2b cid w) :=
  fun p => match p with
  | .putting _ _ ((key, payload) :: _) => inferInstanceAs (Decidable
      (key.cacheId = cid → ∀ j, (w.phase j).HasPut key → view w.shared.store key = some payload))
  | .putting r newId [] => inferInstanceAs (Decidable (resolveId r.cacheId newId = cid →
      (∀ ttl ∈ r.ttl.or w.shared.defaultTtl, ttl.Addable) ∧
        (fingerprints blake2b (tokenSlices r.tokenIds w.shared.chunkSize)).isOk))
  | .publishing id d => inferInstanceAs (Decidable
      (id = cid → ∀ key ∈ chunkKeys id d, ∀ j, ¬(w.phase j).Removes key))
  | .cleaning (key :: _) _ _ => inferInstanceAs (Decidable
      (key.cacheId = cid → ∀ j, ¬(w.phase j).HasPut key))
  | .cleaning [] _ _ | .ready _ | .testing .. | .touching _ | .loading _ | .extending ..
  | .writing .. | .marking .. | .pinning .. | .sweeping _ | .returned | .raised _ => .isTrue trivial

/-- The condition on an event; the clock is free. -/
def KeepsChunks (blake2b : List UInt8 → String) (cid : String) (w : World σ ι) : Event ι → Prop
  | .call i => Spares blake2b cid w (w.phase i)
  | .clock _ => True

instance [Fintype ι] (cid : String) (w : World σ ι) : DecidablePred (KeepsChunks blake2b cid w) :=
  fun event => match event with
  | .call i => inferInstanceAs (Decidable (Spares blake2b cid w (w.phase i)))
  | .clock _ => inferInstanceAs (Decidable True)

/-! ## Chunks and steps -/

theorem payload_unique {r : Registration} {newId : String} {key : ChunkKey}
    {payload payload' : KVPayload} (h : (key, payload) ∈ putsOf r newId)
    (h' : (key, payload') ∈ putsOf r newId) : payload = payload' := by
  obtain ⟨worker, index, rfl, hchunk⟩ := (mem_putsOf_iff r newId key payload).mp h
  exact (eq_of_mem_putsOf hchunk h').symm

theorem Supplied.of_view {cid : String} {call : Call} {d : CacheDescriptor}
    {held held' : ChunkKey → Option KVPayload} (h : Supplied cid call d held)
    (hkept : ∀ key ∈ chunkKeys cid d, held' key = held key) : Supplied cid call d held' := by
  obtain ⟨r, newId, hcall, hchunks⟩ := h
  refine ⟨r, newId, hcall, fun worker hworker index hindex => ?_⟩
  rw [hkept _ ((mem_chunkKeys_iff ..).mpr ⟨worker, hworker, index, hindex, rfl⟩)]
  exact hchunks worker hworker index hindex

theorem Supplied.of_same {cid : String} {call : Call} {d d' : CacheDescriptor}
    {held : ChunkKey → Option KVPayload} (h : Supplied cid call d held) (hsame : SameCache d d') :
    Supplied cid call d' held := by
  unfold Supplied
  rw [hsame.workerIds, hsame.numChunks]
  exact h

section Effects

variable {w : World σ ι} {cid : String} {i : ι} {p' : Phase ι} {s' : Shared σ ι}

/-- A chunk that a registration has put stays as it is until it publishes. -/
theorem view_kept (h : Effect blake2b w.shared w.clock i (w.phase i) p' s')
    (hguard : Spares blake2b cid w (w.phase i)) {key : ChunkKey} (hid : key.cacheId = cid) {j : ι}
    (hput : (w.phase j).HasPut key) : view s'.store key = view w.shared.store key := by
  generalize w.phase i = p at h hguard
  cases h with
  | quiet _ _ _ hview => rw [hview]
  | @put _ _ put payload _ _ hview =>
      rw [hview]
      by_cases hkey : key = put
      · subst hkey
        rw [Function.update_self, hguard hid j hput]
      · rw [Function.update_of_ne hkey]
  | @removed removed _ _ _ _ hview =>
      have hkey : key ≠ removed := by
        rintro rfl
        exact hguard hid j hput
      rw [hview, Function.update_of_ne hkey]
  | started => rfl
  | built => rfl
  | published => rfl
  | written => rfl
  | popped => rfl

/-- Only registrations of its id and clean-ups change a chunk. -/
theorem view_of_effect {s : Shared σ ι} {clock : Time} {p : Phase ι}
    (h : Effect blake2b s clock i p p' s')
    (hrest : ∀ r newId rest, p = .putting r newId rest → ∀ chunk ∈ rest, chunk ∈ putsOf r newId)
    (key : ChunkKey) :
    view s'.store key = view s.store key ∨ p.Registers key.cacheId ∨ p.Removes key := by
  cases h with
  | quiet _ _ _ hview => exact .inl (by rw [hview])
  | @put r newId put payload rest _ hview =>
      by_cases hkey : key = put
      · subst hkey
        have hmem := hrest r newId _ rfl _ (List.mem_cons_self ..)
        exact .inr (.inl (cacheId_of_mem_putsOf hmem).symm)
      · exact .inl (by rw [hview, Function.update_of_ne hkey])
  | @removed removed keys ids failure store hview =>
      by_cases hkey : key = removed
      · subst hkey
        exact .inr (.inr (List.mem_cons_self ..))
      · exact .inl (by rw [hview, Function.update_of_ne hkey])
  | started => exact .inl rfl
  | built => exact .inl rfl
  | published => exact .inl rfl
  | written => exact .inl rfl
  | popped => exact .inl rfl

/-- A chunk is left to remove after a step: it was before, or its cache is gone. -/
theorem removes_of_effect {s : Shared σ ι} {clock : Time} {p : Phase ι}
    (h : Effect blake2b s clock i p p' s') {key : ChunkKey} (hremoves : p'.Removes key) :
    p.Removes key ∨ s'.descriptors.lookup key.cacheId = none := by
  cases h with
  | quiet _ _ _ _ _ hplain => exact absurd hremoves (hplain.not_removes key)
  | started => exact hremoves.elim
  | put => exact hremoves.elim
  | built => exact hremoves.elim
  | published => exact hremoves.elim
  | written => exact hremoves.elim
  | popped =>
      obtain rfl := cacheId_of_mem_chunkKeys hremoves
      exact .inr (AList.lookup_erase _ _)
  | removed => exact .inl (List.mem_cons_of_mem _ hremoves)

theorem registers_of_putting {r : Registration} {newId : String}
    {rest : List (ChunkKey × KVPayload)} (hp : w.phase i = .putting r newId rest)
    (hguard : Spares blake2b (resolveId r.cacheId newId) w (w.phase i)) :
    (advance blake2b w.shared w.clock i (w.phase i)).1.Registers
      (resolveId r.cacheId newId) := by
  rw [hp] at hguard ⊢
  cases rest with
  | cons chunk rest =>
      simp only [advance, LosslessStore.put_ok]
      rfl
  | nil =>
      obtain ⟨haddable, hdigests⟩ := hguard rfl
      obtain ⟨expiresAt, hexpiry⟩ := (Ttl.expiry_ok_iff w.clock _).mpr haddable
      cases hfps : fingerprints blake2b (tokenSlices r.tokenIds w.shared.chunkSize) with
      | error err => simp [hfps, Except.isOk, Except.toBool] at hdigests
      | ok digests =>
          simp only [advance, Shared.build, build_of_ok (s := w.shared.config) hexpiry hfps]
          rfl

end Effects

/-! ## Runs -/

/-- The invariant. -/
structure Tracked (blake2b : List UInt8 → String) (calls : ι → Call) (size : Nat) (cid : String)
    (w : World σ ι) : Prop where
  wellFormed : WellFormed blake2b calls size w
  rest : ∀ i r newId rest, w.phase i = .putting r newId rest →
    ∀ chunk ∈ rest, chunk ∈ putsOf r newId
  putting : ∀ i r newId rest, w.phase i = .putting r newId rest →
    resolveId r.cacheId newId = cid → ∀ key payload, (key, payload) ∈ putsOf r newId →
      (key, payload) ∈ rest ∨ view w.shared.store key = some payload
  publishing : ∀ i d, w.phase i = .publishing cid d →
    Supplied cid (calls i) d (view w.shared.store)
  published : (∃ j, (w.phase j).Registers cid) ∨ ∀ obj d,
    w.shared.descriptors.lookup cid = some obj → w.shared.object obj = some d →
      Supplied cid (calls obj) d (view w.shared.store) ∧
        ∀ key ∈ chunkKeys cid d, ∀ j, ¬(w.phase j).Removes key

section Step

variable {calls : ι → Call} {size : Nat} {cid : String} {w : World σ ι} {i : ι}

theorem putting_step (hinv : Tracked blake2b calls size cid w)
    (hguard : Spares blake2b cid w (w.phase i)) {p' : Phase ι} {s' : Shared σ ι}
    (h : Effect blake2b w.shared w.clock i (w.phase i) p' s') {j : ι} {r : Registration}
    {newId : String} {rest : List (ChunkKey × KVPayload)}
    (hj : Function.update w.phase i p' j = .putting r newId rest)
    (hid : resolveId r.cacheId newId = cid) {key : ChunkKey} {payload : KVPayload}
    (hmem : (key, payload) ∈ putsOf r newId) :
    (key, payload) ∈ rest ∨ view s'.store key = some payload := by
  by_cases hji : j = i
  · subst hji
    rw [Function.update_self] at hj
    subst hj
    generalize hp : w.phase j = p at h
    cases h with
    | quiet _ _ _ _ _ hplain => exact hplain.elim
    | started => exact .inl hmem
    | @put _ _ put obj _ _ hview =>
        by_cases hkey : key = put
        · subst hkey
          have hput := hinv.rest j r newId _ hp _ (List.mem_cons_self ..)
          right
          rw [hview, Function.update_self, payload_unique hput hmem]
        · refine (hinv.putting j r newId _ hp hid key payload hmem).imp ?_ ?_
          · intro hrest
            apply (List.mem_cons.mp hrest).resolve_left
            rintro ⟨⟩
            exact hkey rfl
          · intro hheld
            rw [hview, Function.update_of_ne hkey, hheld]
  · rw [Function.update_of_ne hji] at hj
    by_cases hrest : (key, payload) ∈ rest
    · exact .inl hrest
    · right
      have hput : (w.phase j).HasPut key := by
        rw [hj]
        refine ⟨List.mem_map_of_mem hmem, fun hkey => ?_⟩
        obtain ⟨⟨_, payload'⟩, hrest', rfl⟩ := List.mem_map.mp hkey
        obtain rfl := payload_unique hmem (hinv.rest j r newId rest hj _ hrest')
        exact hrest hrest'
      rw [view_kept h hguard ((cacheId_of_mem_putsOf hmem).trans hid) hput]
      exact (hinv.putting j r newId rest hj hid key payload hmem).resolve_left hrest

theorem publishing_step (hinv : Tracked blake2b calls size cid w)
    (hguard : Spares blake2b cid w (w.phase i)) {p' : Phase ι} {s' : Shared σ ι}
    (h : Effect blake2b w.shared w.clock i (w.phase i) p' s') {j : ι} {d : CacheDescriptor}
    (hj : Function.update w.phase i p' j = .publishing cid d) :
    Supplied cid (calls j) d (view s'.store) := by
  by_cases hji : j = i
  · subst hji
    rw [Function.update_self] at hj
    subst hj
    generalize hp : w.phase j = p at h
    cases h with
    | quiet _ _ _ _ _ hplain => exact hplain.elim
    | @built r newId _ hd =>
        obtain ⟨hcall, hcounts⟩ := hinv.wellFormed.putting j r newId [] hp
        rw [← hinv.wellFormed.chunkSize] at hcounts
        refine ⟨r, newId, hcall, fun worker hworker index hindex => ?_⟩
        obtain ⟨chunk, hchunk, hmem⟩ := (made_of_build hcounts hd).mem_putsOf hworker hindex
        refine ⟨chunk, hchunk, ?_⟩
        exact (hinv.putting j r newId [] hp rfl _ chunk hmem).resolve_left List.not_mem_nil
  · rw [Function.update_of_ne hji] at hj
    apply (hinv.publishing j d hj).of_view
    intro key hkey
    apply view_kept h hguard (cacheId_of_mem_chunkKeys hkey) (j := j)
    rw [hj]
    exact hkey

/-- The publishing step: the descriptor gets the chunks of its registration. -/
theorem published_of_publishing (hinv : Tracked blake2b calls size cid w)
    (hguard : Spares blake2b cid w (w.phase i)) {d : CacheDescriptor}
    (hp : w.phase i = .publishing cid d) {obj : ι} {d' : CacheDescriptor}
    (hobj : (w.step blake2b (.call i)).shared.descriptors.lookup cid = some obj)
    (hd' : (w.step blake2b (.call i)).shared.object obj = some d') :
    Supplied cid (calls obj) d' (view (w.step blake2b (.call i)).shared.store) ∧
      ∀ key ∈ chunkKeys cid d', ∀ j, ¬((w.step blake2b (.call i)).phase j).Removes key := by
  have hsupplied := hinv.publishing i d hp
  simp only [World.step, hp, advance, OrderedDict.lookup_setItem, if_true, Option.some.injEq]
    at hobj hd' ⊢
  subst hobj
  rw [Function.update_self, Option.some.injEq] at hd'
  subst hd'
  refine ⟨hsupplied, fun key hkey j => ?_⟩
  by_cases hji : j = i
  · subst hji
    rw [Function.update_self]
    exact not_false
  · rw [Function.update_of_ne hji]
    rw [hp] at hguard
    exact hguard rfl key hkey j

theorem published_of_effect (hinv : Tracked blake2b calls size cid w) {p' : Phase ι}
    {s' : Shared σ ι} (h : Effect blake2b w.shared w.clock i (w.phase i) p' s')
    (hnone : ∀ j, ¬(w.phase j).Registers cid) {obj : ι} {d' : CacheDescriptor}
    (hobj : s'.descriptors.lookup cid = some obj) (hd' : s'.object obj = some d') :
    Supplied cid (calls obj) d' (view s'.store) ∧
      ∀ key ∈ chunkKeys cid d', ∀ j, ¬(Function.update w.phase i p' j).Removes key := by
  have hbefore : w.shared.descriptors.lookup cid = some obj := by
    rcases lookup_of_effect h hobj with hbefore | ⟨rfl, d, hp⟩
    · exact hbefore
    · refine absurd ?_ (hnone obj)
      rw [hp]
      rfl
  obtain ⟨d, hd, _⟩ := hinv.wellFormed.lookup cid obj hbefore
  obtain ⟨d'', hd'', hsame⟩ := object_step hinv.wellFormed h hd
  obtain rfl := Option.some.inj (hd'.symm.trans hd'')
  have hpublished := hinv.published.resolve_left (not_exists.mpr hnone)
  obtain ⟨hsupplied, hspared⟩ := hpublished obj d hbefore hd
  rw [chunkKeys_of_same hsame]
  constructor
  · apply (hsupplied.of_same hsame).of_view
    rw [chunkKeys_of_same hsame]
    intro key hkey
    rcases view_of_effect h (hinv.rest i) key with hkept | hregisters | hremoves
    · exact hkept
    · rw [cacheId_of_mem_chunkKeys hkey] at hregisters
      exact absurd hregisters (hnone i)
    · exact absurd hremoves (hspared key hkey i)
  · intro key hkey j
    by_cases hji : j = i
    · subst hji
      rw [Function.update_self]
      intro hremoves
      rcases removes_of_effect h hremoves with hremoves | hgone
      · exact hspared key hkey j hremoves
      · rw [cacheId_of_mem_chunkKeys hkey, hobj] at hgone
        cases hgone
    · rw [Function.update_of_ne hji]
      exact hspared key hkey j

theorem published_step (hinv : Tracked blake2b calls size cid w)
    (hguard : Spares blake2b cid w (w.phase i))
    (hnone : ∀ j, ¬((w.step blake2b (.call i)).phase j).Registers cid) {obj : ι}
    {d' : CacheDescriptor}
    (hobj : (w.step blake2b (.call i)).shared.descriptors.lookup cid = some obj)
    (hd' : (w.step blake2b (.call i)).shared.object obj = some d') :
    Supplied cid (calls obj) d' (view (w.step blake2b (.call i)).shared.store) ∧
      ∀ key ∈ chunkKeys cid d', ∀ j, ¬((w.step blake2b (.call i)).phase j).Removes key := by
  by_cases hpublishing : ∃ d, w.phase i = .publishing cid d
  · obtain ⟨d, hp⟩ := hpublishing
    exact published_of_publishing hinv hguard hp hobj hd'
  · apply published_of_effect hinv (effect_advance ..) ?_ hobj hd'
    intro j hj
    by_cases hji : j = i
    · subst hji
      -- the registration is not publishing yet, so it still registers afterwards
      apply hnone j
      simp only [World.step, Function.update_self]
      cases hp : w.phase j with
      | putting r newId rest =>
          rw [hp] at hj
          obtain rfl : resolveId r.cacheId newId = cid := hj
          rw [← hp]
          exact registers_of_putting hp hguard
      | publishing id d =>
          rw [hp] at hj
          obtain rfl : id = cid := hj
          exact (hpublishing ⟨d, hp⟩).elim
      | _ =>
          rw [hp] at hj
          exact hj.elim
    · apply hnone j
      simp only [World.step, Function.update_of_ne hji]
      exact hj

theorem rest_step (hrest : ∀ i r newId rest, w.phase i = .putting r newId rest →
    ∀ chunk ∈ rest, chunk ∈ putsOf r newId) {p' : Phase ι} {s' : Shared σ ι}
    (h : Effect blake2b w.shared w.clock i (w.phase i) p' s') {j : ι} {r : Registration}
    {newId : String} {rest : List (ChunkKey × KVPayload)}
    (hj : Function.update w.phase i p' j = .putting r newId rest) :
    ∀ chunk ∈ rest, chunk ∈ putsOf r newId := by
  by_cases hji : j = i
  · subst hji
    rw [Function.update_self] at hj
    subst hj
    generalize hp : w.phase j = p at h
    cases h with
    | quiet _ _ _ _ _ hplain => exact hplain.elim
    | started => exact fun _ hchunk => hchunk
    | put =>
        intro chunk hchunk
        exact hrest j r newId _ hp chunk (List.mem_cons_of_mem _ hchunk)
  · rw [Function.update_of_ne hji] at hj
    exact hrest j r newId rest hj

theorem tracked_step (hinv : Tracked blake2b calls size cid w) {event : Event ι}
    (hguard : KeepsChunks blake2b cid w event) :
    Tracked blake2b calls size cid (w.step blake2b event) := by
  cases event with
  | clock now =>
      exact ⟨wellFormed_step hinv.wellFormed _, hinv.rest, hinv.putting, hinv.publishing,
        hinv.published⟩
  | call i =>
      refine ⟨wellFormed_step hinv.wellFormed _, ?_, ?_, ?_, ?_⟩
      · intro j r newId rest hj
        exact rest_step hinv.rest (effect_advance ..) hj
      · intro j r newId rest hj hid key payload hmem
        exact putting_step hinv hguard (effect_advance ..) hj hid hmem
      · intro j d hj
        exact publishing_step hinv hguard (effect_advance ..) hj
      · by_cases hregisters : ∃ j, ((w.step blake2b (.call i)).phase j).Registers cid
        · exact .inl hregisters
        · right
          intro obj d hobj hd
          exact published_step hinv hguard (fun j hj => hregisters ⟨j, hj⟩) hobj hd

end Step

omit [DecidableEq ι] in
theorem tracked_init (store : σ) (chunkSize : Nat) (hpos : 0 < chunkSize)
    (defaultTtl : Option Ttl) (clock : Time) (calls : ι → Call) (cid : String) :
    Tracked blake2b calls chunkSize cid (.init store chunkSize hpos defaultTtl clock calls) := by
  refine ⟨wellFormed_init store chunkSize hpos defaultTtl clock calls, ?_, ?_, ?_, .inr ?_⟩
  · exact fun i r newId rest h => by cases h
  · exact fun i r newId rest h => by cases h
  · exact fun i d h => by cases h
  · intro obj d hobj
    simp [World.init] at hobj

omit [DecidableEq ι] in
theorem Tracked.consistent {calls : ι → Call} {size : Nat} {cid : String} {w : World σ ι}
    (h : Tracked blake2b calls size cid w) : Consistent calls cid w := by
  intro hended obj d hobj hd _
  have hnone : ¬∃ j, (w.phase j).Registers cid := by
    rintro ⟨j, hj⟩
    have hend := hended j
    generalize w.phase j = p at hj hend
    cases p with
    | returned => exact hj
    | raised => exact hj
    | _ => exact hend
  exact (h.published.resolve_left hnone obj d hobj hd).1

/-- In every run whose steps meet the condition, once all calls have ended the
chunks of a live descriptor are those of the call that published it. -/
theorem consistent_run (store : σ) (chunkSize : Nat) (hpos : 0 < chunkSize)
    (defaultTtl : Option Ttl) (clock : Time) (calls : ι → Call) (cid : String)
    (schedule : List (Event ι))
    (hrun : (World.clients blake2b σ ι).StepsMeet (KeepsChunks blake2b cid)
      (.init store chunkSize hpos defaultTtl clock calls) schedule) :
    Consistent calls cid ((World.clients blake2b σ ι).exec
      (.init store chunkSize hpos defaultTtl clock calls) schedule) := by
  have hend := (World.clients blake2b σ ι).exec_induction
    (I := Tracked blake2b calls chunkSize cid) (fun w event hinv hguard => tracked_step hinv hguard)
    (tracked_init store chunkSize hpos defaultTtl clock calls cid) hrun
  exact hend.consistent

/-- A deletion and a registration take turns, the deletion always ahead. -/
theorem consistent_run_delete :
    let r : Registration :=
      ⟨[1, 2, 3], .sequence [.ofBytes [7], .ofBytes [8]], some "c", none, false, none⟩
    let again : Registration :=
      ⟨[1, 2, 3], .sequence [.ofBytes [9], .ofBytes [10]], some "c", none, false, none⟩
    let calls : Fin 3 → Call := ![.register r "new", .delete "c", .register again "new"]
    let schedule : List (Event (Fin 3)) :=
      [.call 0, .call 0, .call 0, .call 0, .call 0, .call 1, .call 1, .call 2, .call 1, .call 2,
        .call 1, .call 2, .call 1, .call 2, .call 2]
    let start : World UnboundedCPU (Fin 3) := .init .empty 2 (by decide) none 0 calls
    Consistent calls "c"
      ((World.clients sampleDigest UnboundedCPU (Fin 3)).exec start schedule) := by
  intro r again calls schedule start
  have hrun : (World.clients sampleDigest UnboundedCPU (Fin 3)).StepsMeet
      (KeepsChunks sampleDigest "c") start schedule := by decide +kernel
  exact consistent_run _ _ _ _ _ _ _ _ hrun

/-- Two registrations put their chunk in one order and publish in the other. -/
theorem published_in_other_order :
    let r : Registration := ⟨[1, 2], .sequence [.ofBytes [7]], some "c", none, false, none⟩
    let other : Registration := ⟨[1, 2], .sequence [.ofBytes [9]], some "c", none, false, none⟩
    let calls : Fin 2 → Call := ![.register r "new", .register other "new"]
    let schedule : List (Event (Fin 2)) :=
      [.call 0, .call 0, .call 1, .call 1, .call 1, .call 1, .call 0, .call 0]
    let start : World UnboundedCPU (Fin 2) := .init .empty 2 (by decide) none 0 calls
    ¬Consistent calls "c"
      ((World.clients sampleDigest UnboundedCPU (Fin 2)).exec start schedule) := by
  intro r other calls schedule start
  have hended : ∀ i, (((World.clients sampleDigest UnboundedCPU (Fin 2)).exec start
      schedule).phase i).Ended := by decide +kernel
  have hobj : ((World.clients sampleDigest UnboundedCPU (Fin 2)).exec start
      schedule).shared.descriptors.lookup "c" = some 0 := by decide +kernel
  have hlive : (((World.clients sampleDigest UnboundedCPU (Fin 2)).exec start
      schedule).shared.object 0).map (fun d => (d.isExpired none 0, d.workerIds, d.numChunks)) =
      some (false, [0], 1) := by decide +kernel
  have hclock : ((World.clients sampleDigest UnboundedCPU (Fin 2)).exec start schedule).clock =
      0 := by decide +kernel
  have hheld : view ((World.clients sampleDigest UnboundedCPU (Fin 2)).exec start
      schedule).shared.store ⟨"c", 0, 0⟩ = some (.ofBytes [9]) := by decide +kernel
  generalize (World.clients sampleDigest UnboundedCPU (Fin 2)).exec start schedule = w
    at hended hobj hlive hclock hheld ⊢
  intro hconsistent
  obtain ⟨d, hd, hfields⟩ := Option.map_eq_some_iff.mp hlive
  obtain ⟨hunexpired, hworkers, hnum⟩ : d.isExpired none 0 = false ∧ d.workerIds = [0] ∧
      d.numChunks = 1 := by simpa using hfields
  rw [← hclock] at hunexpired
  obtain ⟨r', newId, hcall, hchunks⟩ := hconsistent hended 0 d hobj hd hunexpired
  obtain ⟨rfl, rfl⟩ : r = r' ∧ "new" = newId := by simpa [calls] using hcall
  obtain ⟨payload, hchunk, hview⟩ := hchunks 0 (by simp [hworkers]) 0 (by omega)
  -- the descriptor is that of the first call, and the chunk that of the second
  have hput : chunkOf r 0 0 = some (.ofBytes [7]) := by decide +kernel
  rw [hput] at hchunk
  rw [Nat.cast_zero, hheld, ← hchunk] at hview
  revert hview
  decide

end LlmCache.Engine.RegisterDelete
