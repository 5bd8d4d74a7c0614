import LlmCache.Engine.RegisterDelete
import LlmCache.Engine.Solo

/-!
# What concurrent loads return

A load walks over its chunks one store call at a time, while other clients
register and delete.  Whatever comes in between, each payload that it returns
was given to some registration for that chunk of that cache, or was held before.
While the cache stays as the load found it, all of them come from one
registration.
-/

namespace LlmCache.Engine.Reading

open Errors Lib Payload LlmCache.Types Store ExplicitKVCache Descriptors Chunks Interleaving
  Effects Prefix RegisterDelete Solo

open LosslessStore (view)

variable {σ ι : Type}

section Collected

variable [StorageBackend σ] [DecidableEq ι]

/-- What the next step of a call adds to its `out`. -/
def appended (s : Shared σ ι) : Phase ι → List (ChunkKey × KVPayload)
  | .loading (key :: _) =>
      match (KeyedStore.get s.store key).1 with
      | .ok (some payload) => [(key, payload)]
      | _ => []
  | _ => []

/-- The `out` of a load after a run, each payload with the key it was found under. -/
def collected (blake2b : List UInt8 → String) (i : ι) :
    World σ ι → List (Event ι) → List (ChunkKey × KVPayload)
  | _, [] => []
  | w, event :: schedule =>
      (if caller event = some i then appended w.shared (w.phase i) else []) ++
        collected blake2b i (w.step blake2b event) schedule

/-- A load that no other call comes between collects what its loop returns. -/
theorem collected_loading (blake2b : List UInt8 → String) {i : ι} {cid : String} {worker : Int}
    (idxs : List Nat) {w : World σ ι}
    (hp : w.phase i = .loading (idxs.map fun idx : Nat => ⟨cid, idx, worker⟩))
    {out : List KVPayload} (hout : (loadLoop cid worker idxs w.shared.store).1 = .ok out) :
    (collected blake2b i w (List.replicate out.length (.call i))).map Prod.snd = out := by
  induction idxs generalizing w out with
  | nil =>
      obtain rfl := Except.ok.inj hout
      rfl
  | cons idx idxs ih =>
      simp only [loadLoop] at hout
      cases hget : (KeyedStore.get w.shared.store ⟨cid, idx, worker⟩).1 with
      | error err => simp [hget] at hout
      | ok found =>
          cases found with
          | none => simp [hget] at hout
          | some payload =>
              simp only [hget] at hout
              cases hrest : (loadLoop cid worker idxs
                  (KeyedStore.get w.shared.store ⟨cid, idx, worker⟩).2).1 with
              | error err => simp [hrest, Except.map] at hout
              | ok rest =>
                  simp only [hrest, Except.map, Except.ok.injEq] at hout
                  subst hout
                  have hnext : (w.step blake2b (.call i)).phase i =
                      .loading (idxs.map fun idx : Nat => ⟨cid, idx, worker⟩) := by
                    simp only [World.step, Function.update_self, hp, List.map_cons, advance, hget]
                  have hstore : (w.step blake2b (.call i)).shared.store =
                      (KeyedStore.get w.shared.store ⟨cid, idx, worker⟩).2 := by
                    simp only [World.step, hp, List.map_cons, advance, hget]
                  have hlater := ih hnext (by rw [hstore]; exact hrest)
                  rw [List.length_cons, List.replicate_succ, collected,
                    if_pos (show caller (.call i) = some i from rfl), List.map_append, hlater, hp]
                  simp only [List.map_cons, appended, hget, List.map_nil, List.singleton_append]

theorem collected_alone {blake2b : List UInt8 → String} {i : ι} {w : World σ ι}
    {e : ExplicitKVCache σ} (h : Denotes w.shared e) {cid : String} {numChunks : Option Int}
    {worker : Int} (hready : w.phase i = .ready (.onLive cid (.read numChunks worker)))
    {out : List KVPayload} (hload : (e.load cid numChunks worker w.clock).1 = .ok out) :
    (collected blake2b i w (List.replicate (out.length + 2) (.call i))).map Prod.snd = out := by
  rcases liveDescriptor_cases e cid w.clock with
    ⟨_, hlive⟩ | ⟨d, hd, ⟨_, hlive⟩ | ⟨hunexpired, hlive⟩⟩
  · simp [load, hlive] at hload
  · simp [load, hlive] at hload
  · rw [h.lookup, Shared.current, Option.bind_eq_some_iff] at hd
    obtain ⟨obj, hobj, hobject⟩ := hd
    simp only [load, hlive, h.store] at hload
    have htesting : w.step blake2b (.call i) = { w with
        phase := Function.update w.phase i (.testing cid obj (.read numChunks worker)) } := by
      simp [World.step, hready, advance, hobj, renewal]
    have hloading : ((w.step blake2b (.call i)).step blake2b (.call i)).phase i =
        goOn blake2b cid obj d (.read numChunks worker) := by
      rw [htesting]
      simp [World.step, advance, hobject, hunexpired]
    have hstore : ((w.step blake2b (.call i)).step blake2b (.call i)).shared.store =
        w.shared.store := by
      rw [htesting]
      simp [World.step, advance, hobject, hunexpired]
    have hloop := collected_loading blake2b _ hloading (by rw [hstore]; exact hload)
    rw [List.replicate_succ, List.replicate_succ, collected, collected, hready, htesting]
    simp only [appended, Function.update_self, ite_self, List.nil_append]
    rw [← htesting]
    exact hloop

/-- What holds of the worlds of a run together with what a load has read so far. -/
theorem collected_induction {blake2b : List UInt8 → String} {i : ι}
    {G : World σ ι → Event ι → Prop} {I : World σ ι → List (ChunkKey × KVPayload) → Prop}
    (hstep : ∀ w event out, I w out → G w event → I (w.step blake2b event)
      (out ++ if caller event = some i then appended w.shared (w.phase i) else []))
    {w : World σ ι} {schedule : List (Event ι)} {out : List (ChunkKey × KVPayload)} (hI : I w out)
    (hrun : (World.clients blake2b σ ι).StepsMeet G w schedule) :
    I ((World.clients blake2b σ ι).exec w schedule) (out ++ collected blake2b i w schedule) := by
  induction schedule generalizing w out with
  | nil =>
      rw [collected, List.append_nil]
      exact hI
  | cons event schedule ih =>
      rw [collected, ← List.append_assoc]
      exact ih (hstep w event out hI hrun.1) hrun.2

end Collected

/-- The keys that a load asks the store for, one after another. -/
def walk (cid : String) (numChunks : Option Int) (worker : Int) (total : Nat) : List ChunkKey :=
  (List.range (min (numChunks.getD total) total).toNat).map fun index : Nat => ⟨cid, index, worker⟩

theorem mem_walk {cid : String} {numChunks : Option Int} {worker : Int} {total : Nat}
    {key : ChunkKey} (h : key ∈ walk cid numChunks worker total) :
    ∃ index < total, key = ⟨cid, (index : Nat), worker⟩ := by
  obtain ⟨index, hindex, rfl⟩ := List.mem_map.mp h
  exact ⟨index, by have := List.mem_range.mp hindex; omega, rfl⟩

/-- A call that registers the id with as many chunks. -/
def Registers (calls : ι → Call) (cid : String) (size total : Nat) (j : ι) : Prop :=
  ∃ r newId, calls j = .register r newId ∧ resolveId r.cacheId newId = cid ∧
    (tokenSlices r.tokenIds size).length = total

/-! ## How far a load is -/

/-- How far a load is that has read `out`, when it may find descriptors of the
calls `found` and raise the errors `may`. -/
inductive Progress (calls : ι → Call) (size : Nat) (found : ι → Prop) (may : Raised → Prop)
    (cid : String) (numChunks : Option Int) (worker : Int) :
    Phase ι → List (ChunkKey × KVPayload) → Prop
  | ready : Progress calls size found may cid numChunks worker
      (.ready (.onLive cid (.read numChunks worker))) []
  | testing {obj} (hobj : found obj) : Progress calls size found may cid numChunks worker
      (.testing cid obj (.read numChunks worker)) []
  | loading {obj total keys out} (hobj : found obj) (htotal : Registers calls cid size total obj)
      (hkeys : out.map Prod.fst ++ keys = walk cid numChunks worker total) :
      Progress calls size found may cid numChunks worker (.loading keys) out
  | returned {obj total out} (hobj : found obj) (htotal : Registers calls cid size total obj)
      (hkeys : out.map Prod.fst = walk cid numChunks worker total) :
      Progress calls size found may cid numChunks worker .returned out
  | failing {keys ids err out} (herr : may err) : Progress calls size found may cid numChunks worker
      (.cleaning keys ids (some err)) out
  | raised {err out} (herr : may err) :
      Progress calls size found may cid numChunks worker (.raised err) out

/-- What a load may meet when it takes its next step. -/
structure Meets [LosslessBackend σ] (found : ι → Prop) (may : Raised → Prop) (cid : String)
    (w : World σ ι) (i : ι) : Prop where
  missing : w.shared.descriptors.lookup cid = none → may (.cacheNotFound cid)
  found : ∀ obj, w.shared.descriptors.lookup cid = some obj → found obj
  expired : may (.cacheExpired cid)
  mismatch : ∀ key keys, w.phase i = .loading (key :: keys) → view w.shared.store key = none →
    may (.cacheMismatch key.cacheId key.chunkIndex.toNat key.workerId)

section Loads

variable [LosslessBackend σ] {blake2b : List UInt8 → String} {calls : ι → Call} {size : Nat}
  {found : ι → Prop} {may : Raised → Prop} {cid : String} {numChunks : Option Int} {worker : Int}
  {i : ι}

theorem appended_cons (s : Shared σ ι) (key : ChunkKey) (keys : List ChunkKey) :
    appended s (.loading (key :: keys)) =
      (view s.store key).toList.map fun payload => (key, payload) := by
  simp only [appended, LosslessStore.get_ok]
  cases view s.store key <;> rfl

theorem mem_appended {s : Shared σ ι} {p : Phase ι} {chunk : ChunkKey × KVPayload}
    (h : chunk ∈ appended s p) :
    (∃ keys, p = .loading (chunk.1 :: keys)) ∧ view s.store chunk.1 = some chunk.2 := by
  cases p with
  | loading keys =>
      cases keys with
      | nil => cases h
      | cons key keys =>
          rw [appended_cons] at h
          obtain ⟨payload, hpayload, rfl⟩ := List.mem_map.mp h
          exact ⟨⟨keys, rfl⟩, Option.mem_toList.mp hpayload⟩
  | _ => cases h

variable [DecidableEq ι]

theorem progress_advance {w : World σ ι} (hinv : WellFormed blake2b calls size w)
    {out : List (ChunkKey × KVPayload)}
    (hprogress : Progress calls size found may cid numChunks worker (w.phase i) out)
    (hmeets : ¬(w.phase i).Ended → Meets found may cid w i) :
    Progress calls size found may cid numChunks worker
      (advance blake2b w.shared w.clock i (w.phase i)).1
      (out ++ appended w.shared (w.phase i)) := by
  generalize hp : w.phase i = p at hprogress hmeets ⊢
  cases hprogress with
  | ready =>
      simp only [advance, appended, List.append_nil]
      cases hlookup : w.shared.descriptors.lookup cid with
      | none => exact .raised ((hmeets not_false).missing hlookup)
      | some obj => exact .testing ((hmeets not_false).found obj hlookup)
  | @testing obj hobj =>
      obtain ⟨d, hd, hid⟩ := hinv.refers i cid obj (by rw [hp]; exact ⟨rfl, rfl⟩)
      obtain ⟨r, newId, hcall, hmade⟩ := hinv.object obj d hd
      have htotal : Registers calls cid size d.numChunks obj := by
        refine ⟨r, newId, hcall, hmade.cacheId.symm.trans hid, ?_⟩
        rw [hmade.describes.numChunks, hmade.chunkSize]
        rfl
      simp only [advance, hd, appended, List.append_nil]
      split_ifs
      · exact .failing (hmeets not_false).expired
      · refine .loading hobj htotal ?_
        cases numChunks <;> simp [walk]
  | @loading obj total keys out hobj htotal hkeys =>
      cases keys with
      | nil =>
          rw [List.append_nil] at hkeys
          simp only [advance, appended, List.append_nil]
          exact .returned hobj htotal hkeys
      | cons key keys =>
          rw [appended_cons]
          simp only [advance, LosslessStore.get_ok]
          cases hheld : view w.shared.store key with
          | none => exact .raised ((hmeets not_false).mismatch key keys hp hheld)
          | some payload =>
              refine .loading hobj htotal ?_
              rw [← hkeys]
              simp
  | returned hobj htotal hkeys =>
      simp only [advance, appended, List.append_nil]
      exact .returned hobj htotal hkeys
  | @failing keys ids err out herr =>
      simp only [appended, List.append_nil]
      cases keys with
      | cons key keys => exact .failing herr
      | nil =>
          cases ids with
          | nil => exact .raised herr
          | cons id ids =>
              simp only [advance]
              cases w.shared.current id <;> exact .failing herr
  | raised herr =>
      simp only [advance, appended, List.append_nil]
      exact .raised herr

theorem progress_step {w : World σ ι} (hinv : WellFormed blake2b calls size w)
    {out : List (ChunkKey × KVPayload)}
    (hprogress : Progress calls size found may cid numChunks worker (w.phase i) out)
    {event : Event ι}
    (hmeets : caller event = some i → ¬(w.phase i).Ended → Meets found may cid w i) :
    Progress calls size found may cid numChunks worker ((w.step blake2b event).phase i)
      (out ++ if caller event = some i then appended w.shared (w.phase i) else []) := by
  cases event with
  | clock now =>
      rw [if_neg (by simp [caller]), List.append_nil]
      exact hprogress
  | call j =>
      by_cases hji : j = i
      · subst hji
        rw [if_pos (show caller (.call j) = some j from rfl)]
        simp only [World.step, Function.update_self]
        exact progress_advance hinv hprogress (hmeets rfl)
      · rw [if_neg (by simp [caller, hji]), List.append_nil]
        simp only [World.step, Function.update_of_ne (Ne.symm hji)]
        exact hprogress

/-! ## Whatever comes in between -/

/-- The payload was held under the key, or is one that some call puts there. -/
def Given (calls : ι → Call) (held : ChunkKey → Option KVPayload) (key : ChunkKey)
    (payload : KVPayload) : Prop :=
  held key = some payload ∨
    ∃ j r newId, calls j = .register r newId ∧ (key, payload) ∈ putsOf r newId

/-- Everything in the store has been given. -/
structure Sourced (blake2b : List UInt8 → String) (calls : ι → Call) (size : Nat)
    (held : ChunkKey → Option KVPayload) (w : World σ ι) : Prop where
  wellFormed : WellFormed blake2b calls size w
  rest : ∀ i r newId rest, w.phase i = .putting r newId rest → ∀ chunk ∈ rest,
    chunk ∈ putsOf r newId
  given : ∀ key payload, view w.shared.store key = some payload → Given calls held key payload

theorem given_of_effect {held : ChunkKey → Option KVPayload} {w : World σ ι}
    (hinv : Sourced blake2b calls size held w) {p' : Phase ι} {s' : Shared σ ι}
    (h : Effect blake2b w.shared w.clock i (w.phase i) p' s') {key : ChunkKey} {payload : KVPayload}
    (hview' : view s'.store key = some payload) : Given calls held key payload := by
  generalize hp : w.phase i = p at h
  cases h with
  | quiet _ _ _ hview =>
      rw [hview] at hview'
      exact hinv.given key payload hview'
  | @put r newId put obj rest _ hview =>
      rw [hview] at hview'
      by_cases hkey : key = put
      · subst hkey
        rw [Function.update_self, Option.some.injEq] at hview'
        subst hview'
        have hcall := (hinv.wellFormed.putting i r newId _ hp).1
        exact .inr ⟨i, r, newId, hcall, hinv.rest i r newId _ hp _ (List.mem_cons_self ..)⟩
      · rw [Function.update_of_ne hkey] at hview'
        exact hinv.given key payload hview'
  | @removed removed _ _ _ _ hview =>
      rw [hview] at hview'
      by_cases hkey : key = removed
      · subst hkey
        rw [Function.update_self] at hview'
        cases hview'
      · rw [Function.update_of_ne hkey] at hview'
        exact hinv.given key payload hview'
  | started => exact hinv.given key payload hview'
  | built => exact hinv.given key payload hview'
  | published => exact hinv.given key payload hview'
  | written => exact hinv.given key payload hview'
  | popped => exact hinv.given key payload hview'

theorem sourced_step {held : ChunkKey → Option KVPayload} {w : World σ ι}
    (hinv : Sourced blake2b calls size held w) (event : Event ι) :
    Sourced blake2b calls size held (w.step blake2b event) := by
  cases event with
  | clock now => exact ⟨wellFormed_step hinv.wellFormed _, hinv.rest, hinv.given⟩
  | call i =>
      refine ⟨wellFormed_step hinv.wellFormed _, ?_, ?_⟩
      · intro j r newId rest hj
        exact rest_step hinv.rest (effect_advance ..) hj
      · intro key payload hview
        exact given_of_effect hinv (effect_advance ..) hview

/-- What a load has read is given, and it returns from a whole walk only. -/
structure ReadsGiven (blake2b : List UInt8 → String) (calls : ι → Call) (size : Nat) (cid : String)
    (numChunks : Option Int) (worker : Int) (i : ι) (held : ChunkKey → Option KVPayload)
    (w : World σ ι) (out : List (ChunkKey × KVPayload)) : Prop where
  sourced : Sourced blake2b calls size held w
  progress : Progress calls size (fun _ => True) (fun _ => True) cid numChunks worker (w.phase i)
    out
  given : ∀ chunk ∈ out, Given calls held chunk.1 chunk.2

theorem readsGiven_step {held : ChunkKey → Option KVPayload} {w : World σ ι}
    {out : List (ChunkKey × KVPayload)}
    (hinv : ReadsGiven blake2b calls size cid numChunks worker i held w out) (event : Event ι) :
    ReadsGiven blake2b calls size cid numChunks worker i held (w.step blake2b event)
      (out ++ if caller event = some i then appended w.shared (w.phase i) else []) := by
  refine ⟨sourced_step hinv.sourced event, ?_, ?_⟩
  · apply progress_step hinv.sourced.wellFormed hinv.progress
    exact fun _ _ => ⟨fun _ => trivial, fun _ _ => trivial, trivial, fun _ _ _ _ => trivial⟩
  · intro chunk hchunk
    rcases List.mem_append.mp hchunk with hbefore | hnew
    · exact hinv.given chunk hbefore
    · split_ifs at hnew
      · exact hinv.sourced.given _ _ (mem_appended hnew).2
      · cases hnew

/-- In every run, each payload that a load has read was held before the run or
is one that a registration puts under that key; and a load that returns has
read, in order, the chunks that a registration of its id has. -/
theorem collected_run (store : σ) (chunkSize : Nat) (hpos : 0 < chunkSize)
    (defaultTtl : Option Ttl) (clock : Time) (calls : ι → Call) (i : ι) (cid : String)
    (numChunks : Option Int) (worker : Int) (hload : calls i = .onLive cid (.read numChunks worker))
    (schedule : List (Event ι)) :
    let start : World σ ι := .init store chunkSize hpos defaultTtl clock calls
    let out := collected blake2b i start schedule
    (∀ chunk ∈ out, Given calls (view store) chunk.1 chunk.2) ∧
    (((World.clients blake2b σ ι).exec start schedule).phase i = .returned →
      ∃ obj total, Registers calls cid chunkSize total obj ∧
        out.map Prod.fst = walk cid numChunks worker total) := by
  intro start out
  have hstart : ReadsGiven blake2b calls chunkSize cid numChunks worker i (view store) start
      [] := by
    refine ⟨⟨wellFormed_init store chunkSize hpos defaultTtl clock calls, ?_, ?_⟩, ?_, ?_⟩
    · exact fun i r newId rest h => by cases h
    · exact fun key payload hview => .inl hview
    · simp only [start, World.init, hload]
      exact .ready
    · exact fun chunk hchunk => absurd hchunk List.not_mem_nil
  have hend := collected_induction
    (I := ReadsGiven blake2b calls chunkSize cid numChunks worker i (view store))
    (fun w event out hinv _ => readsGiven_step hinv event) hstart
    ((World.clients blake2b σ ι).stepsMeet_true _ schedule)
  refine ⟨hend.given, fun hreturned => ?_⟩
  have hprogress := hend.progress
  rw [hreturned, List.nil_append] at hprogress
  cases hprogress with
  | @returned obj total _ _ htotal hkeys => exact ⟨obj, total, htotal, hkeys⟩

end Loads

/-- A load that another registration of the id overtakes returns chunks of both. -/
theorem collected_run_overtaken :
    let r : Registration :=
      ⟨[1, 2, 3], .sequence [.ofBytes [7], .ofBytes [8]], some "c", none, false, none⟩
    let again : Registration :=
      ⟨[1, 2, 3], .sequence [.ofBytes [9], .ofBytes [10]], some "c", none, false, none⟩
    let calls : Fin 3 → Call :=
      ![.register r "new", .onLive "c" (.read none 0), .register again "new"]
    let schedule : List (Event (Fin 3)) :=
      [.call 0, .call 0, .call 0, .call 0, .call 0, .call 1, .call 1, .call 1, .call 2, .call 2,
        .call 2, .call 1, .call 1]
    let start : World UnboundedCPU (Fin 3) := .init .empty 2 (by decide) none 0 calls
    collected sampleDigest 1 start schedule =
        [(⟨"c", 0, 0⟩, .ofBytes [7]), (⟨"c", 1, 0⟩, .ofBytes [10])] ∧
      ∀ chunk ∈ collected sampleDigest 1 start schedule,
        Given calls (fun _ => none) chunk.1 chunk.2 := by
  intro r again calls schedule start
  refine ⟨by decide +kernel, ?_⟩
  have hload := @collected_run UnboundedCPU (Fin 3) _ sampleDigest _ .empty 2 (by decide) none 0
    calls 1 "c" none 0 rfl schedule
  exact hload.1

/-! ## While the cache stays as it is -/

section Loads

variable [LosslessBackend σ] [DecidableEq ι] {blake2b : List UInt8 → String} {calls : ι → Call}
  {size : Nat} {cid : String} {numChunks : Option Int} {worker : Int} {i : ι}

/-- When the load takes a step, its id refers to the object, and no registration
of the id is under way. -/
def Settled (cid : String) (i obj : ι) (w : World σ ι) (event : Event ι) : Prop :=
  caller event = some i → ¬(w.phase i).Ended →
    w.shared.descriptors.lookup cid = some obj ∧ ∀ j, ¬(w.phase j).Registers cid

instance [Fintype ι] (cid : String) (i obj : ι) (w : World σ ι) :
    DecidablePred (Settled cid i obj w) := fun _ => inferInstanceAs (Decidable (_ → _))

omit [DecidableEq ι] in
theorem held_of_settled {w : World σ ι} (hinv : Tracked blake2b calls size cid w) {obj : ι}
    (hobj : w.shared.descriptors.lookup cid = some obj) (hnone : ∀ j, ¬(w.phase j).Registers cid)
    {r : Registration} {newId : String} (hcall : calls obj = .register r newId)
    (hworker : worker ∈ (normalizePayloads r.payloads).keys) {index : Nat}
    (hindex : index < (tokenSlices r.tokenIds size).length) :
    ∃ payload, view w.shared.store ⟨cid, index, worker⟩ = some payload ∧
      (⟨cid, index, worker⟩, payload) ∈ putsOf r newId := by
  obtain ⟨d, hd, hid⟩ := hinv.wellFormed.lookup cid obj hobj
  obtain ⟨r', newId', hcall', hmade⟩ := hinv.wellFormed.object obj d hd
  obtain ⟨rfl, rfl⟩ : r = r' ∧ newId = newId' := by simpa [hcall] using hcall'
  have hpublished := hinv.published.resolve_left (not_exists.mpr hnone)
  obtain ⟨⟨r', newId', hcall', hchunks⟩, _⟩ := hpublished obj d hobj hd
  obtain ⟨rfl, rfl⟩ : r = r' ∧ newId = newId' := by simpa [hcall] using hcall'
  have hmem : worker ∈ d.workerIds := by
    rw [hmade.describes.workerIds]
    exact (List.mem_insertionSort _).mpr hworker
  have hlt : index < d.numChunks := by
    rw [hmade.describes.numChunks, hmade.chunkSize]
    exact hindex
  obtain ⟨payload, hchunk, hheld⟩ := hchunks worker hmem index hlt
  refine ⟨payload, hheld, (mem_putsOf_iff ..).mpr ⟨worker, index, ?_, hchunk⟩⟩
  rw [← hid, hmade.cacheId]

omit [DecidableEq ι] [LosslessBackend σ] in
/-- What a load has read that has read the chunks of one registration only. -/
theorem payloads_of_walk {out : List (ChunkKey × KVPayload)} {total : Nat}
    (hkeys : out.map Prod.fst = walk cid numChunks worker total) {r : Registration}
    {newId : String} (hputs : ∀ chunk ∈ out, chunk ∈ putsOf r newId) {given : List KVPayload}
    (hgiven : (normalizePayloads r.payloads).lookup worker = some given) :
    out.map Prod.snd = given.take (min (numChunks.getD total) total).toNat := by
  have hlength : out.length = (min (numChunks.getD total) total).toNat := by
    have := congrArg List.length hkeys
    simpa [walk] using this
  rw [← hlength]
  have hat : ∀ (k : Nat) (hk : k < out.length), given[k]? = some (out[k]).2 := by
    intro k hk
    have hkey : (out[k]).1 = ⟨cid, (k : Nat), worker⟩ := by
      have hk' : k < (out.map Prod.fst).length := by simpa using hk
      have : (out.map Prod.fst)[k] = (out[k]).1 := List.getElem_map ..
      rw [← this]
      simp only [hkeys, walk, List.getElem_map, List.getElem_range]
    obtain ⟨worker', index, hkey', hchunk⟩ :=
      (mem_putsOf_iff r newId (out[k]).1 (out[k]).2).mp (hputs _ (List.getElem_mem hk))
    rw [hkey, ChunkKey.mk.injEq] at hkey'
    obtain ⟨_, hindex, rfl⟩ := hkey'
    obtain rfl : k = index := by omega
    simpa only [chunkOf, hgiven, Option.bind_some] using hchunk
  apply List.ext_getElem?
  intro k
  by_cases hk : k < out.length
  · rw [List.getElem?_take_of_lt hk, hat k hk]
    simp [hk]
  · rw [List.getElem?_eq_none (by simpa using hk), List.getElem?_eq_none]
    exact (List.length_take_le ..).trans (by omega)

/-- The load has read chunks of the registration only. -/
structure Unmixed (blake2b : List UInt8 → String) (calls : ι → Call) (size : Nat) (cid : String)
    (numChunks : Option Int) (worker : Int) (i obj : ι) (puts : List (ChunkKey × KVPayload))
    (w : World σ ι) (out : List (ChunkKey × KVPayload)) : Prop where
  tracked : Tracked blake2b calls size cid w
  progress : Progress calls size (· = obj) (· = .cacheExpired cid) cid numChunks worker (w.phase i)
    out
  puts : ∀ chunk ∈ out, chunk ∈ puts

section Unmixed

variable {obj : ι} {r : Registration} {newId : String} {w : World σ ι} {event : Event ι}
  {out : List (ChunkKey × KVPayload)}

omit [DecidableEq ι] in
/-- The chunk that the load reads next is held, and is one of the registration. -/
theorem held_of_unmixed
    (hinv : Unmixed blake2b calls size cid numChunks worker i obj (putsOf r newId) w out)
    (hmade : calls obj = .register r newId)
    (hworker : worker ∈ (normalizePayloads r.payloads).keys)
    (hsettled : Settled cid i obj w event) (hcaller : caller event = some i) {key : ChunkKey}
    {keys : List ChunkKey} (hp : w.phase i = .loading (key :: keys)) :
    ∃ payload, view w.shared.store key = some payload ∧ (key, payload) ∈ putsOf r newId := by
  obtain ⟨hobj, hnone⟩ := hsettled hcaller (by rw [hp]; exact not_false)
  have hprogress := hinv.progress
  rw [hp] at hprogress
  cases hprogress with
  | loading hfound htotal hkeys =>
      obtain ⟨r', newId', hmade', _, rfl⟩ := htotal
      obtain ⟨rfl, rfl⟩ : r = r' ∧ newId = newId' := by simpa [hfound, hmade] using hmade'
      have hkey : key ∈ walk cid numChunks worker (tokenSlices r.tokenIds size).length := by
        rw [← hkeys]
        simp
      obtain ⟨index, hindex, rfl⟩ := mem_walk hkey
      exact held_of_settled hinv.tracked hobj hnone hmade hworker hindex

theorem unmixed_step
    (hinv : Unmixed blake2b calls size cid numChunks worker i obj (putsOf r newId) w out)
    (hmade : calls obj = .register r newId)
    (hworker : worker ∈ (normalizePayloads r.payloads).keys)
    (hkeeps : KeepsChunks blake2b cid w event) (hsettled : Settled cid i obj w event) :
    Unmixed blake2b calls size cid numChunks worker i obj (putsOf r newId) (w.step blake2b event)
      (out ++ if caller event = some i then appended w.shared (w.phase i) else []) := by
  refine ⟨tracked_step hinv.tracked hkeeps, ?_, ?_⟩
  · apply progress_step hinv.tracked.wellFormed hinv.progress
    intro hcaller hlive
    obtain ⟨hobj, _⟩ := hsettled hcaller hlive
    refine ⟨?_, ?_, rfl, ?_⟩
    · intro hmissing
      rw [hobj] at hmissing
      cases hmissing
    · intro o ho
      exact Option.some.inj (ho.symm.trans hobj)
    · intro key keys hp hnone
      obtain ⟨payload, hheld, _⟩ := held_of_unmixed hinv hmade hworker hsettled hcaller hp
      rw [hheld] at hnone
      cases hnone
  · intro chunk hchunk
    rcases List.mem_append.mp hchunk with hbefore | hnew
    · exact hinv.puts chunk hbefore
    · split_ifs at hnew with hcaller
      · obtain ⟨⟨keys, hp⟩, hview⟩ := mem_appended hnew
        obtain ⟨payload, hheld, hmem⟩ := held_of_unmixed hinv hmade hworker hsettled hcaller hp
        obtain rfl := Option.some.inj (hheld.symm.trans hview)
        exact hmem
      · cases hnew

omit [DecidableEq ι] in
theorem Unmixed.ended
    (h : Unmixed blake2b calls size cid numChunks worker i obj (putsOf r newId) w out)
    (hmade : calls obj = .register r newId) {given : List KVPayload}
    (hgiven : (normalizePayloads r.payloads).lookup worker = some given)
    (hended : (w.phase i).Ended) :
    w.phase i = .raised (.cacheExpired cid) ∨ w.phase i = .returned ∧ out.map Prod.snd =
      given.take (min (numChunks.getD (tokenSlices r.tokenIds size).length)
        (tokenSlices r.tokenIds size).length).toNat := by
  have hprogress := h.progress
  generalize w.phase i = p at hprogress hended ⊢
  cases hprogress with
  | returned hobj htotal hkeys =>
      obtain ⟨r', newId', hmade', _, rfl⟩ := htotal
      obtain ⟨rfl, rfl⟩ : r = r' ∧ newId = newId' := by simpa [hobj, hmade] using hmade'
      exact .inr ⟨rfl, payloads_of_walk hkeys h.puts hgiven⟩
  | raised herr => exact .inl (congrArg _ herr)
  | ready => exact hended.elim
  | testing => exact hended.elim
  | loading => exact hended.elim
  | failing => exact hended.elim

end Unmixed

/-- In every run that keeps the chunks of the id, a load during which the id
refers to one registration, and no other is under way, raises nothing but that
the cache has expired, and returns the payloads of that registration. -/
theorem load_run (store : σ) (chunkSize : Nat) (hpos : 0 < chunkSize)
    (defaultTtl : Option Ttl) (clock : Time) (calls : ι → Call) (i obj : ι) (cid : String)
    (numChunks : Option Int) (worker : Int) (hload : calls i = .onLive cid (.read numChunks worker))
    (r : Registration) (newId : String) (hmade : calls obj = .register r newId)
    (given : List KVPayload) (hgiven : (normalizePayloads r.payloads).lookup worker = some given)
    (schedule : List (Event ι))
    (hrun : (World.clients blake2b σ ι).StepsMeet
      (fun w event => KeepsChunks blake2b cid w event ∧ Settled cid i obj w event)
      (.init store chunkSize hpos defaultTtl clock calls) schedule)
    (hended : (((World.clients blake2b σ ι).exec
      (.init store chunkSize hpos defaultTtl clock calls) schedule).phase i).Ended) :
    ((World.clients blake2b σ ι).exec
        (.init store chunkSize hpos defaultTtl clock calls) schedule).phase i =
      .raised (.cacheExpired cid) ∨
    ((World.clients blake2b σ ι).exec
        (.init store chunkSize hpos defaultTtl clock calls) schedule).phase i = .returned ∧
      (collected blake2b i (.init store chunkSize hpos defaultTtl clock calls) schedule).map
          Prod.snd =
        given.take (min (numChunks.getD (tokenSlices r.tokenIds chunkSize).length)
          (tokenSlices r.tokenIds chunkSize).length).toNat := by
  have hworker : worker ∈ (normalizePayloads r.payloads).keys :=
    AList.lookup_isSome.mp (Option.isSome_of_eq_some hgiven)
  have hstart : Unmixed blake2b calls chunkSize cid numChunks worker i obj (putsOf r newId)
      (.init store chunkSize hpos defaultTtl clock calls : World σ ι) [] := by
    refine ⟨tracked_init store chunkSize hpos defaultTtl clock calls cid, ?_, ?_⟩
    · simp only [World.init, hload]
      exact .ready
    · exact fun chunk hchunk => absurd hchunk List.not_mem_nil
  have hend := collected_induction (I := Unmixed blake2b calls chunkSize cid numChunks worker i obj
    (putsOf r newId)) (fun w event out hinv hguard =>
      unmixed_step hinv hmade hworker hguard.1 hguard.2) hstart hrun
  exact hend.ended hmade hgiven hended

end Loads

/-- A load between a registration and a deletion that has begun but not yet
taken the descriptor out. -/
theorem load_run_before_delete :
    let r : Registration :=
      ⟨[1, 2, 3], .sequence [.ofBytes [7], .ofBytes [8]], some "c", none, false, none⟩
    let calls : Fin 3 → Call :=
      ![.register r "new", .onLive "c" (.read (some 2) 0), .delete "c"]
    let schedule : List (Event (Fin 3)) :=
      [.call 0, .call 0, .call 0, .call 0, .call 0, .call 2, .call 1, .clock 5, .call 1, .call 1,
        .call 1, .call 1, .call 2, .call 2, .call 2, .call 2]
    let start : World UnboundedCPU (Fin 3) := .init .empty 2 (by decide) none 0 calls
    (collected sampleDigest 1 start schedule).map Prod.snd = [.ofBytes [7], .ofBytes [8]] := by
  intro r calls schedule start
  have hrun : (World.clients sampleDigest UnboundedCPU (Fin 3)).StepsMeet
      (fun w event => KeepsChunks sampleDigest "c" w event ∧ Settled "c" 1 0 w event)
      start schedule := by decide +kernel
  have hended : (((World.clients sampleDigest UnboundedCPU (Fin 3)).exec start
      schedule).phase 1).Ended := by decide +kernel
  have hreturned : ((World.clients sampleDigest UnboundedCPU (Fin 3)).exec start schedule).phase 1 =
      .returned := by decide +kernel
  have hchunks : (tokenSlices r.tokenIds 2).length = 2 := by decide +kernel
  have hload := @load_run UnboundedCPU (Fin 3) _ _ sampleDigest .empty 2 (by decide) none 0 calls
    1 0 "c" (some 2) 0 rfl r "new" rfl [.ofBytes [7], .ofBytes [8]] (by decide +kernel) schedule
    hrun hended
  rw [hreturned, hchunks] at hload
  exact (hload.resolve_left (by simp)).2

end LlmCache.Engine.Reading
