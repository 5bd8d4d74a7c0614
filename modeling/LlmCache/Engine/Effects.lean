import LlmCache.Engine.Chunks
import LlmCache.Engine.Interleaving
import Mathlib.Data.Fintype.Basic

/-!
# What the steps of concurrent calls do

One lemma says what a step does over a lossless store.  From it: which call a
phase, an object or an entry of the dictionary belongs to, in every world; and
that registrations of an id and clean-ups of it stay apart once they are kept
apart.
-/

namespace LlmCache.Engine.Effects

open Errors Lib Payload LlmCache.Types Store ExplicitKVCache Descriptors Chunks Interleaving

variable {σ ι : Type}

/-! ## What a registration builds -/

variable {blake2b : List UInt8 → String}

/-- The descriptor is one that the registration builds. -/
structure Made (blake2b : List UInt8 → String) (size : Nat) (r : Registration) (newId : String)
    (d : CacheDescriptor) : Prop where
  counts : checkCounts (tokenSlices r.tokenIds size).length
    (normalizePayloads r.payloads).entries = .ok ()
  describes : Describes blake2b d (.registration r)
  chunkSize : d.chunkSize = size
  cacheId : d.cacheId = resolveId r.cacheId newId

theorem Made.of_same {size : Nat} {r : Registration} {newId : String} {d d' : CacheDescriptor}
    (h : Made blake2b size r newId d) (hsame : SameCache d d') : Made blake2b size r newId d' where
  counts := h.counts
  describes := h.describes.of_same hsame
  chunkSize := hsame.chunkSize.trans h.chunkSize
  cacheId := hsame.cacheId.trans h.cacheId

theorem Made.mem_putsOf {size : Nat} {r : Registration} {newId : String} {d : CacheDescriptor}
    (h : Made blake2b size r newId d) {worker : Int} (hworker : worker ∈ d.workerIds) {index : Nat}
    (hindex : index < d.numChunks) :
    ∃ chunk, chunkOf r worker index = some chunk ∧
      (⟨resolveId r.cacheId newId, index, worker⟩, chunk) ∈ putsOf r newId := by
  rw [h.describes.workerIds] at hworker
  rw [h.describes.numChunks, h.chunkSize] at hindex
  obtain ⟨chunk, hchunk⟩ := chunkOf_isSome h.counts hworker hindex
  exact ⟨chunk, hchunk, (mem_putsOf_iff r newId _ _).mpr ⟨worker, index, rfl, hchunk⟩⟩

theorem made_of_build {s : Shared σ ι} {r : Registration} {newId : String} {now : Time}
    {d : CacheDescriptor} (hcounts : checkCounts (tokenSlices r.tokenIds s.chunkSize).length
      (normalizePayloads r.payloads).entries = .ok ())
    (hd : s.build blake2b r newId now = .ok d) : Made blake2b s.chunkSize r newId d := by
  obtain ⟨hdesc, hsize, hid, _⟩ := describes_of_build (.registration r) hd
  exact ⟨hcounts, hdesc, hsize, hid⟩

/-! ## What a step does -/

/-- The fields of a descriptor that `lookup` and `pin` leave alone. -/
def core (d : CacheDescriptor) : CacheDescriptor :=
  { d with hits := 0, lastUsedAt := none, pinned := false }

variable [DecidableEq ι]

theorem core_edit (s : Shared σ ι) (obj : ι) {change : CacheDescriptor → CacheDescriptor}
    (hchange : ∀ d, core (change d) = core d) (o : ι) :
    ((s.edit obj change).object o).map core = (s.object o).map core := by
  unfold Shared.edit
  by_cases ho : o = obj
  · subst ho
    simp only [Function.update_self, Option.map_map, Function.comp_def, hchange]
  · simp only [Function.update_of_ne ho]

variable [LosslessBackend σ]

open LosslessStore (view)

/-- What a step does over a lossless store. -/
inductive Effect (blake2b : List UInt8 → String) (s : Shared σ ι) (clock : Time) (i : ι) :
    Phase ι → Phase ι → Shared σ ι → Prop
  | quiet {p p' s'} (hsize : s'.chunkSize = s.chunkSize)
      (hdescriptors : s'.descriptors = s.descriptors)
      (hobject : ∀ obj, (s'.object obj).map core = (s.object obj).map core)
      (hview : view s'.store = view s.store) (hrenewal : renewal p = []) (hplain : p'.Plain)
      (hrefers : ∀ cid obj, p'.Refers cid obj →
        p.Refers cid obj ∨ s.descriptors.lookup cid = some obj) : Effect blake2b s clock i p p' s'
  | started {r newId}
      (hcounts : checkCounts (tokenSlices r.tokenIds s.chunkSize).length
        (normalizePayloads r.payloads).entries = .ok ()) :
      Effect blake2b s clock i (.ready (.register r newId)) (.putting r newId (putsOf r newId)) s
  | put {r newId key payload rest store}
      (hview : view store = Function.update (view s.store) key (some payload)) :
      Effect blake2b s clock i (.putting r newId ((key, payload) :: rest)) (.putting r newId rest)
        { s with store := store }
  | built {r newId d} (hd : s.build blake2b r newId clock = .ok d) :
      Effect blake2b s clock i (.putting r newId []) (.publishing (resolveId r.cacheId newId) d) s
  | published {cid d} :
      Effect blake2b s clock i (.publishing cid d) .returned { s with
        object := Function.update s.object i (some d)
        descriptors := OrderedDict.setItem s.descriptors cid i }
  | written {cid obj expiresAt} :
      Effect blake2b s clock i (.writing cid obj expiresAt) .returned
        (s.edit obj fun d => { d with expiresAt := some expiresAt })
  | popped {cid ids failure d} (hd : s.current cid = some d) :
      Effect blake2b s clock i (.cleaning [] (cid :: ids) failure)
        (.cleaning (chunkKeys cid d) ids failure)
        { s with descriptors := s.descriptors.erase cid }
  | removed {key keys ids failure store}
      (hview : view store = Function.update (view s.store) key none) :
      Effect blake2b s clock i (.cleaning (key :: keys) ids failure) (.cleaning keys ids failure)
        { s with store := store }

theorem effect_of_same {s : Shared σ ι} {clock : Time} {i : ι} {p p' : Phase ι}
    (hrenewal : renewal p = []) (hplain : p'.Plain)
    (hrefers : ∀ cid obj, p'.Refers cid obj →
      p.Refers cid obj ∨ s.descriptors.lookup cid = some obj) :
    Effect blake2b s clock i p p' s :=
  .quiet rfl rfl (fun _ => rfl) rfl hrenewal hplain hrefers

theorem effect_of_view {s : Shared σ ι} {clock : Time} {i : ι} {p p' : Phase ι} {store : σ}
    (hview : view store = view s.store) (hrenewal : renewal p = []) (hplain : p'.Plain)
    (hrefers : ∀ cid obj, ¬p'.Refers cid obj) :
    Effect blake2b s clock i p p' { s with store := store } :=
  .quiet rfl rfl (fun _ => rfl) hview hrenewal hplain fun cid obj h => (hrefers cid obj h).elim

theorem effect_of_edit {s : Shared σ ι} {clock : Time} {i obj : ι} {p p' : Phase ι}
    {change : CacheDescriptor → CacheDescriptor} (hchange : ∀ d, core (change d) = core d)
    (hrenewal : renewal p = []) (hplain : p'.Plain) (hrefers : ∀ cid obj, ¬p'.Refers cid obj) :
    Effect blake2b s clock i p p' (s.edit obj change) :=
  .quiet rfl rfl (core_edit s obj hchange) rfl hrenewal hplain
    fun cid obj h => (hrefers cid obj h).elim

theorem effect_goOn {s : Shared σ ι} {clock : Time} {i obj : ι} {cid : String}
    (d : CacheDescriptor) (use : Use) :
    Effect blake2b s clock i (.testing cid obj use) (goOn blake2b cid obj d use) s := by
  cases use with
  | answer => exact effect_of_same rfl trivial fun _ _ => False.elim
  | count tokens =>
      simp only [goOn]
      cases matchedChunks blake2b d tokens with
      | error err => exact effect_of_same rfl trivial fun _ _ => False.elim
      | ok matched => exact effect_of_same rfl trivial fun _ _ => False.elim
  | read numChunks workerId => exact effect_of_same rfl trivial fun _ _ => False.elim
  | extend ttl => exact effect_of_same rfl trivial fun _ _ => .inl
  | mark pin => exact effect_of_same rfl trivial fun _ _ => False.elim

theorem effect_advance (s : Shared σ ι) (clock : Time) (i : ι) (p : Phase ι) :
    Effect blake2b s clock i p (advance blake2b s clock i p).1
      (advance blake2b s clock i p).2 := by
  cases p with
  | ready call =>
      cases call with
      | register r newId =>
          simp only [advance]
          cases hcounts : checkCounts (tokenSlices r.tokenIds s.chunkSize).length
              (normalizePayloads r.payloads).entries with
          | error err => exact effect_of_same rfl trivial fun _ _ => False.elim
          | ok _ => exact .started hcounts
      | delete cid => exact effect_of_same rfl trivial fun _ _ => False.elim
      | onLive cid use =>
          simp only [advance]
          cases hobj : s.descriptors.lookup cid with
          | none => exact effect_of_same rfl trivial fun _ _ => False.elim
          | some obj =>
              have hrefers : ∀ id o, (Phase.testing cid obj use).Refers id o →
                  (Phase.ready (.onLive cid use)).Refers id o ∨
                    s.descriptors.lookup id = some o := by
                rintro id o ⟨rfl, rfl⟩
                exact .inr hobj
              exact effect_of_same rfl trivial hrefers
      | sweep => exact effect_of_same rfl trivial fun _ _ => False.elim
  | putting r newId rest =>
      cases rest with
      | nil =>
          simp only [advance]
          cases hd : s.build blake2b r newId clock with
          | error err => exact effect_of_same rfl trivial fun _ _ => False.elim
          | ok d => exact .built hd
      | cons chunk rest =>
          simp only [advance, LosslessStore.put_ok]
          exact .put (LosslessStore.view_put ..)
  | publishing cid d => exact .published
  | testing cid obj use =>
      simp only [advance]
      cases s.object obj with
      | none => exact effect_of_same rfl trivial fun _ _ => .inl
      | some d =>
          simp only
          split_ifs
          · exact effect_of_same rfl trivial fun _ _ => False.elim
          · exact effect_goOn d use
  | touching obj =>
      exact effect_of_edit (fun _ => rfl) rfl trivial fun _ _ => not_false
  | loading keys =>
      cases keys with
      | nil => exact effect_of_same rfl trivial fun _ _ => False.elim
      | cons key keys =>
          simp only [advance, LosslessStore.get_ok]
          cases view s.store key with
          | none =>
              exact effect_of_view (LosslessStore.view_get ..) rfl trivial fun _ _ => not_false
          | some payload =>
              exact effect_of_view (LosslessStore.view_get ..) rfl trivial fun _ _ => not_false
  | extending cid obj ttl =>
      simp only [advance]
      cases ttl.addedTo clock with
      | error err => exact effect_of_same rfl trivial fun _ _ => False.elim
      | ok expiresAt => exact effect_of_same rfl trivial fun _ _ => .inl
  | writing cid obj expiresAt => exact .written
  | marking obj pin keys =>
      exact effect_of_edit (fun _ => rfl) rfl trivial fun _ _ => not_false
  | pinning pin keys =>
      cases keys with
      | nil => exact effect_of_same rfl trivial fun _ _ => False.elim
      | cons key keys =>
          refine effect_of_view ?_ rfl trivial fun _ _ => not_false
          cases pin with
          | false => exact LosslessStore.view_unpin ..
          | true => exact LosslessStore.view_pin ..
  | sweeping now => exact effect_of_same rfl trivial fun _ _ => False.elim
  | cleaning keys ids failure =>
      cases keys with
      | cons key keys => exact .removed (LosslessStore.view_remove ..)
      | nil =>
          cases ids with
          | cons cid ids =>
              simp only [advance]
              cases hd : s.current cid with
              | none => exact effect_of_same rfl trivial fun _ _ => False.elim
              | some d => exact .popped hd
          | nil =>
              cases failure with
              | none => exact effect_of_same rfl trivial fun _ _ => False.elim
              | some err => exact effect_of_same rfl trivial fun _ _ => False.elim
  | returned => exact effect_of_same rfl trivial fun _ _ => False.elim
  | raised err => exact effect_of_same rfl trivial fun _ _ => False.elim

/-! ## What holds in every world -/

theorem sameCache_of_core {d d' : CacheDescriptor} (h : core d' = core d) : SameCache d d' :=
  ⟨congrArg (·.cacheId) h, congrArg (·.numTokens) h, congrArg (·.chunkSize) h,
    congrArg (·.workerIds) h, congrArg (·.chunkFingerprints) h⟩

section Effects

variable {s s' : Shared σ ι} {clock : Time} {i : ι} {p p' : Phase ι}

/-- An object after a step: one that was there, or the one that is published. -/
theorem object_of_effect (h : Effect blake2b s clock i p p' s') {obj : ι} {d' : CacheDescriptor}
    (hd' : s'.object obj = some d') :
    (∃ d, s.object obj = some d ∧ SameCache d d') ∨ obj = i ∧ ∃ cid, p = .publishing cid d' := by
  cases h with
  | quiet _ _ hobject =>
      have hcore := hobject obj
      rw [hd', Option.map_some, eq_comm, Option.map_eq_some_iff] at hcore
      obtain ⟨d, hd, hsame⟩ := hcore
      exact .inl ⟨d, hd, sameCache_of_core hsame.symm⟩
  | @published cid d =>
      by_cases hobj : obj = i
      · subst hobj
        simp only [Function.update_self, Option.some.injEq] at hd'
        exact .inr ⟨rfl, cid, by rw [hd']⟩
      · simp only [Function.update_of_ne hobj] at hd'
        exact .inl ⟨d', hd', .refl d'⟩
  | @written cid o expiresAt =>
      simp only [Shared.edit] at hd'
      by_cases hobj : obj = o
      · subst hobj
        simp only [Function.update_self, Option.map_eq_some_iff] at hd'
        obtain ⟨d, hd, rfl⟩ := hd'
        exact .inl ⟨d, hd, rfl, rfl, rfl, rfl, rfl⟩
      · simp only [Function.update_of_ne hobj] at hd'
        exact .inl ⟨d', hd', .refl d'⟩
  | started => exact .inl ⟨d', hd', .refl d'⟩
  | put => exact .inl ⟨d', hd', .refl d'⟩
  | built => exact .inl ⟨d', hd', .refl d'⟩
  | popped => exact .inl ⟨d', hd', .refl d'⟩
  | removed => exact .inl ⟨d', hd', .refl d'⟩

theorem object_kept (h : Effect blake2b s clock i p p' s') {obj : ι} {d : CacheDescriptor}
    (hd : s.object obj = some d) : ∃ d', s'.object obj = some d' := by
  cases h with
  | quiet _ _ hobject =>
      have hcore := hobject obj
      rw [hd, Option.map_some, Option.map_eq_some_iff] at hcore
      obtain ⟨d', hd', _⟩ := hcore
      exact ⟨d', hd'⟩
  | published =>
      by_cases hobj : obj = i
      · subst hobj
        exact ⟨_, Function.update_self ..⟩
      · exact ⟨d, by simp only [Function.update_of_ne hobj, hd]⟩
  | @written cid o expiresAt =>
      simp only [Shared.edit]
      by_cases hobj : obj = o
      · subst hobj
        exact ⟨_, by rw [Function.update_self, hd]; rfl⟩
      · exact ⟨d, by rw [Function.update_of_ne hobj, hd]⟩
  | started => exact ⟨d, hd⟩
  | put => exact ⟨d, hd⟩
  | built => exact ⟨d, hd⟩
  | popped => exact ⟨d, hd⟩
  | removed => exact ⟨d, hd⟩

theorem unpublished_of_effect (h : Effect blake2b s clock i p p' s')
    (hunpublished : p'.Unpublished) : p.Unpublished := by
  cases h with
  | quiet _ _ _ _ _ hplain => exact absurd hunpublished hplain.not_unpublished
  | started => trivial
  | put => trivial
  | built => trivial
  | published => exact hunpublished.elim
  | written => exact hunpublished.elim
  | popped => exact hunpublished.elim
  | removed => exact hunpublished.elim

theorem ne_ready_of_effect (h : Effect blake2b s clock i p p' s') (call : Call) :
    p' ≠ .ready call := by
  rintro rfl
  cases h with
  | quiet _ _ _ _ _ hplain => exact hplain.elim

theorem putting_of_effect {r : Registration} {newId : String} {rest : List (ChunkKey × KVPayload)}
    (h : Effect blake2b s clock i p (.putting r newId rest) s') :
    (p = .ready (.register r newId) ∧ checkCounts (tokenSlices r.tokenIds s.chunkSize).length
        (normalizePayloads r.payloads).entries = .ok ()) ∨
      ∃ chunk, p = .putting r newId (chunk :: rest) := by
  cases h with
  | quiet _ _ _ _ _ hplain => exact hplain.elim
  | started hcounts => exact .inl ⟨rfl, hcounts⟩
  | put => exact .inr ⟨_, rfl⟩

theorem publishing_of_effect {cid : String} {d : CacheDescriptor}
    (h : Effect blake2b s clock i p (.publishing cid d) s') :
    ∃ r newId, p = .putting r newId [] ∧ cid = resolveId r.cacheId newId ∧
      s.build blake2b r newId clock = .ok d := by
  cases h with
  | quiet _ _ _ _ _ hplain => exact hplain.elim
  | built hd => exact ⟨_, _, rfl, rfl, hd⟩

theorem published_of_effect {cid : String} {d : CacheDescriptor}
    (h : Effect blake2b s clock i (.publishing cid d) p' s') :
    ¬p'.Unpublished ∧ s'.object i = some d := by
  cases h with
  | quiet _ _ _ _ hrenewal => simp [renewal] at hrenewal
  | published => exact ⟨id, Function.update_self ..⟩

theorem lookup_of_effect (h : Effect blake2b s clock i p p' s') {cid : String} {obj : ι}
    (hobj : s'.descriptors.lookup cid = some obj) :
    s.descriptors.lookup cid = some obj ∨ obj = i ∧ ∃ d, p = .publishing cid d := by
  cases h with
  | quiet _ hdescriptors =>
      rw [hdescriptors] at hobj
      exact .inl hobj
  | @published id d =>
      rw [OrderedDict.lookup_setItem] at hobj
      split_ifs at hobj with hid
      · subst hid
        exact .inr ⟨(Option.some.inj hobj).symm, d, rfl⟩
      · exact .inl hobj
  | popped =>
      rw [OrderedDict.lookup_erase] at hobj
      split_ifs at hobj
      exact .inl hobj
  | started => exact .inl hobj
  | put => exact .inl hobj
  | built => exact .inl hobj
  | written => exact .inl hobj
  | removed => exact .inl hobj

theorem refers_of_effect (h : Effect blake2b s clock i p p' s') {cid : String} {obj : ι}
    (hrefers : p'.Refers cid obj) : p.Refers cid obj ∨ s.descriptors.lookup cid = some obj := by
  cases h with
  | quiet _ _ _ _ _ _ hkept => exact hkept cid obj hrefers
  | started => exact hrefers.elim
  | put => exact hrefers.elim
  | built => exact hrefers.elim
  | published => exact hrefers.elim
  | written => exact hrefers.elim
  | popped => exact hrefers.elim
  | removed => exact hrefers.elim

theorem registers_of_effect (h : Effect blake2b s clock i p p' s') {cid : String}
    (hregisters : p'.Registers cid) : p.OfRegister cid := by
  cases h with
  | quiet _ _ _ _ _ hplain => exact absurd hregisters (hplain.not_registers cid)
  | started => exact hregisters
  | put => exact hregisters
  | built => exact hregisters
  | published => exact hregisters.elim
  | written => exact hregisters.elim
  | popped => exact hregisters.elim
  | removed => exact hregisters.elim

/-- Chunks are left to remove after a step: they were before, or the step has
just taken their cache out of the dictionary. -/
theorem cleans_of_effect (h : Effect blake2b s clock i p p' s') {cid : String}
    (hcleans : p'.Cleans cid) :
    p.Cleans cid ∨
      p.Pops cid ∧ s.descriptors.lookup cid ≠ none ∧ s'.descriptors.lookup cid = none := by
  cases h with
  | quiet _ _ _ _ _ hplain => exact absurd hcleans (hplain.not_cleans cid)
  | started => exact hcleans.elim
  | put => exact hcleans.elim
  | built => exact hcleans.elim
  | published => exact hcleans.elim
  | written => exact hcleans.elim
  | @popped id ids failure d hd =>
      obtain ⟨key, hkey, rfl⟩ := hcleans
      obtain rfl := cacheId_of_mem_chunkKeys hkey
      refine .inr ⟨rfl, ?_, ?_⟩
      · intro hnone
        simp [Shared.current, hnone] at hd
      · exact AList.lookup_erase _ _
  | removed =>
      obtain ⟨key, hkey, hid⟩ := hcleans
      exact .inl ⟨key, List.mem_cons_of_mem _ hkey, hid⟩

/-- An entry of the dictionary after a step: as before, gone, or published. -/
theorem lookup_cases_of_effect (h : Effect blake2b s clock i p p' s') (cid : String) :
    s'.descriptors.lookup cid = s.descriptors.lookup cid ∨ s'.descriptors.lookup cid = none ∨
      p.Registers cid := by
  cases h with
  | quiet _ hdescriptors => exact .inl (by rw [hdescriptors])
  | @published id d =>
      by_cases hid : cid = id
      · exact .inr (.inr hid.symm)
      · exact .inl ((OrderedDict.lookup_setItem ..).trans (if_neg hid))
  | @popped id =>
      by_cases hid : cid = id
      · exact .inr (.inl ((OrderedDict.lookup_erase ..).trans (if_pos hid)))
      · exact .inl ((OrderedDict.lookup_erase ..).trans (if_neg hid))
  | started => exact .inl rfl
  | put => exact .inl rfl
  | built => exact .inl rfl
  | written => exact .inl rfl
  | removed => exact .inl rfl

theorem chunkSize_of_effect (h : Effect blake2b s clock i p p' s') :
    s'.chunkSize = s.chunkSize := by
  cases h with
  | quiet hsize => exact hsize
  | _ => rfl

end Effects

/-- Phases, dictionary entries and objects belong to the calls of the run. -/
structure WellFormed (blake2b : List UInt8 → String) (calls : ι → Call) (size : Nat)
    (w : World σ ι) : Prop where
  chunkSize : w.shared.chunkSize = size
  ready : ∀ i call, w.phase i = .ready call → call = calls i
  putting : ∀ i r newId rest, w.phase i = .putting r newId rest → calls i = .register r newId ∧
    checkCounts (tokenSlices r.tokenIds size).length (normalizePayloads r.payloads).entries = .ok ()
  publishing : ∀ i cid d, w.phase i = .publishing cid d → ∃ r newId,
    calls i = .register r newId ∧ cid = resolveId r.cacheId newId ∧ Made blake2b size r newId d
  unpublished : ∀ i, (w.phase i).Unpublished → w.shared.object i = none
  object : ∀ obj d, w.shared.object obj = some d → ∃ r newId,
    calls obj = .register r newId ∧ Made blake2b size r newId d
  lookup : ∀ cid obj, w.shared.descriptors.lookup cid = some obj →
    ∃ d, w.shared.object obj = some d ∧ d.cacheId = cid
  refers : ∀ i cid obj, (w.phase i).Refers cid obj →
    ∃ d, w.shared.object obj = some d ∧ d.cacheId = cid

section WellFormed

variable {calls : ι → Call} {size : Nat} {w : World σ ι}

omit [DecidableEq ι] [LosslessBackend σ] in
theorem wellFormed_init (store : σ) (chunkSize : Nat) (hpos : 0 < chunkSize)
    (defaultTtl : Option Ttl) (clock : Time) (calls : ι → Call) :
    WellFormed blake2b calls chunkSize (.init store chunkSize hpos defaultTtl clock calls) where
  chunkSize := rfl
  ready := by
    intro i call hcall
    injection hcall with hcall
    exact hcall.symm
  putting := fun i r newId rest h => by cases h
  publishing := fun i cid d h => by cases h
  unpublished := fun _ _ => rfl
  object := fun obj d h => by cases h
  lookup := fun cid obj hobj => by simp [World.init] at hobj
  refers := fun i cid obj => False.elim

theorem object_step (hinv : WellFormed blake2b calls size w) {i : ι} {p' : Phase ι}
    {s' : Shared σ ι} (h : Effect blake2b w.shared w.clock i (w.phase i) p' s') {obj : ι}
    {d : CacheDescriptor} (hd : w.shared.object obj = some d) :
    ∃ d', s'.object obj = some d' ∧ SameCache d d' := by
  obtain ⟨d', hd'⟩ := object_kept h hd
  refine ⟨d', hd', ?_⟩
  rcases object_of_effect h hd' with ⟨d₀, hd₀, hsame⟩ | ⟨rfl, cid, hp⟩
  · obtain rfl := Option.some.inj (hd.symm.trans hd₀)
    exact hsame
  · have hnone := hinv.unpublished obj (by rw [hp]; trivial)
    rw [hd] at hnone
    cases hnone

theorem object_step_cacheId (hinv : WellFormed blake2b calls size w) {i : ι} {p' : Phase ι}
    {s' : Shared σ ι} (h : Effect blake2b w.shared w.clock i (w.phase i) p' s') {obj : ι}
    {cid : String} (hobj : ∃ d, w.shared.object obj = some d ∧ d.cacheId = cid) :
    ∃ d', s'.object obj = some d' ∧ d'.cacheId = cid := by
  obtain ⟨d, hd, rfl⟩ := hobj
  obtain ⟨d', hd', hsame⟩ := object_step hinv h hd
  exact ⟨d', hd', hsame.cacheId⟩

theorem wellFormed_of_effect (hinv : WellFormed blake2b calls size w) {i : ι} {p' : Phase ι}
    {s' : Shared σ ι} (h : Effect blake2b w.shared w.clock i (w.phase i) p' s')
    (renewals : List (String × Option Ticks)) :
    WellFormed blake2b calls size
      { w with shared := s', phase := Function.update w.phase i p', renewals := renewals } where
  chunkSize := (chunkSize_of_effect h).trans hinv.chunkSize
  ready := by
    apply (Function.forall_update_iff w.phase fun (j : ι) (p : Phase ι) =>
      ∀ call, p = .ready call → call = calls j).mpr
    exact ⟨fun call hp => absurd hp (ne_ready_of_effect h call), fun j _ => hinv.ready j⟩
  putting := by
    apply (Function.forall_update_iff w.phase fun (j : ι) (p : Phase ι) =>
      ∀ r newId rest, p = .putting r newId rest →
      calls j = .register r newId ∧ checkCounts (tokenSlices r.tokenIds size).length
        (normalizePayloads r.payloads).entries = .ok ()).mpr
    refine ⟨?_, fun j _ => hinv.putting j⟩
    rintro r newId rest rfl
    rcases putting_of_effect h with ⟨hp, hcounts⟩ | ⟨chunk, hp⟩
    · rw [hinv.chunkSize] at hcounts
      exact ⟨(hinv.ready i _ hp).symm, hcounts⟩
    · exact hinv.putting i r newId _ hp
  publishing := by
    apply (Function.forall_update_iff w.phase fun (j : ι) (p : Phase ι) =>
      ∀ cid d, p = .publishing cid d →
      ∃ r newId, calls j = .register r newId ∧ cid = resolveId r.cacheId newId ∧
        Made blake2b size r newId d).mpr
    refine ⟨?_, fun j _ => hinv.publishing j⟩
    rintro cid d rfl
    obtain ⟨r, newId, hp, hcid, hd⟩ := publishing_of_effect h
    obtain ⟨hcall, hcounts⟩ := hinv.putting i r newId [] hp
    rw [← hinv.chunkSize] at hcounts ⊢
    exact ⟨r, newId, hcall, hcid, made_of_build hcounts hd⟩
  unpublished := by
    apply (Function.forall_update_iff w.phase fun (j : ι) (p : Phase ι) =>
      p.Unpublished → s'.object j = none).mpr
    have habsent : ∀ j, (w.phase j).Unpublished → (j = i → p'.Unpublished) →
        s'.object j = none := by
      intro j hbefore hself
      cases hd' : s'.object j with
      | none => rfl
      | some d' =>
          exfalso
          rcases object_of_effect h hd' with ⟨d, hd, _⟩ | ⟨rfl, cid, hp⟩
          · rw [hinv.unpublished j hbefore] at hd
            cases hd
          · rw [hp] at h
            exact (published_of_effect h).1 (hself rfl)
    constructor
    · intro hp'
      exact habsent i (unpublished_of_effect h hp') fun _ => hp'
    · intro j hji hbefore
      exact habsent j hbefore fun heq => absurd heq hji
  object := by
    intro obj d' hd'
    rcases object_of_effect h hd' with ⟨d, hd, hsame⟩ | ⟨rfl, cid, hp⟩
    · obtain ⟨r, newId, hcall, hmade⟩ := hinv.object obj d hd
      exact ⟨r, newId, hcall, hmade.of_same hsame⟩
    · obtain ⟨r, newId, hcall, _, hmade⟩ := hinv.publishing _ _ _ hp
      exact ⟨r, newId, hcall, hmade⟩
  lookup := by
    intro cid obj hobj
    rcases lookup_of_effect h hobj with hobj | ⟨rfl, d, hp⟩
    · exact object_step_cacheId hinv h (hinv.lookup cid obj hobj)
    · obtain ⟨r, newId, _, hcid, hmade⟩ := hinv.publishing _ _ _ hp
      rw [hp] at h
      exact ⟨d, (published_of_effect h).2, hmade.cacheId.trans hcid.symm⟩
  refers := by
    apply (Function.forall_update_iff w.phase fun (_ : ι) (p : Phase ι) =>
      ∀ cid obj, p.Refers cid obj →
      ∃ d, s'.object obj = some d ∧ d.cacheId = cid).mpr
    constructor
    · intro cid obj hrefers
      apply object_step_cacheId hinv h
      rcases refers_of_effect h hrefers with hbefore | hobj
      · exact hinv.refers i cid obj hbefore
      · exact hinv.lookup cid obj hobj
    · intro j _ cid obj hrefers
      exact object_step_cacheId hinv h (hinv.refers j cid obj hrefers)

theorem wellFormed_step (hinv : WellFormed blake2b calls size w) (event : Event ι) :
    WellFormed blake2b calls size (w.step blake2b event) := by
  cases event with
  | clock now => exact ⟨hinv.1, hinv.2, hinv.3, hinv.4, hinv.5, hinv.6, hinv.7, hinv.8⟩
  | call i => exact wellFormed_of_effect hinv (effect_advance ..) _

end WellFormed

/-! ## Registrations and clean-ups apart -/

/-- No `register` call on the id takes a step while a clean-up has chunks of it
left to remove, and none is under way when its descriptor is taken out. -/
def KeepsApart (cid : String) (w : World σ ι) (i : ι) : Prop :=
  ((w.phase i).OfRegister cid → ∀ j, ¬(w.phase j).Cleans cid) ∧
    ((w.phase i).Pops cid → w.shared.descriptors.lookup cid ≠ none →
      ∀ j, ¬(w.phase j).Registers cid)

instance [Fintype ι] (cid : String) (w : World σ ι) (i : ι) : Decidable (KeepsApart cid w i) :=
  inferInstanceAs (Decidable (_ ∧ _))

/-- While a clean-up has chunks of the id left to remove, the id is free. -/
def Apart (cid : String) (w : World σ ι) : Prop :=
  ∀ i, (w.phase i).Cleans cid →
    w.shared.descriptors.lookup cid = none ∧ ∀ j, ¬(w.phase j).Registers cid

theorem apart_step {cid : String} {w : World σ ι} {i : ι} (hinv : Apart cid w)
    (hguard : KeepsApart cid w i) : Apart cid (w.step blake2b (.call i)) := by
  have heffect : Effect blake2b w.shared w.clock i (w.phase i) _ _ := effect_advance ..
  simp only [Apart, World.step]
  generalize (advance blake2b w.shared w.clock i (w.phase i)).1 = p',
    (advance blake2b w.shared w.clock i (w.phase i)).2 = s' at heffect
  -- the registrations after the step, when a clean-up was under way before it
  have hothers : (∃ j, (w.phase j).Cleans cid) →
      s'.descriptors.lookup cid = none ∧
        ∀ k, ¬(Function.update w.phase i p' k).Registers cid := by
    rintro ⟨j, hj⟩
    obtain ⟨hfree, hnone⟩ := hinv j hj
    constructor
    · rcases lookup_cases_of_effect heffect cid with hsame | hgone | hregisters
      · rw [hsame, hfree]
      · exact hgone
      · exact absurd hregisters (hnone i)
    · intro k hk
      by_cases hki : k = i
      · subst hki
        rw [Function.update_self] at hk
        exact hguard.1 (registers_of_effect heffect hk) j hj
      · rw [Function.update_of_ne hki] at hk
        exact hnone k hk
  intro j hj
  by_cases hji : j = i
  · subst hji
    rw [Function.update_self] at hj
    rcases cleans_of_effect heffect hj with hbefore | ⟨hpops, hthere, hgone⟩
    · exact hothers ⟨j, hbefore⟩
    · refine ⟨hgone, fun k hk => ?_⟩
      by_cases hkj : k = j
      · subst hkj
        rw [Function.update_self] at hk
        generalize p' = q at hj hk
        cases q with
        | cleaning => exact hk
        | _ => exact hj
      · rw [Function.update_of_ne hkj] at hk
        exact hguard.2 hpops hthere k hk
  · rw [Function.update_of_ne hji] at hj
    exact hothers ⟨j, hj⟩

end LlmCache.Engine.Effects
