import LlmCache.Engine.Effects
import LlmCache.Engine.Prefix
import Mathlib.Data.Fin.VecNotation

/-!
# Expiry clean-ups and renewals

A clean-up tests a descriptor and deletes by id later, so what it deletes may
have been renewed in between; a renewal writes to a descriptor it has read, so
it may renew one that is gone.  Where neither happens, and registrations and
clean-ups keep apart, a renewed cache stays until its expiry.
-/

namespace LlmCache.Engine.Expiry

open Errors Lib Payload LlmCache.Types Store ExplicitKVCache Descriptors Chunks Interleaving
  Effects Prefix

open LosslessStore (view)

/-- The clock has not reached the expiry. -/
def Unexpired (expiresAt : Option Ticks) (clock : Time) : Prop :=
  ∀ x ∈ expiresAt, ¬x.Reached clock

/-- The first expiry is no earlier than the second; no expiry is like an infinite one. -/
def Covers (expiresAt expiresAt' : Option Ticks) : Prop :=
  ∀ x ∈ expiresAt, x.NoEarlier (expiresAt'.getD .posInf)

instance (expiresAt : Option Ticks) (clock : Time) : Decidable (Unexpired expiresAt clock) :=
  inferInstanceAs (Decidable (∀ x ∈ expiresAt, ¬x.Reached clock))

instance (expiresAt expiresAt' : Option Ticks) : Decidable (Covers expiresAt expiresAt') :=
  inferInstanceAs (Decidable (∀ x ∈ expiresAt, x.NoEarlier (expiresAt'.getD .posInf)))

theorem Covers.refl (expiresAt : Option Ticks) : Covers expiresAt expiresAt := by
  rintro x rfl
  exact .refl x

theorem Covers.unexpired {expiresAt expiresAt' : Option Ticks} {clock : Time}
    (h : Covers expiresAt expiresAt') (hunexpired : Unexpired expiresAt' clock) :
    Unexpired expiresAt clock := by
  intro x hx hreached
  have hsecond := (h x hx).reached hreached
  cases expiresAt' with
  | none => exact hsecond
  | some x' => exact hunexpired x' rfl hsecond

theorem isExpired_iff (d : CacheDescriptor) (clock : Time) :
    d.isExpired none clock = false ↔ Unexpired d.expiresAt clock := by
  unfold CacheDescriptor.isExpired Unexpired
  cases d.expiresAt with
  | none => simp
  | some t => simp

variable {σ ι : Type} [LosslessBackend σ] [DecidableEq ι] {blake2b : List UInt8 → String}

/-! ## The descriptor under an id -/

/-- What a step does to the descriptor under an id. -/
inductive CurrentStep (cid : String) (s s' : Shared σ ι) (i : ι) (p : Phase ι) : Prop
  | kept (hcurrent : (s'.current cid).map core = (s.current cid).map core)
      (hrenewal : ∀ e, (cid, e) ∈ renewal p →
        ∃ obj e, p = .writing cid obj e ∧ s.descriptors.lookup cid ≠ some obj)
  | published (d : CacheDescriptor) (hp : p = .publishing cid d)
      (hcurrent : s'.current cid = some d)
  | renewed (obj : ι) (e : Ticks) (d : CacheDescriptor) (hp : p = .writing cid obj e)
      (hd : s.current cid = some d)
      (hcurrent : s'.current cid = some { d with expiresAt := some e })
  | popped (d : CacheDescriptor) (hp : p.Pops cid) (hd : s.current cid = some d)
      (hcurrent : s'.current cid = none)

theorem current_step {calls : ι → Call} {size : Nat} {w : World σ ι}
    (hinv : WellFormed blake2b calls size w) {i : ι} {p' : Phase ι} {s' : Shared σ ι}
    (h : Effect blake2b w.shared w.clock i (w.phase i) p' s') (cid : String) :
    CurrentStep cid w.shared s' i (w.phase i) := by
  generalize hp : w.phase i = p at h
  cases h with
  | quiet _ hdescriptors hobject _ hrenewal =>
      apply CurrentStep.kept
      · simp only [Shared.current, hdescriptors]
        cases w.shared.descriptors.lookup cid with
        | none => rfl
        | some obj => exact hobject obj
      · simp [hrenewal]
  | started => exact .kept rfl (by simp [renewal])
  | put => exact .kept rfl (by simp [renewal])
  | built => exact .kept rfl (by simp [renewal])
  | removed => exact .kept rfl (by simp [renewal])
  | @published id d =>
      by_cases hid : cid = id
      · subst hid
        apply CurrentStep.published d rfl
        simp [Shared.current]
      · apply CurrentStep.kept
        · simp only [Shared.current, OrderedDict.lookup_setItem, if_neg hid]
          cases hobj : w.shared.descriptors.lookup cid with
          | none => rfl
          | some obj =>
              -- the entry refers to an object, and the publisher has none yet
              have hne : obj ≠ i := by
                rintro rfl
                obtain ⟨d₀, hd₀, _⟩ := hinv.lookup cid obj hobj
                rw [hinv.unpublished obj (by rw [hp]; trivial)] at hd₀
                cases hd₀
              simp [Function.update_of_ne hne]
        · simp [renewal, hid]
  | @written id obj e =>
      by_cases hobj : w.shared.descriptors.lookup cid = some obj
      · obtain ⟨d, hd, hdid⟩ := hinv.lookup cid obj hobj
        obtain ⟨d', hd', hdid'⟩ := hinv.refers i id obj (by rw [hp]; exact ⟨rfl, rfl⟩)
        obtain rfl := Option.some.inj (hd.symm.trans hd')
        obtain rfl := hdid.symm.trans hdid'
        apply CurrentStep.renewed obj e d rfl
        · simp [Shared.current, hobj, hd]
        · simp [Shared.current, Shared.edit, hobj, hd]
      · apply CurrentStep.kept
        · simp only [Shared.current, Shared.edit]
          cases hobj' : w.shared.descriptors.lookup cid with
          | none => rfl
          | some obj' =>
              have hne : obj' ≠ obj := by
                rintro rfl
                exact hobj hobj'
              simp [Function.update_of_ne hne]
        · intro e' he'
          simp only [renewal, List.mem_singleton, Prod.mk.injEq] at he'
          obtain ⟨rfl, rfl⟩ := he'
          exact ⟨obj, e, rfl, hobj⟩
  | @popped id ids failure d hd =>
      by_cases hid : cid = id
      · subst hid
        have hpops : (Phase.cleaning [] (cid :: ids) failure : Phase ι).Pops cid := rfl
        apply CurrentStep.popped d hpops hd
        simp [Shared.current]
      · apply CurrentStep.kept
        · simp [Shared.current, hid]
        · simp [renewal]

/-! ## Renewed caches -/

/-- The condition on a step, for one id: a clean-up takes its descriptor out
only when that is expired and no registration is under way; registrations wait
for clean-ups to end; `extend_ttl` writes to the descriptor that is published;
and no renewal sets an earlier expiry than one that is still to come. -/
def KeepsFresh (cid : String) (w : World σ ι) : Event ι → Prop
  | .clock _ => True
  | .call i =>
      KeepsApart cid w i ∧
        ((w.phase i).Pops cid → ∀ d ∈ w.shared.current cid, d.isExpired none w.clock = true) ∧
        (∀ obj ∈ (w.phase i).rewrites cid, w.shared.descriptors.lookup cid = some obj) ∧
        ∀ later ∈ renewal (w.phase i), later.1 = cid → ∀ earlier ∈ w.renewals, earlier.1 = cid →
          Unexpired earlier.2 w.clock → Covers later.2 earlier.2

instance [Fintype ι] (cid : String) (w : World σ ι) (event : Event ι) :
    Decidable (KeepsFresh cid w event) :=
  match event with
  | .clock _ => inferInstanceAs (Decidable True)
  | .call _ => inferInstanceAs (Decidable (_ ∧ _ ∧ _ ∧ _))

/-- Whenever a renewal of the id has returned and the clock has not reached the
expiry that it set, the cache is live and all its chunks are in the store. -/
def Fresh (cid : String) (w : World σ ι) : Prop :=
  ∀ e, (cid, e) ∈ w.renewals → Unexpired e w.clock →
    ∃ d, w.shared.current cid = some d ∧ d.isExpired none w.clock = false ∧
      ∀ key ∈ chunkKeys cid d, (view w.shared.store key).isSome

/-- The invariant. -/
structure Kept (blake2b : List UInt8 → String) (calls : ι → Call) (size : Nat) (cid : String)
    (w : World σ ι) : Prop where
  wellFormed : WellFormed blake2b calls size w
  apart : Apart cid w
  stored : ∀ d, w.shared.current cid = some d →
    ∀ key ∈ chunkKeys cid d, (view w.shared.store key).isSome
  putting : ∀ i r newId rest, w.phase i = .putting r newId rest →
    resolveId r.cacheId newId = cid → ∀ key payload, (key, payload) ∈ putsOf r newId →
      (key, payload) ∈ rest ∨ (view w.shared.store key).isSome
  publishing : ∀ i d, w.phase i = .publishing cid d →
    ∀ key ∈ chunkKeys cid d, (view w.shared.store key).isSome
  promised : ∀ e, (cid, e) ∈ w.renewals → Unexpired e w.clock →
    ∃ d, w.shared.current cid = some d ∧ Covers d.expiresAt e

omit [DecidableEq ι] in
theorem Kept.fresh {calls : ι → Call} {size : Nat} {cid : String} {w : World σ ι}
    (h : Kept blake2b calls size cid w) : Fresh cid w := by
  intro e he hunexpired
  obtain ⟨d, hd, hcovers⟩ := h.promised e he hunexpired
  exact ⟨d, hd, (isExpired_iff d w.clock).mpr (hcovers.unexpired hunexpired), h.stored d hd⟩

/-- A chunk that is in the store stays there unless a clean-up removes it. -/
theorem isSome_of_effect {s s' : Shared σ ι} {clock : Time} {i : ι} {p p' : Phase ι}
    (h : Effect blake2b s clock i p p' s') {key : ChunkKey} (hkey : (view s.store key).isSome)
    (hcleans : ¬p.Cleans key.cacheId) : (view s'.store key).isSome := by
  cases h with
  | quiet _ _ _ hview => rwa [hview]
  | put hview =>
      rw [hview, Function.update_apply]
      split_ifs
      · rfl
      · exact hkey
  | @removed removed keys ids failure store hview =>
      have hne : key ≠ removed := by
        rintro rfl
        exact hcleans ⟨key, List.mem_cons_self .., rfl⟩
      rwa [hview, Function.update_of_ne hne]
  | started => exact hkey
  | built => exact hkey
  | published => exact hkey
  | written => exact hkey
  | popped => exact hkey

section Step

variable {calls : ι → Call} {size : Nat} {cid : String} {w : World σ ι} {i : ι} {p' : Phase ι}
  {s' : Shared σ ι}

theorem stored_step (hinv : Kept blake2b calls size cid w)
    (h : Effect blake2b w.shared w.clock i (w.phase i) p' s') {d' : CacheDescriptor}
    (hd' : s'.current cid = some d') : ∀ key ∈ chunkKeys cid d', (view s'.store key).isSome := by
  -- a descriptor with the same chunks was there before, and no clean-up is under way
  have hbefore : ∀ d, w.shared.current cid = some d → SameCache d d' →
      ∀ key ∈ chunkKeys cid d', (view s'.store key).isSome := by
    intro d hd hsame key hkey
    rw [chunkKeys_of_same hsame] at hkey
    apply isSome_of_effect h (hinv.stored d hd key hkey)
    rw [cacheId_of_mem_chunkKeys hkey]
    intro hcleans
    simp [Shared.current, (hinv.apart i hcleans).1] at hd
  cases current_step hinv.wellFormed h cid with
  | kept hcurrent =>
      rw [hd', Option.map_some, eq_comm, Option.map_eq_some_iff] at hcurrent
      obtain ⟨d, hd, hcore⟩ := hcurrent
      exact hbefore d hd (sameCache_of_core hcore.symm)
  | published d hp hcurrent =>
      obtain rfl := Option.some.inj (hd'.symm.trans hcurrent)
      intro key hkey
      apply isSome_of_effect h (hinv.publishing i d' hp key hkey)
      rw [hp]
      exact not_false
  | renewed obj e d hp hd hcurrent =>
      obtain rfl := Option.some.inj (hd'.symm.trans hcurrent)
      exact hbefore d hd ⟨rfl, rfl, rfl, rfl, rfl⟩
  | popped d hp hd hcurrent =>
      rw [hcurrent] at hd'
      cases hd'

theorem promised_step (hinv : Kept blake2b calls size cid w)
    (h : Effect blake2b w.shared w.clock i (w.phase i) p' s')
    (hguard : KeepsFresh cid w (.call i)) {e : Option Ticks}
    (he : (cid, e) ∈ w.renewals ++ renewal (w.phase i)) (hunexpired : Unexpired e w.clock) :
    ∃ d, s'.current cid = some d ∧ Covers d.expiresAt e := by
  obtain ⟨_, hpop, hwrite, hlater⟩ := hguard
  cases current_step hinv.wellFormed h cid with
  | kept hcurrent hrenewal =>
      rcases List.mem_append.mp he with hold | hnew
      · obtain ⟨d, hd, hcovers⟩ := hinv.promised e hold hunexpired
        rw [hd, Option.map_some, Option.map_eq_some_iff] at hcurrent
        obtain ⟨d', hd', hcore⟩ := hcurrent
        have hexpires : d'.expiresAt = d.expiresAt := congrArg (·.expiresAt) hcore
        exact ⟨d', hd', hexpires ▸ hcovers⟩
      · obtain ⟨obj, e', hp, hmissed⟩ := hrenewal e hnew
        refine absurd (hwrite obj ?_) hmissed
        simp [hp, Phase.rewrites]
  | published d hp hcurrent =>
      refine ⟨d, hcurrent, ?_⟩
      have hrenews : (cid, d.expiresAt) ∈ renewal (w.phase i) := by simp [hp, renewal]
      rcases List.mem_append.mp he with hold | hnew
      · exact hlater _ hrenews rfl (cid, e) hold rfl hunexpired
      · simp only [hp, renewal, List.mem_singleton, Prod.mk.injEq, true_and] at hnew
        rw [hnew]
        exact .refl _
  | renewed obj e' d hp hd hcurrent =>
      refine ⟨_, hcurrent, ?_⟩
      have hrenews : (cid, some e') ∈ renewal (w.phase i) := by simp [hp, renewal]
      rcases List.mem_append.mp he with hold | hnew
      · exact hlater _ hrenews rfl (cid, e) hold rfl hunexpired
      · simp only [hp, renewal, List.mem_singleton, Prod.mk.injEq, true_and] at hnew
        rw [hnew]
        exact .refl _
  | popped d hp hd hcurrent =>
      exfalso
      have hnew : renewal (w.phase i) = [] := by
        generalize w.phase i = p at hp
        cases p with
        | cleaning => rfl
        | _ => exact hp.elim
      rw [hnew, List.append_nil] at he
      obtain ⟨d', hd', hcovers⟩ := hinv.promised e he hunexpired
      obtain rfl := Option.some.inj (hd.symm.trans hd')
      have hlive := (isExpired_iff d w.clock).mpr (hcovers.unexpired hunexpired)
      rw [hpop hp d hd] at hlive
      cases hlive

theorem kept_call (hinv : Kept blake2b calls size cid w)
    (hguard : KeepsFresh cid w (.call i)) :
    Kept blake2b calls size cid (w.step blake2b (.call i)) := by
  have heffect : Effect blake2b w.shared w.clock i (w.phase i) _ _ := effect_advance ..
  refine ⟨wellFormed_step hinv.wellFormed _, apart_step hinv.apart hguard.1, ?_, ?_, ?_, ?_⟩
  all_goals
    simp only [World.step]
    generalize (advance blake2b w.shared w.clock i (w.phase i)).1 = p',
      (advance blake2b w.shared w.clock i (w.phase i)).2 = s' at heffect
  · exact fun d' hd' => stored_step hinv heffect hd'
  · intro j r newId rest hj hid key payload hmem
    have hkey : key.cacheId = cid := (cacheId_of_mem_putsOf hmem).trans hid
    -- no clean-up removes chunks while a registration is under way
    have hstays : (w.phase j).Registers cid → (view w.shared.store key).isSome →
        (view s'.store key).isSome := by
      intro hregisters hthere
      apply isSome_of_effect heffect hthere
      rw [hkey]
      exact fun hcleans => (hinv.apart i hcleans).2 j hregisters
    by_cases hji : j = i
    · subst hji
      rw [Function.update_self] at hj
      subst hj
      generalize hp : w.phase j = p at heffect hstays
      cases heffect with
      | quiet _ _ _ _ _ hplain => exact hplain.elim
      | started => exact .inl hmem
      | @put _ _ key₀ payload₀ _ store hview =>
          rcases hinv.putting j r newId _ hp hid key payload hmem with hrest | hthere
          · rcases List.mem_cons.mp hrest with heq | hrest
            · obtain ⟨rfl, rfl⟩ := Prod.mk.inj heq
              right
              rw [hview, Function.update_self]
              rfl
            · exact .inl hrest
          · exact .inr (hstays hid hthere)
    · rw [Function.update_of_ne hji] at hj
      have hregisters : (w.phase j).Registers cid := by
        rw [hj]
        exact hid
      exact (hinv.putting j r newId rest hj hid key payload hmem).imp id (hstays hregisters)
  · intro j d hj key hkey
    have hid := cacheId_of_mem_chunkKeys hkey
    by_cases hji : j = i
    · subst hji
      rw [Function.update_self] at hj
      subst hj
      generalize hp : w.phase j = p at heffect
      cases heffect with
      | quiet _ _ _ _ _ hplain => exact hplain.elim
      | @built r newId _ hd =>
          obtain ⟨_, hcounts⟩ := hinv.wellFormed.putting j r newId [] hp
          rw [← hinv.wellFormed.chunkSize] at hcounts
          obtain ⟨worker, hworker, index, hindex, rfl⟩ := (mem_chunkKeys_iff _ d key).mp hkey
          obtain ⟨chunk, _, hmem⟩ := (made_of_build hcounts hd).mem_putsOf hworker hindex
          exact (hinv.putting j r newId [] hp rfl _ chunk hmem).resolve_left List.not_mem_nil
    · rw [Function.update_of_ne hji] at hj
      apply isSome_of_effect heffect (hinv.publishing j d hj key hkey)
      rw [hid]
      intro hcleans
      apply (hinv.apart i hcleans).2 j
      rw [hj]
      rfl
  · exact fun e he hunexpired => promised_step hinv heffect hguard he hunexpired

theorem kept_step (hinv : Kept blake2b calls size cid w) {event : Event ι}
    (hguard : KeepsFresh cid w event) : Kept blake2b calls size cid (w.step blake2b event) := by
  cases event with
  | call i => exact kept_call hinv hguard
  | clock now =>
      refine ⟨wellFormed_step hinv.wellFormed _, hinv.apart, hinv.stored, hinv.putting,
        hinv.publishing, ?_⟩
      intro e he hunexpired
      apply hinv.promised e he
      exact fun x hx hreached => hunexpired x hx (hreached.mono (le_max_left _ now))

end Step

/-- In every run whose steps meet the condition, a renewed cache is live and
complete until the expiry that the renewal set. -/
theorem fresh_run (store : σ) (chunkSize : Nat) (hpos : 0 < chunkSize) (defaultTtl : Option Ttl)
    (clock : Time) (calls : ι → Call) (cid : String) (schedule : List (Event ι))
    (hrun : (World.clients blake2b σ ι).StepsMeet (KeepsFresh cid)
      (.init store chunkSize hpos defaultTtl clock calls) schedule) :
    Fresh cid ((World.clients blake2b σ ι).exec
      (.init store chunkSize hpos defaultTtl clock calls) schedule) := by
  have hstart : Kept blake2b calls chunkSize cid
      (World.init store chunkSize hpos defaultTtl clock calls) := by
    refine ⟨wellFormed_init store chunkSize hpos defaultTtl clock calls, ?_, ?_, ?_, ?_, ?_⟩
    · exact fun i => False.elim
    · intro d hd
      simp [World.init, Shared.current] at hd
    · exact fun i r newId rest h => by cases h
    · exact fun i d h => by cases h
    · intro e he
      simp [World.init] at he
  have hend := (World.clients blake2b σ ι).exec_induction
    (I := Kept blake2b calls chunkSize cid) (fun w event hinv hguard => kept_step hinv hguard)
    hstart hrun
  exact hend.fresh

/-- A renewal while another client is about to ask for the cache. -/
theorem fresh_run_extended :
    let r : Registration := ⟨[1, 2], .sequence [.ofBytes [7]], some "c", some 10, false, none⟩
    let calls : Fin 3 → Call := ![.register r "new", .onLive "c" (.extend 100), .onLive "c" .answer]
    let schedule : List (Event (Fin 3)) :=
      [.call 0, .call 0, .call 0, .call 0, .clock 5, .call 2, .call 1, .call 1, .call 1, .call 1,
        .clock 50, .call 2]
    let start : World UnboundedCPU (Fin 3) := .init .empty 2 (by decide) none 0 calls
    Fresh "c" ((World.clients sampleDigest UnboundedCPU (Fin 3)).exec start schedule) := by
  intro r calls schedule start
  have hrun : (World.clients sampleDigest UnboundedCPU (Fin 3)).StepsMeet (KeepsFresh "c") start
      schedule := by decide +kernel
  exact fresh_run _ _ _ _ _ _ _ _ hrun

/-- A client finds a cache expired, the cache is registered anew, and then the
client deletes it. -/
theorem cleanup_deletes_renewed :
    let r : Registration := ⟨[1, 2], .sequence [.ofBytes [7]], some "c", some 1, false, none⟩
    let renewed : Registration := { r with ttl := some 100 }
    let calls : Fin 3 → Call :=
      ![.register r "new", .onLive "c" .answer, .register renewed "new"]
    let schedule : List (Event (Fin 3)) :=
      [.call 0, .call 0, .call 0, .call 0, .clock 5, .call 1, .call 1, .call 2, .call 2, .call 2,
        .call 2, .call 1, .call 1, .call 1]
    let start : World UnboundedCPU (Fin 3) := .init .empty 2 (by decide) none 0 calls
    ¬Fresh "c" ((World.clients sampleDigest UnboundedCPU (Fin 3)).exec start schedule) := by
  intro r renewed calls schedule start
  have hrenewed : ("c", some 105) ∈
      ((World.clients sampleDigest UnboundedCPU (Fin 3)).exec start schedule).renewals := by
    decide +kernel
  have hclock : ((World.clients sampleDigest UnboundedCPU (Fin 3)).exec start schedule).clock =
      5 := by decide +kernel
  have hgone : ((World.clients sampleDigest UnboundedCPU (Fin 3)).exec start
      schedule).shared.descriptors.lookup "c" = none := by decide +kernel
  generalize (World.clients sampleDigest UnboundedCPU (Fin 3)).exec start schedule = w
    at hrenewed hclock hgone ⊢
  intro hfresh
  obtain ⟨d, hd, _⟩ := hfresh (some 105) hrenewed (by rw [hclock]; decide)
  simp [Shared.current, hgone] at hd

end LlmCache.Engine.Expiry
