import LlmCache.Lib.Interleaving
import LlmCache.Store.TieredRefinement
import Mathlib.Data.Fin.VecNotation
import Mathlib.Data.Fintype.Basic

/-!
# The two-tier store under concurrent clients

A tier call is atomic, a call of the two-tier store is not: it is a sequence of
tier calls between which other clients may run.  A schedule lists which call
takes the next step; the log keeps the steps taken so far.
-/

namespace LlmCache.Store.TieredInterleaving

open Errors Lib Payload LlmCache.Types KeyedStore Interleaving
open TieredBackend (current coldCopy hotPut)

/-- A call issued by some client. -/
inductive Call where
  | put (key : ChunkKey) (obj : KVPayload) (pin : Bool)
  | get (key : ChunkKey)
  | remove (key : ChunkKey)
deriving DecidableEq

/-- The tier call with which a call goes on, or how it ended. -/
inductive Phase where
  | ready (call : Call)
  | mirror (key : ChunkKey) (obj : KVPayload)
  | readCold (key : ChunkKey)
  | promote (key : ChunkKey) (obj : KVPayload)
  | removeCold (key : ChunkKey) (removedHot : Bool)
  | returned (reply : Reply KVPayload)
  | raised (err : Raised)
deriving DecidableEq

/-- The tiers, where each call stands, and who took the steps so far. -/
structure World (σ ι : Type) where
  tiers : TieredBackend σ
  phase : ι → Phase
  log : List ι

variable {σ ι : Type} [DecidableEq ι]

namespace World

section Steps

variable [StorageBackend σ]

/-- The first tier call of a call. -/
def firstStep (t : TieredBackend σ) : Call → Phase × TieredBackend σ
  | .put key obj pin =>
      match t.hotPut key obj pin with
      | (.error err, t') => (.raised err, t')
      | (.ok (), t') => (if pin then .mirror key obj else .returned .done, t')
  | .get key =>
      match t.hot.get key with
      | (some obj, hot) => (.returned (.object (some obj)), { t with hot := hot })
      | (none, hot) => (.readCold key, { t with hot := hot })
  | .remove key =>
      (.removeCold key (t.hot.remove key).1, { t with hot := (t.hot.remove key).2 })

/-- One tier call: where it leaves its caller, and the tiers. -/
def tierStep (t : TieredBackend σ) : Phase → Phase × TieredBackend σ
  | .ready call => firstStep t call
  | .mirror key obj =>
      match KeyedStore.put t.cold key obj true with
      | (.error err, cold) => (.raised err, { t with cold := cold })
      | (.ok (), cold) => (.returned .done, { t with cold := cold })
  | .readCold key =>
      match KeyedStore.get t.cold key with
      | (.error err, cold) => (.raised err, { t with cold := cold })
      | (.ok none, cold) => (.returned (.object none), { t with cold := cold })
      | (.ok (some obj), cold) => (.promote key obj, { t with cold := cold })
  | .promote key obj =>
      match t.hotPut key obj false with
      | (.error err, t') => (.raised err, t')
      | (.ok (), t') => (.returned (.object (some obj)), t')
  | .removeCold key removedHot =>
      (.returned (.flag (removedHot || (KeyedStore.remove t.cold key).1)),
        { t with cold := (KeyedStore.remove t.cold key).2 })
  | .returned reply => (.returned reply, t)
  | .raised err => (.raised err, t)

def step (w : World σ ι) (i : ι) : World σ ι where
  tiers := (tierStep w.tiers (w.phase i)).2
  phase := Function.update w.phase i (tierStep w.tiers (w.phase i)).1
  log := w.log ++ [i]

/-- The clients' calls, none of them started. -/
def init (tiers : TieredBackend σ) (calls : ι → Call) : World σ ι :=
  ⟨tiers, fun i => .ready (calls i), []⟩

/-- The clients as a machine: a step raises when it ends its call with an error. -/
def clients (σ ι : Type) [DecidableEq ι] [StorageBackend σ] :
    Machine (World σ ι) ι Raised Unit where
  step w i :=
    (match (w.step i).phase i with
      | .raised err => .error err
      | _ => .ok (), w.step i)

end Steps

end World

/-! ## Calls that run alone -/

section Solo

variable [StorageBackend σ]

/-- A call of the two-tier store as one step. -/
def atomically (t : TieredBackend σ) : Call → Phase × TieredBackend σ
  | .put key obj pin =>
      (match (t.put key obj pin).1 with
        | .error err => .raised err
        | .ok () => .returned .done, (t.put key obj pin).2)
  | .get key =>
      (match (t.get key).1 with
        | .error err => .raised err
        | .ok obj => .returned (.object obj), (t.get key).2)
  | .remove key => (.returned (.flag (t.remove key).1), (t.remove key).2)

/-- With nothing in between, the tier calls of a call add up to it. -/
theorem tierStep_solo (t : TieredBackend σ) (call : Call) :
    let first := World.tierStep t (.ready call)
    let second := World.tierStep first.2 first.1
    World.tierStep second.2 second.1 = atomically t call := by
  cases call with
  | put key obj pin =>
      simp only [World.tierStep, World.firstStep, atomically, TieredBackend.put]
      rcases t.hotPut key obj pin with ⟨err | _, t'⟩
      · rfl
      · cases pin with
        | false => rfl
        | true =>
            simp only [if_true]
            rcases KeyedStore.put t'.cold key obj true with ⟨err | _, cold⟩ <;> rfl
  | get key =>
      simp only [World.tierStep, World.firstStep, atomically, TieredBackend.get]
      rcases t.hot.get key with ⟨_ | obj, hot⟩
      · simp only
        rcases KeyedStore.get t.cold key with ⟨err | _ | obj, cold⟩
        · rfl
        · rfl
        · simp only
          rcases hotPut ⟨hot, cold⟩ key obj false with ⟨err | _, t'⟩ <;> rfl
      · rfl
  | remove key => rfl

end Solo

/-! ## Sequential accounts of a run -/

/-- The calls that put or remove a key. -/
def Mutates (key : ChunkKey) : Call → Prop
  | .put k _ _ => k = key
  | .remove k => k = key
  | .get _ => False

instance (key : ChunkKey) : DecidablePred (Mutates key) := fun call =>
  match call with
  | .put k _ _ => inferInstanceAs (Decidable (k = key))
  | .remove k => inferInstanceAs (Decidable (k = key))
  | .get _ => inferInstanceAs (Decidable False)

/-- What a call leaves under the key that it puts or removes. -/
def effect : Call → Option KVPayload → Option KVPayload
  | .put _ obj _, _ => some obj
  | .remove _, _ => none
  | .get _, obj => obj

theorem effect_of_mutates {key : ChunkKey} {call : Call} (h : Mutates key call)
    (obj obj' : Option KVPayload) : effect call obj = effect call obj' := by
  cases call with
  | put k o pin => rfl
  | remove k => rfl
  | get k => exact h.elim

/-- `order` runs the puts and removes of the key one after another without
contradicting real time. -/
structure SequentialOrder (calls : ι → Call) (key : ChunkKey) (log order : List ι) : Prop where
  nodup : order.Nodup
  mem_iff : ∀ i, i ∈ order ↔ Mutates key (calls i)
  realTime : order.Pairwise fun a b => ¬Precedes log b a

/-- A get finds what some sequential order of the puts and removes leaves. -/
def Linearizable [StorageBackend σ] (calls : ι → Call) (key : ChunkKey)
    (initial : Option KVPayload) (w : World σ ι) : Prop :=
  ∀ obj, (w.tiers.get key).1 = .ok obj →
    ∃ order, SequentialOrder calls key w.log order ∧
      order.foldl (fun obj i => effect (calls i) obj) initial = obj

omit [DecidableEq ι] in
/-- When one put or remove comes after all the others, a get finds its effect. -/
theorem Linearizable.of_last [StorageBackend σ] {calls : ι → Call} {key : ChunkKey}
    {initial : Option KVPayload} {w : World σ ι} (h : Linearizable calls key initial w)
    {a : ι} (ha : Mutates key (calls a))
    (hlast : ∀ i, Mutates key (calls i) → i ≠ a → Precedes w.log i a)
    {obj : Option KVPayload} (hget : (w.tiers.get key).1 = .ok obj) :
    obj = effect (calls a) none := by
  obtain ⟨order, horder, hfold⟩ := h obj hget
  obtain ⟨before, rfl⟩ := getLast_of_precedes horder.nodup horder.realTime
    ((horder.mem_iff a).mpr ha) fun i hi hne => hlast i ((horder.mem_iff i).mp hi) hne
  rw [List.foldl_append, List.foldl_cons, List.foldl_nil] at hfold
  rw [← hfold]
  exact effect_of_mutates ha _ _

/-! ## One tier call over a lossless cold tier -/

namespace Phase

/-- Calls that have not ended. -/
def Pending : Phase → Prop
  | .returned _ | .raised _ => False
  | _ => True

instance (p : Phase) : Decidable p.Pending :=
  match p with
  | .returned _ | .raised _ => inferInstanceAs (Decidable False)
  | .ready _ | .mirror .. | .readCold _ | .promote .. | .removeCold .. =>
      inferInstanceAs (Decidable True)

/-- The next tier call is one of a put or a remove of the key. -/
def Writes (key : ChunkKey) : Phase → Prop
  | .ready call => Mutates key call
  | .mirror k _ => k = key
  | .removeCold k _ => k = key
  | _ => False

/-- The phases a call goes through. -/
def Of (call : Call) : Phase → Prop
  | .ready c => c = call
  | .mirror key obj => call = .put key obj true
  | .readCold key => call = .get key
  | .promote key _ => call = .get key
  | .removeCold key _ => call = .remove key
  | .returned _ | .raised _ => True

theorem Of.writes_iff {call : Call} {p : Phase} (h : p.Of call) (hpending : p.Pending)
    (key : ChunkKey) : p.Writes key ↔ Mutates key call := by
  cases p with
  | ready c => rw [← show c = call from h]; rfl
  | mirror k obj => rw [show call = .put k obj true from h]; rfl
  | readCold k => rw [show call = .get k from h]; rfl
  | promote k obj => rw [show call = .get k from h]; rfl
  | removeCold k removedHot => rw [show call = .remove k from h]; rfl
  | returned reply => exact hpending.elim
  | raised err => exact hpending.elim

end Phase

variable [LosslessBackend σ]

/-- What one tier call does to a key, seen from that key. -/
inductive KeyStep (key : ChunkKey) (t : TieredBackend σ) : Phase → Phase → TieredBackend σ → Prop
  | frame {p p' t'} (hwrites : ¬p.Writes key) (hcurrent : t'.current key = t.current key)
      (habsent : t.hot.resident key = none → t'.hot.resident key = none) : KeyStep key t p p' t'
  | putHot {obj pin p' t'} (hhot : t'.hot.resident key = some obj) :
      KeyStep key t (.ready (.put key obj pin)) p' t'
  | mirror {obj p' t'} (hhot : t'.hot = t.hot) (hcold : t'.coldCopy key = some obj) :
      KeyStep key t (.mirror key obj) p' t'
  | promote {obj p' t'} (hhot : t'.hot.resident key = some obj) :
      KeyStep key t (.promote key obj) p' t'
  | removeHot {removedHot t'} (hhot : t'.hot.resident key = none) :
      KeyStep key t (.ready (.remove key)) (.removeCold key removedHot) t'
  | removeCold {removedHot p' t'} (hhot : t'.hot = t.hot) (hcold : t'.coldCopy key = none) :
      KeyStep key t (.removeCold key removedHot) p' t'

theorem keyStep_hotPut_other (t : TieredBackend σ) {key k : ChunkKey} (obj : KVPayload)
    (pin : Bool) (hk : k ≠ key) {p p' : Phase} (hwrites : ¬p.Writes k) :
    KeyStep k t p p' (t.hotPut key obj pin).2 :=
  .frame hwrites (TieredBackend.current_hotPut_other t obj pin hk)
    fun habsent => ((TieredBackend.hotPut_effect t obj pin hk).of_absent habsent).1

theorem keyStep_hotPut {t : TieredBackend σ} {key : ChunkKey} {obj : KVPayload} {pin : Bool}
    (hok : (t.hotPut key obj pin).1 = .ok ()) {p p' : Phase}
    (hself : (t.hotPut key obj pin).2.hot.resident key = some obj →
      KeyStep key t p p' (t.hotPut key obj pin).2)
    (hwrites : ∀ k, k ≠ key → ¬p.Writes k) (k : ChunkKey) :
    KeyStep k t p p' (t.hotPut key obj pin).2 := by
  by_cases hk : k = key
  · rw [hk]
    exact hself (TieredBackend.hot_hotPut_of_ok hok)
  · exact keyStep_hotPut_other t obj pin hk (hwrites k hk)

theorem keyStep_cold_other {t : TieredBackend σ} {cold : σ} {key k : ChunkKey}
    {obj : Option KVPayload} {p p' : Phase} (hk : k ≠ key) (hwrites : ¬p.Writes k)
    (hview : LosslessStore.view cold = Function.update (LosslessStore.view t.cold) key obj) :
    KeyStep k t p p' { t with cold := cold } := by
  apply KeyStep.frame hwrites
  · simp only [current, coldCopy, hview, Function.update_of_ne hk]
  · exact id

theorem keyStep_of_tierStep (t : TieredBackend σ) {p : Phase} (hpending : p.Pending)
    (hok : ∀ err, (World.tierStep t p).1 ≠ .raised err) (k : ChunkKey) :
    KeyStep k t p (World.tierStep t p).1 (World.tierStep t p).2 := by
  cases p with
  | ready call =>
      cases call with
      | put key obj pin =>
          simp only [World.tierStep, World.firstStep] at hok ⊢
          have hstep : (t.hotPut key obj pin).1 = .ok () → ∀ p',
              KeyStep k t (.ready (.put key obj pin)) p' (t.hotPut key obj pin).2 :=
            fun hput p' => keyStep_hotPut hput .putHot (fun _ hk h => hk h.symm) k
          rcases hput : t.hotPut key obj pin with ⟨err | _, t'⟩
          · simp [hput] at hok
          · simp only [hput, true_implies] at hstep ⊢
            exact hstep _
      | get key =>
          have hres := CPUBackend.resident_get t.hot key k
          simp only [World.tierStep, World.firstStep]
          generalize t.hot.get key = read at hres ⊢
          rcases read with ⟨_ | obj, hot⟩
          · exact .frame id (by simp only [current, coldCopy, hres]) hres.trans
          · exact .frame id (by simp only [current, coldCopy, hres]) hres.trans
      | remove key =>
          have hres := CPUBackend.resident_remove t.hot key k
          simp only [World.tierStep, World.firstStep]
          by_cases hk : k = key
          · subst hk
            rw [if_pos rfl] at hres
            exact .removeHot hres
          · rw [if_neg hk] at hres
            exact .frame (fun h => hk h.symm) (by simp only [current, coldCopy, hres])
              fun h => hres.trans h
  | mirror key obj =>
      simp only [World.tierStep] at hok ⊢
      have hput := LosslessStore.put_ok t.cold key obj true
      have hview := LosslessStore.view_put t.cold key obj true
      generalize KeyedStore.put t.cold key obj true = out at hput hview ⊢
      rcases out with ⟨err | _, cold⟩
      · cases hput
      · by_cases hk : k = key
        · subst hk
          refine .mirror ?_ ?_
          · rfl
          · exact (congrFun hview k).trans (Function.update_self ..)
        · exact keyStep_cold_other hk (fun h => hk h.symm) hview
  | readCold key =>
      simp only [World.tierStep] at hok ⊢
      have hview := LosslessStore.view_get t.cold key
      generalize KeyedStore.get t.cold key = read at hok hview ⊢
      rcases read with ⟨err | _ | obj, cold⟩
      · exact absurd rfl (hok err)
      · exact .frame id (by simp only [current, coldCopy, hview]) id
      · exact .frame id (by simp only [current, coldCopy, hview]) id
  | promote key obj =>
      simp only [World.tierStep] at hok ⊢
      have hstep : (t.hotPut key obj false).1 = .ok () → ∀ p',
          KeyStep k t (.promote key obj) p' (t.hotPut key obj false).2 :=
        fun hput p' => keyStep_hotPut hput .promote (fun _ _ => id) k
      rcases hput : t.hotPut key obj false with ⟨err | _, t'⟩
      · simp [hput] at hok
      · simp only [hput, true_implies] at hstep ⊢
        exact hstep _
  | removeCold key removedHot =>
      simp only [World.tierStep]
      have hview := LosslessStore.view_remove t.cold key
      by_cases hk : k = key
      · subst hk
        refine .removeCold ?_ ?_
        · rfl
        · exact (congrFun hview k).trans (Function.update_self ..)
      · exact keyStep_cold_other hk (fun h => hk h.symm) hview
  | returned reply => exact hpending.elim
  | raised err => exact hpending.elim

/-! ## Promotions that write what is still current -/

/-- Before a get promotes an object, the key must still show that object, and
if a remove of the key is half done, some put of the same object must have
taken a step since. -/
def PromotesCurrent (calls : ι → Call) (w : World σ ι) (i : ι) : Prop :=
  match w.phase i with
  | .promote key obj =>
      w.tiers.current key = some obj ∧
        ∀ r removedHot, w.phase r = .removeCold key removedHot →
          ∃ a pin, calls a = .put key obj pin ∧ ¬Precedes w.log a r
  | _ => True

instance [Fintype ι] (calls : ι → Call) (w : World σ ι) (i : ι) :
    Decidable (PromotesCurrent calls w i) := by
  unfold PromotesCurrent
  split <;> infer_instance

/-- A step of a call that has not ended, that does not raise, and that does not
promote an object which is no longer current. -/
structure Admitted (calls : ι → Call) (w : World σ ι) (i : ι) : Prop where
  pending : (w.phase i).Pending
  succeeds : ((World.clients σ ι).step w i).1 = .ok ()
  promotesCurrent : PromotesCurrent calls w i

instance [Fintype ι] (calls : ι → Call) (w : World σ ι) (i : ι) :
    Decidable (Admitted calls w i) :=
  decidable_of_iff ((w.phase i).Pending ∧ ((World.clients σ ι).step w i).1 = .ok () ∧
      PromotesCurrent calls w i)
    ⟨fun ⟨h₁, h₂, h₃⟩ => ⟨h₁, h₂, h₃⟩, fun ⟨h₁, h₂, h₃⟩ => ⟨h₁, h₂, h₃⟩⟩

/-- Why a key shows what it shows: nothing has touched it; a put or remove that
precedes no other left it; or a remove that started last is half done. -/
inductive Shown (calls : ι → Call) (key : ChunkKey) (initial : Option KVPayload)
    (w : World σ ι) : Prop
  | untouched (hnone : ∀ i ∈ w.log, ¬Mutates key (calls i))
      (hcurrent : w.tiers.current key = initial)
  | left (a : ι) (ha : Mutates key (calls a))
      (hcurrent : w.tiers.current key = effect (calls a) none)
      (hlast : ∀ i ∈ w.log, Mutates key (calls i) → ¬Precedes w.log a i)
  | halfRemoved (r : ι) (removedHot : Bool) (hr : w.phase r = .removeCold key removedHot)
      (hhot : w.tiers.hot.resident key = none)
      (hlast : ∀ i ∈ w.log, Mutates key (calls i) → StartsBy w.log i r)

/-- The invariant of a run. -/
structure Consistent (calls : ι → Call) (key : ChunkKey) (initial : Option KVPayload)
    (w : World σ ι) : Prop where
  phases : ∀ i, (w.phase i).Of (calls i)
  started : ∀ i, i ∈ w.log ↔ ∀ call, w.phase i ≠ .ready call
  shown : Shown calls key initial w

section Steps

variable {calls : ι → Call} {key : ChunkKey} {initial : Option KVPayload} {w : World σ ι} {i : ι}

theorem Admitted.not_raised (h : Admitted calls w i) (err : Raised) :
    (World.tierStep w.tiers (w.phase i)).1 ≠ .raised err := by
  intro herr
  have hok := h.succeeds
  simp [World.clients, World.step, herr] at hok

theorem phase_step_self (w : World σ ι) (i : ι) :
    (w.step i).phase i = (World.tierStep w.tiers (w.phase i)).1 :=
  Function.update_self ..

theorem phase_step_other (w : World σ ι) {i j : ι} (hj : j ≠ i) :
    (w.step i).phase j = w.phase j :=
  Function.update_of_ne hj ..

theorem of_firstStep (t : TieredBackend σ) (call : Call) :
    (World.firstStep t call).1.Of call ∧ ∀ c, (World.firstStep t call).1 ≠ .ready c := by
  cases call with
  | put k obj pin =>
      simp only [World.firstStep]
      rcases t.hotPut k obj pin with ⟨err | _, t'⟩ <;> cases pin <;> simp [Phase.Of]
  | get k =>
      simp only [World.firstStep]
      rcases t.hot.get k with ⟨_ | obj, hot⟩ <;> simp [Phase.Of]
  | remove k => simp [World.firstStep, Phase.Of]

theorem of_tierStep {t : TieredBackend σ} {p : Phase} {call : Call} (h : p.Of call) :
    (World.tierStep t p).1.Of call ∧ ∀ c, (World.tierStep t p).1 ≠ .ready c := by
  cases p with
  | ready c =>
      obtain rfl : c = call := h
      exact of_firstStep t c
  | mirror k obj =>
      simp only [World.tierStep]
      rcases KeyedStore.put t.cold k obj true with ⟨err | _, cold⟩ <;> simp [Phase.Of]
  | readCold k =>
      simp only [World.tierStep]
      rcases KeyedStore.get t.cold k with ⟨err | _ | obj, cold⟩ <;>
        simp [Phase.Of, show call = .get k from h]
  | promote k obj =>
      simp only [World.tierStep]
      rcases t.hotPut k obj false with ⟨err | _, t'⟩ <;> simp [Phase.Of]
  | removeCold k removedHot => simp [World.tierStep, Phase.Of]
  | returned reply => simp [World.tierStep, Phase.Of]
  | raised err => simp [World.tierStep, Phase.Of]

theorem phases_step (hphases : ∀ j, (w.phase j).Of (calls j)) (i j : ι) :
    ((w.step i).phase j).Of (calls j) := by
  by_cases hj : j = i
  · subst hj
    rw [phase_step_self]
    exact (of_tierStep (hphases j)).1
  · rw [phase_step_other w hj]
    exact hphases j

theorem started_step (hphases : ∀ j, (w.phase j).Of (calls j))
    (hstarted : ∀ j, j ∈ w.log ↔ ∀ call, w.phase j ≠ .ready call) (i j : ι) :
    j ∈ (w.step i).log ↔ ∀ call, (w.step i).phase j ≠ .ready call := by
  have hlog : j ∈ (w.step i).log ↔ j ∈ w.log ∨ j = i := by simp [World.step]
  rw [hlog]
  by_cases hj : j = i
  · subst hj
    rw [phase_step_self]
    simpa using (of_tierStep (hphases j)).2
  · rw [phase_step_other w hj, hstarted j]
    simp [hj]

/-- A put or remove whose step decides what the key shows precedes no other. -/
theorem shown_of_writer (hi : Mutates key (calls i))
    (hcurrent : (w.step i).tiers.current key = effect (calls i) none) :
    Shown calls key initial (w.step i) :=
  .left i hi hcurrent fun _ hj _ => not_precedes_snoc hj

theorem shown_of_same (hold : Mutates key (calls i) → i ∈ w.log)
    (hcurrent : (w.step i).tiers.current key = w.tiers.current key)
    (hshown : Shown calls key initial w)
    (hhalf : ∀ r removedHot, w.phase r = .removeCold key removedHot →
      w.tiers.hot.resident key = none →
      (∀ j ∈ w.log, Mutates key (calls j) → StartsBy w.log j r) →
      Shown calls key initial (w.step i)) :
    Shown calls key initial (w.step i) := by
  have hlog : ∀ j ∈ (w.step i).log, Mutates key (calls j) → j ∈ w.log := by
    intro j hj hmut
    have hj' : j ∈ w.log ∨ j = i := by simpa [World.step] using hj
    rcases hj' with hj' | rfl
    · exact hj'
    · exact hold hmut
  cases hshown with
  | untouched hnone hcur =>
      exact .untouched (fun j hj hmut => hnone j (hlog j hj hmut) hmut) (hcurrent.trans hcur)
  | left a ha hcur hlast =>
      refine .left a ha (hcurrent.trans hcur) fun j hj hmut => ?_
      exact not_precedes_append (hlast j (hlog j hj hmut) hmut) [i]
  | halfRemoved r removedHot hr hhot hlast => exact hhalf r removedHot hr hhot hlast

/-- The second step of a put or remove: it decides what the key shows, unless a
hot copy hides its cold write. -/
theorem shown_of_second (hi : Mutates key (calls i)) (hmem : i ∈ w.log)
    (hshown : Shown calls key initial w) (hhot : (w.step i).tiers.hot = w.tiers.hot)
    (hcold : (w.step i).tiers.coldCopy key = effect (calls i) none) :
    Shown calls key initial (w.step i) := by
  cases hres : w.tiers.hot.resident key with
  | none =>
      apply shown_of_writer hi
      rw [current, hhot, hres, hcold]
      rfl
  | some obj =>
      apply shown_of_same (fun _ => hmem) _ hshown
      · intro r removedHot _ habsent _
        rw [hres] at habsent
        cases habsent
      · rw [current, current, hhot, hres]
        rfl

theorem shown_step (hinv : Consistent calls key initial w) (hadm : Admitted calls w i) :
    Shown calls key initial (w.step i) := by
  have hkey : KeyStep key w.tiers (w.phase i) ((w.step i).phase i) (w.step i).tiers := by
    rw [phase_step_self]
    exact keyStep_of_tierStep w.tiers hadm.pending hadm.not_raised key
  have hof := hinv.phases i
  have hwrites := hof.writes_iff hadm.pending key
  have hstarted := hinv.started i
  have hpromote := hadm.promotesCurrent
  unfold PromotesCurrent at hpromote
  generalize hp : w.phase i = p at hkey hof hwrites hstarted hpromote
  generalize hp' : (w.step i).phase i = p' at hkey
  generalize ht' : (w.step i).tiers = t' at hkey
  cases hkey with
  | frame hnot hcurrent habsent =>
      have hmut : ¬Mutates key (calls i) := fun h => hnot (hwrites.mpr h)
      apply shown_of_same (fun h => absurd h hmut) (by rw [ht', hcurrent]) hinv.shown
      intro r removedHot hr hhot hlast
      have hne : i ≠ r := by
        rintro rfl
        rw [hp] at hr
        subst hr
        exact hnot rfl
      apply Shown.halfRemoved r removedHot
      · rw [phase_step_other w hne.symm, hr]
      · rw [ht']
        exact habsent hhot
      · intro j hj hjmut
        have hj' : j ∈ w.log ∨ j = i := by simpa [World.step] using hj
        rcases hj' with hj' | rfl
        · exact (hlast j hj' hjmut).snoc hne
        · exact absurd hjmut hmut
  | putHot hhot =>
      have hcall : _ = calls i := hof
      apply shown_of_writer (hwrites.mp rfl)
      rw [ht', current, hhot, ← hcall]
      rfl
  | mirror hhot hcold =>
      apply shown_of_second (hwrites.mp rfl) (hstarted.mpr fun c h => by cases h) hinv.shown
      · rw [ht', hhot]
      · rw [ht', hcold, show calls i = _ from hof]
        rfl
  | promote hhot =>
      obtain ⟨hcurrent, hhalf⟩ := hpromote
      have hsame : (w.step i).tiers.current key = w.tiers.current key := by
        rw [ht', current, hhot, hcurrent]
        rfl
      have hmem : i ∈ w.log := hstarted.mpr fun c h => by cases h
      apply shown_of_same (fun _ => hmem) hsame hinv.shown
      intro r removedHot hr hhot' hlast
      -- the promoted object is one that was put since the remove began
      obtain ⟨a, pin, ha, hafter⟩ := hhalf r removedHot hr
      apply Shown.left a
      · rw [ha]
        rfl
      · rw [hsame, hcurrent, ha]
        rfl
      · intro j hj hjmut
        have hj' : j ∈ w.log ∨ j = i := by simpa [World.step] using hj
        have hjlog : j ∈ w.log := hj'.elim id fun h => h ▸ hmem
        exact not_precedes_append (not_precedes_of_startsBy (hlast j hjlog hjmut) hafter) [i]
  | removeHot hhot =>
      have hnew : i ∉ w.log := fun h => hstarted.mp h _ rfl
      apply Shown.halfRemoved i _ hp'
      · rw [ht', hhot]
      · intro j hj _
        exact startsBy_snoc_new hnew hj
  | removeCold hhot hcold =>
      apply shown_of_second (hwrites.mp rfl) (hstarted.mpr fun c h => by cases h) hinv.shown
      · rw [ht', hhot]
      · rw [ht', hcold, show calls i = _ from hof]
        rfl

theorem consistent_step (hinv : Consistent calls key initial w) (hadm : Admitted calls w i) :
    Consistent calls key initial (w.step i) where
  phases := phases_step hinv.phases i
  started := started_step hinv.phases hinv.started i
  shown := shown_step hinv hadm

end Steps

/-- Once every call has returned, what is shown is the effect of a call that
can come last. -/
theorem linearizable_of_consistent {calls : ι → Call} {key : ChunkKey}
    {initial : Option KVPayload} {w : World σ ι} (hinv : Consistent calls key initial w)
    (hdone : ∀ i, ¬(w.phase i).Pending) : Linearizable calls key initial w := by
  intro obj hget
  obtain ⟨hobj, _⟩ := TieredRefinement.get_of_ok hget
  have hall : ∀ i, i ∈ w.log := by
    intro i
    rw [hinv.started i]
    intro call hready
    apply hdone i
    rw [hready]
    trivial
  cases hinv.shown with
  | untouched hnone hcurrent =>
      refine ⟨[], ⟨List.nodup_nil, fun i => ?_, List.Pairwise.nil⟩, ?_⟩
      · simpa using hnone i (hall i)
      · rw [hobj, hcurrent]
        rfl
  | left a ha hcurrent hlast =>
      obtain ⟨order, hnodup, hmem, hpair⟩ := exists_order_ending_in
        (fun i => Mutates key (calls i)) (fun i _ => hall i) ha fun i hi => hlast i (hall i) hi
      refine ⟨order ++ [a], ⟨hnodup, hmem, hpair⟩, ?_⟩
      rw [List.foldl_append, List.foldl_cons, List.foldl_nil, hobj, hcurrent]
      exact effect_of_mutates ha _ _
  | halfRemoved r removedHot hr _ _ =>
      exfalso
      apply hdone r
      rw [hr]
      trivial

/-- As long as promotions write objects that are still current, a get after all
calls have returned finds what a sequential order of the puts and removes
leaves. -/
theorem linearizable (tiers : TieredBackend σ) (calls : ι → Call) (schedule : List ι)
    (hrun : (World.clients σ ι).StepsMeet (Admitted calls) (.init tiers calls) schedule)
    (hdone : ∀ i, ¬(((World.clients σ ι).exec (.init tiers calls) schedule).phase i).Pending)
    (key : ChunkKey) :
    Linearizable calls key (tiers.current key)
      ((World.clients σ ι).exec (.init tiers calls) schedule) := by
  have hstart : Consistent calls key (tiers.current key) (World.init tiers calls) :=
    ⟨fun i => rfl, fun i => by simp [World.init], .untouched (by simp [World.init]) rfl⟩
  have hend := (World.clients σ ι).exec_induction
    (I := Consistent calls key (tiers.current key))
    (fun w i hinv hadm => consistent_step hinv hadm) hstart hrun
  exact linearizable_of_consistent hend hdone

/-- A get that demotes and promotes while other calls run. -/
theorem linearizable_promotion :
    let calls : Fin 5 → Call := ![.put ⟨"c", 0, 0⟩ (.ofBytes [1]) false,
      .put ⟨"c", 1, 0⟩ (.ofBytes [2]) false, .get ⟨"c", 0, 0⟩, .remove ⟨"c", 1, 0⟩,
      .put ⟨"c", 0, 0⟩ (.ofBytes [3]) true]
    let clients := World.clients UnboundedCPU (Fin 5)
    Linearizable calls ⟨"c", 0, 0⟩ none
      (clients.exec (.init (.init (some 1) .empty) calls) [0, 1, 2, 3, 2, 3, 2, 4, 4]) :=
  linearizable _ _ [0, 1, 2, 3, 2, 3, 2, 4, 4] (by decide) (by decide) ⟨"c", 0, 0⟩

/-- A get reads a cold object, the object is removed, and the promotion brings
it back. -/
theorem promotion_revives_removed :
    let calls : Fin 4 → Call := ![.put ⟨"c", 0, 0⟩ (.ofBytes [1]) false,
      .put ⟨"c", 1, 0⟩ (.ofBytes [2]) false, .get ⟨"c", 0, 0⟩, .remove ⟨"c", 0, 0⟩]
    let clients := World.clients UnboundedCPU (Fin 4)
    let start : World UnboundedCPU (Fin 4) := .init (.init (some 1) .empty) calls
    let schedule : List (Fin 4) := [0, 1, 2, 2, 3, 3, 2]
    clients.NeverRaises start schedule ∧
      (∀ i, ¬((clients.exec start schedule).phase i).Pending) ∧
      ¬Linearizable calls ⟨"c", 0, 0⟩ none (clients.exec start schedule) := by
  intro calls clients start schedule
  refine ⟨by decide, by decide, fun hlin => ?_⟩
  have hget : ((clients.exec start schedule).tiers.get ⟨"c", 0, 0⟩).1 =
      .ok (some (.ofBytes [1])) := by decide
  have hnone := hlin.of_last (show Mutates ⟨"c", 0, 0⟩ (calls 3) by decide) (by decide) hget
  exact absurd hnone (by decide)

end LlmCache.Store.TieredInterleaving
