import LlmCache.Store.ColdTiers

/-!
# Processes that follow one another on one cold tier

When a process ends, what was in its hot tier is lost; the next one opens the
same cold tier with nothing in memory.  A key is then read as the object of the
last pinned put or of a put after it, and after a pinned put never as nothing.
-/

namespace LlmCache.Store.TieredRestarts

open Errors Lib Payload LlmCache.Types KeyedStore
open TieredBackend (coldCopy hotPut)
open CPUBackend (KeyEffect)
open TieredSimulation (IsStorageFull SameHot)

/-- A call of the store, or the start of the next process. -/
inductive Event where
  | call (op : Op ChunkKey KVPayload)
  | restart (capacityBytes : Option Nat)
deriving DecidableEq

/-- The store of the running process; `reopen` is what the next one makes of the
cold tier. -/
def processes (σ : Type) [StorageBackend σ] (reopen : σ → σ) :
    Machine (TieredBackend σ) Event Raised (Reply KVPayload) where
  step t
    | .call op => step t op
    | .restart capacityBytes => (.ok .done, ⟨{ capacityBytes := capacityBytes }, reopen t.cold⟩)

/-! ## What a key may be read as -/

abbrev Entry : Type :=
  Event × Except Raised (Reply KVPayload)

/-- The object of a pinned put alone, that of another put besides those before
it, and nothing once the key is removed. -/
def remember (key : ChunkKey) (may : List (Option KVPayload)) : Entry → List (Option KVPayload)
  | (.call (.put k obj pin), .ok _) =>
      if k = key then if pin then [some obj] else some obj :: may else may
  | (.call (.remove k), .ok _) => if k = key then [none] else may
  | (.call .clear, .ok _) => [none]
  | _ => may

/-- `start` is what the cold tier had at first. -/
def mayHold (start : Option KVPayload) (past : List Entry) (key : ChunkKey) :
    List (Option KVPayload) :=
  past.foldl (remember key) [start]

theorem mayHold_snoc (start : Option KVPayload) (past : List Entry) (entry : Entry)
    (key : ChunkKey) :
    mayHold start (past ++ [entry]) key = remember key (mayHold start past key) entry := by
  rw [mayHold, List.foldl_append]
  rfl

/-- Both copies of a key are among what it may be read as. -/
structure Among (may : List (Option KVPayload)) (hot cold : Option KVPayload) : Prop where
  cold : cold ∈ may
  hot : ∀ obj, hot = some obj → some obj ∈ may

namespace Among

variable {may : List (Option KVPayload)} {hot cold : Option KVPayload}

theorem of_effect {spared : Prop} {hot' cold' : Option KVPayload} (h : Among may hot cold)
    (heffect : KeyEffect some spared hot cold hot' cold') : Among may hot' cold' := by
  cases heffect with
  | left => exact h
  | demoted obj => exact ⟨h.hot obj rfl, fun o ho => by cases ho⟩

theorem no_hot (h : Among may hot cold) : Among may none cold :=
  ⟨h.cold, fun obj hobj => by cases hobj⟩

theorem with_hot (h : Among may hot cold) {obj : KVPayload} (hobj : some obj ∈ may) :
    Among may (some obj) cold where
  cold := h.cold
  hot := by
    rintro o ⟨⟩
    exact hobj

theorem cons (h : Among may hot cold) (o : Option KVPayload) : Among (o :: may) hot cold :=
  ⟨List.mem_cons_of_mem _ h.cold, fun obj hobj => List.mem_cons_of_mem _ (h.hot obj hobj)⟩

theorem removed : Among [none] none none :=
  ⟨List.mem_singleton_self _, fun obj hobj => by cases hobj⟩

theorem current_mem (h : Among may hot cold) : hot.or cold ∈ may := by
  cases hot with
  | none => exact h.cold
  | some obj => exact h.hot obj rfl

end Among

/-! ## Steps -/

section Steps

variable {σ : Type} [LosslessBackend σ] {start : ChunkKey → Option KVPayload}
  {past : List Entry} {t t' : TieredBackend σ} {key : ChunkKey} {obj : KVPayload}

/-- Every copy in the two tiers is among what its key may be read as. -/
def Recalls (start : ChunkKey → Option KVPayload) (past : List Entry) (t : TieredBackend σ) :
    Prop :=
  ∀ key, Among (mayHold (start key) past key) (t.hot.resident key) (t.coldCopy key)

theorem Recalls.of_same (h : Recalls start past t) {entry : Entry}
    (hsilent : ∀ key may, remember key may entry = may)
    (hcopies : ∀ key may, Among may (t.hot.resident key) (t.coldCopy key) →
      Among may (t'.hot.resident key) (t'.coldCopy key)) :
    Recalls start (past ++ [entry]) t' := by
  intro key
  rw [mayHold_snoc, hsilent]
  exact hcopies key _ (h key)

theorem among_hotPut {may : List (Option KVPayload)} (t : TieredBackend σ) (key : ChunkKey)
    (obj : KVPayload) (pin : Bool) (k : ChunkKey)
    (h : Among may (t.hot.resident k) (t.coldCopy k)) (hself : k = key → some obj ∈ may) :
    Among may ((t.hotPut key obj pin).2.hot.resident k) ((t.hotPut key obj pin).2.coldCopy k) := by
  by_cases hk : k = key
  · subst hk
    rw [TieredBackend.coldCopy_hotPut_self]
    cases hput : (t.hotPut k obj pin).1 with
    | error err =>
        rw [TieredBackend.hot_hotPut_of_error hput]
        exact h.no_hot
    | ok _ =>
        rw [TieredBackend.hot_hotPut_of_ok hput]
        exact h.with_hot (hself rfl)
  · exact h.of_effect (TieredBackend.hotPut_effect t obj pin hk)

theorem copies_of_pinned_put (hput : (t.put key obj true).1 = .ok ()) :
    (t.put key obj true).2.hot.resident key = some obj ∧
      (t.put key obj true).2.coldCopy key = some obj := by
  obtain ⟨hfst, hhot, _⟩ := TieredBackend.put_cases t key obj true
  have hhotPut := hfst.symm.trans hput
  refine ⟨by rw [hhot, TieredBackend.hot_hotPut_of_ok hhotPut], ?_⟩
  unfold TieredBackend.put
  generalize t.hotPut key obj true = out at hhotPut ⊢
  obtain ⟨result, t'⟩ := out
  obtain rfl : result = .ok () := hhotPut
  simp only [if_true, coldCopy, LosslessStore.view_put, Function.update_self]

theorem among_put {may : List (Option KVPayload)} (t : TieredBackend σ) (key : ChunkKey)
    (obj : KVPayload) (pin : Bool) (k : ChunkKey)
    (h : Among may (t.hot.resident k) (t.coldCopy k)) (hself : k = key → some obj ∈ may) :
    Among may ((t.put key obj pin).2.hot.resident k) ((t.put key obj pin).2.coldCopy k) := by
  obtain ⟨_, hhot, hcold⟩ := TieredBackend.put_cases t key obj pin
  have hwritten := among_hotPut t key obj pin k h hself
  rw [hhot]
  rcases hcold with hsame | ⟨_, hcopied⟩
  · rw [hsame]
    exact hwritten
  · rw [hcopied, Function.update_apply]
    split_ifs with hk
    · exact ⟨hself hk, hwritten.hot⟩
    · exact hwritten

theorem among_put_of_error {may : List (Option KVPayload)} {pin : Bool} {err : Raised}
    (herr : (t.put key obj pin).1 = .error err)
    (h : Among may (t.hot.resident key) (t.coldCopy key)) :
    Among may ((t.put key obj pin).2.hot.resident key) ((t.put key obj pin).2.coldCopy key) := by
  obtain ⟨hfst, hhot, hcold⟩ := TieredBackend.put_cases t key obj pin
  have hrefused := hfst.symm.trans herr
  rw [hhot, TieredBackend.hot_hotPut_of_error hrefused]
  rcases hcold with hsame | ⟨hok, _⟩
  · rw [hsame, TieredBackend.coldCopy_hotPut_self]
    exact h.no_hot
  · rw [hrefused] at hok
    cases hok

theorem among_pinned_put (hput : (t.put key obj true).1 = .ok ()) :
    Among [some obj] ((t.put key obj true).2.hot.resident key)
      ((t.put key obj true).2.coldCopy key) := by
  obtain ⟨hresident, hcopy⟩ := copies_of_pinned_put hput
  rw [hresident, hcopy]
  refine ⟨List.mem_singleton_self _, ?_⟩
  rintro o ⟨⟩
  exact List.mem_singleton_self _

theorem recalls_put (h : Recalls start past t) (k : ChunkKey) (obj : KVPayload) (pin : Bool) :
    Recalls start (past ++ [(.call (.put k obj pin), (step t (.put k obj pin)).1)])
      (t.put k obj pin).2 := by
  intro key
  rw [mayHold_snoc]
  by_cases hk : k = key
  · subst hk
    cases hput : (t.put k obj pin).1 with
    | error err =>
        have hstep : (step t (.put k obj pin)).1 = .error err := by
          simp only [step, KeyedStore.put, hput]
          rfl
        rw [hstep]
        exact among_put_of_error hput (h k)
    | ok _ =>
        have hstep : (step t (.put k obj pin)).1 = .ok .done := by
          simp only [step, KeyedStore.put, hput]
          rfl
        rw [hstep, remember, if_pos rfl]
        cases pin with
        | false => exact among_put t k obj false k ((h k).cons _) fun _ => List.mem_cons_self ..
        | true => exact among_pinned_put hput
  · have hother := among_put t k obj pin key (h key) fun heq => absurd heq.symm hk
    cases (step t (.put k obj pin)).1 with
    | error err => exact hother
    | ok reply =>
        rw [remember, if_neg hk]
        exact hother

theorem among_get {may : List (Option KVPayload)} (t : TieredBackend σ) (k key : ChunkKey)
    (h : Among may (t.hot.resident key) (t.coldCopy key)) :
    Among may ((t.get k).2.hot.resident key) ((t.get k).2.coldCopy key) := by
  rcases TieredBackend.get_cases t k with
    ⟨_, _, _, hhot, hcold⟩ | ⟨_, _, _, hhot, hcold⟩ | ⟨o, t₁, _, hcopy, hhot, hcold, _, _, hsnd⟩
  · rw [hhot, hcold]
    exact h
  · rw [hhot, hcold]
    exact h
  · rw [hsnd]
    apply among_hotPut t₁ k o false key
    · rw [hhot, hcold]
      exact h
    · rintro rfl
      rw [← hcopy]
      exact h.cold

theorem among_remove {may : List (Option KVPayload)} (t : TieredBackend σ) {k key : ChunkKey}
    (hk : key ≠ k) (h : Among may (t.hot.resident key) (t.coldCopy key)) :
    Among may ((t.remove k).2.hot.resident key) ((t.remove k).2.coldCopy key) := by
  rw [TieredBackend.coldCopy_remove, Function.update_of_ne hk]
  simp only [TieredBackend.remove, CPUBackend.resident_remove, if_neg hk]
  exact h

theorem among_pin {may : List (Option KVPayload)} (t : TieredBackend σ) (k key : ChunkKey)
    (h : Among may (t.hot.resident key) (t.coldCopy key)) :
    Among may ((t.pin k).hot.resident key) ((t.pin k).coldCopy key) := by
  have hcold : (t.pin k).coldCopy = t.coldCopy := LosslessStore.view_pin t.cold k
  have hhot : (t.pin k).hot.resident key = t.hot.resident key :=
    CPUBackend.resident_pin t.hot k key
  rw [hcold, hhot]
  exact h

theorem among_unpin {may : List (Option KVPayload)} (t : TieredBackend σ) (k key : ChunkKey)
    (h : Among may (t.hot.resident key) (t.coldCopy key)) :
    Among may ((t.unpin k).hot.resident key) ((t.unpin k).coldCopy key) := by
  have hcold : (t.unpin k).coldCopy = t.coldCopy := LosslessStore.view_unpin t.cold k
  rw [hcold]
  exact h

theorem copies_of_current_none (h : t.current key = none) :
    t.hot.resident key = none ∧ t.coldCopy key = none := by
  unfold TieredBackend.current at h
  cases hres : t.hot.resident key with
  | none =>
      rw [hres] at h
      exact ⟨rfl, h⟩
  | some obj =>
      rw [hres] at h
      cases h

theorem among_of_removed (h : t.current key = none) :
    Among [none] (t.hot.resident key) (t.coldCopy key) := by
  obtain ⟨hres, hcopy⟩ := copies_of_current_none h
  rw [hres, hcopy]
  exact .removed

theorem recalls_remove (h : Recalls start past t) (k : ChunkKey) :
    Recalls start (past ++ [(.call (.remove k), .ok (.flag (t.remove k).1))]) (t.remove k).2 := by
  intro key
  rw [mayHold_snoc, remember]
  split_ifs with hk
  · apply among_of_removed
    rw [TieredBackend.current_remove, hk, Function.update_self]
  · exact among_remove t (Ne.symm hk) (h key)

theorem recalls_step {reopen : σ → σ}
    (hreopen : ∀ s, LosslessStore.view (reopen s) = LosslessStore.view s)
    (h : Recalls start past t) (event : Event) :
    Recalls start (past ++ [(event, ((processes σ reopen).step t event).1)])
      ((processes σ reopen).step t event).2 := by
  cases event with
  | restart capacityBytes =>
      refine h.of_same (fun _ _ => rfl) fun key may hmay => ?_
      have hcold : ((processes σ reopen).step t (.restart capacityBytes)).2.coldCopy =
          t.coldCopy := hreopen t.cold
      rw [hcold]
      exact hmay.no_hot
  | call op =>
      cases op with
      | put k obj pin => exact recalls_put h k obj pin
      | get k => exact h.of_same (fun _ _ => rfl) fun key _ => among_get t k key
      | contains k => exact h.of_same (fun _ _ => rfl) fun _ _ hmay => hmay
      | remove k => exact recalls_remove h k
      | pin k => exact h.of_same (fun _ _ => rfl) fun key _ => among_pin t k key
      | unpin k => exact h.of_same (fun _ _ => rfl) fun key _ => among_unpin t k key
      | clear =>
          intro key
          rw [mayHold_snoc]
          apply among_of_removed
          exact congrFun (content_clear TieredBackend.current_remove TieredBackend.mem_keys_iff t)
            key

theorem recalls_run {reopen : σ → σ}
    (hreopen : ∀ s, LosslessStore.view (reopen s) = LosslessStore.view s)
    (capacity : Option Nat) (cold : σ) (events : List Event) :
    Recalls (LosslessStore.view cold)
      ((processes σ reopen).trace (.init capacity cold) events)
      ((processes σ reopen).exec (.init capacity cold) events) := by
  have hstart : Recalls (LosslessStore.view cold) [] (.init capacity cold) := fun key =>
    ⟨List.mem_singleton_self _, fun obj hobj => by cases hobj⟩
  exact (processes σ reopen).history_induction (G := fun _ _ => True)
    (I := Recalls (LosslessStore.view cold))
    (fun past t event hinv _ => recalls_step hreopen hinv event) [] hstart
    ((processes σ reopen).stepsMeet_true _ events)

theorem Recalls.get_mem (h : Recalls start past t) {found : Option KVPayload}
    (hget : (t.get key).1 = .ok found) : found ∈ mayHold (start key) past key := by
  rw [(TieredRefinement.get_of_ok hget).1]
  exact (h key).current_mem

/-- What may be read as one object only is there. -/
theorem Recalls.current_of_singleton (h : Recalls start past t)
    (hone : mayHold (start key) past key = [some obj]) : t.current key = some obj := by
  have hmem := (h key).current_mem
  rw [hone] at hmem
  exact List.mem_singleton.mp hmem

end Steps

/-! ## Any cold tier that stands for a plain map -/

section Cold

open ColdTiers (Chunks)

variable {σ : Type} [StorageBackend σ] {key : ChunkKey → Prop} {obj : KVPayload → Prop}
  {R : σ → Chunks → Prop} {reopen : σ → σ}

/-- The events are calls about admitted keys and objects, and restarts. -/
def Event.Admitted (key : ChunkKey → Prop) (obj : KVPayload → Prop) : Event → Prop
  | .call op => op.Admitted key obj
  | .restart _ => True

theorem processes_alike (h : StandsFor σ Chunks (fun _ => False) key obj R)
    (hreopen : ∀ s m, R s m → R (reopen s) m) {t : TieredBackend σ} {u : TieredBackend Chunks}
    (hrel : SameHot key obj R t u) {event : Event} (hevent : event.Admitted key obj) :
    EndAlike (fun _ => False) (SameHot key obj R) ((processes σ reopen).step t event)
      ((processes Chunks id).step u event) := by
  cases event with
  | call op => exact (TieredSimulation.standsFor_cold h).step hrel hevent
  | restart capacityBytes =>
      refine .of_eq rfl ⟨rfl, hreopen _ _ hrel.cold, fun k o hres => ?_⟩
      cases hres

/-- However often the process is started anew, and whatever is refused for want
of room: a key is read as something that it may hold, and when that is one
object only, it is there, and is read unless hot has no room for it. -/
theorem read_after_restarts (h : StandsFor σ Chunks (fun _ => False) key obj R)
    (hreopen : ∀ s m, R s m → R (reopen s) m) (capacity : Option Nat) {cold : σ} {m : Chunks}
    (hrel : R cold m) {events : List Event} (hevents : ∀ event ∈ events, event.Admitted key obj)
    {k : ChunkKey} (hk : key k) :
    let t := (processes σ reopen).exec ⟨{ capacityBytes := capacity }, cold⟩ events
    let past := (processes σ reopen).trace ⟨{ capacityBytes := capacity }, cold⟩ events
    (∀ found, (t.get k).1 = .ok found → found ∈ mayHold (m.view k) past k) ∧
      ∀ o, mayHold (m.view k) past k = [some o] → t.contains k = true ∧
        ((t.get k).1 = .ok (some o) ∨ ∃ err, (t.get k).1 = .error err ∧ IsStorageFull err) := by
  intro t past
  have hstart : SameHot key obj R ⟨{ capacityBytes := capacity }, cold⟩ (.init capacity m) :=
    ⟨rfl, hrel, fun k o hres => by cases hres⟩
  obtain ⟨htrace, hsame⟩ := (processes σ reopen).run_alike (processes Chunks id)
    (fun _ _ _ hrel hevent => processes_alike h hreopen hrel hevent) hstart hevents
    fun _ _ _ _ => not_false
  have hrecalls := @recalls_run Chunks _ id (fun _ => rfl) capacity m events
  rw [← htrace] at hrecalls
  obtain ⟨hget, _⟩ := (TieredSimulation.get_alike h hsame hk).same
  refine ⟨fun found hfound => ?_, fun o hone => ?_⟩
  · rw [hget] at hfound
    exact hrecalls.get_mem hfound
  · have hcurrent := hrecalls.current_of_singleton hone
    refine ⟨?_, ?_⟩
    · have hcontains := (TieredSimulation.standsFor_cold h).contains k hsame hk
      refine hcontains.trans ((TieredBackend.contains_eq _ k).trans ?_)
      rw [hcurrent]
      rfl
    · rw [hget]
      cases hread : (TieredBackend.get ((processes Chunks id).exec (.init capacity m) events) k).1
        with
      | error err => exact .inr ⟨err, rfl, TieredSimulation.isStorageFull_of_get hread⟩
      | ok found =>
          left
          rw [(TieredRefinement.get_of_ok hread).1, hcurrent]

end Cold

end LlmCache.Store.TieredRestarts
