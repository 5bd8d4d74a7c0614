import LlmCache.Store.Tiered

/-!
# What the two-tier store keeps

Seen through `current` the two tiers are one plain map as long as no call
raises.  With raising calls the store can only fall back on an older object
when a refused put drops a hot copy that shadows an older cold one.
-/

namespace LlmCache.Store.TieredRefinement

open Errors Lib Payload LlmCache.Types KeyedStore
open TieredBackend (current coldCopy hotPut)

variable {σ : Type} [LosslessBackend σ]

/-! ## Refinement of the flat map -/

theorem current_hotPut_of_ok {t : TieredBackend σ} {key : ChunkKey} {obj : KVPayload}
    {pin : Bool} (hok : (t.hotPut key obj pin).1 = .ok ()) :
    (t.hotPut key obj pin).2.current = Function.update t.current key (some obj) := by
  funext k
  rw [Function.update_apply]
  split_ifs with hk
  · rw [hk, current, TieredBackend.hot_hotPut_of_ok hok]
    rfl
  · exact TieredBackend.current_hotPut_other t obj pin hk

theorem current_put_of_ok {t : TieredBackend σ} {key : ChunkKey} {obj : KVPayload}
    {pin : Bool} (hok : (t.put key obj pin).1 = .ok ()) :
    (t.put key obj pin).2.current = Function.update t.current key (some obj) := by
  obtain ⟨hfst, hhot, hcold⟩ := TieredBackend.put_cases t key obj pin
  have hhotOk := hfst.symm.trans hok
  rw [← current_hotPut_of_ok hhotOk]
  funext k
  rcases hcold with hsame | ⟨_, hcopied⟩
  · rw [current, current, hhot, hsame]
  · rw [current, current, hhot, hcopied, Function.update_apply]
    split_ifs with hk
    · rw [hk, TieredBackend.hot_hotPut_of_ok hhotOk]
      rfl
    · rfl

theorem get_of_ok {t : TieredBackend σ} {key : ChunkKey} {obj : Option KVPayload}
    (hok : (t.get key).1 = .ok obj) :
    obj = t.current key ∧ (t.get key).2.current = t.current := by
  rcases TieredBackend.get_cases t key with
    ⟨o, hres, hfst, hhot, hcold⟩ | ⟨hres, hcopy, hfst, hhot, hcold⟩ |
    ⟨o, t₁, hres, hcopy, hhot, hcold, _, hfst, hsnd⟩
  · refine ⟨?_, funext fun k => by rw [current, current, hhot, hcold]⟩
    rw [hfst, Except.ok.injEq] at hok
    rw [← hok, current, hres]
    rfl
  · refine ⟨?_, funext fun k => by rw [current, current, hhot, hcold]⟩
    rw [hfst, Except.ok.injEq] at hok
    rw [← hok, current, hres, hcopy]
    rfl
  · have hsame : t₁.current = t.current := funext fun k => by
      rw [current, current, hhot, hcold]
    have hseen : t.current key = some o := by rw [current, hres, hcopy]; rfl
    cases hput : (t₁.hotPut key o false).1 with
    | error err => simp [hfst, hput, Except.map] at hok
    | ok _ =>
        simp only [hfst, hput, Except.map, Except.ok.injEq] at hok
        refine ⟨by rw [← hok, hseen], ?_⟩
        rw [hsnd, current_hotPut_of_ok hput, hsame, ← hseen, Function.update_eq_self]

theorem step_refines {t : TieredBackend σ} {op : Op ChunkKey KVPayload}
    {reply : Reply KVPayload} (hok : (step t op).1 = .ok reply) :
    (flatStep t.current op : Except Raised _ × _).1 = .ok reply ∧
      (flatStep t.current op : Except Raised _ × _).2 = (step t op).2.current := by
  cases op with
  | put key obj pin =>
      cases hput : (t.put key obj pin).1 with
      | error err => simp [step, KeyedStore.put, hput, Except.map] at hok
      | ok _ =>
          simp only [step, KeyedStore.put, hput, Except.map] at hok
          exact ⟨hok, (current_put_of_ok hput).symm⟩
  | get key =>
      cases hget : (t.get key).1 with
      | error err => simp [step, KeyedStore.get, hget, Except.map] at hok
      | ok obj =>
          simp only [step, KeyedStore.get, hget, Except.map] at hok
          obtain ⟨hobj, hcur⟩ := get_of_ok hget
          exact ⟨by rw [← hok, hobj]; rfl, hcur.symm⟩
  | contains key =>
      refine ⟨?_, rfl⟩
      rw [← hok]
      exact congrArg (fun b => Except.ok (Reply.flag b)) (TieredBackend.contains_eq t key).symm
  | remove key =>
      refine ⟨?_, (TieredBackend.current_remove t key).symm⟩
      rw [← hok]
      exact congrArg (fun b => Except.ok (Reply.flag b)) (TieredBackend.remove_fst t key).symm
  | pin key => exact ⟨hok, (TieredBackend.current_pin t key).symm⟩
  | unpin key => exact ⟨hok, (TieredBackend.current_unpin t key).symm⟩
  | clear =>
      exact ⟨hok, (content_clear TieredBackend.current_remove TieredBackend.mem_keys_iff t).symm⟩

/-- Every run in which no call raises answers as one plain map would, and the
store lists that map's keys, each once. -/
theorem tiered_refines_flatMap (capacity : Option Nat) (cold : σ)
    (hempty : ∀ key, LosslessStore.view cold key = none)
    (ops : List (Op ChunkKey KVPayload))
    (hok : (machine (TieredBackend σ)).NeverRaises (.init capacity cold) ops) :
    (machine (TieredBackend σ)).trace (.init capacity cold) ops =
        (flatMap ChunkKey KVPayload Raised).trace (fun _ => none) ops ∧
      (keys ((machine (TieredBackend σ)).exec (.init capacity cold) ops)).Nodup ∧
      ∀ key, key ∈ keys ((machine (TieredBackend σ)).exec (.init capacity cold) ops) ↔
        ((flatMap ChunkKey KVPayload Raised).exec (fun _ => none) ops key).isSome := by
  obtain ⟨htrace, hend⟩ := (machine (TieredBackend σ)).simulation
    (flatMap ChunkKey KVPayload Raised) (R := fun t m => m = t.current)
    (fun t m op reply hm hstep => by
      subst hm
      exact step_refines hstep)
    (s := .init capacity cold) (a := fun _ => none)
    (funext fun key => (hempty key).symm) hok
  refine ⟨htrace, List.nodup_dedup _, fun key => ?_⟩
  rw [hend]
  exact TieredBackend.mem_keys_iff _ key

/-- Two objects through a one-byte hot tier: demotion, promotion, overwrite. -/
theorem tiered_refines_flatMap_one_byte :
    let ops : List (Op ChunkKey KVPayload) :=
      [.put ⟨"c", 0, 0⟩ (.ofBytes [1]) false, .put ⟨"c", 1, 0⟩ (.ofBytes [2]) false,
        .get ⟨"c", 0, 0⟩, .put ⟨"c", 0, 0⟩ (.ofBytes [3]) true, .remove ⟨"c", 1, 0⟩,
        .get ⟨"c", 0, 0⟩]
    let store := machine (TieredBackend UnboundedCPU)
    store.trace (.init (some 1) UnboundedCPU.empty) ops =
        (flatMap ChunkKey KVPayload Raised).trace (fun _ => none) ops ∧
      (keys (store.exec (.init (some 1) UnboundedCPU.empty) ops)).Nodup ∧
      ∀ key, key ∈ keys (store.exec (.init (some 1) UnboundedCPU.empty) ops) ↔
        ((flatMap ChunkKey KVPayload Raised).exec (fun _ => none) ops key).isSome :=
  tiered_refines_flatMap (some 1) UnboundedCPU.empty (fun _ => rfl) _ (by decide)

/-! ## Raising calls -/

/-- The object of the most recent put of the key that returned normally since
the key was last removed. -/
def newest (past : List (Op ChunkKey KVPayload × Except Raised (Reply KVPayload)))
    (key : ChunkKey) : Option KVPayload :=
  past.foldl (fun latest entry =>
    match entry with
    | (.put k obj _, .ok _) => if k = key then some obj else latest
    | (.remove k, .ok _) => if k = key then none else latest
    | (.clear, .ok _) => none
    | _ => latest) none

/-- A put for which hot cannot make room finds no older object behind the hot
copy it drops: the key is not in hot, or cold holds no copy of it, or the same
object. -/
def NoOlderCopy (t : TieredBackend σ) : Op ChunkKey KVPayload → Prop
  | .put key obj _ => (t.hot.dropOld key).NoRoom key obj.nbytes →
      t.hot.resident key = none ∨ t.coldCopy key = none ∨
        t.coldCopy key = t.hot.resident key
  | _ => True

/-- Whenever a get returns an object, it is the newest one. -/
def GetsNewest (past : List (Op ChunkKey KVPayload × Except Raised (Reply KVPayload)))
    (t : TieredBackend σ) : Prop :=
  ∀ key obj, (t.get key).1 = .ok (some obj) → newest past key = some obj

/-- The invariant: every current copy is the newest object. -/
def CopiesUpToDate (past : List (Op ChunkKey KVPayload × Except Raised (Reply KVPayload)))
    (t : TieredBackend σ) : Prop :=
  ∀ key obj, t.current key = some obj → newest past key = some obj

section Steps

variable {past : List (Op ChunkKey KVPayload × Except Raised (Reply KVPayload))}
  {t : TieredBackend σ}

theorem newest_snoc (entry : Op ChunkKey KVPayload × Except Raised (Reply KVPayload))
    (key : ChunkKey) :
    newest (past ++ [entry]) key =
      match entry with
      | (.put k obj _, .ok _) => if k = key then some obj else newest past key
      | (.remove k, .ok _) => if k = key then none else newest past key
      | (.clear, .ok _) => none
      | _ => newest past key := by
  rw [newest, List.foldl_append]
  rfl

/-- A step that answers changes the current copies as the history says. -/
theorem copiesUpToDate_of_ok (hinv : CopiesUpToDate past t) {op : Op ChunkKey KVPayload}
    {reply : Reply KVPayload} (hok : (step t op).1 = .ok reply) :
    CopiesUpToDate (past ++ [(op, .ok reply)]) (step t op).2 := by
  have hnext := (step_refines hok).2
  intro key obj hcur
  rw [newest_snoc]
  rw [← hnext] at hcur
  cases op with
  | put k o pin =>
      simp only [flatStep, Function.update_apply] at hcur
      by_cases hk : k = key
      · simpa [hk] using hcur
      · simpa [hk, Ne.symm hk] using hinv key obj (by simpa [Ne.symm hk] using hcur)
  | remove k =>
      simp only [flatStep, Function.update_apply] at hcur
      by_cases hk : k = key
      · simp [hk] at hcur
      · simpa [hk] using hinv key obj (by simpa [Ne.symm hk] using hcur)
  | clear => simp [flatStep] at hcur
  | get k => exact hinv key obj hcur
  | contains k => exact hinv key obj hcur
  | pin k => exact hinv key obj hcur
  | unpin k => exact hinv key obj hcur

/-- A refused write to hot leaves the other keys alone and the key itself on
its cold copy. -/
theorem current_hotPut_of_error {key : ChunkKey} {obj : KVPayload} {pin : Bool} {err : Raised}
    (herr : (t.hotPut key obj pin).1 = .error err) (k : ChunkKey) :
    (t.hotPut key obj pin).2.current k = if k = key then t.coldCopy key else t.current k := by
  split_ifs with hk
  · rw [hk, current, TieredBackend.hot_hotPut_of_error herr,
      TieredBackend.coldCopy_hotPut_self]
    rfl
  · exact TieredBackend.current_hotPut_other t obj pin hk

theorem current_put_of_error {key : ChunkKey} {obj : KVPayload} {pin : Bool} {err : Raised}
    (herr : (t.put key obj pin).1 = .error err) (k : ChunkKey) :
    (t.put key obj pin).2.current k = if k = key then t.coldCopy key else t.current k := by
  obtain ⟨hfst, hhot, hcold⟩ := TieredBackend.put_cases t key obj pin
  have hrefused := hfst.symm.trans herr
  rw [← current_hotPut_of_error hrefused]
  rcases hcold with hsame | ⟨hok, _⟩
  · rw [current, current, hhot, hsame]
  · simp [hrefused] at hok

theorem current_get_of_error {key : ChunkKey} {err : Raised}
    (herr : (t.get key).1 = .error err) : (t.get key).2.current = t.current := by
  rcases TieredBackend.get_cases t key with
    ⟨o, _, hfst, _⟩ | ⟨_, _, hfst, _⟩ | ⟨o, t₁, hres, hcopy, hhot, hcold, _, hfst, hsnd⟩
  · simp [hfst] at herr
  · simp [hfst] at herr
  · have hsame : ∀ k, t₁.current k = t.current k := fun k => by
      rw [current, current, hhot, hcold]
    cases hput : (t₁.hotPut key o false).1 with
    | ok _ => simp [hfst, hput, Except.map] at herr
    | error err' =>
        funext k
        rw [hsnd, current_hotPut_of_error hput, hsame, hcold]
        split_ifs with hk
        · rw [hk, current, hres]
          rfl
        · rfl

theorem copiesUpToDate_of_error (hinv : CopiesUpToDate past t) {op : Op ChunkKey KVPayload}
    {err : Raised} (herr : (step t op).1 = .error err) (hguard : NoOlderCopy t op) :
    CopiesUpToDate (past ++ [(op, .error err)]) (step t op).2 := by
  intro key obj hcur
  cases op with
  | put k o pin =>
      have hput : (t.put k o pin).1 = .error err := by
        cases hres : (t.put k o pin).1 with
        | error e => simpa [step, KeyedStore.put, hres, Except.map] using herr
        | ok _ => simp [step, KeyedStore.put, hres, Except.map] at herr
      rw [newest_snoc]
      change (t.put k o pin).2.current key = some obj at hcur
      rw [current_put_of_error hput] at hcur
      split_ifs at hcur with hk
      · -- the dropped key now shows its cold copy
        subst hk
        apply hinv
        have hrefused : (t.hot.dropOld key).NoRoom key o.nbytes :=
          (CPUBackend.put_raises_iff TieredBackend.receives_demote t.hot t.cold key o pin).mp
            ⟨err, (TieredBackend.put_cases t key o pin).1.symm.trans hput⟩
        rcases hguard hrefused with hnone | hnone | hsame
        · rw [current, hnone]
          exact hcur
        · rw [hnone] at hcur
          simp at hcur
        · rw [current, ← hsame, hcur]
          rfl
      · exact hinv key obj hcur
  | get k =>
      have hget : (t.get k).1 = .error err := by
        cases hres : (t.get k).1 with
        | error e => simpa [step, KeyedStore.get, hres, Except.map] using herr
        | ok _ => simp [step, KeyedStore.get, hres, Except.map] at herr
      rw [newest_snoc]
      change (t.get k).2.current key = some obj at hcur
      rw [current_get_of_error hget] at hcur
      exact hinv key obj hcur
  | contains k => simp [step] at herr
  | remove k => simp [step] at herr
  | pin k => simp [step] at herr
  | unpin k => simp [step] at herr
  | clear => simp [step] at herr

theorem copiesUpToDate_step (hinv : CopiesUpToDate past t) (op : Op ChunkKey KVPayload)
    (hguard : NoOlderCopy t op) :
    CopiesUpToDate (past ++ [(op, (step t op).1)]) (step t op).2 := by
  cases hres : (step t op).1 with
  | ok reply => exact copiesUpToDate_of_ok hinv hres
  | error err => exact copiesUpToDate_of_error hinv hres hguard

end Steps

/-- As long as no refused put drops a hot copy that shadows an older cold one,
whatever a get returns is the newest object. -/
theorem gets_newest (capacity : Option Nat) (cold : σ)
    (hempty : ∀ key, LosslessStore.view cold key = none)
    (ops : List (Op ChunkKey KVPayload))
    (hguard : (machine (TieredBackend σ)).StepsMeet NoOlderCopy (.init capacity cold) ops) :
    GetsNewest ((machine (TieredBackend σ)).trace (.init capacity cold) ops)
      ((machine (TieredBackend σ)).exec (.init capacity cold) ops) := by
  have hstart : CopiesUpToDate [] (TieredBackend.init capacity cold) := by
    intro key obj hcur
    rw [TieredBackend.current_init, hempty] at hcur
    simp at hcur
  have hend := (machine (TieredBackend σ)).history_induction
    (I := CopiesUpToDate) (fun past t op hinv hg => copiesUpToDate_step hinv op hg)
    [] hstart hguard
  rw [List.nil_append] at hend
  intro key obj hget
  exact hend key obj (get_of_ok hget).1.symm

/-- A demotion, then a put refused for its size. -/
theorem gets_newest_refused :
    let ops : List (Op ChunkKey KVPayload) :=
      [.put ⟨"c", 0, 0⟩ (.ofBytes [1]) false, .put ⟨"c", 1, 0⟩ (.ofBytes [2]) false,
        .put ⟨"c", 2, 0⟩ (.ofBytes [3, 4]) false]
    let store := machine (TieredBackend UnboundedCPU)
    GetsNewest (store.trace (.init (some 1) UnboundedCPU.empty) ops)
      (store.exec (.init (some 1) UnboundedCPU.empty) ops) := by
  refine gets_newest (some 1) UnboundedCPU.empty (fun _ => rfl) _ ?_
  exact ⟨fun _ => .inl rfl, fun _ => .inl rfl, fun _ => .inl rfl, trivial⟩

/-- Overwritten in hot after a demotion, then refused: the get falls back on
the object demoted before the overwrite. -/
theorem refused_put_revives_older :
    let ops : List (Op ChunkKey KVPayload) :=
      [.put ⟨"c", 0, 0⟩ (.ofBytes [1]) false, .put ⟨"c", 1, 0⟩ (.ofBytes [2]) false,
        .put ⟨"c", 0, 0⟩ (.ofBytes [3]) false, .put ⟨"c", 0, 0⟩ (.ofBytes [4, 5]) false]
    let store := machine (TieredBackend UnboundedCPU)
    ¬GetsNewest (store.trace (.init (some 1) UnboundedCPU.empty) ops)
      (store.exec (.init (some 1) UnboundedCPU.empty) ops) := by
  intro ops store hnewest
  have hread := hnewest ⟨"c", 0, 0⟩ (.ofBytes [1]) (by decide)
  exact absurd hread (by decide)

end LlmCache.Store.TieredRefinement
