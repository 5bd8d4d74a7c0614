import LlmCache.Engine.Completeness
import LlmCache.Engine.Expiry
import LlmCache.Engine.Liveness

/-!
# Lifetimes

Expiry is lazy: a cache past its expiry stays until a call finds it.  Over a
lossless store the call that finds it serves nothing, removes its chunks and no
others, and leaves the id free until it is registered again.  A lifetime that is
NaN never ends, as no reading compares with it.
-/

namespace LlmCache.Engine.Lifetimes

open Errors Lib Payload LlmCache.Types Store ExplicitKVCache Descriptors Chunks Prefix Effects
  Expiry Unbounded Completeness Liveness

open LosslessStore (view)

variable {σ : Type} [LosslessBackend σ] {blake2b : List UInt8 → String}

/-! ## The expiry that the history set -/

/-- The expiry that a call sets when it returns, and for which id. -/
def expirySet (defaultTtl : Option Ttl) :
    EngineOp × Except Raised EngineReply → Option (String × Option Ticks)
  | (.register r newId now, .ok _) =>
      (Ttl.expiry now (r.ttl.or defaultTtl)).toOption.map fun e => (resolveId r.cacheId newId, e)
  | (.extendTtl cid ttl _ stamp, .ok _) =>
      (ttl.addedTo stamp).toOption.map fun x => (cid, some x)
  | _ => none

/-- The expiry set by the latest `register` or `extend_ttl` of an id. -/
def latestExpiry (defaultTtl : Option Ttl) (past : List (EngineOp × Except Raised EngineReply))
    (cid : String) : Option Ticks :=
  (Machine.lastOf (expirySet defaultTtl) past cid).join

/-- Every descriptor carries the expiry that was set last. -/
structure Dated (ttl : Option Ttl) (past : List (EngineOp × Except Raised EngineReply))
    (s : ExplicitKVCache σ) : Prop where
  defaultTtl : s.defaultTtl = ttl
  expiry : ∀ cid d, s.descriptors.lookup cid = some d →
    Machine.lastOf (expirySet ttl) past cid = some d.expiresAt

omit [LosslessBackend σ] in
theorem Dated.latestExpiry {defaultTtl : Option Ttl}
    {past : List (EngineOp × Except Raised EngineReply)} {s : ExplicitKVCache σ}
    (h : Dated defaultTtl past s) {cid : String} {d : CacheDescriptor}
    (hd : s.descriptors.lookup cid = some d) :
    latestExpiry defaultTtl past cid = d.expiresAt := by
  rw [Lifetimes.latestExpiry, h.expiry cid d hd, Option.join_some]

theorem expirySet_refusal (defaultTtl : Option Ttl) (op : EngineOp) (err : Raised) :
    expirySet defaultTtl (op, refusal op err) = none := by
  cases op <;> rfl

theorem expirySet_of_sweep (defaultTtl : Option Ttl) {op : EngineOp} {now again : Time}
    (h : sweeps op = some (now, again)) (out : Except Raised EngineReply) :
    expirySet defaultTtl (op, out) = none := by
  cases op with
  | list => rfl
  | sweepExpired => rfl
  | _ => cases h

/-- On a live cache only an `extend_ttl` that returns sets an expiry, and it sets
the one that the descriptor then carries. -/
theorem expirySet_of_live (blake2b : List UInt8 → String) (defaultTtl : Option Ttl)
    {s : ExplicitKVCache σ} {op : EngineOp} {cid : String} {d : CacheDescriptor}
    (hd : FindsLive s op cid d) :
    expirySet defaultTtl (op, (step blake2b s op).1) = some (cid, renewed op d.expiresAt) ∨
      expirySet defaultTtl (op, (step blake2b s op).1) = none ∧
        renewed op d.expiresAt = d.expiresAt := by
  obtain ⟨hd, clock, htests, hlive⟩ := hd
  cases op with
  | extendTtl id ttl reading stamp =>
      cases htests
      have hfound : s.liveDescriptor cid clock = (.ok d, s) := by simp [liveDescriptor, hd, hlive]
      simp only [step, ExplicitKVCache.extendTtl, hfound, renewed]
      cases hsum : ttl.addedTo stamp with
      | error err => exact .inr ⟨rfl, rfl⟩
      | ok x => exact .inl (by simp [expirySet, Except.map, hsum, Except.toOption])
  | register => cases htests
  | _ => exact .inr ⟨rfl, rfl⟩

section Dated

variable {ttl : Option Ttl} {past : List (EngineOp × Except Raised EngineReply)}
  {s s' : ExplicitKVCache σ} {entry : EngineOp × Except Raised EngineReply}

omit [LosslessBackend σ] in
theorem Dated.of_silent (h : Dated ttl past s) (hsettings : SameSettings s s')
    (hsilent : expirySet ttl entry = none)
    (hkept : ∀ k e', s'.descriptors.lookup k = some e' →
      ∃ e, s.descriptors.lookup k = some e ∧ e'.expiresAt = e.expiresAt) :
    Dated ttl (past ++ [entry]) s' where
  defaultTtl := hsettings.2.trans h.defaultTtl
  expiry := by
    intro k e' he'
    obtain ⟨e, he, hexpires⟩ := hkept k e' he'
    rw [Machine.lastOf_snoc_of_ne (by simp [hsilent]), hexpires]
    exact h.expiry k e he

omit [LosslessBackend σ] in
theorem Dated.of_set (h : Dated ttl past s) (hsettings : SameSettings s s') {cid : String}
    {d : CacheDescriptor} (hset : expirySet ttl entry = some (cid, d.expiresAt))
    (hlookup : ∀ k, s'.descriptors.lookup k = if k = cid then some d else s.descriptors.lookup k) :
    Dated ttl (past ++ [entry]) s' where
  defaultTtl := hsettings.2.trans h.defaultTtl
  expiry := by
    intro k e he
    rw [hlookup] at he
    split_ifs at he with hk
    · obtain rfl := Option.some.inj he
      rw [hk]
      exact Machine.lastOf_snoc_self hset
    · have hother : ∀ t, expirySet ttl entry ≠ some (k, t) := by
        intro t ht
        rw [hset] at ht
        exact hk (congrArg Prod.fst (Option.some.inj ht)).symm
      rw [Machine.lastOf_snoc_of_ne hother]
      exact h.expiry k e he

theorem dated_tests (h : Dated ttl past s) {op : EngineOp} {cid : String} {clock : Time}
    (htests : tests op = some (cid, clock)) :
    Dated ttl (past ++ [(op, (step blake2b s op).1)]) (step blake2b s op).2 := by
  have hsettings : SameSettings s (step blake2b s op).2 := sameSettings_of_change (change_step s op)
  cases hd : s.descriptors.lookup cid with
  | none =>
      rw [step_of_absent htests hd] at hsettings ⊢
      apply h.of_silent hsettings (expirySet_refusal ..)
      exact fun k e he => ⟨e, he, rfl⟩
  | some d =>
      cases hexpired : d.isExpired none clock with
      | true =>
          rw [step_of_expired htests hd hexpired] at hsettings ⊢
          apply h.of_silent hsettings (expirySet_refusal ..)
          intro k e he
          rw [lookup_delete] at he
          split_ifs at he
          exact ⟨e, he, rfl⟩
      | false =>
          have hlive : FindsLive s op cid d := ⟨hd, clock, htests, hexpired⟩
          obtain ⟨d', hvisit⟩ : ∃ d', Visit s op cid d d' (step blake2b s op).2 :=
            step_of_live hlive
          have hexpires := hvisit.expiresAt
          rcases expirySet_of_live blake2b ttl hlive with hset | ⟨hset, hsame⟩
          · rw [← hexpires] at hset
            exact h.of_set hsettings hset hvisit.lookup
          · apply h.of_silent hsettings hset
            intro k e he
            rw [hvisit.lookup] at he
            split_ifs at he with hk
            · obtain rfl := Option.some.inj he
              exact ⟨d, hk ▸ hd, hexpires.trans hsame⟩
            · exact ⟨e, he, rfl⟩

theorem dated_step (h : Dated ttl past s) {op : EngineOp} (hreturns : Returns blake2b s op) :
    Dated ttl (past ++ [(op, (step blake2b s op).1)]) (step blake2b s op).2 := by
  have hsettings : SameSettings s (step blake2b s op).2 := sameSettings_of_change (change_step s op)
  cases kind op with
  | puts => exact hreturns.elim
  | commits => exact hreturns.elim
  | tests cid clock htests => exact dated_tests h htests
  | registers r newId now =>
      obtain ⟨d, hstep, _, _, hexpires⟩ := register_of_returns hreturns
      rw [hstep] at hsettings ⊢
      apply h.of_set hsettings
      · rw [h.defaultTtl] at hexpires
        simp only [expirySet, hexpires]
        rfl
      · exact fun k => OrderedDict.lookup_setItem ..
  | deletes cid =>
      apply h.of_silent hsettings rfl
      intro k e he
      change (s.delete cid).descriptors.lookup k = some e at he
      rw [lookup_delete] at he
      split_ifs at he
      exact ⟨e, he, rfl⟩
  | sweeps now again hsweeps =>
      apply h.of_silent hsettings (expirySet_of_sweep ttl hsweeps _)
      intro k e he
      rw [step_of_sweep hsweeps, lookup_foldl_delete] at he
      split_ifs at he
      exact ⟨e, he, rfl⟩

end Dated

/-! ## What lifetimes promise -/

/-- The runs in which registrations return and take free ids only, and the
clock stands still during a sweep. -/
def Orderly (blake2b : List UInt8 → String) (s : ExplicitKVCache σ) : EngineOp → Prop
  | .register r newId now => (s.register blake2b r newId now).1.isOk ∧
      s.descriptors.lookup (resolveId r.cacheId newId) = none
  | .putChunk .. | .commit .. => False
  | .list now again | .sweepExpired now again => again = now
  | _ => True

instance (s : ExplicitKVCache σ) (op : EngineOp) : Decidable (Orderly blake2b s op) :=
  match op with
  | .register .. => inferInstanceAs (Decidable (_ ∧ _))
  | .putChunk .. | .commit .. => inferInstanceAs (Decidable False)
  | .list .. | .sweepExpired .. => inferInstanceAs (Decidable (_ = _))
  | .get .. | .exists .. | .lookup .. | .load .. | .delete .. | .extendTtl .. | .pin ..
  | .unpin .. => inferInstanceAs (Decidable True)

/-- The lifetime that the call gives is not NaN. -/
def Numbered (s : ExplicitKVCache σ) : EngineOp → Prop
  | .register r _ _ => r.ttl.or s.defaultTtl ≠ some (.float .nan)
  | .extendTtl _ ttl _ _ => ttl ≠ .float .nan
  | _ => True

instance (s : ExplicitKVCache σ) (op : EngineOp) : Decidable (Numbered s op) :=
  match op with
  | .register .. => inferInstanceAs (Decidable (_ ≠ _))
  | .extendTtl .. => inferInstanceAs (Decidable (_ ≠ _))
  | .putChunk .. | .commit .. | .get .. | .exists .. | .lookup .. | .load .. | .delete ..
  | .pin .. | .unpin .. | .list .. | .sweepExpired .. => inferInstanceAs (Decidable True)

/-- A call that registers the id. -/
def RegistersId (cid : String) : EngineOp → Prop
  | .register r newId _ => resolveId r.cacheId newId = cid
  | _ => False

instance (cid : String) (op : EngineOp) : Decidable (RegistersId cid op) :=
  match op with
  | .register .. => inferInstanceAs (Decidable (_ = _))
  | .putChunk .. | .commit .. | .get .. | .exists .. | .lookup .. | .load .. | .delete ..
  | .extendTtl .. | .pin .. | .unpin .. | .list .. | .sweepExpired .. =>
      inferInstanceAs (Decidable False)

/-- The clock reading with which a call tests or sweeps. -/
def reading (op : EngineOp) : Option Time :=
  ((tests op).map Prod.snd).or ((sweeps op).map Prod.fst)

/-- A call that tests its cache has been served. -/
def Served (out : Except Raised EngineReply) : Prop :=
  out.isOk ∧ out ≠ .ok (.flag false)

/-- What lifetimes promise about a call. -/
structure Honours (blake2b : List UInt8 → String) (ttl : Option Ttl)
    (past : List (EngineOp × Except Raised EngineReply)) (s : ExplicitKVCache σ)
    (op : EngineOp) : Prop where
  served : ∀ cid clock, tests op = some (cid, clock) → Served (step blake2b s op).1 →
    ∀ x ∈ latestExpiry ttl past cid, x.Ahead clock
  listed : ∀ now again, op = .list now again → ∃ ds,
    (step blake2b s op).1 = .ok (.descriptors ds) ∧ ∀ d ∈ ds, Unexpired d.expiresAt now
  swept : ∀ now again, op = .sweepExpired now again →
    (step blake2b s op).1 = .ok (.count
      ((OrderedDict.values s.descriptors).countP fun d => ¬Unexpired d.expiresAt now)) ∧
    ∀ cid, (step blake2b s op).2.descriptors.lookup cid =
      (s.descriptors.lookup cid).filter fun d => Unexpired d.expiresAt now
  emptied : ∀ cid d, FindsExpired s op cid d → ∀ key : ChunkKey, key.cacheId = cid →
    key ∉ KeyedStore.keys (step blake2b s op).2.store
  others : ∀ cid d, FindsExpired s op cid d → ∀ clock ∈ reading op, ∀ k e,
    s.descriptors.lookup k = some e → Unexpired e.expiresAt clock →
    (step blake2b s op).2.descriptors.lookup k = some e ∧
      SameChunks k s.store (step blake2b s op).2.store
  gone : ∀ cid d, FindsExpired s op cid d → ∀ later,
    (machine blake2b σ).StepsMeet (fun s op => Orderly blake2b s op ∧ ¬RegistersId cid op)
      (step blake2b s op).2 later →
    ∀ op' clock, tests op' = some (cid, clock) →
      (step blake2b ((machine blake2b σ).exec (step blake2b s op).2 later) op').1 =
        refusal op' (.cacheNotFound cid)

theorem Orderly.returns {s : ExplicitKVCache σ} {op : EngineOp} (h : Orderly blake2b s op) :
    Returns blake2b s op := by
  cases op with
  | register => exact h.1
  | putChunk => exact h
  | commit => exact h
  | _ => trivial

theorem Orderly.replaces {s : ExplicitKVCache σ} {op : EngineOp} (h : Orderly blake2b s op) :
    Replaces s op := by
  cases op with
  | register =>
      intro d hd
      rw [h.2] at hd
      cases hd
  | _ => trivial

omit [LosslessBackend σ] in
theorem expirySet_ne_nan {s : ExplicitKVCache σ} {op : EngineOp} (h : Numbered s op)
    (out : Except Raised EngineReply) (cid : String) :
    expirySet s.defaultTtl (op, out) ≠ some (cid, some .nan) := by
  intro hset
  cases out with
  | error err => cases op <;> cases hset
  | ok reply =>
      cases op with
      | register r newId now =>
          simp only [expirySet, Option.map_eq_some_iff, Prod.mk.injEq] at hset
          obtain ⟨e, he, _, rfl⟩ := hset
          cases hexpiry : Ttl.expiry now (r.ttl.or s.defaultTtl) with
          | error err => simp [hexpiry, Except.toOption] at he
          | ok e =>
              rw [hexpiry] at he
              obtain rfl := Option.some.inj he
              exact Ttl.ne_nan_of_expiry h hexpiry rfl
      | extendTtl id ttl clock stamp =>
          simp only [expirySet, Option.map_eq_some_iff, Prod.mk.injEq, Option.some.injEq] at hset
          obtain ⟨x, hx, _, rfl⟩ := hset
          cases hsum : ttl.addedTo stamp with
          | error err => simp [hsum, Except.toOption] at hx
          | ok x =>
              rw [hsum] at hx
              exact Ttl.ne_nan_of_addedTo h hsum (Option.some.inj hx)
      | _ => cases hset

theorem isExpired_self (d : CacheDescriptor) (now : Time) :
    d.isExpired (some now) now = decide ¬Unexpired d.expiresAt now := by
  unfold CacheDescriptor.isExpired Unexpired
  cases d.expiresAt with
  | none => simp
  | some t => simp

theorem not_served_refusal {op : EngineOp} {cid : String} {clock : Time}
    (htests : tests op = some (cid, clock)) (err : Raised) : ¬Served (refusal op err) := by
  rintro ⟨hok, hflag⟩
  cases op with
  | «exists» => exact hflag rfl
  | _ => cases hok

theorem findsLive_of_served {s : ExplicitKVCache σ} {op : EngineOp} {cid : String} {clock : Time}
    (htests : tests op = some (cid, clock)) (hserved : Served (step blake2b s op).1) :
    ∃ d, s.descriptors.lookup cid = some d ∧ d.isExpired none clock = false := by
  cases hd : s.descriptors.lookup cid with
  | none =>
      rw [step_of_absent htests hd] at hserved
      exact absurd hserved (not_served_refusal htests _)
  | some d =>
      cases hexpired : d.isExpired none clock with
      | true =>
          rw [step_of_expired htests hd hexpired] at hserved
          exact absurd hserved (not_served_refusal htests _)
      | false => exact ⟨d, rfl, hexpired⟩

section Laws

variable {P : String → Registration → Prop} {s : ExplicitKVCache σ} {op : EngineOp} {cid : String}
  {d : CacheDescriptor}

omit [LosslessBackend σ] in
theorem mem_expired_self_iff (hkeyed : Keyed s) (now : Time) (cid : String) :
    cid ∈ (expired s now now).map CacheDescriptor.cacheId ↔
      ∃ d, s.descriptors.lookup cid = some d ∧ ¬Unexpired d.expiresAt now := by
  simp only [mem_expired_iff hkeyed, isExpired_self, decide_eq_true_eq]

theorem lookup_sweep (hkeyed : Keyed s) (now : Time) (cid : String) :
    ((expired s now now).foldl (fun s d => s.delete d.cacheId) s).descriptors.lookup cid =
      (s.descriptors.lookup cid).filter fun d => Unexpired d.expiresAt now := by
  rw [lookup_foldl_delete]
  cases hd : s.descriptors.lookup cid with
  | none => simp
  | some d =>
      have hmem := mem_expired_self_iff hkeyed now cid
      simp only [hd, Option.some.injEq, exists_eq_left'] at hmem
      rw [Option.filter_some]
      simp only [hmem, decide_eq_true_eq]
      split_ifs with h <;> rfl

theorem lookup_of_findsExpired (hkeyed : Keyed s) (hfound : FindsExpired s op cid d) :
    (step blake2b s op).2.descriptors.lookup cid = none := by
  obtain ⟨hd, ⟨clock, htests, hexpired⟩ | ⟨now, again, hsweeps, hexpired⟩⟩ := hfound
  · rw [step_of_expired htests hd hexpired, lookup_delete, if_pos rfl]
  · have hmem := (mem_expired_iff hkeyed now again cid).mpr ⟨d, hd, hexpired⟩
    rw [step_of_sweep hsweeps, lookup_foldl_delete, if_pos hmem]

theorem not_unexpired_of_findsExpired (horderly : Orderly blake2b s op)
    (hfound : FindsExpired s op cid d) {clock : Time} (hclock : clock ∈ reading op) :
    ¬Unexpired d.expiresAt clock := by
  rw [← isExpired_iff]
  obtain ⟨_, ⟨clock', htests, hexpired⟩ | ⟨now, again, hsweeps, hexpired⟩⟩ := hfound
  · have hreading : clock' = clock := by simpa [reading, htests] using hclock
    subst hreading
    rw [hexpired]
    exact Bool.noConfusion
  · have hsame : again = now := by
      cases op with
      | list => cases hsweeps; exact horderly
      | sweepExpired => cases hsweeps; exact horderly
      | _ => cases hsweeps
    have hreading : now = clock := by
      cases op with
      | list => cases hsweeps; simpa [reading, tests, sweeps] using hclock
      | sweepExpired => cases hsweeps; simpa [reading, tests, sweeps] using hclock
      | _ => cases hsweeps
    subst hsame hreading
    rw [isExpired_self, decide_eq_true_eq, ← isExpired_iff] at hexpired
    exact hexpired

/-- A call that finds one cache expired leaves the unexpired ones alone. -/
theorem others_of_findsExpired (hkeyed : Keyed s) (horderly : Orderly blake2b s op)
    (hfound : FindsExpired s op cid d) {clock : Time} (hclock : clock ∈ reading op) {k : String}
    {e : CacheDescriptor} (he : s.descriptors.lookup k = some e)
    (hunexpired : Unexpired e.expiresAt clock) :
    (step blake2b s op).2.descriptors.lookup k = some e ∧
      SameChunks k s.store (step blake2b s op).2.store := by
  have hstep := cacheStep_step hkeyed horderly.returns k
  have hop : tests op ≠ none ∨ sweeps op ≠ none := by
    obtain ⟨_, ⟨_, htests, _⟩ | ⟨_, _, hsweeps, _⟩⟩ := hfound
    · exact .inl (by simp [htests])
    · exact .inr (by simp [hsweeps])
  cases hstep with
  | kept _ hlookup hchunks => exact ⟨hlookup.trans he, hchunks⟩
  | edited _ hlive =>
      exfalso
      obtain ⟨hd', clock', htests', hfresh⟩ := hlive
      obtain ⟨hd, ⟨clock'', htests, hexpired⟩ | ⟨now, again, hsweeps, _⟩⟩ := hfound
      · rw [htests'] at htests
        obtain ⟨rfl, rfl⟩ := Prod.mk.inj (Option.some.inj htests)
        obtain rfl := Option.some.inj (hd.symm.trans hd')
        rw [hexpired] at hfresh
        cases hfresh
      · cases op with
        | list => cases htests'
        | sweepExpired => cases htests'
        | _ => cases hsweeps
  | @dropped e' _ he' hwhy =>
      exfalso
      obtain rfl := Option.some.inj (he.symm.trans he')
      rcases hwhy with rfl | hexpired
      · exact hop.elim (fun h => h rfl) fun h => h rfl
      · exact not_unexpired_of_findsExpired horderly hexpired hclock hunexpired
  | registered hregister =>
      exfalso
      subst hregister
      exact hop.elim (fun h => h rfl) fun h => h rfl

theorem free_run (hinv : Complete blake2b P s) (hfree : s.descriptors.lookup cid = none)
    {later : List EngineOp} (hrun : (machine blake2b σ).StepsMeet
      (fun s op => Orderly blake2b s op ∧ ¬RegistersId cid op) s later) :
    ((machine blake2b σ).exec s later).descriptors.lookup cid = none := by
  have hend := (machine blake2b σ).exec_induction
    (I := fun s => Complete blake2b (fun _ _ => True) s ∧ s.descriptors.lookup cid = none) ?_
    ⟨fun k e he => ?_, hfree⟩ hrun
  · exact hend.2
  · rintro s op ⟨hinv, hfree⟩ ⟨horderly, hother⟩
    refine ⟨complete_step hinv horderly.returns (fun _ _ _ _ => trivial) fun _ _ _ => trivial, ?_⟩
    cases cacheStep_step hinv.keyed horderly.returns cid with
    | kept _ hlookup => exact hlookup.trans hfree
    | edited _ hlive =>
        rw [hlive.1] at hfree
        cases hfree
    | dropped _ _ _ hgone => exact hgone
    | registered hop _ hid =>
        subst hop
        exact absurd hid hother
  · obtain ⟨r, newId, _, hholds⟩ := hinv k e he
    exact ⟨r, newId, trivial, hholds⟩

end Laws

/-- The invariant behind the promises. -/
structure Lived (blake2b : List UInt8 → String) (ttl : Option Ttl)
    (past : List (EngineOp × Except Raised EngineReply)) (s : ExplicitKVCache σ) : Prop where
  complete : Complete blake2b (fun _ _ => True) s
  noOrphans : NoOrphans s
  dated : Dated ttl past s
  numbered : ∀ entry ∈ past, ∀ cid, expirySet ttl entry ≠ some (cid, some .nan)

theorem lived_step {ttl : Option Ttl} {past : List (EngineOp × Except Raised EngineReply)}
    {s : ExplicitKVCache σ} (hinv : Lived blake2b ttl past s) {op : EngineOp}
    (horderly : Orderly blake2b s op) (hnumbered : Numbered s op) :
    Lived blake2b ttl (past ++ [(op, (step blake2b s op).1)]) (step blake2b s op).2 where
  complete := complete_step hinv.complete horderly.returns (fun _ _ _ _ => trivial)
    fun _ _ _ => trivial
  noOrphans := noOrphans_step hinv.complete horderly.returns hinv.noOrphans horderly.replaces
  dated := dated_step hinv.dated horderly.returns
  numbered := by
    intro entry hentry cid
    rcases List.mem_append.mp hentry with hold | hnew
    · exact hinv.numbered entry hold cid
    · rw [List.mem_singleton.mp hnew, ← hinv.dated.defaultTtl]
      exact expirySet_ne_nan hnumbered _ cid

theorem Lived.ne_nan {ttl : Option Ttl} {past : List (EngineOp × Except Raised EngineReply)}
    {s : ExplicitKVCache σ} (h : Lived blake2b ttl past s) {cid : String} {d : CacheDescriptor}
    (hd : s.descriptors.lookup cid = some d) : d.expiresAt ≠ some .nan := by
  intro hnan
  obtain ⟨entry, hentry, hset⟩ := Machine.exists_of_lastOf (h.dated.expiry cid d hd)
  exact h.numbered entry hentry cid (hnan ▸ hset)

theorem honours_of_lived {ttl : Option Ttl} {past : List (EngineOp × Except Raised EngineReply)}
    {s : ExplicitKVCache σ} (hinv : Lived blake2b ttl past s) {op : EngineOp}
    (horderly : Orderly blake2b s op) : Honours blake2b ttl past s op where
  served := by
    intro cid clock htests hserved x hx
    obtain ⟨d, hd, hlive⟩ := findsLive_of_served htests hserved
    rw [hinv.dated.latestExpiry hd] at hx
    refine Ticks.ahead_of_not_reached ?_ ((isExpired_iff d clock).mp hlive x hx)
    rintro rfl
    exact hinv.ne_nan hd hx
  listed := by
    rintro now again rfl
    obtain rfl : again = now := horderly
    refine ⟨_, rfl, fun d hd => ?_⟩
    obtain ⟨cid, hcid⟩ := (OrderedDict.mem_values_iff _ d).mp hd
    change ((expired s again again).foldl (fun s d => s.delete d.cacheId) s).descriptors.lookup
      cid = some d at hcid
    rw [lookup_sweep hinv.complete.keyed, Option.filter_eq_some_iff] at hcid
    exact of_decide_eq_true hcid.2
  swept := by
    rintro now again rfl
    obtain rfl : again = now := horderly
    refine ⟨?_, lookup_sweep hinv.complete.keyed again⟩
    rw [List.countP_eq_length_filter]
    simp only [← isExpired_self]
    rfl
  emptied := by
    rintro cid d hfound key rfl hkey
    have hclean := noOrphans_step hinv.complete horderly.returns hinv.noOrphans horderly.replaces
    obtain ⟨owner, howner, _⟩ := hclean.owned key.cacheId key.chunkIndex key.workerId hkey
    rw [lookup_of_findsExpired hinv.complete.keyed hfound] at howner
    cases howner
  others := fun _ _ hfound _ hclock _ _ he hunexpired =>
    others_of_findsExpired hinv.complete.keyed horderly hfound hclock he hunexpired
  gone := by
    intro cid d hfound later hrun op' clock htests
    have hcomplete : Complete blake2b (fun _ _ => True) (step blake2b s op).2 :=
      complete_step hinv.complete horderly.returns (fun _ _ _ _ => trivial) fun _ _ _ => trivial
    have hfree := free_run hcomplete (lookup_of_findsExpired hinv.complete.keyed hfound) hrun
    rw [step_of_absent htests hfree]

/-- In every run from an empty engine whose registrations return and take free
ids only, and in which no lifetime is NaN, every call honours the lifetimes of
the caches. -/
theorem honours_run (s : ExplicitKVCache σ) (hempty : s.descriptors = ∅)
    (hstore : KeyedStore.keys s.store = []) (ops : List EngineOp) (op : EngineOp)
    (hrun : (machine blake2b σ).StepsMeet (fun s op => Orderly blake2b s op ∧ Numbered s op) s ops)
    (horderly : Orderly blake2b ((machine blake2b σ).exec s ops) op) :
    Honours blake2b s.defaultTtl ((machine blake2b σ).trace s ops)
      ((machine blake2b σ).exec s ops) op := by
  have hstart : Lived blake2b s.defaultTtl [] s := by
    refine ⟨complete_of_empty hempty _, noOrphans_of_empty hstore, ⟨rfl, ?_⟩, ?_⟩
    · intro cid d hd
      simp [hempty] at hd
    · exact fun entry hentry => absurd hentry List.not_mem_nil
  have hend := (machine blake2b σ).history_induction (I := Lived blake2b s.defaultTtl)
    (fun past s op hinv hop => lived_step hinv hop.1 hop.2) [] hstart hrun
  exact honours_of_lived hend horderly

/-- A sweep after one lifetime has run out and another has been extended. -/
theorem honours_run_sweep :
    let short : Registration := ⟨[1], .sequence [.ofBytes [7]], some "a", some 10, false, none⟩
    let long : Registration := ⟨[2], .sequence [.ofBytes [8]], some "b", none, true, none⟩
    let ops : List EngineOp :=
      [.register short "new" 1, .register long "new" 2, .extendTtl "b" 50 3 3, .get "a" 4]
    let start : ExplicitKVCache UnboundedCPU := ⟨.empty, 2, by decide, some 5, ∅⟩
    Honours sampleDigest (some 5) ((machine sampleDigest UnboundedCPU).trace start ops)
      ((machine sampleDigest UnboundedCPU).exec start ops) (.sweepExpired 20 20) := by
  intro short long ops start
  have hrun : (machine sampleDigest UnboundedCPU).StepsMeet
      (fun s op => Orderly sampleDigest s op ∧ Numbered s op) start ops := by
    decide +kernel
  exact honours_run start rfl rfl ops (.sweepExpired 20 20) hrun rfl

/-- A lifetime that is NaN, and a client that asks much later. -/
theorem nan_lifetime_served :
    let r : Registration :=
      ⟨[1], .sequence [.ofBytes [7]], some "a", some (.float .nan), false, none⟩
    let ops : List EngineOp := [.register r "new" 1]
    let start : ExplicitKVCache UnboundedCPU := ⟨.empty, 2, by decide, none, ∅⟩
    (machine sampleDigest UnboundedCPU).StepsMeet (Orderly sampleDigest) start ops ∧
      ¬Honours sampleDigest none ((machine sampleDigest UnboundedCPU).trace start ops)
        ((machine sampleDigest UnboundedCPU).exec start ops) (.get "a" 1000000) := by
  intro r ops start
  refine ⟨by decide +kernel, fun hhonours => ?_⟩
  have hserved : Served (step sampleDigest ((machine sampleDigest UnboundedCPU).exec start ops)
      (.get "a" 1000000)).1 := by
    exact ⟨by decide +kernel, by decide +kernel⟩
  have hlatest : latestExpiry none ((machine sampleDigest UnboundedCPU).trace start ops) "a" =
      some .nan := by decide +kernel
  exact hhonours.served "a" 1000000 rfl hserved .nan hlatest

end LlmCache.Engine.Lifetimes
