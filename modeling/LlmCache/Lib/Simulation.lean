import LlmCache.Lib.KeyedStore
import Mathlib.Data.Finite.Defs
import Mathlib.Data.Set.Finite.Basic

/-!
# One store in place of another

A store stands for another one when every call about the admitted keys and
objects ends alike on related states, unless it raises an error that ends the
comparison.  Such stores can be composed, and replaced inside of anything that
reaches them through the interface only.
-/

namespace LlmCache.Lib

/-! ## Calls that end alike -/

/-- The first call raises an error that ends the comparison, or both calls end
with the same outcome in related states. -/
def EndAlike {σ τ ε ρ : Type*} (ends : ε → Prop) (R : σ → τ → Prop)
    (x : Except ε ρ × σ) (y : Except ε ρ × τ) : Prop :=
  (∃ err, x.1 = .error err ∧ ends err) ∨ x.1 = y.1 ∧ R x.2 y.2

section EndAlike

variable {σ τ υ ε ρ ρ' : Type*} {ends ends' : ε → Prop} {R : σ → τ → Prop} {S : τ → υ → Prop}
  {x : Except ε ρ × σ} {y : Except ε ρ × τ} {z : Except ε ρ × υ}

theorem EndAlike.of_eq (hsame : x.1 = y.1) (hrel : R x.2 y.2) : EndAlike ends R x y :=
  .inr ⟨hsame, hrel⟩

/-- The outcome is passed on as `f` makes it, with a state around what the call left. -/
theorem EndAlike.map {σ' τ' : Type*} {R' : σ' → τ' → Prop} (h : EndAlike ends R x y)
    (f : ρ → ρ') {s : σ'} {t : τ'} (hrel : R x.2 y.2 → R' s t) :
    EndAlike ends R' (x.1.map f, s) (y.1.map f, t) := by
  rcases h with ⟨err, herr, hends⟩ | ⟨hsame, hstate⟩
  · exact .inl ⟨err, by rw [herr]; rfl, hends⟩
  · exact .inr ⟨by rw [hsame], hrel hstate⟩

theorem EndAlike.trans (h : EndAlike ends R x y) (h' : EndAlike ends' S y z) :
    EndAlike (fun err => ends err ∨ ends' err) (fun s u => ∃ t, R s t ∧ S t u) x z := by
  rcases h with ⟨err, herr, hends⟩ | ⟨hsame, hrel⟩
  · exact .inl ⟨err, herr, .inl hends⟩
  · rcases h' with ⟨err, herr, hends⟩ | ⟨hsame', hrel'⟩
    · exact .inl ⟨err, hsame.trans herr, .inr hends⟩
    · exact .inr ⟨hsame.trans hsame', y.2, hrel, hrel'⟩

theorem EndAlike.mono (h : EndAlike ends R x y) (hends : ∀ err, ends err → ends' err) :
    EndAlike ends' R x y :=
  h.imp_left fun ⟨err, herr, hend⟩ => ⟨err, herr, hends err hend⟩

/-- The outcomes stay as they are, with states around what the calls left. -/
theorem EndAlike.around {σ' τ' : Type*} {R' : σ' → τ' → Prop} (h : EndAlike ends R x y)
    {s : σ'} {t : τ'} (hrel : R x.2 y.2 → R' s t) : EndAlike ends R' (x.1, s) (y.1, t) :=
  h.imp_right fun ⟨hsame, hstate⟩ => ⟨hsame, hrel hstate⟩

theorem EndAlike.weaken {R' : σ → τ → Prop} (h : EndAlike ends R x y)
    (hrel : ∀ s t, R s t → R' s t) : EndAlike ends R' x y :=
  h.around (hrel _ _)

/-- A call whose errors do not end the comparison ends like the other one. -/
theorem EndAlike.resolve (h : EndAlike ends R x y) (hnot : ∀ err, x.1 = .error err → ¬ends err) :
    x.1 = y.1 ∧ R x.2 y.2 := by
  rcases h with ⟨err, herr, hends⟩ | h
  · exact absurd hends (hnot err herr)
  · exact h

theorem EndAlike.same (h : EndAlike (fun _ => False) R x y) : x.1 = y.1 ∧ R x.2 y.2 :=
  h.resolve fun _ _ => not_false

end EndAlike

/-- Machines whose steps end alike end alike in a whole run, up to the first
error that ends the comparison. -/
theorem Machine.run_alike {σ τ ι ε ρ : Type*} (M : Machine σ ι ε ρ) (A : Machine τ ι ε ρ)
    {ends : ε → Prop} {admits : ι → Prop} {R : σ → τ → Prop}
    (hstep : ∀ s t op, R s t → admits op → EndAlike ends R (M.step s op) (A.step t op))
    {s : σ} {t : τ} (hrel : R s t) {ops : List ι} (hadmits : ∀ op ∈ ops, admits op)
    (hruns : ∀ entry ∈ M.trace s ops, ∀ err, entry.2 = .error err → ¬ends err) :
    M.trace s ops = A.trace t ops ∧ R (M.exec s ops) (A.exec t ops) := by
  induction ops generalizing s t with
  | nil => exact ⟨rfl, hrel⟩
  | cons op ops ih =>
      rw [trace_cons] at hruns
      obtain ⟨hsame, hnext⟩ := (hstep s t op hrel (hadmits op (List.mem_cons_self ..))).resolve
        fun err => hruns _ (List.mem_cons_self ..) err
      obtain ⟨htrace, hend⟩ := ih hnext (fun o ho => hadmits o (List.mem_cons_of_mem _ ho))
        fun entry hentry => hruns entry (List.mem_cons_of_mem _ hentry)
      exact ⟨by rw [trace_cons, trace_cons, hsame, htrace], hend⟩

/-- Machines that step alike where the second one admits the step give the same
outcomes in a run of admitted steps. -/
theorem Machine.run_same {σ τ ι ε ρ : Type*} (M : Machine σ ι ε ρ) (A : Machine τ ι ε ρ)
    {admits : τ → ι → Prop} {R : σ → τ → Prop}
    (hstep : ∀ s t op, R s t → admits t op →
      (M.step s op).1 = (A.step t op).1 ∧ R (M.step s op).2 (A.step t op).2)
    {s : σ} {t : τ} (hrel : R s t) {ops : List ι} (hrun : A.StepsMeet admits t ops) :
    M.trace s ops = A.trace t ops ∧ R (M.exec s ops) (A.exec t ops) := by
  induction ops generalizing s t with
  | nil => exact ⟨rfl, hrel⟩
  | cons op ops ih =>
      obtain ⟨hsame, hnext⟩ := hstep s t op hrel hrun.1
      obtain ⟨htrace, hend⟩ := ih hnext hrun.2
      exact ⟨by rw [trace_cons, trace_cons, hsame, htrace], hend⟩

/-! ## Stores that stand for one another -/

namespace KeyedStore

variable {σ τ υ K V E : Type} [KeyedStore σ K V E] [KeyedStore τ K V E] [KeyedStore υ K V E]

/-- `σ` stands for `τ` on the admitted keys and objects. -/
structure StandsFor (σ τ : Type) {K V E : Type} [KeyedStore σ K V E] [KeyedStore τ K V E]
    (ends : E → Prop) (key : K → Prop) (obj : V → Prop) (R : σ → τ → Prop) : Prop where
  put : ∀ {s : σ} {t : τ} k o pin, R s t → key k → obj o →
    EndAlike ends R (KeyedStore.put s k o pin) (KeyedStore.put t k o pin)
  get : ∀ {s : σ} {t : τ} k, R s t → key k →
    EndAlike ends R (KeyedStore.get s k) (KeyedStore.get t k)
  got : ∀ {s : σ} {t : τ} k o, R s t → key k → (KeyedStore.get s k).1 = .ok (some o) → obj o
  contains : ∀ {s : σ} {t : τ} k, R s t → key k → KeyedStore.contains s k = KeyedStore.contains t k
  remove : ∀ {s : σ} {t : τ} k, R s t → key k →
    (KeyedStore.remove s k).1 = (KeyedStore.remove t k).1 ∧
      R (KeyedStore.remove s k).2 (KeyedStore.remove t k).2
  pin : ∀ {s : σ} {t : τ} k, R s t → key k → R (KeyedStore.pin s k) (KeyedStore.pin t k)
  unpin : ∀ {s : σ} {t : τ} k, R s t → key k → R (KeyedStore.unpin s k) (KeyedStore.unpin t k)

/-- A call about an admitted key, with an admitted object. -/
structure Op.Admitted (key : K → Prop) (obj : V → Prop) (op : Op K V) : Prop where
  about : ∃ k, op.key = some k ∧ key k
  object : ∀ k o pin, op = .put k o pin → obj o

variable {ends ends' : E → Prop} {key : K → Prop} {obj : V → Prop} {R : σ → τ → Prop}
  {S : τ → υ → Prop}

/-- Stores compose: what stands for a store stands for whatever that stands for. -/
theorem StandsFor.trans (h : StandsFor σ τ ends key obj R) (h' : StandsFor τ υ ends' key obj S) :
    StandsFor σ υ (fun err => ends err ∨ ends' err) key obj
      (fun s u => ∃ t, R s t ∧ S t u) where
  put k o pin := fun ⟨_, hR, hS⟩ hk ho => (h.put k o pin hR hk ho).trans (h'.put k o pin hS hk ho)
  get k := fun ⟨_, hR, hS⟩ hk => (h.get k hR hk).trans (h'.get k hS hk)
  got k o := fun ⟨_, hR, _⟩ hk => h.got k o hR hk
  contains k := fun ⟨_, hR, hS⟩ hk => (h.contains k hR hk).trans (h'.contains k hS hk)
  remove k := fun ⟨_, hR, hS⟩ hk =>
    ⟨(h.remove k hR hk).1.trans (h'.remove k hS hk).1, _, (h.remove k hR hk).2,
      (h'.remove k hS hk).2⟩
  pin k := fun ⟨_, hR, hS⟩ hk => ⟨_, h.pin k hR hk, h'.pin k hS hk⟩
  unpin k := fun ⟨_, hR, hS⟩ hk => ⟨_, h.unpin k hR hk, h'.unpin k hS hk⟩

theorem StandsFor.mono (h : StandsFor σ τ ends key obj R) (hends : ∀ err, ends err → ends' err) :
    StandsFor σ τ ends' key obj R where
  put k o pin hrel hk ho := (h.put k o pin hrel hk ho).mono hends
  get k hrel hk := (h.get k hrel hk).mono hends
  got := h.got
  contains := h.contains
  remove := h.remove
  pin := h.pin
  unpin := h.unpin

theorem StandsFor.or {S : σ → τ → Prop} (h : StandsFor σ τ ends key obj R)
    (h' : StandsFor σ τ ends key obj S) :
    StandsFor σ τ ends key obj (fun s t => R s t ∨ S s t) where
  put k o pin := fun hrel hk ho => hrel.elim
    (fun hR => (h.put k o pin hR hk ho).weaken fun _ _ => .inl)
    fun hS => (h'.put k o pin hS hk ho).weaken fun _ _ => .inr
  get k := fun hrel hk => hrel.elim (fun hR => (h.get k hR hk).weaken fun _ _ => .inl)
    fun hS => (h'.get k hS hk).weaken fun _ _ => .inr
  got k o := fun hrel hk => hrel.elim (fun hR => h.got k o hR hk) fun hS => h'.got k o hS hk
  contains k := fun hrel hk =>
    hrel.elim (fun hR => h.contains k hR hk) fun hS => h'.contains k hS hk
  remove k := fun hrel hk => hrel.elim (fun hR => (h.remove k hR hk).imp_right .inl)
    fun hS => (h'.remove k hS hk).imp_right .inr
  pin k := fun hrel hk => hrel.imp (h.pin k · hk) (h'.pin k · hk)
  unpin k := fun hrel hk => hrel.imp (h.unpin k · hk) (h'.unpin k · hk)

theorem StandsFor.restrict (h : StandsFor σ τ ends key obj R) {key' : K → Prop}
    (hkey : ∀ k, key' k → key k) : StandsFor σ τ ends key' obj R where
  put k o pin hrel hk := h.put k o pin hrel (hkey k hk)
  get k hrel hk := h.get k hrel (hkey k hk)
  got k o hrel hk := h.got k o hrel (hkey k hk)
  contains k hrel hk := h.contains k hrel (hkey k hk)
  remove k hrel hk := h.remove k hrel (hkey k hk)
  pin k hrel hk := h.pin k hrel (hkey k hk)
  unpin k hrel hk := h.unpin k hrel (hkey k hk)

/-- What no call changes. -/
structure Steady (P : σ → Prop) : Prop where
  put : ∀ s k o pin, P s → P (KeyedStore.put s k o pin).2
  get : ∀ s k, P s → P (KeyedStore.get s k).2
  remove : ∀ s k, P s → P (KeyedStore.remove s k).2
  pin : ∀ s k, P s → P (KeyedStore.pin s k)
  unpin : ∀ s k, P s → P (KeyedStore.unpin s k)

theorem StandsFor.and (h : StandsFor σ τ ends key obj R) {P : σ → Prop} (hP : Steady P) :
    StandsFor σ τ ends key obj (fun s t => R s t ∧ P s) where
  put k o pin := fun hrel hk ho =>
    (h.put k o pin hrel.1 hk ho).around fun hnext => ⟨hnext, hP.put _ k o pin hrel.2⟩
  get k := fun hrel hk =>
    (h.get k hrel.1 hk).around fun hnext => ⟨hnext, hP.get _ k hrel.2⟩
  got k o hrel := h.got k o hrel.1
  contains k hrel := h.contains k hrel.1
  remove k := fun hrel hk =>
    (h.remove k hrel.1 hk).imp_right fun hnext => ⟨hnext, hP.remove _ k hrel.2⟩
  pin k := fun hrel hk => ⟨h.pin k hrel.1 hk, hP.pin _ k hrel.2⟩
  unpin k := fun hrel hk => ⟨h.unpin k hrel.1 hk, hP.unpin _ k hrel.2⟩

/-- `f` makes a store into one that passes every call on to it. -/
structure Passes (f : σ → υ) : Prop where
  put : ∀ s k o pin, KeyedStore.put (f s) k o pin =
    ((KeyedStore.put s k o pin).1, f (KeyedStore.put s k o pin).2)
  get : ∀ s k, KeyedStore.get (f s) k = ((KeyedStore.get s k).1, f (KeyedStore.get s k).2)
  contains : ∀ s k, KeyedStore.contains (f s) k = KeyedStore.contains s k
  remove : ∀ s k, KeyedStore.remove (f s) k =
    ((KeyedStore.remove s k).1, f (KeyedStore.remove s k).2)
  pin : ∀ s k, KeyedStore.pin (f s) k = f (KeyedStore.pin s k)
  unpin : ∀ s k, KeyedStore.unpin (f s) k = f (KeyedStore.unpin s k)

/-- What passes its calls on stands for what the store inside stands for. -/
theorem StandsFor.along (h : StandsFor σ τ ends key obj R) {f : σ → υ} (hf : Passes f) :
    StandsFor υ τ ends key obj (fun u t => ∃ s, u = f s ∧ R s t) where
  put k o pin := by
    rintro ⟨s, rfl, hrel⟩ hk ho
    rw [hf.put]
    exact (h.put k o pin hrel hk ho).around fun hnext => ⟨_, rfl, hnext⟩
  get k := by
    rintro ⟨s, rfl, hrel⟩ hk
    rw [hf.get]
    exact (h.get k hrel hk).around fun hnext => ⟨_, rfl, hnext⟩
  got k o := by
    rintro ⟨s, rfl, hrel⟩ hk hget
    rw [hf.get] at hget
    exact h.got k o hrel hk hget
  contains k := by
    rintro ⟨s, rfl, hrel⟩ hk
    rw [hf.contains]
    exact h.contains k hrel hk
  remove k := by
    rintro ⟨s, rfl, hrel⟩ hk
    rw [hf.remove]
    exact ⟨(h.remove k hrel hk).1, _, rfl, (h.remove k hrel hk).2⟩
  pin k := by
    rintro ⟨s, rfl, hrel⟩ hk
    exact ⟨_, hf.pin s k, h.pin k hrel hk⟩
  unpin k := by
    rintro ⟨s, rfl, hrel⟩ hk
    exact ⟨_, hf.unpin s k, h.unpin k hrel hk⟩

theorem StandsFor.step (h : StandsFor σ τ ends key obj R) {s : σ} {t : τ} (hrel : R s t)
    {op : Op K V} (hop : op.Admitted key obj) :
    EndAlike ends R (KeyedStore.step s op) (KeyedStore.step t op) := by
  obtain ⟨k, hkey, hk⟩ := hop.about
  cases op with
  | put k o pin =>
      obtain rfl := Option.some.inj hkey
      exact (h.put k o pin hrel hk (hop.object k o pin rfl)).map _ id
  | get k =>
      obtain rfl := Option.some.inj hkey
      exact (h.get k hrel hk).map _ id
  | contains k =>
      obtain rfl := Option.some.inj hkey
      refine .of_eq ?_ hrel
      simp only [KeyedStore.step]
      rw [h.contains k hrel hk]
  | remove k =>
      obtain rfl := Option.some.inj hkey
      obtain ⟨hsame, hnext⟩ := h.remove k hrel hk
      refine .of_eq ?_ hnext
      simp only [KeyedStore.step]
      rw [hsame]
  | pin k =>
      obtain rfl := Option.some.inj hkey
      exact .of_eq rfl (h.pin k hrel hk)
  | unpin k =>
      obtain rfl := Option.some.inj hkey
      exact .of_eq rfl (h.unpin k hrel hk)
  | clear => cases hkey

theorem StandsFor.run (h : StandsFor σ τ ends key obj R) {s : σ} {t : τ} (hrel : R s t)
    {ops : List (Op K V)} (hops : ∀ op ∈ ops, op.Admitted key obj)
    (hruns : ∀ entry ∈ (machine σ).trace s ops, ∀ err, entry.2 = .error err → ¬ends err) :
    (machine σ).trace s ops = (machine τ).trace t ops ∧
      R ((machine σ).exec s ops) ((machine τ).exec t ops) :=
  (machine σ).run_alike (machine τ) (fun _ _ _ hrel hop => h.step hrel hop) hrel hops hruns

end KeyedStore

/-! ## Lossless stores -/

namespace LosslessStore

variable {σ τ K V E : Type} [DecidableEq K] [LosslessStore σ K V E] [LosslessStore τ K V E]
  {key : K → Prop} {obj : V → Prop}

/-- Both stores hold the same admitted objects. -/
structure SameContent (key : K → Prop) (obj : V → Prop) (s : σ) (t : τ) : Prop where
  view_eq : view s = view t
  admitted : ∀ k o, key k → view s k = some o → obj o

theorem SameContent.of_view {s s' : σ} {t t' : τ} (h : SameContent key obj s t)
    (hs : view s' = view s) (ht : view t' = view t) : SameContent key obj s' t' where
  view_eq := by rw [hs, ht, h.view_eq]
  admitted := by
    rw [hs]
    exact h.admitted

theorem SameContent.update {s s' : σ} {t t' : τ} (h : SameContent key obj s t) {k : K}
    {o : Option V} (ho : ∀ p ∈ o, obj p) (hs : view s' = Function.update (view s) k o)
    (ht : view t' = Function.update (view t) k o) : SameContent key obj s' t' where
  view_eq := by rw [hs, ht, h.view_eq]
  admitted := by
    intro k' p hk' hp
    rw [hs, Function.update_apply] at hp
    split_ifs at hp with hk
    · exact ho p hp
    · exact h.admitted k' p hk' hp

theorem standsFor (σ τ : Type) {K V E : Type} [DecidableEq K] [LosslessStore σ K V E]
    [LosslessStore τ K V E] (key : K → Prop) (obj : V → Prop) :
    KeyedStore.StandsFor σ τ (fun _ : E => False) key obj (SameContent key obj) where
  put k o pin hrel _ ho := by
    refine .of_eq ((put_ok ..).trans (put_ok ..).symm) (hrel.update ?_ (view_put ..) (view_put ..))
    rintro p ⟨⟩
    exact ho
  get k hrel _ := by
    refine .of_eq ?_ (hrel.of_view (view_get ..) (view_get ..))
    rw [get_ok, get_ok, hrel.view_eq]
  got k o hrel hk hget := by
    rw [get_ok, Except.ok.injEq] at hget
    exact hrel.admitted k o hk hget
  contains k hrel _ := by rw [contains_eq, contains_eq, hrel.view_eq]
  remove k hrel _ := by
    refine ⟨by rw [remove_eq, remove_eq, hrel.view_eq], ?_⟩
    exact hrel.update (fun p hp => by cases hp) (view_remove ..) (view_remove ..)
  pin k hrel _ := hrel.of_view (view_pin ..) (view_pin ..)
  unpin k hrel _ := hrel.of_view (view_unpin ..) (view_unpin ..)

/-- Both stores hold the same admitted objects under the admitted keys. -/
structure SameOn (key : K → Prop) (obj : V → Prop) (s : σ) (t : τ) : Prop where
  view_eq : ∀ k, key k → view s k = view t k
  admitted : ∀ k o, key k → view s k = some o → obj o

theorem SameOn.of_view {s s' : σ} {t t' : τ} (h : SameOn key obj s t)
    (hs : ∀ k, key k → view s' k = view s k) (ht : ∀ k, key k → view t' k = view t k) :
    SameOn key obj s' t' where
  view_eq k hk := by rw [hs k hk, ht k hk, h.view_eq k hk]
  admitted k o hk := by
    rw [hs k hk]
    exact h.admitted k o hk

theorem SameOn.update {s s' : σ} {t t' : τ} (h : SameOn key obj s t) {k : K} {o : Option V}
    (ho : ∀ p ∈ o, obj p) (hs : view s' = Function.update (view s) k o)
    (ht : view t' = Function.update (view t) k o) : SameOn key obj s' t' where
  view_eq k' hk' := by rw [hs, ht, Function.update_apply, Function.update_apply, h.view_eq k' hk']
  admitted k' p hk' hp := by
    rw [hs, Function.update_apply] at hp
    split_ifs at hp
    · exact ho p hp
    · exact h.admitted k' p hk' hp

theorem standsFor_sameOn (σ τ : Type) {K V E : Type} [DecidableEq K] [LosslessStore σ K V E]
    [LosslessStore τ K V E] (key : K → Prop) (obj : V → Prop) :
    KeyedStore.StandsFor σ τ (fun _ : E => False) key obj (SameOn key obj) where
  put k o pin hrel _ ho := by
    refine .of_eq ((put_ok ..).trans (put_ok ..).symm) (hrel.update ?_ (view_put ..) (view_put ..))
    rintro p ⟨⟩
    exact ho
  get k hrel hk := by
    refine .of_eq ?_ (hrel.of_view (fun _ _ => by rw [view_get]) fun _ _ => by rw [view_get])
    rw [get_ok, get_ok, hrel.view_eq k hk]
  got k o hrel hk hget := by
    rw [get_ok, Except.ok.injEq] at hget
    exact hrel.admitted k o hk hget
  contains k hrel hk := by rw [contains_eq, contains_eq, hrel.view_eq k hk]
  remove k hrel hk := by
    refine ⟨by rw [remove_eq, remove_eq, hrel.view_eq k hk], ?_⟩
    exact hrel.update (fun p hp => by cases hp) (view_remove ..) (view_remove ..)
  pin k hrel _ := hrel.of_view (fun _ _ => by rw [view_pin]) fun _ _ => by rw [view_pin]
  unpin k hrel _ := hrel.of_view (fun _ _ => by rw [view_unpin]) fun _ _ => by rw [view_unpin]

/-- Calls about admitted keys leave the rest of what the store stands for. -/
theorem standsFor_beside {σ τ : Type} {K V E : Type} [DecidableEq K] [KeyedStore σ K V E]
    [LosslessStore τ K V E] {key : K → Prop} {obj : V → Prop} {R : σ → τ → Prop}
    (h : KeyedStore.StandsFor σ τ (fun _ : E => False) key obj R) (v : K → Option V) :
    KeyedStore.StandsFor σ τ (fun _ : E => False) key obj
      (fun s t => R s t ∧ ∀ k, ¬key k → view t k = v k) where
  put k o pin hrel hk ho := by
    refine (h.put k o pin hrel.1 hk ho).around fun hnext => ⟨hnext, fun k' hk' => ?_⟩
    refine (congrFun (view_put ..) k').trans ?_
    rw [Function.update_of_ne (by rintro rfl; exact hk' hk)]
    exact hrel.2 k' hk'
  get k hrel hk := by
    refine (h.get k hrel.1 hk).around fun hnext => ⟨hnext, fun k' hk' => ?_⟩
    exact (congrFun (view_get ..) k').trans (hrel.2 k' hk')
  got k o hrel := h.got k o hrel.1
  contains k hrel := h.contains k hrel.1
  remove k hrel hk := by
    refine (h.remove k hrel.1 hk).imp_right fun hnext => ⟨hnext, fun k' hk' => ?_⟩
    rw [view_remove, Function.update_of_ne (by rintro rfl; exact hk' hk)]
    exact hrel.2 k' hk'
  pin k hrel hk := by
    refine ⟨h.pin k hrel.1 hk, fun k' hk' => ?_⟩
    rw [view_pin]
    exact hrel.2 k' hk'
  unpin k hrel hk := by
    refine ⟨h.unpin k hrel.1 hk, fun k' hk' => ?_⟩
    rw [view_unpin]
    exact hrel.2 k' hk'

/-- What stands for a lossless store knows what that holds. -/
theorem admitted_of_standsFor {σ τ : Type} {K V E : Type} [DecidableEq K] [KeyedStore σ K V E]
    [LosslessStore τ K V E] {key : K → Prop} {obj : V → Prop} {R : σ → τ → Prop}
    (h : KeyedStore.StandsFor σ τ (fun _ : E => False) key obj R) {s : σ} {t : τ} (hrel : R s t)
    {k : K} (hk : key k) {o : V} (ho : view t k = some o) : obj o := by
  refine h.got k o hrel hk ?_
  rw [(h.get k hrel hk).same.1, get_ok, ho]

/-- A lossless store answers every run as the plain map of its content. -/
theorem run_flatMap (s : σ) (ops : List (KeyedStore.Op K V)) :
    (KeyedStore.machine σ).trace s ops = (KeyedStore.flatMap K V E).trace (view s) ops ∧
      view ((KeyedStore.machine σ).exec s ops) = (KeyedStore.flatMap K V E).exec (view s) ops := by
  have hstep : ∀ (s : σ) (op : KeyedStore.Op K V),
      (KeyedStore.step s op).1 = (KeyedStore.flatStep (view s) op : Except E _ × _).1 ∧
        view (KeyedStore.step s op).2 =
          (KeyedStore.flatStep (view s) op : Except E _ × _).2 := by
    intro s op
    cases op with
    | put k o pin => simp [KeyedStore.step, KeyedStore.flatStep, Except.map]
    | get k => simp [KeyedStore.step, KeyedStore.flatStep, Except.map]
    | contains k => simp [KeyedStore.step, KeyedStore.flatStep]
    | remove k => simp [KeyedStore.step, KeyedStore.flatStep]
    | pin k => simp [KeyedStore.step, KeyedStore.flatStep]
    | unpin k => simp [KeyedStore.step, KeyedStore.flatStep]
    | clear => exact ⟨rfl, KeyedStore.content_clear view_remove mem_keys s⟩
  induction ops generalizing s with
  | nil => exact ⟨rfl, rfl⟩
  | cons op ops ih =>
      obtain ⟨hanswer, hnext⟩ := hstep s op
      obtain ⟨htrace, hend⟩ := ih (KeyedStore.step s op).2
      rw [hnext] at htrace hend
      refine ⟨?_, hend⟩
      rw [Machine.trace_cons, Machine.trace_cons]
      exact congrArg₂ List.cons (congrArg _ hanswer) htrace

end LosslessStore

/-! ## The plain map as a store -/

/-- A map that holds finitely many objects; `E` is what other stores raise. -/
structure Content (K V E : Type) where
  view : K → Option V
  finite : {k | (view k).isSome}.Finite

namespace Content

variable {K V E : Type} [DecidableEq K]

def empty (K V E : Type) : Content K V E where
  view _ := none
  finite := by simp

/-- The content of a store that lists what it holds. -/
def ofKeys (view : K → Option V) (keys : List K) (h : ∀ k, (view k).isSome → k ∈ keys) :
    Content K V E where
  view := view
  finite := keys.finite_toSet.subset h

def set (m : Content K V E) (k : K) (o : Option V) : Content K V E where
  view := Function.update m.view k o
  finite := by
    refine (m.finite.insert k).subset fun k' hk' => ?_
    by_cases h : k' = k
    · exact .inl h
    · right
      simpa [Function.update_of_ne h] using hk'

noncomputable instance : LosslessStore (Content K V E) K V E where
  put m k o _ := (.ok (), m.set k (some o))
  get m k := (.ok (m.view k), m)
  contains m k := (m.view k).isSome
  remove m k := ((m.view k).isSome, m.set k none)
  pin m _ := m
  unpin m _ := m
  keys m := m.finite.toFinset.toList
  view := view
  put_ok _ _ _ _ := rfl
  view_put _ _ _ _ := rfl
  get_ok _ _ := rfl
  view_get _ _ := rfl
  contains_eq _ _ := rfl
  remove_eq _ _ := rfl
  view_remove _ _ := rfl
  view_pin _ _ := rfl
  view_unpin _ _ := rfl
  mem_keys m k := by simp

end Content

end LlmCache.Lib
