import Mathlib.Data.List.Induction

/-!
# Machines whose operations may raise

A run is a list of operations issued one after another.  An operation that
raises leaves a state too, since what it did before raising stays done.
Invariants may speak about the history of a run as well as about its state.
-/

namespace LlmCache.Lib

/-- A deterministic machine: an operation answers or raises, and leaves a
state in both cases. -/
structure Machine (σ ι ε ρ : Type*) where
  step : σ → ι → Except ε ρ × σ

namespace Machine

variable {σ ι ε ρ : Type*} (M : Machine σ ι ε ρ)

/-- The state a run leaves. -/
def exec : σ → List ι → σ
  | s, [] => s
  | s, op :: ops => exec (M.step s op).2 ops

/-- The operations of a run with their outcomes, oldest first. -/
def trace : σ → List ι → List (ι × Except ε ρ)
  | _, [] => []
  | s, op :: ops => (op, (M.step s op).1) :: trace (M.step s op).2 ops

/-- Every operation of the run is issued in a state that admits it. -/
def StepsMeet (guard : σ → ι → Prop) : σ → List ι → Prop
  | _, [] => True
  | s, op :: ops => guard s op ∧ StepsMeet guard (M.step s op).2 ops

instance decidableStepsMeet (guard : σ → ι → Prop)
    [∀ s op, Decidable (guard s op)] (s : σ) (ops : List ι) :
    Decidable (M.StepsMeet guard s ops) :=
  match ops with
  | [] => inferInstanceAs (Decidable True)
  | op :: ops =>
      have := decidableStepsMeet guard (M.step s op).2 ops
      inferInstanceAs (Decidable (_ ∧ _))

/-- What the entries of a history last told about a key. -/
def lastOf {κ α : Type*} [DecidableEq κ] (tells : ι × Except ε ρ → Option (κ × α))
    (past : List (ι × Except ε ρ)) (key : κ) : Option α :=
  past.foldl (fun last entry =>
    match tells entry with
    | some (k, value) => if k = key then some value else last
    | none => last) none

/-- Every state of the run has the property. -/
def Always (P : σ → Prop) (s : σ) (ops : List ι) : Prop :=
  ∀ n, P (M.exec s (ops.take n))

/-- Some run leads from one state to the other. -/
def Reaches (s s' : σ) : Prop :=
  ∃ ops, s' = M.exec s ops

/-- No operation of the run raises. -/
def NeverRaises (s : σ) (ops : List ι) : Prop :=
  M.StepsMeet (fun s op => (M.step s op).1.isOk) s ops

instance (s : σ) (ops : List ι) : Decidable (M.NeverRaises s ops) :=
  inferInstanceAs (Decidable (M.StepsMeet _ s ops))

@[simp] theorem exec_nil (s : σ) : M.exec s [] = s := rfl

@[simp] theorem exec_cons (s : σ) (op : ι) (ops : List ι) :
    M.exec s (op :: ops) = M.exec (M.step s op).2 ops := rfl

@[simp] theorem trace_nil (s : σ) : M.trace s [] = [] := rfl

@[simp] theorem trace_cons (s : σ) (op : ι) (ops : List ι) :
    M.trace s (op :: ops) =
      (op, (M.step s op).1) :: M.trace (M.step s op).2 ops := rfl

theorem exec_append (s : σ) (ops₁ ops₂ : List ι) :
    M.exec s (ops₁ ++ ops₂) = M.exec (M.exec s ops₁) ops₂ := by
  induction ops₁ generalizing s with
  | nil => rfl
  | cons op ops₁ ih => simpa using ih (M.step s op).2

theorem Reaches.refl (s : σ) : M.Reaches s s := ⟨[], rfl⟩

theorem Reaches.step (s : σ) (op : ι) : M.Reaches s (M.step s op).2 := ⟨[op], rfl⟩

variable {M} in
theorem Reaches.trans {s s' s'' : σ} (h : M.Reaches s s') (h' : M.Reaches s' s'') :
    M.Reaches s s'' := by
  obtain ⟨ops, rfl⟩ := h
  obtain ⟨ops', rfl⟩ := h'
  exact ⟨ops ++ ops', (M.exec_append s ops ops').symm⟩

/-- A machine each of whose steps is a run of a component of its state only
brings the component where runs of its own can bring it. -/
theorem reaches_component {τ ι' ε' ρ' : Type*} (A : Machine τ ι' ε' ρ') {component : τ → σ}
    (hstep : ∀ t op, M.Reaches (component t) (component (A.step t op).2)) (t : τ)
    (ops : List ι') : M.Reaches (component t) (component (A.exec t ops)) := by
  induction ops generalizing t with
  | nil => exact .refl M _
  | cons op ops ih => exact (hstep t op).trans (ih (A.step t op).2)

theorem stepsMeet_of_forall {guard : ι → Prop} {ops : List ι} (h : ∀ op ∈ ops, guard op) (s : σ) :
    M.StepsMeet (fun _ => guard) s ops := by
  induction ops generalizing s with
  | nil => trivial
  | cons op ops ih =>
      exact ⟨h op (List.mem_cons_self ..), ih (fun o ho => h o (List.mem_cons_of_mem _ ho)) _⟩

theorem stepsMeet_true (s : σ) (ops : List ι) : M.StepsMeet (fun _ _ => True) s ops :=
  M.stepsMeet_of_forall (fun _ _ => trivial) s

theorem stepsMeet_and {G G' : σ → ι → Prop} {s : σ} {ops : List ι} (h : M.StepsMeet G s ops)
    (h' : M.StepsMeet G' s ops) : M.StepsMeet (fun s op => G s op ∧ G' s op) s ops := by
  induction ops generalizing s with
  | nil => trivial
  | cons op ops ih => exact ⟨⟨h.1, h'.1⟩, ih h.2 h'.2⟩

section LastOf

variable {κ α : Type*} [DecidableEq κ] {tells : ι × Except ε ρ → Option (κ × α)}
  {past : List (ι × Except ε ρ)} {entry : ι × Except ε ρ} {key : κ}

theorem lastOf_snoc (tells : ι × Except ε ρ → Option (κ × α)) (past : List (ι × Except ε ρ))
    (entry : ι × Except ε ρ) (key : κ) :
    lastOf tells (past ++ [entry]) key =
      match tells entry with
      | some (k, value) => if k = key then some value else lastOf tells past key
      | none => lastOf tells past key := by
  rw [lastOf, List.foldl_append]
  rfl

theorem lastOf_snoc_of_ne (h : ∀ value, tells entry ≠ some (key, value)) :
    lastOf tells (past ++ [entry]) key = lastOf tells past key := by
  rw [lastOf_snoc]
  cases hentry : tells entry with
  | none => rfl
  | some told =>
      obtain ⟨k, value⟩ := told
      have hne : k ≠ key := fun hk => h value (by rw [hentry, hk])
      simp only [if_neg hne]

theorem lastOf_snoc_self {value : α} (h : tells entry = some (key, value)) :
    lastOf tells (past ++ [entry]) key = some value := by
  rw [lastOf_snoc, h]
  simp only [if_pos]

theorem exists_of_lastOf {value : α} (h : lastOf tells past key = some value) :
    ∃ entry ∈ past, tells entry = some (key, value) := by
  induction past using List.reverseRecOn with
  | nil => cases h
  | append_singleton past entry ih =>
      by_cases htells : ∃ value', tells entry = some (key, value')
      · obtain ⟨value', hvalue'⟩ := htells
        rw [lastOf_snoc_self hvalue'] at h
        exact ⟨entry, List.mem_append_right _ (List.mem_singleton_self _),
          Option.some.inj h ▸ hvalue'⟩
      · rw [lastOf_snoc_of_ne fun value' hvalue' => htells ⟨value', hvalue'⟩] at h
        obtain ⟨earlier, hearlier, htold⟩ := ih h
        exact ⟨earlier, List.mem_append_left _ hearlier, htold⟩

end LastOf

/-- An invariant of history and state that every admitted step keeps holds
after every run of admitted steps. -/
theorem history_induction {G : σ → ι → Prop}
    {I : List (ι × Except ε ρ) → σ → Prop}
    (hstep : ∀ past s op, I past s → G s op →
      I (past ++ [(op, (M.step s op).1)]) (M.step s op).2)
    (past : List (ι × Except ε ρ)) {s : σ} (hI : I past s) {ops : List ι}
    (hrun : M.StepsMeet G s ops) :
    I (past ++ M.trace s ops) (M.exec s ops) := by
  induction ops generalizing past s with
  | nil => simpa using hI
  | cons op ops ih =>
      have hnext := ih _ (hstep past s op hI hrun.1) hrun.2
      simpa using hnext

theorem exec_induction {G : σ → ι → Prop} {I : σ → Prop}
    (hstep : ∀ s op, I s → G s op → I (M.step s op).2)
    {s : σ} (hI : I s) {ops : List ι} (hrun : M.StepsMeet G s ops) :
    I (M.exec s ops) :=
  M.history_induction (I := fun _ s => I s)
    (fun _ s op hs hg => hstep s op hs hg) [] hI hrun

/-- Two conditions that agree under an invariant. -/
theorem stepsMeet_congr {I : σ → Prop} {G G' : σ → ι → Prop}
    (hstep : ∀ s op, I s → I (M.step s op).2) (hcongr : ∀ s op, I s → (G s op ↔ G' s op))
    {s : σ} (hI : I s) (ops : List ι) : M.StepsMeet G s ops ↔ M.StepsMeet G' s ops := by
  induction ops generalizing s with
  | nil => exact Iff.rfl
  | cons op ops ih => exact and_congr (hcongr s op hI) (ih (hstep s op hI))

theorem always_cons (P : σ → Prop) (s : σ) (op : ι) (ops : List ι) :
    M.Always P s (op :: ops) ↔ P s ∧ M.Always P (M.step s op).2 ops := by
  constructor
  · intro h
    exact ⟨h 0, fun n => h (n + 1)⟩
  · rintro ⟨hs, hrest⟩ n
    cases n with
    | zero => exact hs
    | succ n => exact hrest n

/-- Where one admitted step keeps a property exactly when it meets a condition,
every state of an admitted run has the property exactly when all its steps meet
the condition.  The invariant `J` holds either way. -/
theorem always_iff_stepsMeet {R G : σ → ι → Prop} {J P : σ → Prop}
    (hJ : ∀ s op, J s → R s op → J (M.step s op).2)
    (hP : ∀ s op, J s → R s op → P s → (P (M.step s op).2 ↔ G s op))
    {s : σ} (hJs : J s) (hPs : P s) {ops : List ι} (hrun : M.StepsMeet R s ops) :
    M.Always P s ops ↔ M.StepsMeet G s ops := by
  induction ops generalizing s with
  | nil =>
      have halways : M.Always P s [] := fun n => by rwa [List.take_nil]
      exact iff_of_true halways trivial
  | cons op ops ih =>
      obtain ⟨hop, hrest⟩ := hrun
      have hiff := hP s op hJs hop hPs
      rw [always_cons]
      constructor
      · rintro ⟨_, halways⟩
        have hnext : P (M.step s op).2 := halways 0
        exact ⟨hiff.mp hnext, (ih (hJ s op hJs hop) hnext hrest).mp halways⟩
      · rintro ⟨hguard, hmeets⟩
        have hnext := hiff.mpr hguard
        exact ⟨hPs, (ih (hJ s op hJs hop) hnext hrest).mpr hmeets⟩

/-- Where an operation of one client acts alike on related states, and any other
operation leaves them related, the client sees the same outcomes in the run from
which all other operations have been deleted. -/
theorem trace_filter (mine others : ι → Prop) [DecidablePred mine] {R : σ → σ → Prop}
    (hmine : ∀ s s' op, R s s' → mine op →
      (M.step s op).1 = (M.step s' op).1 ∧ R (M.step s op).2 (M.step s' op).2)
    (hothers : ∀ s s' op, R s s' → ¬mine op → others op →
      R (M.step s op).2 s')
    {s s' : σ} (hrel : R s s') {ops : List ι} (hops : ∀ op ∈ ops, mine op ∨ others op) :
    (M.trace s ops).filter (fun entry => mine entry.1) = M.trace s' (ops.filter (mine ·)) := by
  induction ops generalizing s s' with
  | nil => rfl
  | cons op ops ih =>
      have hrest : ∀ op ∈ ops, mine op ∨ others op := fun o ho => hops o (List.mem_cons_of_mem _ ho)
      rw [trace_cons]
      by_cases hop : mine op
      · obtain ⟨hsame, hnext⟩ := hmine s s' op hrel hop
        rw [List.filter_cons_of_pos (by simpa using hop),
          List.filter_cons_of_pos (by simpa using hop), trace_cons, hsame, ih hnext hrest]
      · have hother := (hops op (List.mem_cons_self ..)).resolve_left hop
        rw [List.filter_cons_of_neg (by simpa using hop),
          List.filter_cons_of_neg (by simpa using hop), ih (hothers s s' op hrel hop hother) hrest]

/-- Forward simulation of the answering steps: as long as the concrete
machine does not raise, the abstract one gives the same answers. -/
theorem simulation {α : Type*} (A : Machine α ι ε ρ) {R : σ → α → Prop}
    (hstep : ∀ s a op reply, R s a → (M.step s op).1 = .ok reply →
      (A.step a op).1 = .ok reply ∧ R (M.step s op).2 (A.step a op).2)
    {s : σ} {a : α} (hrel : R s a) {ops : List ι} (hok : M.NeverRaises s ops) :
    M.trace s ops = A.trace a ops ∧ R (M.exec s ops) (A.exec a ops) := by
  induction ops generalizing s a with
  | nil => exact ⟨rfl, hrel⟩
  | cons op ops ih =>
      obtain ⟨hhead, htail⟩ := hok
      cases hreply : (M.step s op).1 with
      | error err => simp [hreply, Except.isOk, Except.toBool] at hhead
      | ok reply =>
          obtain ⟨hsame, hnext⟩ := hstep s a op reply hrel hreply
          obtain ⟨htrace, hend⟩ := ih hnext htail
          exact ⟨by simp [hreply, hsame, htrace], hend⟩

end Machine

end LlmCache.Lib
