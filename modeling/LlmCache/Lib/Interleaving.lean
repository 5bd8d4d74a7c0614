import Mathlib.Data.List.Dedup

/-!
# Logs of interleaved steps

Several callers take steps in turn and a log lists who took each of them,
oldest first.  One caller precedes another when its last step comes before the
other's first: the real-time order that a sequential account of the run has to
respect.
-/

namespace LlmCache.Lib.Interleaving

variable {ι : Type*} {log : List ι} {a b n r : ι}

/-- `a` took its last step before `b` took its first. -/
def Precedes (log : List ι) (a b : ι) : Prop :=
  ∀ i j : Nat, log[i]? = some a → log[j]? = some b → i < j

/-- `n` took a step no later than the first one of `r`. -/
def StartsBy (log : List ι) (n r : ι) : Prop :=
  ∀ j : Nat, log[j]? = some r → ∃ i ≤ j, log[i]? = some n

private theorem lt_length {i : Nat} (h : log[i]? = some a) : i < log.length :=
  (List.getElem?_eq_some_iff.mp h).1

theorem precedes_iff :
    Precedes log a b ↔
      ∀ i < log.length, ∀ j < log.length, log[i]? = some a → log[j]? = some b → i < j := by
  constructor
  · intro h i _ j _
    exact h i j
  · intro h i j hi hj
    exact h i (lt_length hi) j (lt_length hj) hi hj

instance [DecidableEq ι] : Decidable (Precedes log a b) :=
  decidable_of_iff' _ precedes_iff

theorem not_precedes_iff :
    ¬Precedes log a b ↔ ∃ i j : Nat, log[i]? = some a ∧ log[j]? = some b ∧ j ≤ i := by
  simp only [Precedes, not_forall, Nat.not_lt, exists_prop]

theorem not_precedes_append (h : ¬Precedes log a b) (more : List ι) :
    ¬Precedes (log ++ more) a b := by
  rw [not_precedes_iff] at h ⊢
  obtain ⟨i, j, hi, hj, hle⟩ := h
  refine ⟨i, j, ?_, ?_, hle⟩
  · rw [List.getElem?_append_left (lt_length hi), hi]
  · rw [List.getElem?_append_left (lt_length hj), hj]

theorem not_precedes_snoc (hb : b ∈ log ++ [a]) : ¬Precedes (log ++ [a]) a b := by
  rw [not_precedes_iff]
  obtain ⟨j, hj⟩ := List.mem_iff_getElem?.mp hb
  refine ⟨log.length, j, by simp, hj, ?_⟩
  have hlt := lt_length hj
  simp only [List.length_append, List.length_singleton] at hlt
  omega

/-- Whoever steps after the start of `r` also steps after all that started by then. -/
theorem not_precedes_of_startsBy (hn : StartsBy log n r) (ha : ¬Precedes log a r) :
    ¬Precedes log a n := by
  rw [not_precedes_iff] at ha ⊢
  obtain ⟨i, j, hi, hj, hle⟩ := ha
  obtain ⟨j', hj', hn'⟩ := hn j hj
  exact ⟨i, j', hi, hn', by omega⟩

theorem StartsBy.snoc (h : StartsBy log n r) {i : ι} (hne : i ≠ r) :
    StartsBy (log ++ [i]) n r := by
  intro j hj
  have hlt : j < log.length := by
    have hle := lt_length hj
    simp only [List.length_append, List.length_singleton] at hle
    by_contra hge
    have hlast : j = log.length := by omega
    subst hlast
    simp only [List.getElem?_concat_length, Option.some.injEq] at hj
    exact hne hj
  rw [List.getElem?_append_left hlt] at hj
  obtain ⟨k, hk, hn⟩ := h j hj
  refine ⟨k, hk, ?_⟩
  rw [List.getElem?_append_left (lt_length hn), hn]

theorem startsBy_snoc_new (hr : r ∉ log) (hn : n ∈ log ++ [r]) :
    StartsBy (log ++ [r]) n r := by
  intro j hj
  obtain ⟨i, hi⟩ := List.mem_iff_getElem?.mp hn
  have hi' := lt_length hi
  have hj' := lt_length hj
  simp only [List.length_append, List.length_singleton] at hi' hj'
  have hlast : j = log.length := by
    by_contra hne
    rw [List.getElem?_append_left (by omega)] at hj
    exact hr (List.mem_of_getElem? hj)
  exact ⟨i, by omega, hi⟩

/-- A caller that all the others precede comes last in every order that
respects real time. -/
theorem getLast_of_precedes {order : List ι} (hnodup : order.Nodup)
    (horder : order.Pairwise fun b c => ¬Precedes log c b) (ha : a ∈ order)
    (hlast : ∀ i ∈ order, i ≠ a → Precedes log i a) :
    ∃ before, order = before ++ [a] := by
  obtain ⟨before, after, rfl⟩ := List.append_of_mem ha
  cases after with
  | nil => exact ⟨before, rfl⟩
  | cons c after =>
      exfalso
      have hne : c ≠ a := by
        rintro rfl
        have htail := (List.nodup_append.mp hnodup).2.1
        simp at htail
      have hpair := (List.pairwise_append.mp horder).2.1
      apply List.rel_of_pairwise_cons hpair (List.mem_cons_self ..)
      exact hlast c (by simp) hne

variable [DecidableEq ι]

/-- Ordered by their last steps, the callers respect the real-time order. -/
theorem pairwise_dedup (log : List ι) :
    log.dedup.Pairwise fun a b => ¬Precedes log b a := by
  induction log with
  | nil => simp
  | cons x log ih =>
      have hmono : ∀ {c d : ι}, ¬Precedes log c d → ¬Precedes (x :: log) c d := by
        intro c d h
        rw [not_precedes_iff] at h ⊢
        obtain ⟨i, j, hi, hj, hle⟩ := h
        exact ⟨i + 1, j + 1, by simpa using hi, by simpa using hj, by omega⟩
      by_cases hx : x ∈ log
      · rw [List.dedup_cons_of_mem hx]
        exact ih.imp hmono
      · rw [List.dedup_cons_of_notMem hx, List.pairwise_cons]
        refine ⟨fun c hc => ?_, ih.imp hmono⟩
        obtain ⟨i, hi⟩ := List.mem_iff_getElem?.mp (List.mem_dedup.mp hc)
        rw [not_precedes_iff]
        exact ⟨i + 1, 0, by simpa using hi, by simp, by omega⟩

/-- A caller that precedes none of the others may come last in a sequential
order. -/
theorem exists_order_ending_in (p : ι → Prop) [DecidablePred p] (hlog : ∀ i, p i → i ∈ log)
    (ha : p a) (hlast : ∀ i, p i → ¬Precedes log a i) :
    ∃ order : List ι, (order ++ [a]).Nodup ∧ (∀ i, i ∈ order ++ [a] ↔ p i) ∧
      (order ++ [a]).Pairwise fun b c => ¬Precedes log c b := by
  refine ⟨(log.dedup.filter fun i => p i ∧ i ≠ a), ?_, ?_, ?_⟩
  · apply List.Nodup.append (List.Nodup.filter _ (List.nodup_dedup log))
    · simp
    · simp
  · intro i
    simp only [List.mem_append, List.mem_filter, List.mem_dedup, List.mem_singleton,
      decide_eq_true_eq]
    constructor
    · rintro (⟨_, hi, _⟩ | rfl)
      · exact hi
      · exact ha
    · intro hi
      by_cases hia : i = a
      · exact .inr hia
      · exact .inl ⟨hlog i hi, hi, hia⟩
  · rw [List.pairwise_append]
    refine ⟨(pairwise_dedup log).filter _, by simp, ?_⟩
    intro b hb c hc
    rw [List.mem_singleton] at hc
    subst hc
    have hpb : p b := by
      simp only [List.mem_filter, decide_eq_true_eq] at hb
      exact hb.2.1
    exact hlast b hpb

end LlmCache.Lib.Interleaving
