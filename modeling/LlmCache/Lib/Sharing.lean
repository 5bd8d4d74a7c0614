import LlmCache.Lib.Simulation

/-!
# Machines that share a component

The members have a state of their own each, and work on one component that they
share.  A member sees what it would see alone, when nothing that the others do
changes what it knows of the shared component.
-/

namespace LlmCache.Lib.Machine

variable {α κ μ τ ι ε ρ : Type*} [DecidableEq α]

/-- One operation of one member after another. -/
def sharing (M : Machine (κ × μ) ι ε ρ) (α : Type*) [DecidableEq α] :
    Machine (κ × (α → μ)) (α × ι) ε ρ where
  step s op :=
    let out := M.step (s.1, s.2 op.1) op.2
    (out.1, out.2.1, Function.update s.2 op.1 out.2.2)

def ofMember (i : α) (ops : List (α × ι)) : List ι :=
  ops.filterMap fun op => if op.1 = i then some op.2 else none

/-- What a member has seen of a run. -/
def seenBy (i : α) (past : List ((α × ι) × Except ε ρ)) : List (ι × Except ε ρ) :=
  past.filterMap fun entry => if entry.1.1 = i then some (entry.1.2, entry.2) else none

section Steps

variable {i j : α} {op : ι} {ops : List (α × ι)} {out : Except ε ρ}
  {past : List ((α × ι) × Except ε ρ)}

theorem ofMember_cons_self : ofMember i ((i, op) :: ops) = op :: ofMember i ops := by
  rw [ofMember, List.filterMap_cons, if_pos rfl]
  rfl

theorem ofMember_cons_of_ne (h : j ≠ i) : ofMember i ((j, op) :: ops) = ofMember i ops := by
  rw [ofMember, List.filterMap_cons, if_neg h]
  rfl

theorem seenBy_cons_self : seenBy i (((i, op), out) :: past) = (op, out) :: seenBy i past := by
  rw [seenBy, List.filterMap_cons, if_pos rfl]
  rfl

theorem seenBy_cons_of_ne (h : j ≠ i) : seenBy i (((j, op), out) :: past) = seenBy i past := by
  rw [seenBy, List.filterMap_cons, if_neg h]
  rfl

theorem forall_ofMember {admits : α → ι → Prop} (h : ∀ op ∈ ops, admits op.1 op.2) :
    ∀ op ∈ ofMember i ops, admits i op := by
  intro op hop
  obtain ⟨⟨k, op'⟩, hmem, hsome⟩ := List.mem_filterMap.mp hop
  split_ifs at hsome with hk
  obtain rfl := Option.some.inj hsome
  exact hk ▸ h _ hmem

end Steps

section Alike

variable (M : Machine (κ × μ) ι ε ρ) (A : Machine τ ι ε ρ) {Rel : α → κ → μ → τ → Prop}
  {admits : α → ι → Prop} {k : κ} {own : α → μ} {t : α → τ} {ops : List (α × ι)}

/-- Every member is answered by the run of its own operations in `A`, when its
steps go alike there and those of the others leave the relation. -/
theorem sharing_alike
    (hown : ∀ i k m t op, Rel i k m t → admits i op →
      EndAlike (fun _ => False) (fun s t => Rel i s.1 s.2 t) (M.step (k, m) op) (A.step t op))
    (hothers : ∀ i j, i ≠ j → ∀ k m t m' t' op, Rel i k m t → Rel j k m' t' → admits j op →
      Rel i (M.step (k, m') op).2.1 m t)
    (hrel : ∀ i, Rel i k (own i) (t i)) (hops : ∀ op ∈ ops, admits op.1 op.2) (i : α) :
    seenBy i ((M.sharing α).trace (k, own) ops) = A.trace (t i) (ofMember i ops) := by
  induction ops generalizing k own t with
  | nil => rfl
  | cons head ops ih =>
      obtain ⟨j, op⟩ := head
      obtain ⟨hsame, hnext⟩ :=
        (hown j k (own j) (t j) op (hrel j) (hops _ (List.mem_cons_self ..))).same
      have hrel' : ∀ i, Rel i (M.step (k, own j) op).2.1
          (Function.update own j (M.step (k, own j) op).2.2 i)
          (Function.update t j (A.step (t j) op).2 i) := by
        intro i
        by_cases hi : i = j
        · subst hi
          rw [Function.update_self, Function.update_self]
          exact hnext
        · rw [Function.update_of_ne hi, Function.update_of_ne hi]
          exact hothers i j hi _ _ _ _ _ op (hrel i) (hrel j) (hops _ (List.mem_cons_self ..))
      have hrest := ih hrel' fun o ho => hops o (List.mem_cons_of_mem _ ho)
      rw [trace_cons]
      by_cases hj : j = i
      · subst hj
        rw [Function.update_self] at hrest
        rw [seenBy_cons_self, ofMember_cons_self, trace_cons, ← hsame, ← hrest]
        rfl
      · rw [Function.update_of_ne (Ne.symm hj)] at hrest
        rw [seenBy_cons_of_ne hj, ofMember_cons_of_ne hj, ← hrest]
        rfl

/-- A member sees what it would see alone. -/
theorem sharing_alone
    (hown : ∀ i k m t op, Rel i k m t → admits i op →
      EndAlike (fun _ => False) (fun s t => Rel i s.1 s.2 t) (M.step (k, m) op) (A.step t op))
    (hothers : ∀ i j, i ≠ j → ∀ k m t m' t' op, Rel i k m t → Rel j k m' t' → admits j op →
      Rel i (M.step (k, m') op).2.1 m t)
    (hrel : ∀ i, Rel i k (own i) (t i)) (hops : ∀ op ∈ ops, admits op.1 op.2) (i : α) :
    seenBy i ((M.sharing α).trace (k, own) ops) = M.trace (k, own i) (ofMember i ops) := by
  rw [M.sharing_alike A hown hothers hrel hops i]
  exact (M.run_alike A (fun s t op => hown i s.1 s.2 t op) (hrel i) (forall_ofMember hops)
    fun _ _ _ _ => not_false).1.symm

end Alike

end LlmCache.Lib.Machine
