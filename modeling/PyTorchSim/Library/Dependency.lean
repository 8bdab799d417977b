import Mathlib.Data.List.Nodup
import Mathlib.Data.List.Count

/-!
# Dependency edges and their counters

A list `E` of edges (parent, child) says which of a set of jobs wait for which.  The
counter of a job is the number of its parents that are not done, `pendingParents`.
Finishing a job lowers the counter of each of its children, once for each edge, which is
`pendingParents_finish`.
-/

set_option autoImplicit false

namespace PyTorchSim.Library

variable {α : Type*} [DecidableEq α] {E : List (α × α)} {done : List α} {p t x : α}

/-- The jobs that `x` waits for. -/
def parents (E : List (α × α)) (x : α) : List α := (E.filter fun e => e.2 = x).map Prod.fst

/-- The jobs that wait for `x`. -/
def children (E : List (α × α)) (x : α) : List α := (E.filter fun e => e.1 = x).map Prod.snd

/-- The number of jobs that `x` waits for and that are not done. -/
def pendingParents (E : List (α × α)) (done : List α) (x : α) : ℕ :=
  (parents E x).countP (· ∉ done)

@[simp] theorem mem_parents : p ∈ parents E x ↔ (p, x) ∈ E := by
  simp [parents]

@[simp] theorem mem_children : x ∈ children E p ↔ (p, x) ∈ E := by
  simp [children]

theorem children_append (E F : List (α × α)) (x : α) :
    children (E ++ F) x = children E x ++ children F x := by
  simp [children]

theorem parents_append (E F : List (α × α)) (x : α) :
    parents (E ++ F) x = parents E x ++ parents F x := by
  simp [parents]

theorem children_cons (e : α × α) (E : List (α × α)) (x : α) :
    children (e :: E) x = (if x = e.1 then [e.2] else []) ++ children E x := by
  by_cases hx : x = e.1
  · subst hx
    simp [children]
  · simp [children, hx, Ne.symm hx]

theorem length_parents_cons (e : α × α) (E : List (α × α)) (x : α) :
    (parents (e :: E) x).length = (if x = e.2 then 1 else 0) + (parents E x).length := by
  by_cases hx : x = e.2
  · subst hx
    simp [parents, Nat.add_comm]
  · simp [parents, hx, Ne.symm hx]

/-- Without parallel edges a job is listed once among the children of a parent. -/
theorem nodup_children (hE : E.Nodup) : (children E x).Nodup := by
  refine List.Nodup.map_on ?_ (hE.filter _)
  rintro ⟨a, b⟩ ha ⟨c, d⟩ hc hbd
  simp only [List.mem_filter, decide_eq_true_eq] at ha hc
  simp only at hbd
  rw [Prod.mk.injEq]
  exact ⟨ha.2.trans hc.2.symm, hbd⟩

/-- Without parallel edges a parent of a job is listed once. -/
theorem nodup_parents (hE : E.Nodup) : (parents E x).Nodup := by
  refine List.Nodup.map_on ?_ (hE.filter _)
  rintro ⟨a, b⟩ ha ⟨c, d⟩ hc hac
  simp only [List.mem_filter, decide_eq_true_eq] at ha hc
  simp only at hac
  rw [Prod.mk.injEq]
  exact ⟨hac, ha.2.trans hc.2.symm⟩

/-- An edge is counted alike from both of its ends. -/
theorem count_parents_eq_count_children : (parents E x).count p = (children E p).count x := by
  induction E with
  | nil => rfl
  | cons e E ih =>
      obtain ⟨a, b⟩ := e
      unfold parents children at ih ⊢
      by_cases ha : a = p <;> by_cases hb : b = x <;> simp [ha, hb, ih]

/-- Before any job is done the counter of a job is the number of its parents. -/
theorem pendingParents_nil : pendingParents E [] x = (parents E x).length := by
  simp [pendingParents]

/-- A counter is 0 when all parents are done. -/
theorem pendingParents_eq_zero : pendingParents E done x = 0 ↔ ∀ p, (p, x) ∈ E → p ∈ done := by
  simp only [pendingParents, List.countP_eq_zero, mem_parents, decide_eq_true_eq, not_not]

/-- A parent that is not done keeps the counter positive. -/
theorem pendingParents_pos (h : (p, x) ∈ E) (hp : p ∉ done) : 0 < pendingParents E done x := by
  rw [Nat.pos_iff_ne_zero, Ne, pendingParents_eq_zero]
  intro hall
  exact hp (hall p h)

/-- **Finishing a job** lowers the counter of every job by the number of edges between
the two. -/
theorem pendingParents_finish (ht : t ∉ done) :
    pendingParents E (done ++ [t]) x + (children E t).count x = pendingParents E done x := by
  rw [← count_parents_eq_count_children]
  unfold pendingParents
  induction parents E x with
  | nil => rfl
  | cons a l ih =>
      by_cases hat : a = t
      · subst hat
        simp [ht] at ih ⊢
        omega
      · by_cases ha : a ∈ done <;> simp [ha, hat] at ih ⊢ <;> omega

end PyTorchSim.Library
