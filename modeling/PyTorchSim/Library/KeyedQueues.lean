import Mathlib.Data.List.Basic
import Mathlib.Data.List.Perm.Basic
import Mathlib.Data.List.Nodup

/-!
# Queues by key

A table that keeps a queue for each key, as a list of keys with their queues: `pushBack` puts an
element at the end of the queue of a key, and makes the queue when there is none; `popFront` takes
the first element of a queue away, and the queue with its last element.  The lemmas say how the
two change the queue of a key, the keys, and the elements of all queues together.
-/

set_option autoImplicit false

namespace PyTorchSim.Library.KeyedQueues

variable {κ α : Type*} [DecidableEq κ]

def pushBack (k : κ) (a : α) : List (κ × List α) → List (κ × List α)
  | [] => [(k, [a])]
  | (k', l) :: t => if k' = k then (k', l ++ [a]) :: t else (k', l) :: pushBack k a t

def popFront (k : κ) : List (κ × List α) → List (κ × List α)
  | [] => []
  | (k', l) :: t =>
    if k' = k then (match l.tail with | [] => t | l' => (k', l') :: t)
    else (k', l) :: popFront k t

/-- The queue of a key. -/
def find (k : κ) (t : List (κ × List α)) : Option (List α) := t.lookup k

/-- The keys that have a queue. -/
def keys (t : List (κ × List α)) : List κ := t.map Prod.fst

/-- The elements of all queues. -/
def elements (t : List (κ × List α)) : List α := t.flatMap Prod.snd

section

variable {k k' : κ} {a : α} {l : List α} {t : List (κ × List α)}

omit [DecidableEq κ] in
@[simp] theorem keys_cons : keys ((k, l) :: t) = k :: keys t := rfl

omit [DecidableEq κ] in
theorem elements_cons : elements ((k, l) :: t) = l ++ elements t := List.flatMap_cons

theorem mem_keys_iff : k ∈ keys t ↔ (t.lookup k).isSome = true := by
  induction t with
  | nil => simp [keys]
  | cons p t ih =>
    obtain ⟨k', l⟩ := p
    rw [keys_cons, List.mem_cons, List.lookup_cons]
    by_cases h : k = k'
    · simp [h]
    · rw [beq_false_of_ne h, or_iff_right h]
      exact ih

theorem mem_elements (hk : t.lookup k = some l) (ha : a ∈ l) : a ∈ elements t := by
  induction t with
  | nil => cases hk
  | cons p t ih =>
    obtain ⟨k₀, l₀⟩ := p
    rw [elements_cons, List.mem_append]
    by_cases h₀ : k = k₀
    · rw [h₀, List.lookup_cons, beq_self_eq_true] at hk
      cases hk
      exact .inl ha
    · rw [List.lookup_cons, beq_false_of_ne h₀] at hk
      exact .inr (ih hk)

/-! ## At the end of a queue -/

theorem lookup_pushBack : (pushBack k a t).lookup k' =
    if k' = k then some ((t.lookup k).getD [] ++ [a]) else t.lookup k' := by
  induction t with
  | nil =>
    by_cases h : k' = k
    · simp [pushBack, h]
    · simp [pushBack, List.lookup_cons, h, beq_false_of_ne h]
  | cons p t ih =>
    obtain ⟨k₀, l⟩ := p
    by_cases h₀ : k₀ = k
    · subst h₀
      by_cases h : k' = k₀
      · simp [pushBack, h]
      · simp [pushBack, List.lookup_cons, h, beq_false_of_ne h]
    · simp only [pushBack, if_neg h₀, List.lookup_cons]
      by_cases h : k' = k₀
      · simp [h, h₀]
      · rw [beq_false_of_ne h, beq_false_of_ne (Ne.symm h₀)]
        exact ih

theorem keys_pushBack : keys (pushBack k a t) = if k ∈ keys t then keys t else keys t ++ [k] := by
  induction t with
  | nil => simp [pushBack, keys]
  | cons p t ih =>
    obtain ⟨k₀, l⟩ := p
    by_cases h₀ : k₀ = k
    · simp [pushBack, h₀]
    · simp only [pushBack, if_neg h₀, keys_cons, List.mem_cons, ih]
      by_cases h : k ∈ keys t
      · rw [if_pos h, if_pos (.inr h)]
      · rw [if_neg h, if_neg (not_or_intro (Ne.symm h₀) h), List.cons_append]

theorem nodup_keys_pushBack (h : (keys t).Nodup) : (keys (pushBack k a t)).Nodup := by
  rw [keys_pushBack]
  split
  · exact h
  · next hk =>
    apply h.append (List.nodup_singleton k)
    intro x hx hx'
    rw [List.mem_singleton.mp hx'] at hx
    exact hk hx

theorem elements_pushBack : (elements (pushBack k a t)).Perm (elements t ++ [a]) := by
  induction t with
  | nil => exact List.Perm.refl _
  | cons p t ih =>
    obtain ⟨k₀, l⟩ := p
    by_cases h₀ : k₀ = k
    · simp only [pushBack, if_pos h₀, elements_cons, List.append_assoc]
      exact List.perm_append_comm.append_left l
    · simp only [pushBack, if_neg h₀, elements_cons, List.append_assoc]
      exact ih.append_left l

/-! ## At the front of a queue -/

theorem lookup_popFront_of_ne (h : k' ≠ k) : (popFront k t).lookup k' = t.lookup k' := by
  induction t with
  | nil => rfl
  | cons p t ih =>
    obtain ⟨k₀, l⟩ := p
    by_cases h₀ : k₀ = k
    · subst h₀
      simp only [popFront, if_true, List.lookup_cons, beq_false_of_ne h]
      split
      · rfl
      · rw [List.lookup_cons, beq_false_of_ne h]
    · simp only [popFront, if_neg h₀, List.lookup_cons, ih]

theorem lookup_popFront_self (hn : (keys t).Nodup) (hk : t.lookup k = some (a :: l)) :
    (popFront k t).lookup k = if l = [] then none else some l := by
  induction t with
  | nil => cases hk
  | cons p t ih =>
    obtain ⟨k₀, l₀⟩ := p
    rw [keys_cons, List.nodup_cons] at hn
    by_cases h₀ : k₀ = k
    · subst h₀
      rw [List.lookup_cons, beq_self_eq_true] at hk
      cases hk
      simp only [popFront, if_true, List.tail_cons]
      cases l with
      | nil =>
        rw [if_pos rfl]
        cases hlookup : t.lookup k₀ with
        | none => rfl
        | some l' => exact absurd (mem_keys_iff.mpr (by rw [hlookup]; rfl)) hn.1
      | cons b l =>
        rw [if_neg (List.cons_ne_nil _ _), List.lookup_cons, beq_self_eq_true]
    · rw [List.lookup_cons, beq_false_of_ne (Ne.symm h₀)] at hk
      simp only [popFront, if_neg h₀, List.lookup_cons, beq_false_of_ne (Ne.symm h₀)]
      exact ih hn.2 hk

theorem keys_popFront_sublist : (keys (popFront k t)).Sublist (keys t) := by
  induction t with
  | nil => exact List.Sublist.refl _
  | cons p t ih =>
    obtain ⟨k₀, l⟩ := p
    by_cases h₀ : k₀ = k
    · simp only [popFront, if_pos h₀]
      split
      · exact List.sublist_cons_self _ _
      · exact List.Sublist.refl _
    · simp only [popFront, if_neg h₀]
      exact ih.cons_cons k₀

theorem elements_popFront (hk : t.lookup k = some (a :: l)) :
    (a :: elements (popFront k t)).Perm (elements t) := by
  induction t with
  | nil => cases hk
  | cons p t ih =>
    obtain ⟨k₀, l₀⟩ := p
    by_cases h₀ : k₀ = k
    · subst h₀
      rw [List.lookup_cons, beq_self_eq_true] at hk
      cases hk
      simp only [popFront, if_true, List.tail_cons]
      cases l with
      | nil => exact List.Perm.refl _
      | cons b l => exact List.Perm.refl _
    · rw [List.lookup_cons, beq_false_of_ne (Ne.symm h₀)] at hk
      simp only [popFront, if_neg h₀, elements_cons]
      exact List.perm_middle.symm.trans ((ih hk).append_left l₀)

/-! ## The queues that a key finds -/

@[simp] theorem find_nil : find k ([] : List (κ × List α)) = none := rfl

theorem find_pushBack : find k' (pushBack k a t) =
    if k' = k then some ((find k t).getD [] ++ [a]) else find k' t :=
  lookup_pushBack

theorem find_popFront_self (hn : (keys t).Nodup) (hk : find k t = some (a :: l)) :
    find k (popFront k t) = if l = [] then none else some l :=
  lookup_popFront_self hn hk

theorem find_popFront_of_ne (h : k' ≠ k) : find k' (popFront k t) = find k' t :=
  lookup_popFront_of_ne h

end

end PyTorchSim.Library.KeyedQueues
