import Mathlib.Data.List.Forall2
import Mathlib.Data.Nat.Basic

/-!
# A queue whose items are due one after the other

An item enters a queue in some cycle with an amount of work.  It starts when the item in front of
it is due, or at once where there is none, and a part of its work may overlap with the time until
then.  The items leave from the front when they are due.  `InOrder` says that the due times do not
decrease from the front to the back, and that what has left is what entered, in the order of entry
and not before it was due.  It is kept when items leave (`InOrder.drain`) and when an item enters
(`InOrder.push`).
-/

set_option autoImplicit false

namespace PyTorchSim.Library

variable {α : Type*}

/-- An item that enters a queue in a cycle.  `behind` is the time at which the last item of the
queue is due then, and `overlap` the work that may be done before that time. -/
structure QueueEntry (α : Type*) where
  item : α
  cycle : ℕ
  work : ℕ
  overlap : ℕ
  behind : Option ℕ

namespace QueueEntry

/-- The cycle in which the queue is free for the item. -/
def base (e : QueueEntry α) : ℕ := e.behind.getD e.cycle

/-- The work that is done before the queue is free. -/
def granted (e : QueueEntry α) : ℕ :=
  match e.behind with
  | none => 0
  | some n => min (n - e.cycle) e.overlap

/-- The cycle in which the item is due. -/
def due (e : QueueEntry α) : ℕ := e.base + e.work - e.granted

theorem granted_le_overlap (e : QueueEntry α) : e.granted ≤ e.overlap := by
  unfold granted
  split
  · exact Nat.zero_le _
  · exact Nat.min_le_right _ _

theorem granted_le_base (e : QueueEntry α) : e.granted ≤ e.base := by
  unfold granted base
  cases e.behind with
  | none => exact Nat.zero_le _
  | some n => exact Nat.le_trans (Nat.min_le_left _ _) (Nat.sub_le _ _)

/-- An item is due when its work is done, except for the part that overlaps. -/
theorem cycle_add_work_le {e : QueueEntry α} (h : ∀ n, e.behind = some n → e.cycle ≤ n) :
    e.cycle + e.work ≤ e.due + e.granted := by
  have hgranted := e.granted_le_base
  have hbase : e.cycle ≤ e.base := by
    unfold base
    cases hbehind : e.behind with
    | none => exact le_rfl
    | some n => exact h n hbehind
  unfold due
  omega

end QueueEntry

/-- The items of a queue are due one after the other, and have left in the order of their entry. -/
structure InOrder (due : α → ℕ) (entered : List (QueueEntry α)) (left : List (α × ℕ))
    (queue : List α) : Prop where
  sorted : (queue.map due).Pairwise (· ≤ ·)
  behind : ∀ e ∈ entered, ∀ n, e.behind = some n → e.cycle ≤ n
  split : ∃ gone waiting, entered = gone ++ waiting ∧
    List.Forall₂ (fun e l => l.1 = e.item ∧ e.due ≤ l.2) gone left ∧
    List.Forall₂ (fun e x => x = e.item ∧ due x = e.due) waiting queue

namespace InOrder

variable {due due' : α → ℕ} {entered : List (QueueEntry α)} {left : List (α × ℕ)}
  {queue queue' front : List α} {now : ℕ}

theorem nil (due : α → ℕ) : InOrder due [] [] [] :=
  ⟨List.Pairwise.nil, nofun, [], [], rfl, .nil, .nil⟩

theorem congr (h : InOrder due entered left queue) (hdue : ∀ x ∈ queue, due' x = due x) :
    InOrder due' entered left queue := by
  obtain ⟨hsorted, hbehind, gone, waiting, hsplit, hgone, hwaiting⟩ := h
  refine ⟨?_, hbehind, gone, waiting, hsplit, hgone, ?_⟩
  · rwa [List.map_congr_left hdue]
  · clear hsplit hsorted
    induction hwaiting with
    | nil => exact .nil
    | @cons e x waiting queue hx _ ih =>
      refine .cons ⟨hx.1, ?_⟩ (ih fun y hy => hdue y (List.mem_cons_of_mem _ hy))
      rw [hdue x List.mem_cons_self]
      exact hx.2

/-- If the first item is not due, none is. -/
theorem lt_due (h : InOrder due entered left queue)
    (hhead : ∀ x, queue.head? = some x → now < due x) : ∀ x ∈ queue, now < due x := by
  have hsorted := h.sorted
  cases queue with
  | nil => exact nofun
  | cons y rest =>
    have hy := hhead y rfl
    intro x hx
    rcases List.mem_cons.mp hx with rfl | hx
    · exact hy
    · rw [List.map_cons, List.pairwise_cons] at hsorted
      exact Nat.lt_of_lt_of_le hy (hsorted.1 _ (List.mem_map_of_mem hx))

/-- Items that are due leave from the front. -/
theorem drain (h : InOrder due entered left queue) (hqueue : queue = front ++ queue')
    (hfront : ∀ x ∈ front, due x ≤ now) :
    InOrder due entered (left ++ front.map (·, now)) queue' := by
  obtain ⟨hsorted, hbehind, gone, waiting, hsplit, hgone, hwaiting⟩ := h
  subst hqueue
  rw [List.map_append] at hsorted
  refine ⟨(List.pairwise_append.mp hsorted).2.1, hbehind, gone ++ waiting.take front.length,
    waiting.drop front.length, ?_, ?_, List.forall₂_drop_append waiting front queue' hwaiting⟩
  · rw [List.append_assoc, List.take_append_drop]
    exact hsplit
  · have hleaving := List.forall₂_take_append waiting front queue' hwaiting
    refine List.rel_append hgone ?_
    rw [List.forall₂_map_right_iff]
    clear hsorted hwaiting hsplit
    generalize waiting.take front.length = leaving at hleaving
    induction hleaving with
    | nil => exact .nil
    | @cons e x leaving front hx _ ih =>
      refine .cons ⟨hx.1, ?_⟩ (ih fun y hy => hfront y (List.mem_cons_of_mem _ hy))
      rw [← hx.2]
      exact hfront x List.mem_cons_self

/-- An item enters at the back, in a cycle in which no item of the queue is overdue. -/
theorem push (h : InOrder due entered left queue) (e : QueueEntry α)
    (hbehind : e.behind = queue.getLast?.map due) (hnow : ∀ x ∈ queue, e.cycle ≤ due x)
    (hwork : e.overlap ≤ e.work) (hdue : due e.item = e.due) :
    InOrder due (entered ++ [e]) left (queue ++ [e.item]) := by
  obtain ⟨hsorted, hbehinds, gone, waiting, hsplit, hgone, hwaiting⟩ := h
  refine ⟨?_, ?_, gone, waiting ++ [e], ?_, hgone, ?_⟩
  · rw [List.map_append, List.pairwise_append]
    refine ⟨hsorted, List.pairwise_singleton _ _, ?_⟩
    intro m hm n hn
    rw [List.map_singleton, List.mem_singleton] at hn
    subst hn
    -- the last item of the queue is due last
    have hlast : m ≤ e.base := by
      rcases List.eq_nil_or_concat queue with rfl | ⟨init, y, rfl⟩
      · cases hm
      · rw [List.concat_eq_append] at hsorted hm hbehind
        rw [List.getLast?_concat] at hbehind
        rw [QueueEntry.base, hbehind]
        rw [List.map_append] at hsorted hm
        rcases List.mem_append.mp hm with hm | hm
        · exact (List.pairwise_append.mp hsorted).2.2 m hm _ (List.mem_singleton_self _)
        · rw [List.mem_singleton.mp hm]
          exact le_rfl
    have hgranted := e.granted_le_overlap
    rw [hdue, QueueEntry.due]
    omega
  · intro e' he' n hn
    rcases List.mem_append.mp he' with he' | he'
    · exact hbehinds e' he' n hn
    · rw [List.mem_singleton.mp he'] at hn ⊢
      rw [hbehind, Option.map_eq_some_iff] at hn
      obtain ⟨y, hy, rfl⟩ := hn
      exact hnow y (List.mem_of_getLast? hy)
  · rw [hsplit, List.append_assoc]
  · exact List.rel_append hwaiting (.cons ⟨rfl, hdue⟩ .nil)

/-- What has left did so in the order of entry, and not before its work was done, except for the
part that overlaps. -/
theorem left_in_order (h : InOrder due entered left queue) : ∃ gone waiting,
    entered = gone ++ waiting ∧ waiting.map QueueEntry.item = queue ∧
    List.Forall₂ (fun e l => l.1 = e.item ∧ e.cycle + e.work ≤ l.2 + e.granted) gone left := by
  obtain ⟨-, hbehind, gone, waiting, hsplit, hgone, hwaiting⟩ := h
  refine ⟨gone, waiting, hsplit, ?_, ?_⟩
  · clear hsplit
    induction hwaiting with
    | nil => rfl
    | cons hx _ ih => rw [List.map_cons, ih, hx.1]
  · have hbehind' : ∀ e ∈ gone, ∀ n, e.behind = some n → e.cycle ≤ n := fun e he =>
      hbehind e (hsplit ▸ List.mem_append_left _ he)
    clear hsplit
    induction hgone with
    | nil => exact .nil
    | @cons e l gone left hl _ ih =>
      refine .cons ⟨hl.1, ?_⟩ (ih fun e' he' => hbehind' e' (List.mem_cons_of_mem _ he'))
      have hwork := QueueEntry.cycle_add_work_le (hbehind' e List.mem_cons_self)
      have hleft := hl.2
      omega

end InOrder

end PyTorchSim.Library
