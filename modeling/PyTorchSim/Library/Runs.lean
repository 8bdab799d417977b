import Mathlib.Logic.Relation
import Mathlib.Data.List.Basic

/-!
# Runs of a faulting step function

A program is given by a step function `step : σ → α → Except ε σ`: a step either
moves to a next state or stops the program with a fault.  `Reach step guard s₀` is
the set of states that runs from `s₀` reach when every step taken satisfies
`guard`; with the trivial guard it is plain reachability.  An invariant is proved
by `Reach.invariant`, from what one step does.

`Outcome micro bad s r` says that the result `r` of a computation started in `s`
is explained by a relation `micro` of smaller steps: a normal result is reached by
micro steps, and a fault arises in a state that micro steps reach and in which
`bad` holds of the fault.  The rules `Outcome.ok`, `Outcome.step` and
`Outcome.bind` follow the way such computations are written, so that the loops of
a large function are taken apart once and every invariant is then checked on the
micro steps alone.  An invariant that the decomposition itself needs is passed along by
`Outcome.bind`.

`AtEach Q l` is a property of a trace: `Q` holds of each event and the events before it.
`Gives r P` is total correctness of a computation: it does not fault, and its result has `P`.
-/

set_option autoImplicit false

namespace PyTorchSim.Library

open Relation

universe u

variable {σ α ε : Type*} {β γ : Type u}

/-- The states reached from `s₀` by steps that do not fault and that satisfy `guard`
in the state they are taken from. -/
inductive Reach (step : σ → α → Except ε σ) (guard : σ → α → Prop) (s₀ : σ) : σ → Prop
  | init : Reach step guard s₀ s₀
  | step {s s' : σ} (a : α) : Reach step guard s₀ s → guard s a → step s a = .ok s' →
      Reach step guard s₀ s'

section Reach

variable {step : σ → α → Except ε σ} {guard guard' : σ → α → Prop} {s₀ s : σ}

/-- **The invariant rule**: what holds initially and is kept by every guarded step from
a reachable state holds in every reachable state. -/
theorem Reach.invariant {I : σ → Prop} (h : Reach step guard s₀ s) (h₀ : I s₀)
    (hstep : ∀ s a s', Reach step guard s₀ s → I s → guard s a → step s a = .ok s' → I s') :
    I s := by
  induction h with
  | init => exact h₀
  | step a hr hg hs ih => exact hstep _ a _ hr ih hg hs

/-- A weaker guard reaches at least the same states. -/
theorem Reach.mono (h : Reach step guard s₀ s) (hg : ∀ s a, guard s a → guard' s a) :
    Reach step guard' s₀ s := by
  induction h with
  | init => exact .init
  | step a _ h hs ih => exact .step a ih (hg _ _ h) hs

/-- Runs one after the other. -/
theorem Reach.trans {s' : σ} (h : Reach step guard s₀ s) (h' : Reach step guard s s') :
    Reach step guard s₀ s' := by
  induction h' with
  | init => exact h
  | step a _ hg hs ih => exact ih.step a hg hs

/-- A run that is given by its list of actions reaches the state it ends in. -/
theorem Reach.of_foldlM (acts : List α) (h : Reach step guard s₀ s) {t : σ}
    (hrun : acts.foldlM step s = .ok t) (hg : ∀ s a, a ∈ acts → guard s a) :
    Reach step guard s₀ t := by
  induction acts generalizing s with
  | nil =>
      cases hrun
      exact h
  | cons a acts ih =>
      rw [List.foldlM_cons] at hrun
      cases hs : step s a with
      | error e => rw [hs] at hrun; cases hrun
      | ok s' =>
          rw [hs] at hrun
          exact ih (h.step a (hg s a (by simp)) hs) hrun
            fun s b hb => hg s b (List.mem_cons_of_mem a hb)

/-- A run whose end is known by what is observed of it. -/
theorem Reach.exists_of_foldlM (acts : List α) (h : Reach step guard s₀ s) (f : σ → β) {b : β}
    (hrun : (acts.foldlM step s).toOption.map f = some b)
    (hg : ∀ s a, a ∈ acts → guard s a) : ∃ t, Reach step guard s₀ t ∧ f t = b := by
  cases hs : acts.foldlM step s with
  | error e =>
      rw [hs] at hrun
      cases hrun
  | ok t =>
      rw [hs] at hrun
      exact ⟨t, .of_foldlM acts h hs hg, Option.some.inj hrun⟩

end Reach

/-- The result `r` of a computation from `s`, explained by micro steps; `post` is the state
that a normal result stands for. -/
def Outcome (micro : σ → σ → Prop) (bad : ε → σ → Prop) (s : σ) (post : β → σ) :
    Except ε β → Prop
  | .ok b => ReflTransGen micro s (post b)
  | .error e => ∃ t, ReflTransGen micro s t ∧ bad e t

namespace Outcome

variable {micro micro' : σ → σ → Prop} {bad bad' : ε → σ → Prop} {s t : σ} {post : β → σ}
  {r : Except ε β} {b : β}

/-- A computation that changes nothing takes no micro step. -/
theorem ok (h : post b = s) : Outcome micro bad s post (.ok b) := by
  subst h
  exact ReflTransGen.refl

/-- A single micro step. -/
theorem single (h : micro s (post b)) : Outcome micro bad s post (.ok b) := ReflTransGen.single h

/-- A fault that arises where the computation stands. -/
theorem fault {e : ε} (h : bad e s) : Outcome micro bad s post (.error e) := ⟨s, .refl, h⟩

/-- Micro steps in front of a computation. -/
theorem steps (h : ReflTransGen micro s t) (hr : Outcome micro bad t post r) :
    Outcome micro bad s post r := by
  cases r with
  | ok u => exact h.trans hr
  | error e =>
      obtain ⟨u, hu, hbad⟩ := hr
      exact ⟨u, h.trans hu, hbad⟩

/-- One micro step in front of a computation. -/
theorem step (h : micro s t) (hr : Outcome micro bad t post r) : Outcome micro bad s post r :=
  steps (.single h) hr

/-- More micro steps and more faults explain a computation as well. -/
theorem mono (hr : Outcome micro bad s post r) (hmicro : ∀ s t, micro s t → micro' s t)
    (hbad : ∀ e s, bad e s → bad' e s) : Outcome micro' bad' s post r := by
  cases r with
  | ok b => exact ReflTransGen.mono hmicro _ _ hr
  | error e =>
      obtain ⟨t, ht, hb⟩ := hr
      exact ⟨t, ReflTransGen.mono hmicro _ _ ht, hbad e t hb⟩

section Invariant

variable {I : σ → Prop} (hI : ∀ s t, I s → micro s t → I t)
include hI

/-- An invariant of the micro steps holds at the end of a row of them. -/
theorem invariant (hr : ReflTransGen micro s t) (hs : I s) : I t := by
  induction hr with
  | refl => exact hs
  | tail _ h ih => exact hI _ _ ih h

/-- Two computations one after the other: the second starts in a state in which an invariant
of the micro steps holds. -/
theorem bind {post' : γ → σ} {f : β → Except ε γ} (hs : I s)
    (hr : Outcome micro bad s post r)
    (hf : ∀ b, r = .ok b → I (post b) → Outcome micro bad (post b) post' (f b)) :
    Outcome micro bad s post' (r >>= f) := by
  cases r with
  | ok b => exact steps hr (hf b rfl (invariant hI hr hs))
  | error e => exact hr

/-- A loop of computations, each from a state in which the invariant holds. -/
theorem foldlM {f : σ → α → Except ε σ} (l : List α) (hs : I s)
    (hf : ∀ s a, a ∈ l → I s → Outcome micro bad s id (f s a)) :
    Outcome micro bad s id (l.foldlM f s) := by
  induction l generalizing s with
  | nil => exact .ok rfl
  | cons a l ih =>
      rw [List.foldlM_cons]
      refine Outcome.bind hI hs (hf s a List.mem_cons_self hs) fun t _ ht => ?_
      exact ih ht fun u b hb => hf u b (List.mem_cons_of_mem a hb)

/-- A fault that no state satisfying an invariant shows cannot occur. -/
theorem no_fault {e : ε} (hbad : ∀ s, I s → ¬ bad e s) (hr : Outcome micro bad s post r)
    (hs : I s) : r ≠ .error e := by
  rintro rfl
  obtain ⟨t, hst, ht⟩ := hr
  exact hbad t (invariant hI hst hs) ht

end Invariant

end Outcome

section Faulting

/-- A computation in two parts ends normally when both parts do. -/
theorem bind_eq_ok {x : Except ε β} {f : β → Except ε γ} {c : γ} :
    (x >>= f) = .ok c ↔ ∃ b, x = .ok b ∧ f b = .ok c := by
  cases x with
  | error e => exact ⟨nofun, fun ⟨_, h, _⟩ => nomatch h⟩
  | ok b => exact ⟨fun h => ⟨b, rfl, h⟩, fun ⟨_, h, hf⟩ => by cases h; exact hf⟩

/-- A computation of which a value is known ends normally. -/
theorem exists_ok_of_map {x : Except ε β} {f : β → γ} {c : γ}
    (h : x.toOption.map f = some c) : ∃ b, x = .ok b ∧ f b = c := by
  cases x with
  | error e => cases h
  | ok b => exact ⟨b, rfl, Option.some.inj h⟩

/-- What one iteration keeps, a loop that ends normally keeps. -/
theorem foldlM_invariant {I : β → Prop} {f : β → α → Except ε β} (l : List α) {b b' : β}
    (h : l.foldlM f b = .ok b') (hb : I b)
    (hstep : ∀ b a b', a ∈ l → I b → f b a = .ok b' → I b') : I b' := by
  induction l generalizing b with
  | nil =>
      cases h
      exact hb
  | cons a l ih =>
      rw [List.foldlM_cons] at h
      obtain ⟨c, hc, hrest⟩ := bind_eq_ok.mp h
      exact ih hrest (hstep b a c List.mem_cons_self hb hc)
        fun b a b' ha => hstep b a b' (List.mem_cons_of_mem _ ha)

end Faulting

section Trace

variable {Q Q' : List α → α → Prop} {l : List α} {a : α}

/-- `Q` holds of every event of a trace and the events before it. -/
def AtEach (Q : List α → α → Prop) (l : List α) : Prop :=
  ∀ pre a post, l = pre ++ a :: post → Q pre a

theorem atEach_nil : AtEach Q [] := by
  intro pre a post h
  simp at h

/-- A trace with one more event. -/
theorem atEach_concat : AtEach Q (l ++ [a]) ↔ AtEach Q l ∧ Q l a := by
  constructor
  · intro h
    refine ⟨fun pre b post hl => h pre b (post ++ [a]) (by simp [hl]), h l a [] rfl⟩
  · rintro ⟨hl, ha⟩ pre b post heq
    rcases List.eq_nil_or_concat post with rfl | ⟨post, c, rfl⟩
    · obtain ⟨rfl, hab⟩ := List.append_inj' heq rfl
      rw [List.singleton_inj] at hab
      exact hab ▸ ha
    · have heq' : l ++ [a] = (pre ++ b :: post) ++ [c] := by simpa using heq
      exact hl pre b post (List.append_inj' heq' rfl).1

/-- A trace goes on with events of which `Q` holds whatever came before them. -/
theorem AtEach.append {m : List α} (h : AtEach Q l) (hm : ∀ a ∈ m, ∀ pre, Q pre a) :
    AtEach Q (l ++ m) := by
  induction m generalizing l with
  | nil => rwa [List.append_nil]
  | cons a m ih =>
      have hconcat : AtEach Q (l ++ [a]) := atEach_concat.mpr ⟨h, hm a List.mem_cons_self l⟩
      rw [List.append_cons]
      exact ih hconcat fun b hb => hm b (List.mem_cons_of_mem a hb)

/-- What holds of each event of a trace holds of each event of an initial part. -/
theorem AtEach.of_prefix {l' : List α} (h : AtEach Q l') (hl : l <+: l') : AtEach Q l := by
  obtain ⟨rest, rfl⟩ := hl
  intro pre a post heq
  exact h pre a (post ++ rest) (by simp [heq])

/-- The events of a trace by their position. -/
theorem atEach_iff_take : AtEach Q l ↔ ∀ n : Fin l.length, Q (l.take n) l[n] := by
  constructor
  · intro h n
    refine h _ _ (l.drop (n + 1)) ?_
    change l = l.take n ++ l[n.1] :: l.drop (n + 1)
    rw [← List.drop_eq_getElem_cons n.isLt, List.take_append_drop]
  · rintro h pre a post rfl
    have hn : pre.length < (pre ++ a :: post).length := by simp
    have hQ := h ⟨pre.length, hn⟩
    simpa using hQ

instance [∀ pre a, Decidable (Q pre a)] : Decidable (AtEach Q l) :=
  decidable_of_iff _ atEach_iff_take.symm

end Trace

/-! ## Loops that do not fault -/

/-- A loop whose steps do not fault and keep an invariant does not fault and keeps it. -/
theorem foldlM_keeps {I : β → Prop} {step : β → γ → Except ε β} (xs : List γ)
    (hstep : ∀ b, ∀ x ∈ xs, I b → ∃ b', step b x = .ok b' ∧ I b') {b : β} (h : I b) :
    ∃ b', xs.foldlM step b = .ok b' ∧ I b' := by
  induction xs generalizing b with
  | nil => exact ⟨b, rfl, h⟩
  | cons x xs ih =>
    obtain ⟨next, hnext, hkept⟩ := hstep b x List.mem_cons_self h
    obtain ⟨last, hlast, hI⟩ := ih (fun b y hy => hstep b y (List.mem_cons_of_mem x hy)) hkept
    refine ⟨last, ?_, hI⟩
    rw [List.foldlM_cons, hnext]
    exact hlast

/-! ## Computations that succeed -/

/-- The computation does not fault, and `P` holds of its result. -/
def Gives (r : Except ε β) (P : β → Prop) : Prop := ∃ b, r = .ok b ∧ P b

namespace Gives

variable {r : Except ε β} {f : β → Except ε γ} {b : β} {P P' : β → Prop} {Q : γ → Prop}

theorem ok (h : P b) : Gives (.ok b : Except ε β) P := ⟨b, rfl, h⟩

theorem mono (hr : Gives r P) (h : ∀ b, P b → P' b) : Gives r P' := by
  obtain ⟨b, hb, hP⟩ := hr
  exact ⟨b, hb, h b hP⟩

/-- Two computations one after the other. -/
theorem bind (hr : Gives r P) (hf : ∀ b, P b → Gives (f b) Q) : Gives (r >>= f) Q := by
  obtain ⟨b, rfl, hP⟩ := hr
  exact hf b hP

/-- A first computation whose result is known. -/
theorem bind_of_eq (hr : r = .ok b) (hf : Gives (f b) Q) : Gives (r >>= f) Q := by
  subst hr
  exact hf

/-- A result of two computations has a result of the first behind it. -/
theorem of_bind (h : Gives (r >>= f) Q) : ∃ b, r = .ok b ∧ Gives (f b) Q := by
  cases r with
  | ok b => exact ⟨b, rfl, h⟩
  | error e =>
    obtain ⟨c, hc, -⟩ := h
    cases hc

/-- A counted loop, with an invariant that knows the number of turns taken. -/
theorem foldlM_range {I : ℕ → β → Prop} {step : β → ℕ → Except ε β} (n : ℕ)
    (hstep : ∀ k < n, ∀ b, I k b → Gives (step b k) (I (k + 1))) (h : I 0 b) :
    Gives ((List.range n).foldlM step b) (I n) := by
  induction n with
  | zero => exact ok h
  | succ n ih =>
    rw [List.range_succ, List.foldlM_append]
    refine bind (ih fun k hk => hstep k (Nat.lt_succ_of_lt hk)) fun b hb => ?_
    obtain ⟨b', hb', hI⟩ := hstep n n.lt_succ_self b hb
    refine ⟨b', ?_, hI⟩
    rw [List.foldlM_cons, hb']
    rfl

/-- There is one result only. -/
theorem of_ok (h : Gives r P) (hr : r = .ok b) : P b := by
  obtain ⟨b', hb', hP⟩ := h
  rw [hr] at hb'
  cases hb'
  exact hP

/-- A fault gives no result. -/
theorem not_error {e : ε} : ¬ Gives (.error e : Except ε β) P := by
  rintro ⟨b, hb, -⟩
  cases hb

end Gives

end PyTorchSim.Library
