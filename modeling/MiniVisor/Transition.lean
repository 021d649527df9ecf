import Mathlib.Logic.Relation

/-!
# Transition systems

A system has initial states and steps. `System.Reachable.induction` is the rule for an invariant,
and a `Simulation` between two systems carries reachability from the one that is closer to the code
to the one that says what it is for. Several steps of the latter, or none, may answer one of the
former. -/

namespace Machine

/-- A transition system. -/
structure System (σ : Type*) where
  Init : σ → Prop
  Step : σ → σ → Prop

namespace System

variable {σ : Type*} {τ : Type*} (S : System σ)

/-- The states of the runs. -/
def Reachable (s : σ) : Prop :=
  ∃ s₀, S.Init s₀ ∧ Relation.ReflTransGen S.Step s₀ s

variable {S} {s s' : σ}

theorem Reachable.init (h : S.Init s) : S.Reachable s :=
  ⟨s, h, .refl⟩

theorem Reachable.step (h : S.Reachable s) (hs : S.Step s s') : S.Reachable s' := by
  obtain ⟨s₀, hinit, hrun⟩ := h
  exact ⟨s₀, hinit, hrun.tail hs⟩

theorem Reachable.steps (h : S.Reachable s) (hs : Relation.ReflTransGen S.Step s s') : S.Reachable s' := by
  obtain ⟨s₀, hinit, hrun⟩ := h
  exact ⟨s₀, hinit, hrun.trans hs⟩

/-- What holds at the start and is kept by the steps of the runs holds in all their states. -/
theorem Reachable.induction {P : σ → Prop} (h : S.Reachable s) (init : ∀ s, S.Init s → P s)
    (step : ∀ s s', S.Reachable s → P s → S.Step s s' → P s') : P s := by
  obtain ⟨s₀, hinit, hrun⟩ := h
  induction hrun with
  | refl => exact init s₀ hinit
  | tail hrun hs ih => exact step _ _ ⟨s₀, hinit, hrun⟩ ih hs

end System

/-- Each step of `C` is answered by steps of `A`. -/
structure Simulation {σ τ : Type*} (C : System σ) (A : System τ) (R : σ → τ → Prop) : Prop where
  init : ∀ s, C.Init s → ∃ t, A.Init t ∧ R s t
  step : ∀ s s' t, C.Reachable s → A.Reachable t → R s t → C.Step s s' →
    ∃ t', Relation.ReflTransGen A.Step t t' ∧ R s' t'

/-- A reachable state is related to a reachable state. -/
theorem Simulation.reachable {σ τ : Type*} {C : System σ} {A : System τ} {R : σ → τ → Prop}
    (h : Simulation C A R) {s : σ} (hs : C.Reachable s) : ∃ t, A.Reachable t ∧ R s t := by
  refine hs.induction (P := fun s => ∃ t, A.Reachable t ∧ R s t) (fun s hinit => ?_)
    fun s s' hs ⟨t, ht, hR⟩ hstep => ?_
  · obtain ⟨t, ht, hR⟩ := h.init s hinit
    exact ⟨t, .init ht, hR⟩
  · obtain ⟨t', hsteps, hR'⟩ := h.step s s' t hs ht hR hstep
    exact ⟨t', ht.steps hsteps, hR'⟩

end Machine
