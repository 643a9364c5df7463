import Mathlib.Tactic.Ring

/-! # Labelled transition systems and their runs

    The kernel components of this development (the page allocator, the slab
    heap, a TCP control block, the block cache) are state machines driven by
    calls. This module fixes the one notion of run that all of them use:

    * a `System` has a set of initial states and a labelled step relation;
    * `Reachable` collects every state of every run;
    * `Reachable.induct` is the invariant rule: what holds initially and is
      kept by each step holds in every reachable state;
    * `System.restrict` keeps only the steps that meet a condition on the
      state before the step, for results about runs that avoid a defect;
    * `replay` runs a list of labels through an executable step.
-/

universe u v

namespace Cervus

/-- A labelled transition system. -/
structure System (State : Type u) (Label : Type v) where
  init : State → Prop
  step : State → Label → State → Prop

namespace System

variable {State : Type u} {Label : Type v}

/-- The states of all runs of a system. -/
inductive Reachable (sys : System State Label) : State → Prop where
  | init : ∀ {s}, sys.init s → Reachable sys s
  | step : ∀ {s s'} (l : Label), Reachable sys s → sys.step s l s' → Reachable sys s'

/-- **Invariant rule**: an initial and step-closed predicate holds in every
    reachable state. The step may use that the state before it is reachable. -/
theorem Reachable.induct {sys : System State Label} {inv : State → Prop}
    (hinit : ∀ s, sys.init s → inv s)
    (hstep : ∀ s l s', sys.Reachable s → inv s → sys.step s l s' → inv s')
    {s : State} (h : sys.Reachable s) : inv s := by
  induction h with
  | init hi => exact hinit _ hi
  | step l hr hs ih => exact hstep _ l _ hr ih hs

/-- The system with only those steps that meet `ok` in the state before the step. -/
def restrict (sys : System State Label) (ok : State → Label → Prop) :
    System State Label where
  init := sys.init
  step := fun s l s' => ok s l ∧ sys.step s l s'

theorem Reachable.of_restrict {sys : System State Label} {ok : State → Label → Prop} {s : State}
    (h : (sys.restrict ok).Reachable s) : sys.Reachable s := by
  induction h with
  | init hi => exact .init hi
  | step l _ hs ih => exact .step l ih hs.2

/-- The state after the steps of a list; `none` when one of them cannot be taken. -/
def replay (next : State → Label → Option State) (s : State) (ls : List Label) : Option State :=
  ls.foldlM next s

section
variable {sys : System State Label} {next : State → Label → Option State} {s s' : State}
  {ls : List Label} (hnext : ∀ s l s', next s l = some s' → sys.step s l s')
include hnext

theorem Reachable.replay (h : sys.Reachable s) (hrun : System.replay next s ls = some s') :
    sys.Reachable s' := by
  induction ls generalizing s with
  | nil =>
    cases hrun
    exact h
  | cons l ls ih =>
    unfold System.replay at hrun ih
    rw [List.foldlM_cons] at hrun
    obtain ⟨s₁, hstep, hrest⟩ := Option.bind_eq_some_iff.mp hrun
    exact ih (.step l h (hnext s l s₁ hstep)) hrest

/-- A replay that stops at the first step outside the condition. -/
theorem Reachable.replay_restrict {ok : State → Label → Prop} [∀ s l, Decidable (ok s l)]
    (h : (sys.restrict ok).Reachable s)
    (hrun : System.replay (fun s l => if ok s l then next s l else none) s ls = some s') :
    (sys.restrict ok).Reachable s' := by
  refine h.replay ?_ hrun
  intro s l s' hs
  obtain ⟨hok, hs⟩ := Option.ite_none_right_eq_some.mp hs
  exact ⟨hok, hnext s l s' hs⟩

end

end System

end Cervus
