/-
Wjos.Lib.Family — machines side by side.

A family of machines of one kind takes events with an address; each event is a
step of the machine at its address and touches no other. So a run of the family
is one run for each machine, over the events that are addressed to it
(`run_familyStep`).
-/
import Mathlib.Logic.Function.Basic
import Wjos.Lib.Run

namespace Wjos.Lib

variable {ι σ ε : Type*} [DecidableEq ι] {step : σ → ε → Option σ} {s t : ι → σ}

/-- One step of the machine at the address. -/
def familyStep (step : σ → ε → Option σ) (s : ι → σ) (e : ι × ε) : Option (ι → σ) :=
  (step (s e.1) e.2).map (Function.update s e.1)

/-- The events addressed to `i`. -/
def eventsAt (i : ι) (es : List (ι × ε)) : List ε :=
  es.filterMap fun e => if e.1 = i then some e.2 else none

@[simp] theorem eventsAt_nil (i : ι) : eventsAt i ([] : List (ι × ε)) = [] := rfl

@[simp] theorem eventsAt_cons (i j : ι) (e : ε) (es : List (ι × ε)) :
    eventsAt i ((j, e) :: es) = (if j = i then [e] else []) ++ eventsAt i es := by
  by_cases hj : j = i <;> simp [eventsAt, hj]

@[simp] theorem eventsAt_append (i : ι) (es fs : List (ι × ε)) :
    eventsAt i (es ++ fs) = eventsAt i es ++ eventsAt i fs :=
  List.filterMap_append

/-- A run of the family is a run of each machine. -/
theorem run_familyStep {es : List (ι × ε)} :
    run (familyStep step) s es = some t ↔
      ∀ i, run step (s i) (eventsAt i es) = some (t i) := by
  induction es generalizing s with
  | nil => simp [run_nil, funext_iff]
  | cons e es ih =>
    obtain ⟨j, e⟩ := e
    rw [run_cons_eq_some]
    constructor
    · rintro ⟨s', hs', hrun⟩ i
      obtain ⟨x, hx, rfl⟩ := Option.map_eq_some_iff.mp hs'
      have hi := ih.mp hrun i
      by_cases hj : j = i
      · subst hj
        rw [Function.update_self] at hi
        rw [eventsAt_cons, if_pos rfl]
        exact run_cons_eq_some.mpr ⟨x, hx, hi⟩
      · rw [Function.update_of_ne (Ne.symm hj)] at hi
        simpa [hj] using hi
    · intro hall
      have hj := hall j
      rw [eventsAt_cons, if_pos rfl] at hj
      obtain ⟨x, hx, hrun⟩ := run_cons_eq_some.mp hj
      refine ⟨Function.update s j x, by simp [familyStep, hx], ih.mpr fun i => ?_⟩
      by_cases hi : j = i
      · subst hi
        rw [Function.update_self]
        exact hrun
      · rw [Function.update_of_ne (Ne.symm hi)]
        simpa [hi] using hall i

end Wjos.Lib
