/-
Wjos.Lib.Run — runs of a partial deterministic step function.

`run step s es` feeds the events `es` to `step` one by one and is `none`
as soon as one of them is refused. The module names nothing of a
particular machine: the state and the event type are parameters.

* `run_append`, `run_concat` cut a run in two;
* `run_invariant` is the induction rule for a property every step keeps;
* `Along` says that every step of a run meets a condition on its
  pre-state and event, and `run_invariant_along` is the induction rule
  for a property that only the steps meeting the condition keep;
* `Along.of_invariant` turns one such condition into another, and
  `Along.congr_along` says where two of them are the same;
* `run_length_le` bounds a run whose steps take something off a measure;
* `always_iff_along` is for a property that a step keeps exactly when it
  meets the condition: then the condition is exact for whole runs;
* `run_simulates` carries a relation to a total function along a run;
* `run_traceOf` is for steps that come to any number of steps of another system,
  or to none: a run then comes to a run of that system;
* `run_together` is for two runs of the same events: a relation that a step
  keeps, when it is refused in both states or in neither, holds at their ends;
* `observed` runs a history beside the state, which notes each step and
  influences none.
-/
import Mathlib.Logic.Basic
import Mathlib.Tactic.Common

namespace Wjos.Lib

variable {σ ε γ : Type*}

/-- The state after the events `es`, or `none` when one is refused. -/
def run (step : σ → ε → Option σ) : σ → List ε → Option σ
  | s, [] => some s
  | s, e :: es => (step s e).bind fun s' => run step s' es

@[simp] theorem run_nil (step : σ → ε → Option σ) (s : σ) : run step s [] = some s := rfl

theorem run_cons (step : σ → ε → Option σ) (s : σ) (e : ε) (es : List ε) :
    run step s (e :: es) = (step s e).bind fun s' => run step s' es := rfl

/-- A nonempty run is one step followed by a run. -/
theorem run_cons_eq_some {step : σ → ε → Option σ} {s t : σ} {e : ε} {es : List ε} :
    run step s (e :: es) = some t ↔ ∃ s', step s e = some s' ∧ run step s' es = some t := by
  rw [run_cons, Option.bind_eq_some_iff]

/-- A run over a concatenation is a run followed by a run. -/
theorem run_append {step : σ → ε → Option σ} {s t : σ} {es fs : List ε} :
    run step s (es ++ fs) = some t ↔
      ∃ u, run step s es = some u ∧ run step u fs = some t := by
  induction es generalizing s with
  | nil => simp
  | cons e es ih =>
    rw [List.cons_append, run_cons_eq_some]
    constructor
    · rintro ⟨s', hs, hr⟩
      obtain ⟨u, hu, ht⟩ := ih.mp hr
      exact ⟨u, run_cons_eq_some.mpr ⟨s', hs, hu⟩, ht⟩
    · rintro ⟨u, hu, ht⟩
      obtain ⟨s', hs, hr⟩ := run_cons_eq_some.mp hu
      exact ⟨s', hs, ih.mpr ⟨u, hr, ht⟩⟩

/-- A run with one more event at its end. -/
theorem run_concat {step : σ → ε → Option σ} {s t : σ} {es : List ε} {e : ε} :
    run step s (es ++ [e]) = some t ↔ ∃ u, run step s es = some u ∧ step u e = some t := by
  simp [run_append, run_cons_eq_some]

/-- A property that every step keeps holds at the end of every run. -/
theorem run_invariant {step : σ → ε → Option σ} {Inv : σ → Prop}
    (hstep : ∀ s e s', Inv s → step s e = some s' → Inv s') {s t : σ} {es : List ε}
    (hs : Inv s) (h : run step s es = some t) : Inv t := by
  induction es generalizing s with
  | nil =>
    rw [run_nil, Option.some.injEq] at h
    exact h ▸ hs
  | cons e es ih =>
    obtain ⟨s', he, hr⟩ := run_cons_eq_some.mp h
    exact ih (hstep s e s' hs he) hr

/-- Every step of the run of `es` from `s` meets `P` at its pre-state. -/
def Along (step : σ → ε → Option σ) (P : σ → ε → Prop) : σ → List ε → Prop
  | _, [] => True
  | s, e :: es => P s e ∧ ∀ s', step s e = some s' → Along step P s' es

@[simp] theorem along_nil (step : σ → ε → Option σ) (P : σ → ε → Prop) (s : σ) :
    Along step P s [] := trivial

theorem along_cons {step : σ → ε → Option σ} {P : σ → ε → Prop} {s : σ} {e : ε} {es : List ε} :
    Along step P s (e :: es) ↔ P s e ∧ ∀ s', step s e = some s' → Along step P s' es :=
  Iff.rfl

/-- A condition that can be tested can be tested along a run. -/
instance decidableAlong (step : σ → ε → Option σ) (P : σ → ε → Prop) [∀ s e, Decidable (P s e)] :
    ∀ s es, Decidable (Along step P s es)
  | _, [] => isTrue trivial
  | s, e :: es =>
    match h : step s e with
    | none => decidable_of_iff (P s e) (by simp [along_cons, h])
    | some s' =>
      have := decidableAlong step P s' es
      decidable_of_iff (P s e ∧ Along step P s' es) (by simp [along_cons, h])

/-- A weaker condition holds along the same run. -/
theorem Along.mono {step : σ → ε → Option σ} {P Q : σ → ε → Prop} (hPQ : ∀ s e, P s e → Q s e)
    {es : List ε} : ∀ {s : σ}, Along step P s es → Along step Q s es := by
  induction es with
  | nil => exact fun _ => trivial
  | cons e es ih =>
    rintro s ⟨hp, h⟩
    exact ⟨hPQ s e hp, fun s' hs => ih (h s' hs)⟩

/-- A condition on the events alone. -/
theorem Along.and_mem {step : σ → ε → Option σ} {P : σ → ε → Prop} {Q : ε → Prop} {es : List ε}
    (hQ : ∀ e ∈ es, Q e) : ∀ {s : σ}, Along step P s es →
      Along step (fun s e => P s e ∧ Q e) s es := by
  induction es with
  | nil => exact fun _ => trivial
  | cons e es ih =>
    rintro s ⟨hp, h⟩
    have hrest : ∀ e ∈ es, Q e := fun e he => hQ e (List.mem_cons_of_mem _ he)
    exact ⟨⟨hp, hQ e List.mem_cons_self⟩, fun s' hs => ih hrest (h s' hs)⟩

/-- A condition that always holds. -/
theorem along_of_forall {step : σ → ε → Option σ} {P : σ → ε → Prop} (h : ∀ s e, P s e)
    {es : List ε} : ∀ {s : σ}, Along step P s es := by
  induction es with
  | nil => exact trivial
  | cons e es ih => exact fun {s} => ⟨h s e, fun _ _ => ih⟩

/-- Conditions compose along a concatenation. -/
theorem along_append {step : σ → ε → Option σ} {P : σ → ε → Prop} {s : σ} {es fs : List ε} :
    Along step P s (es ++ fs) ↔
      Along step P s es ∧ ∀ u, run step s es = some u → Along step P u fs := by
  induction es generalizing s with
  | nil => simp
  | cons e es ih =>
    simp only [List.cons_append, along_cons, run_cons_eq_some, ih]
    constructor
    · rintro ⟨hp, h⟩
      exact ⟨⟨hp, fun s' hs => (h s' hs).1⟩, fun u ⟨s', hs, hu⟩ => (h s' hs).2 u hu⟩
    · rintro ⟨⟨hp, h₁⟩, h₂⟩
      exact ⟨hp, fun s' hs => ⟨h₁ s' hs, fun u hu => h₂ u ⟨s', hs, hu⟩⟩⟩

/-- A property kept by the steps that meet `P` holds at the end of every
run whose steps all meet `P`. -/
theorem run_invariant_along {step : σ → ε → Option σ} {P : σ → ε → Prop} {Inv : σ → Prop}
    (hstep : ∀ s e s', Inv s → P s e → step s e = some s' → Inv s') {s t : σ} {es : List ε}
    (hs : Inv s) (hp : Along step P s es) (h : run step s es = some t) : Inv t := by
  induction es generalizing s with
  | nil =>
    rw [run_nil, Option.some.injEq] at h
    exact h ▸ hs
  | cons e es ih =>
    obtain ⟨s', he, hr⟩ := run_cons_eq_some.mp h
    exact ih (hstep s e s' hs hp.1 he) (hp.2 s' he) hr

/-- Where each step that meets `P` takes something off a measure, the run is no
longer than that. -/
theorem run_length_le {step : σ → ε → Option σ} {P : σ → ε → Prop} {Inv : σ → Prop}
    {work : σ → Nat} (hstep : ∀ s e s', Inv s → P s e → step s e = some s' →
      Inv s' ∧ work s' < work s) {es : List ε} : ∀ {s t : σ}, Inv s → Along step P s es →
      run step s es = some t → Inv t ∧ es.length + work t ≤ work s := by
  induction es with
  | nil =>
    intro s t hs _ hrun
    obtain rfl := Option.some.inj hrun
    exact ⟨hs, by simp⟩
  | cons e es ih =>
    intro s t hs hp hrun
    obtain ⟨s', he, hrest⟩ := run_cons_eq_some.mp hrun
    obtain ⟨hs', hless⟩ := hstep s e s' hs hp.1 he
    obtain ⟨ht, hlen⟩ := ih hs' (hp.2 s' he) hrest
    exact ⟨ht, by rw [List.length_cons]; omega⟩

/-- Where a step keeps `Good` exactly when it meets `P`, and a refused one
meets `P`, all states of a run are good exactly when all its steps meet `P`. -/
theorem always_iff_along {step : σ → ε → Option σ} {P : σ → ε → Prop} {Base Good : σ → Prop}
    (hrefused : ∀ s e, step s e = none → P s e)
    (hstep : ∀ s e s', Base s → Good s → step s e = some s' → Base s' ∧ (Good s' ↔ P s e))
    {es : List ε} : ∀ {s : σ}, Base s → Good s →
      ((∀ fs t, fs <+: es → run step s fs = some t → Good t) ↔ Along step P s es) := by
  induction es with
  | nil =>
    intro s _ hg
    refine ⟨fun _ => trivial, fun _ fs t hfs ht => ?_⟩
    rw [List.prefix_nil.mp hfs, run_nil, Option.some.injEq] at ht
    exact ht ▸ hg
  | cons e es ih =>
    intro s hb hg
    constructor
    · intro h
      have hgood : ∀ s', step s e = some s' → Good s' := fun s' hs =>
        h [e] s' (by simp) (run_cons_eq_some.mpr ⟨s', hs, rfl⟩)
      refine ⟨?_, fun s' hs => ?_⟩
      · cases hs : step s e with
        | none => exact hrefused s e hs
        | some s' => exact (hstep s e s' hb hg hs).2.mp (hgood s' hs)
      · refine (ih (hstep s e s' hb hg hs).1 (hgood s' hs)).mp fun fs t hfs ht => ?_
        exact h (e :: fs) t (by simpa using hfs) (run_cons_eq_some.mpr ⟨s', hs, ht⟩)
    · rintro ⟨hp, hrest⟩ fs t hfs ht
      rcases List.prefix_cons_iff.mp hfs with rfl | ⟨fs', rfl, hfs'⟩
      · exact Option.some.inj ht ▸ hg
      · obtain ⟨s', hs, hr⟩ := run_cons_eq_some.mp ht
        obtain ⟨hb', hiff⟩ := hstep s e s' hb hg hs
        exact (ih hb' (hiff.mpr hp)).mpr (hrest s' hs) fs' t hfs' hr

/-- Where an invariant of the steps that meet `P` turns `P` into `Q`, a run
whose steps all meet `P` meets `Q` throughout. -/
theorem Along.of_invariant {step : σ → ε → Option σ} {P Q : σ → ε → Prop} {Inv : σ → Prop}
    (hstep : ∀ s e s', Inv s → P s e → step s e = some s' → Inv s')
    (hPQ : ∀ s e, Inv s → P s e → Q s e) {es : List ε} :
    ∀ {s : σ}, Inv s → Along step P s es → Along step Q s es := by
  induction es with
  | nil => exact fun _ _ => trivial
  | cons e es ih =>
    rintro s hs ⟨hp, h⟩
    exact ⟨hPQ s e hs hp, fun s' he => ih (hstep s e s' hs hp he) (h s' he)⟩

/-- Where an invariant of the steps that meet `P` makes `Q` and `R` the same,
they are the same for a run whose steps all meet `P`. -/
theorem Along.congr_along {step : σ → ε → Option σ} {P Q R : σ → ε → Prop} {Inv : σ → Prop}
    (hstep : ∀ s e s', Inv s → P s e → step s e = some s' → Inv s')
    (hQR : ∀ s e, Inv s → P s e → (Q s e ↔ R s e)) {es : List ε} :
    ∀ {s : σ}, Inv s → Along step P s es → (Along step Q s es ↔ Along step R s es) := by
  induction es with
  | nil => exact fun _ _ => Iff.rfl
  | cons e es ih =>
    rintro s hs ⟨hp, h⟩
    rw [along_cons, along_cons, hQR s e hs hp]
    exact and_congr_right fun _ =>
      forall₂_congr fun s' he => ih (hstep s e s' hs hp he) (h s' he)

/-- Simulation: where every step that meets `P` succeeds and follows the
total function `f` under `R`, so does every run whose steps all meet `P`. -/
theorem run_simulates {α : Type*} {step : σ → ε → Option σ} {P : σ → ε → Prop}
    {R : σ → α → Prop} {f : α → ε → α}
    (hstep : ∀ s e a, R s a → P s e → ∃ s', step s e = some s' ∧ R s' (f a e)) {es : List ε} :
    ∀ {s : σ} {a : α}, R s a → Along step P s es →
      ∃ t, run step s es = some t ∧ R t (es.foldl f a) := by
  induction es with
  | nil => exact fun hr _ => ⟨_, rfl, hr⟩
  | cons e es ih =>
    intro s a hr hp
    obtain ⟨s', hs, hr'⟩ := hstep s e a hr hp.1
    obtain ⟨t, ht, hrt⟩ := ih hr' (hp.2 s' hs)
    exact ⟨t, run_cons_eq_some.mpr ⟨s', hs, ht⟩, hrt⟩

/-- What the steps of a run come to, when `seen` says it of one step. -/
def traceOf {α : Type*} (step : σ → ε → Option σ) (seen : σ → ε → List α) : σ → List ε → List α
  | _, [] => []
  | s, e :: es => seen s e ++ (step s e).elim [] fun s' => traceOf step seen s' es

theorem traceOf_cons {α : Type*} {step : σ → ε → Option σ} {s s' : σ} {e : ε}
    (seen : σ → ε → List α) (es : List ε) (h : step s e = some s') :
    traceOf step seen s (e :: es) = seen s e ++ traceOf step seen s' es := by
  rw [traceOf, h, Option.elim_some]

/-- A run comes to a run of another system when its steps do, each from a state
with the invariant. -/
theorem run_traceOf {ρ α : Type*} {step : σ → ε → Option σ} {step' : ρ → α → Option ρ} {f : σ → ρ}
    {seen : σ → ε → List α} {P : σ → ε → Prop} {Inv : σ → Prop}
    (hstep : ∀ s e s', Inv s → P s e → step s e = some s' →
      Inv s' ∧ run step' (f s) (seen s e) = some (f s')) {es : List ε} :
    ∀ {s t : σ}, Inv s → Along step P s es → run step s es = some t →
      Inv t ∧ run step' (f s) (traceOf step seen s es) = some (f t) := by
  induction es with
  | nil =>
    intro s t hs _ hrun
    obtain rfl := Option.some.inj hrun
    exact ⟨hs, rfl⟩
  | cons e es ih =>
    intro s t hs hp hrun
    obtain ⟨s', he, hrest⟩ := run_cons_eq_some.mp hrun
    obtain ⟨hs', hone⟩ := hstep s e s' hs hp.1 he
    obtain ⟨ht, htail⟩ := ih hs' (hp.2 s' he) hrest
    rw [traceOf_cons seen es he]
    exact ⟨ht, run_append.mpr ⟨f s', hone, htail⟩⟩

/-- Two runs of the same events, from states that a step keeps together. -/
theorem run_together {step : σ → ε → Option σ} {R : σ → σ → Prop}
    (hstep : ∀ s s' e, R s s' → (step s e = none ∧ step s' e = none) ∨
      ∃ t t', step s e = some t ∧ step s' e = some t' ∧ R t t') (es : List ε) :
    ∀ {s s' : σ}, R s s' → (run step s es = none ∧ run step s' es = none) ∨
      ∃ t t', run step s es = some t ∧ run step s' es = some t' ∧ R t t' := by
  induction es with
  | nil => exact fun hr => .inr ⟨_, _, rfl, rfl, hr⟩
  | cons e es ih =>
    intro s s' hr
    rw [run_cons, run_cons]
    rcases hstep s s' e hr with ⟨hs, hs'⟩ | ⟨t, t', hs, hs', ht⟩
    · exact .inl ⟨by rw [hs]; rfl, by rw [hs']; rfl⟩
    · rw [hs, hs', Option.bind_some, Option.bind_some]
      exact ih ht

/-- The step function `step` with a history at its side: `note` enters each
step, from its pre-state, event and post-state. -/
def observed (step : σ → ε → Option σ) (note : γ → σ → ε → σ → γ) (x : σ × γ) (e : ε) :
    Option (σ × γ) :=
  (step x.1 e).map fun s' => (s', note x.2 x.1 e s')

theorem observed_eq_some {step : σ → ε → Option σ} {note : γ → σ → ε → σ → γ} {x y : σ × γ}
    {e : ε} : observed step note x e = some y ↔ step x.1 e = some y.1 ∧
      y.2 = note x.2 x.1 e y.1 := by
  unfold observed
  rw [Option.map_eq_some_iff]
  constructor
  · rintro ⟨s', hs, rfl⟩
    exact ⟨hs, rfl⟩
  · intro ⟨hs, hy⟩
    exact ⟨y.1, hs, by rw [← hy]⟩

/-- A run with a history is a run. -/
theorem run_of_observed {step : σ → ε → Option σ} {note : γ → σ → ε → σ → γ} {es : List ε} :
    ∀ {x y : σ × γ}, run (observed step note) x es = some y → run step x.1 es = some y.1 := by
  induction es with
  | nil =>
    intro x y h
    exact congrArg (fun z => some z.1) (Option.some.inj h)
  | cons e es ih =>
    intro x y h
    obtain ⟨z, hz, hr⟩ := run_cons_eq_some.mp h
    exact run_cons_eq_some.mpr ⟨z.1, (observed_eq_some.mp hz).1, ih hr⟩

/-- A condition on the run is one on the run with a history. -/
theorem along_observed {step : σ → ε → Option σ} {P : σ → ε → Prop}
    {note : γ → σ → ε → σ → γ} {es : List ε} :
    ∀ {x : σ × γ}, Along step P x.1 es → Along (observed step note) (fun x e => P x.1 e) x es := by
  induction es with
  | nil => exact fun _ => trivial
  | cons e es ih =>
    rintro x ⟨hp, h⟩
    exact ⟨hp, fun y hy => ih (h y.1 (observed_eq_some.mp hy).1)⟩

end Wjos.Lib
