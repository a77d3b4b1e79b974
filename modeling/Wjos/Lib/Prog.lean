/-
Wjos.Lib.Prog — programs that change a state and may stop the machine.

`Prog σ α` is a program over states `σ` with a result in `α`; `none` means
that the machine stopped (a failed assertion, a page fault in the kernel).
Nothing here names a particular machine.

* `look`, `store`, `check`, `onlyIf`, `forEach` and `zoom` are the statements
  beside those of `do`: reading the state, changing it, a test that stops the
  machine, an `if` without `else`, a loop that its body may leave, a program
  on a part of the state;
* `Triple P x Q` is about one run of `x`;
* `Returns P x Q` says besides that the machine does not stop, and its rule
  for a loop has the invariant depend on what the loop has been over;
* `Leaves g x` says that `x` leaves alone what `g` reads, the frame property;
* `Pair P x Q` is about two runs of the same program from two states: they
  stop together, or they return the same result. Its rules follow the
  statements, so a two-run property is proved along the text of the program.
-/
import Mathlib.Data.Option.Basic
import Mathlib.Tactic.Common

namespace Wjos.Lib

variable {σ τ α β ι : Type} {γ : Type*}

/-- A program over the states `σ`. -/
abbrev Prog (σ α : Type) := StateT σ Option α

/-- What `f` reads from the state. -/
def look (f : σ → α) : Prog σ α := fun s => some (f s, s)

/-- The state changed by `f`. -/
def store (f : σ → σ) : Prog σ Unit := fun s => some ((), f s)

/-- The machine stops unless `p`. -/
def check (p : Bool) : Prog σ Unit := fun s => if p then some ((), s) else none

/-- `x` where `c` holds. -/
def onlyIf (c : Prop) [Decidable c] (x : Prog σ Unit) : Prog σ Unit := if c then x else pure ()

/-- A loop over `is`; the body says whether to go on. -/
def forEach (body : ι → Prog σ Bool) : List ι → Prog σ Bool
  | [] => pure true
  | i :: is => do
    if ← body i then forEach body is
    else pure false

/-- `x` run on the part of the state that `get` reads and `set` stores. -/
def zoom (get : σ → τ) (set : τ → σ → σ) (x : Prog τ α) : Prog σ α :=
  fun s => (x (get s)).map fun r => (r.1, set r.2 s)

theorem store_seq {f : σ → σ} {g : Unit → Prog σ β} {s : σ} : (store f >>= g) s = g () (f s) := rfl

theorem look_seq {f : σ → α} {g : α → Prog σ β} {s : σ} : (look f >>= g) s = g (f s) s := rfl

/-- The machine stops in the first statement. -/
theorem seq_none {x : Prog σ α} {f : α → Prog σ β} {s : σ} (h : x s = none) :
    (x >>= f) s = none := by
  have hbind : (x >>= f) s = (x s).bind fun r => f r.1 r.2 := rfl
  rw [hbind, h]
  rfl

/-- The first statement run. -/
theorem seq_some {x : Prog σ α} {f : α → Prog σ β} {s s' : σ} {a : α} (h : x s = some (a, s')) :
    (x >>= f) s = f a s' := by
  have hbind : (x >>= f) s = (x s).bind fun r => f r.1 r.2 := rfl
  rw [hbind, h]
  rfl

/-! ## One run -/

/-- Where `x` returns from a state with `P`, it ends with `Q`. -/
def Triple (P : σ → Prop) (x : Prog σ α) (Q : α → σ → Prop) : Prop :=
  ∀ s, P s → ∀ r, x s = some r → Q r.1 r.2

section Triple

variable {P P' : σ → Prop} {Q Q' : α → σ → Prop} {R : β → σ → Prop} {x y : Prog σ α}

theorem Triple.imp (h : Triple P x Q) (hP : ∀ s, P' s → P s) (hQ : ∀ a s, Q a s → Q' a s) :
    Triple P' x Q' :=
  fun s hs r hr => hQ _ _ (h s (hP s hs) r hr)

theorem Triple.ret {a : α} (h : ∀ s, P s → Q a s) : Triple P (pure a) Q := by
  intro s hs r hr
  cases hr
  exact h s hs

theorem Triple.seq {f : α → Prog σ β} (hx : Triple P x Q) (hf : ∀ a, Triple (Q a) (f a) R) :
    Triple P (x >>= f) R := by
  intro s hs r hr
  obtain ⟨q, hq, hr⟩ := Option.bind_eq_some_iff.mp hr
  exact hf q.1 q.2 (hx s hs q hq) r hr

theorem Triple.branch {c : Prop} [Decidable c] (hx : c → Triple P x Q)
    (hy : ¬ c → Triple P y Q) : Triple P (if c then x else y) Q := by
  split
  next h => exact hx h
  next h => exact hy h

theorem Triple.look {f : σ → α} (h : ∀ s, P s → Q (f s) s) : Triple P (look f) Q := by
  intro s hs r hr
  cases hr
  exact h s hs

theorem Triple.store {f : σ → σ} {Q : Unit → σ → Prop} (h : ∀ s, P s → Q () (f s)) :
    Triple P (store f) Q := by
  intro s hs r hr
  cases hr
  exact h s hs

end Triple

/-! ## One run that returns -/

/-- From a state with `P`, `x` returns, and ends with `Q`. -/
def Returns (P : σ → Prop) (x : Prog σ α) (Q : α → σ → Prop) : Prop :=
  ∀ s, P s → ∃ r, x s = some r ∧ Q r.1 r.2

section Returns

variable {P P' : σ → Prop} {Q Q' : α → σ → Prop} {R : β → σ → Prop} {x y : Prog σ α}

theorem Returns.imp (h : Returns P x Q) (hP : ∀ s, P' s → P s) (hQ : ∀ a s, Q a s → Q' a s) :
    Returns P' x Q' := by
  intro s hs
  obtain ⟨r, hr, hq⟩ := h s (hP s hs)
  exact ⟨r, hr, hQ _ _ hq⟩

theorem Returns.ret {a : α} (h : ∀ s, P s → Q a s) : Returns P (pure a) Q :=
  fun s hs => ⟨(a, s), rfl, h s hs⟩

theorem Returns.seq {f : α → Prog σ β} (hx : Returns P x Q) (hf : ∀ a, Returns (Q a) (f a) R) :
    Returns P (x >>= f) R := by
  intro s hs
  obtain ⟨r, hr, hq⟩ := hx s hs
  obtain ⟨r', hr', hq'⟩ := hf r.1 r.2 hq
  refine ⟨r', ?_, hq'⟩
  have hbind : (x >>= f) s = (x s).bind fun r => f r.1 r.2 := rfl
  rw [hbind, hr]
  exact hr'

theorem Returns.branch {c : Prop} [Decidable c] (hx : c → Returns P x Q)
    (hy : ¬ c → Returns P y Q) : Returns P (if c then x else y) Q := by
  split
  next h => exact hx h
  next h => exact hy h

theorem Returns.look {f : σ → α} (h : ∀ s, P s → Q (f s) s) : Returns P (look f) Q :=
  fun s hs => ⟨(f s, s), rfl, h s hs⟩

theorem Returns.store {f : σ → σ} {Q : Unit → σ → Prop} (h : ∀ s, P s → Q () (f s)) :
    Returns P (store f) Q :=
  fun s hs => ⟨((), f s), rfl, h s hs⟩

theorem Returns.onlyIf {c : Prop} [Decidable c] {x : Prog σ Unit} {Q : Unit → σ → Prop}
    (hx : c → Returns P x Q) (hq : ∀ s, ¬ c → P s → Q () s) : Returns P (onlyIf c x) Q :=
  .branch hx fun hc => .ret fun s hs => hq s hc hs

/-- A loop whose invariant `Inv done` is about the part `done` that it has
been over; `Exit` holds where the body leaves it. -/
theorem Returns.each {body : ι → Prog σ Bool} {is : List ι} {Inv : List ι → σ → Prop}
    {Exit : σ → Prop}
    (h : ∀ done i rest, is = done ++ i :: rest →
      Returns (Inv done) (body i) fun go s => if go then Inv (done ++ [i]) s else Exit s) :
    Returns (Inv []) (forEach body is) fun go s => if go then Inv is s else Exit s := by
  suffices hrest : ∀ rest done, is = done ++ rest →
      Returns (Inv done) (forEach body rest) fun go s => if go then Inv is s else Exit s from
    hrest is [] rfl
  intro rest
  induction rest with
  | nil =>
    intro done hdone
    rw [List.append_nil] at hdone
    exact .ret fun s hs => hdone ▸ hs
  | cons i rest ih =>
    intro done hdone
    refine (h done i rest hdone).seq fun go => ?_
    refine .branch (fun hgo => ?_) fun hgo => ?_
    · refine (ih (done ++ [i]) (by simpa using hdone)).imp (fun s hs => ?_) fun _ _ hq => hq
      simpa [hgo] using hs
    · refine .ret fun s hs => ?_
      simpa [hgo] using hs

/-- There is one run only. -/
theorem Returns.triple (h : Returns P x Q) : Triple P x Q := by
  intro s hs r hr
  obtain ⟨r', hr', hq⟩ := h s hs
  rw [hr, Option.some.injEq] at hr'
  exact hr' ▸ hq

end Returns

/-! ## What a program leaves alone -/

/-- Where `x` returns, `g` reads what it read before. -/
def Leaves (g : σ → γ) (x : Prog σ α) : Prop := ∀ s r, x s = some r → g r.2 = g s

section Leaves

variable {g : σ → γ} {x y : Prog σ α}

theorem Leaves.ret {a : α} : Leaves g (pure a) := by
  intro s r hr
  cases hr
  rfl

theorem Leaves.seq {f : α → Prog σ β} (hx : Leaves g x) (hf : ∀ a, Leaves g (f a)) :
    Leaves g (x >>= f) := by
  intro s r hr
  obtain ⟨q, hq, hr⟩ := Option.bind_eq_some_iff.mp hr
  exact (hf q.1 q.2 r hr).trans (hx s q hq)

theorem Leaves.branch {c : Prop} [Decidable c] (hx : Leaves g x) (hy : Leaves g y) :
    Leaves g (if c then x else y) := by
  split
  · exact hx
  · exact hy

theorem Leaves.look {f : σ → α} : Leaves g (look f) := by
  intro s r hr
  cases hr
  rfl

theorem Leaves.store {f : σ → σ} (h : ∀ s, g (f s) = g s) : Leaves g (store f) := by
  intro s r hr
  cases hr
  exact h s

theorem Leaves.check {p : Bool} : Leaves g (check p) := by
  intro s r hr
  unfold Lib.check at hr
  split at hr
  · cases hr
    rfl
  · cases hr

theorem Leaves.onlyIf {c : Prop} [Decidable c] {x : Prog σ Unit} (hx : Leaves g x) :
    Leaves g (onlyIf c x) := .branch hx .ret

theorem Leaves.part {get : σ → τ} {set : τ → σ → σ} {z : Prog τ α} (h : ∀ t s, g (set t s) = g s) :
    Leaves g (zoom get set z) := by
  intro s r hr
  obtain ⟨q, -, rfl⟩ := Option.map_eq_some_iff.mp hr
  exact h q.2 s

theorem Leaves.each {ι : Type} {body : ι → Prog σ Bool} (h : ∀ i, Leaves g (body i)) (is : List ι) :
    Leaves g (forEach body is) := by
  induction is with
  | nil => exact .ret
  | cons i is ih => exact (h i).seq fun _ => .branch ih .ret

/-- What is said of `g` alone is kept. -/
theorem Leaves.keeps (hx : Leaves g x) (P : γ → Prop) :
    Triple (fun s => P (g s)) x (fun _ s => P (g s)) := by
  intro s hs r hr
  rw [hx s r hr]
  exact hs

end Leaves

/-! ## Two runs -/

/-- From two states with `P`, either both runs of `x` stop the machine, or
both return the same result and end with `Q`. -/
def Pair (P : σ → σ → Prop) (x : Prog σ α) (Q : α → σ → σ → Prop) : Prop :=
  ∀ s t, P s t → (x s = none ∧ x t = none) ∨
    ∃ a s' t', x s = some (a, s') ∧ x t = some (a, t') ∧ Q a s' t'

section Pair

variable {P P' : σ → σ → Prop} {Q Q' : α → σ → σ → Prop} {R : β → σ → σ → Prop} {x y : Prog σ α}

theorem Pair.ret {a : α} (h : ∀ s t, P s t → Q a s t) : Pair P (pure a) Q :=
  fun s t hst => .inr ⟨a, s, t, rfl, rfl, h s t hst⟩

theorem Pair.seq {f : α → Prog σ β} (hx : Pair P x Q) (hf : ∀ a, Pair (Q a) (f a) R) :
    Pair P (x >>= f) R := by
  intro s t hst
  have hbind : ∀ u, (x >>= f) u = (x u).bind fun r => f r.1 r.2 := fun u => rfl
  rcases hx s t hst with ⟨hs, ht⟩ | ⟨a, s', t', hs, ht, hq⟩
  · exact .inl ⟨by rw [hbind, hs]; rfl, by rw [hbind, ht]; rfl⟩
  · rw [hbind, hbind, hs, ht]
    exact hf a s' t' hq

theorem Pair.branch {c : Prop} [Decidable c] (hx : c → Pair P x Q) (hy : ¬ c → Pair P y Q) :
    Pair P (if c then x else y) Q := by
  split
  next h => exact hx h
  next h => exact hy h

/-- What both states agree on may be read. -/
theorem Pair.look {f : σ → α} (hf : ∀ s t, P s t → f s = f t)
    (h : ∀ s t, P s t → Q (f s) s t) : Pair P (look f) Q := by
  intro s t hst
  refine .inr ⟨f s, s, t, rfl, ?_, h s t hst⟩
  rw [hf s t hst]
  rfl

theorem Pair.store {f : σ → σ} {Q : Unit → σ → σ → Prop} (h : ∀ s t, P s t → Q () (f s) (f t)) :
    Pair P (store f) Q :=
  fun s t hst => .inr ⟨(), f s, f t, rfl, rfl, h s t hst⟩

theorem Pair.check {p : Bool} {Q : Unit → σ → σ → Prop}
    (h : ∀ s t, p = true → P s t → Q () s t) : Pair P (check p) Q := by
  intro s t hst
  unfold Lib.check
  split
  next hp => exact .inr ⟨(), s, t, rfl, rfl, h s t hp hst⟩
  · exact .inl ⟨rfl, rfl⟩

/-- A relation that the body keeps is kept by the loop. -/
theorem Pair.each {body : ι → Prog σ Bool} {is : List ι}
    (h : ∀ i ∈ is, Pair P (body i) (fun _ s t => P s t)) :
    Pair P (forEach body is) (fun _ s t => P s t) := by
  induction is with
  | nil => exact .ret fun s t hst => hst
  | cons i is ih =>
    have hrest : Pair P (forEach body is) (fun _ s t => P s t) :=
      ih fun j hj => h j (List.mem_cons_of_mem i hj)
    refine (h i List.mem_cons_self).seq fun go => ?_
    exact .branch (fun _ => hrest) fun _ => .ret fun s t hst => hst

/-- Two runs on a part of the state. -/
theorem Pair.part {get : σ → τ} {set : τ → σ → σ} {z : Prog τ α} {P' : τ → τ → Prop}
    {Q' : α → τ → τ → Prop} (hz : Pair P' z Q') (hP : ∀ s t, P s t → P' (get s) (get t))
    (hQ : ∀ a u v s t, P s t → Q' a u v → Q a (set u s) (set v t)) :
    Pair P (zoom get set z) Q := by
  intro s t hst
  unfold zoom
  rcases hz _ _ (hP s t hst) with ⟨hs, ht⟩ | ⟨a, u, v, hs, ht, hq⟩
  · exact .inl ⟨by rw [hs]; rfl, by rw [ht]; rfl⟩
  · exact .inr ⟨a, set u s, set v t, by rw [hs]; rfl, by rw [ht]; rfl, hQ a u v s t hst hq⟩

end Pair

end Wjos.Lib
