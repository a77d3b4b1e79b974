/-
Wjos.Lib.Sync — semaphores and locks with first-come-first-served wait lists.

`Semaphore` and `Lock` are the values; their operations say whether the caller
goes on and whom they wake. A permit or a lock is handed to the waiter that is
woken, so the waiter goes on without a second test.

The tasks of a system are given by `f : τ → α`, what each task is doing.
`Semaphore.Waits x waiting f` says that the wait list of `x` are the tasks that
are waiting for it, `Lock.Guards x inside waiting f` in addition that the owner
of the lock is the one task inside. One lemma for each operation keeps them.
`numberOf P f` counts the tasks that do something of kind `P`.
-/
import Mathlib.Data.Set.Card
import Wjos.Lib.CInt

namespace Wjos.Lib

/-! ## Counting tasks -/

section Counting

variable {τ α : Type*} {P : α → Bool} {f : τ → α} {t : τ} {x : α}

/-- The number of tasks of kind `P`. -/
noncomputable def numberOf (P : α → Bool) (f : τ → α) : Nat := {t | P (f t) = true}.ncard

/-- Finitely many tasks are of kind `P`. -/
def FinitelyMany (P : α → Bool) (f : τ → α) : Prop := {t | P (f t) = true}.Finite

theorem finitelyMany_none (h : ∀ t, P (f t) = false) : FinitelyMany P f := by
  unfold FinitelyMany
  simp [h]

theorem numberOf_none (h : ∀ t, P (f t) = false) : numberOf P f = 0 := by
  unfold numberOf
  simp [h]

variable [DecidableEq τ]

theorem FinitelyMany.update (h : FinitelyMany P f) (t : τ) (x : α) :
    FinitelyMany P (Function.update f t x) := by
  refine (Set.Finite.insert t h).subset fun u hu => ?_
  by_cases hut : u = t
  · exact .inl hut
  · rw [Set.mem_ofPred_eq, Function.update_of_ne hut] at hu
    exact .inr hu

omit [DecidableEq τ] in
/-- The task `t` counted apart from the others. -/
theorem numberOf_split (h : FinitelyMany P f) (t : τ) :
    numberOf P f = ({u | P (f u) = true} \ {t}).ncard + if P (f t) then 1 else 0 := by
  have hmem : t ∈ {u | P (f u) = true} ↔ P (f t) = true := Iff.rfl
  unfold numberOf
  split
  next ht => exact (Set.ncard_sdiff_singleton_add_one (hmem.mpr ht) h).symm
  next ht => rw [Set.sdiff_singleton_eq_self (mt hmem.mp ht), Nat.add_zero]

/-- One task does something else. -/
theorem numberOf_update (h : FinitelyMany P f) (t : τ) (x : α) :
    numberOf P (Function.update f t x) + (if P (f t) then 1 else 0) =
      numberOf P f + if P x then 1 else 0 := by
  have hrest : {u | P (Function.update f t x u) = true} \ {t} = {u | P (f u) = true} \ {t} := by
    ext u
    by_cases hut : u = t
    · simp [hut]
    · simp [hut]
  rw [numberOf_split (h.update t x) t, numberOf_split h t, hrest, Function.update_self]
  omega

omit [DecidableEq τ] in
/-- A task of kind `P` is counted. -/
theorem numberOf_pos (h : FinitelyMany P f) (ht : P (f t) = true) : 0 < numberOf P f :=
  (Set.ncard_pos h).mpr ⟨t, ht⟩

end Counting

/-! ## Semaphores -/

structure Semaphore (τ : Type*) where
  count : Int
  waitList : List τ

namespace Semaphore

variable {τ α : Type*} [DecidableEq τ] {x : Semaphore τ} {waiting : α → Bool} {f : τ → α} {t : τ}
  {a : α}

/-- Task `t` waits; the flag says whether it has got a permit. -/
def wait (x : Semaphore τ) (t : τ) : Semaphore τ × Bool :=
  if x.count > 0 then ({ x with count := cInt (x.count - 1) }, true)
  else ({ x with waitList := x.waitList ++ [t] }, false)

/-- The waiter that is given the permit, if there is one. -/
def notify (x : Semaphore τ) : Semaphore τ × Option τ :=
  match x.waitList with
  | [] => ({ x with count := cInt (x.count + 1) }, none)
  | t :: rest => ({ x with waitList := rest }, some t)

/-- The wait list are the tasks that are waiting. -/
structure Waits (x : Semaphore τ) (waiting : α → Bool) (f : τ → α) : Prop where
  nonneg : 0 ≤ x.count
  zero : x.waitList ≠ [] → x.count = 0
  nodup : x.waitList.Nodup
  mem : ∀ t, t ∈ x.waitList ↔ waiting (f t) = true

/-- A task that does not wait does something else, for which it does not
wait either. -/
theorem Waits.step (h : Waits x waiting f) (ht : waiting (f t) = false)
    (ha : waiting a = false) : Waits x waiting (Function.update f t a) := by
  refine ⟨h.nonneg, h.zero, h.nodup, fun u => ?_⟩
  by_cases hut : u = t
  · rw [hut, Function.update_self, h.mem, ht, ha]
  · rw [Function.update_of_ne hut, h.mem]

/-- A wait that is granted. -/
theorem Waits.granted (h : Waits x waiting f) (hpos : x.count > 0) (hmax : x.count ≤ intMax)
    (ht : waiting (f t) = false) (ha : waiting a = false) :
    x.wait t = ({ x with count := x.count - 1 }, true) ∧
      Waits { x with count := x.count - 1 } waiting (Function.update f t a) := by
  have hnil : x.waitList = [] := by
    by_contra hne
    have := h.zero hne
    omega
  have h' := h.step ht ha
  have hcount : cInt (x.count - 1) = x.count - 1 := cInt_eq (by omega) (by omega)
  rw [wait, if_pos hpos, hcount]
  exact ⟨rfl, by dsimp only; omega, fun hne => absurd hnil hne, h'.nodup, h'.mem⟩

/-- A wait that blocks. -/
theorem Waits.blocked (h : Waits x waiting f) (hpos : ¬x.count > 0) (ht : waiting (f t) = false)
    (ha : waiting a = true) :
    x.wait t = ({ x with waitList := x.waitList ++ [t] }, false) ∧
      Waits { x with waitList := x.waitList ++ [t] } waiting (Function.update f t a) := by
  have hout : t ∉ x.waitList := fun hm => by simp [(h.mem t).mp hm] at ht
  have hnonneg := h.nonneg
  refine ⟨if_neg hpos, hnonneg, fun _ => by dsimp only; omega, ?_, fun u => ?_⟩
  · exact List.nodup_append.mpr ⟨h.nodup, by simp, by
      rintro u hu v hv rfl
      exact hout (List.mem_singleton.mp hv ▸ hu)⟩
  · rw [List.mem_append, List.mem_singleton, h.mem]
    by_cases hut : u = t
    · rw [hut, Function.update_self, ha]
      simp
    · rw [Function.update_of_ne hut]
      simp [hut]

omit [DecidableEq τ] in
/-- A notify that nobody waits for. -/
theorem Waits.raised (h : Waits x waiting f) (hnil : x.waitList = []) (hmax : x.count < intMax) :
    x.notify = ({ x with count := x.count + 1 }, none) ∧
      Waits { x with count := x.count + 1 } waiting f := by
  have hnonneg := h.nonneg
  have hcount : cInt (x.count + 1) = x.count + 1 := cInt_eq (by omega) (by omega)
  refine ⟨by rw [notify, hnil]; simp only [hcount], ?_, fun hne => absurd hnil hne, h.nodup, h.mem⟩
  dsimp only
  omega

/-- A notify that hands the permit to the first waiter. -/
theorem Waits.woken {rest : List τ} (h : Waits x waiting f) (hl : x.waitList = t :: rest)
    (ha : waiting a = false) :
    x.notify = ({ x with waitList := rest }, some t) ∧ waiting (f t) = true ∧
      Waits { x with waitList := rest } waiting (Function.update f t a) := by
  have hnd := h.nodup
  rw [hl, List.nodup_cons] at hnd
  refine ⟨by rw [notify, hl], (h.mem t).mp (by simp [hl]), h.nonneg,
    fun _ => h.zero (by simp [hl]), hnd.2, fun u => ?_⟩
  by_cases hut : u = t
  · rw [hut, Function.update_self, ha]
    simp [hnd.1]
  · rw [Function.update_of_ne hut, ← h.mem, hl]
    simp [hut]

end Semaphore

/-! ## Locks -/

structure Lock (τ : Type*) where
  lockedCount : Int
  owner : Option τ
  waitList : List τ

namespace Lock

variable {τ α : Type*} [DecidableEq τ] {x : Lock τ} {inside waiting : α → Bool} {f : τ → α} {t : τ}
  {a : α}

/-- Nobody holds the lock. -/
def free : Lock τ := ⟨0, none, []⟩

/-- Task `t` takes the lock, or takes it once more; the flag says whether it
has got it. -/
def lock (x : Lock τ) (t : τ) : Lock τ × Bool :=
  if x.lockedCount = 0 then
    ({ x with lockedCount := cInt (x.lockedCount + 1), owner := some t }, true)
  else if x.owner = some t then ({ x with lockedCount := cInt (x.lockedCount + 1) }, true)
  else ({ x with waitList := x.waitList ++ [t] }, false)

/-- The waiter that the lock is handed to, if there is one. -/
def unlock (x : Lock τ) (t : τ) : Lock τ × Option τ :=
  if x.owner = some t then
    if cInt (x.lockedCount - 1) = 0 then
      match x.waitList with
      | [] => ({ x with lockedCount := cInt (x.lockedCount - 1), owner := none }, none)
      | u :: rest => (⟨1, some u, rest⟩, some u)
    else ({ x with lockedCount := cInt (x.lockedCount - 1) }, none)
  else (x, none)

/-- The owner is the one task inside, and the wait list are the tasks that are
waiting. No task takes the lock twice. -/
structure Guards (x : Lock τ) (inside waiting : α → Bool) (f : τ → α) : Prop where
  owner : ∀ t, x.owner = some t ↔ inside (f t) = true
  count : x.lockedCount = if x.owner = none then 0 else 1
  unowned : x.owner = none → x.waitList = []
  nodup : x.waitList.Nodup
  mem : ∀ t, t ∈ x.waitList ↔ waiting (f t) = true

omit [DecidableEq τ] in
theorem Guards.unique (h : Guards x inside waiting f) {u : τ} (ht : inside (f t) = true)
    (hu : inside (f u) = true) : t = u :=
  Option.some.inj (((h.owner t).mpr ht).symm.trans ((h.owner u).mpr hu))

/-- A task does something else, inside if it was inside and waiting if it was
waiting. -/
theorem Guards.step (h : Guards x inside waiting f) (hi : inside a = inside (f t))
    (hw : waiting a = waiting (f t)) : Guards x inside waiting (Function.update f t a) := by
  refine ⟨fun u => ?_, h.count, h.unowned, h.nodup, fun u => ?_⟩
  · by_cases hut : u = t
    · rw [hut, Function.update_self, h.owner, hi]
    · rw [Function.update_of_ne hut, h.owner]
  · by_cases hut : u = t
    · rw [hut, Function.update_self, h.mem, hw]
    · rw [Function.update_of_ne hut, h.mem]

/-- A task that is outside takes the lock or starts to wait. -/
theorem Guards.lock (h : Guards x inside waiting f) (ht : inside (f t) = false)
    (hw : waiting (f t) = false) {b : α} (ha : inside a = true ∧ waiting a = false)
    (hb : inside b = false ∧ waiting b = true) :
    (∃ x', x.lock t = (x', true) ∧ (∀ u, inside (f u) = false) ∧
        Guards x' inside waiting (Function.update f t a)) ∨
      ∃ x', x.lock t = (x', false) ∧ Guards x' inside waiting (Function.update f t b) := by
  have hnot : x.owner ≠ some t := fun he => by simp [(h.owner t).mp he] at ht
  have hcount := h.count
  cases hown : x.owner with
  | none =>
    rw [hown, if_pos rfl] at hcount
    have hnone : ∀ u, inside (f u) = false := fun u => by
      have := h.owner u
      rw [hown] at this
      simpa using this
    refine .inl ⟨⟨1, some t, x.waitList⟩, ?_, hnone, fun u => ?_, by simp, by simp, h.nodup,
      fun u => ?_⟩
    · rw [Lock.lock, if_pos hcount, hcount]
      rfl
    · by_cases hut : u = t
      · rw [hut, Function.update_self, ha.1]
        simp
      · rw [Function.update_of_ne hut, hnone u]
        simp [Ne.symm hut]
    · by_cases hut : u = t
      · rw [hut, Function.update_self, ha.2, h.mem, hw]
      · rw [Function.update_of_ne hut, h.mem]
  | some v =>
    rw [hown, if_neg (by simp)] at hcount
    have hout : t ∉ x.waitList := fun hm => by simp [(h.mem t).mp hm] at hw
    refine .inr ⟨{ x with waitList := x.waitList ++ [t] }, ?_, fun u => ?_, ?_, ?_, ?_, fun u => ?_⟩
    · rw [Lock.lock, if_neg (by omega), if_neg hnot]
    · by_cases hut : u = t
      · rw [hut, Function.update_self, hb.1]
        simp [hnot]
      · rw [Function.update_of_ne hut, ← h.owner]
    · dsimp only
      rw [hown, if_neg (by simp), hcount]
    · exact fun he => absurd (hown.symm.trans he) (by simp)
    · exact List.nodup_append.mpr ⟨h.nodup, by simp, by
        rintro u hu v' hv rfl
        exact hout (List.mem_singleton.mp hv ▸ hu)⟩
    · rw [List.mem_append, List.mem_singleton, h.mem]
      by_cases hut : u = t
      · rw [hut, Function.update_self, hb.2]
        simp
      · rw [Function.update_of_ne hut]
        simp [hut]

/-- The task inside leaves; the first waiter, if there is one, is inside
then. -/
theorem Guards.unlock (h : Guards x inside waiting f) (ht : inside (f t) = true)
    (hw : waiting (f t) = false) {b : τ → α} (ha : inside a = false ∧ waiting a = false)
    (hb : ∀ u, waiting (f u) = true → inside (b u) = true ∧ waiting (b u) = false) :
    (∃ x', x.unlock t = (x', none) ∧ Guards x' inside waiting (Function.update f t a)) ∨
      ∃ x' u, x.unlock t = (x', some u) ∧ u ≠ t ∧ waiting (f u) = true ∧
        Guards x' inside waiting (Function.update (Function.update f t a) u (b u)) := by
  have hown := (h.owner t).mpr ht
  have hcount := h.count
  rw [hown, if_neg (by simp)] at hcount
  have hleft : cInt (x.lockedCount - 1) = 0 := by
    rw [hcount]
    rfl
  have hone : ∀ u, u ≠ t → inside (f u) = false := fun u hut => by
    have := h.owner u
    rw [hown] at this
    simpa [Ne.symm hut] using this
  cases hl : x.waitList with
  | nil =>
    refine .inl ⟨{ x with lockedCount := 0, owner := none }, ?_, fun u => ?_, by simp, fun _ => hl,
      h.nodup, fun u => ?_⟩
    · rw [Lock.unlock, if_pos hown, hleft, if_pos rfl, hl]
    · by_cases hut : u = t
      · rw [hut, Function.update_self, ha.1]
        simp
      · rw [Function.update_of_ne hut, hone u hut]
        simp
    · by_cases hut : u = t
      · rw [hut, Function.update_self, ha.2, h.mem, hw]
      · rw [Function.update_of_ne hut, h.mem]
  | cons v rest =>
    have hnd := h.nodup
    rw [hl, List.nodup_cons] at hnd
    have hv : waiting (f v) = true := (h.mem v).mp (by simp [hl])
    have hvt : v ≠ t := fun he => by simp [he ▸ hv] at hw
    refine .inr ⟨⟨1, some v, rest⟩, v, ?_, hvt, hv, fun u => ?_, by simp, by simp, hnd.2,
      fun u => ?_⟩
    · rw [Lock.unlock, if_pos hown, hleft, if_pos rfl, hl]
    · by_cases huv : u = v
      · rw [huv, Function.update_self, (hb v hv).1]
        simp
      · rw [Function.update_of_ne huv]
        by_cases hut : u = t
        · rw [hut, Function.update_self, ha.1]
          simp [hvt]
        · rw [Function.update_of_ne hut, hone u hut]
          simp [Ne.symm huv]
    · by_cases huv : u = v
      · rw [huv, Function.update_self, (hb v hv).2]
        simp [hnd.1]
      · rw [Function.update_of_ne huv]
        by_cases hut : u = t
        · have htl : t ∉ x.waitList := fun hm => by simp [(h.mem t).mp hm] at hw
          rw [hl] at htl
          rw [hut, Function.update_self, ha.2]
          simpa using fun hm => htl (List.mem_cons_of_mem _ hm)
        · rw [Function.update_of_ne hut, ← h.mem, hl]
          simp [huv]

end Lock

end Wjos.Lib
