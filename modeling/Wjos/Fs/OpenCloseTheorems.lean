/-
Wjos.Fs.OpenCloseTheorems — an open file slot that is being closed.

`sys_close` takes the last reference away before it has closed the file, so a
slot that is being closed looks free to `file_alloc`. `SlotsOwned` says that a
slot in the hands of a call is in the hands of no other call: one that is
being closed has count 0 and the fields it had when the last reference went,
one that is being opened has count 1. Every step keeps it except a
`file_alloc` that takes a slot that is being closed, and a `sys_close` through
a descriptor that leads to a slot that is being opened, which only a
descriptor left behind by `task_remove_fd` does; `CallsApart` excludes these.
`close_keeps_slot` reads off what the two calls promise each other, and
`open_takes_closing_slot` is a run without it.
-/
import Wjos.Lib.Run
import Wjos.Fs.OpenClose
import Wjos.Fs.FsTheorems

namespace Wjos

open Lib

/-- The slot that a `sys_open` in progress has. -/
def FdPc.opens : FdPc → Option Nat
  | .opened file _ _ => some file
  | .openLock file _ _ => some file
  | .openWait file _ => some file
  | .openFs file _ _ => some file
  | .openUnlock file _ _ _ => some file
  | .openFailed file _ => some file
  | _ => none

/-- The slot and the descriptor of a `sys_close` that has taken the last
reference and has not done its `file_free`. -/
def FdPc.closes : FdPc → Option (Nat × Int)
  | .closeLock file fd _ => some (file, fd)
  | .closeWait file fd => some (file, fd)
  | .closeFs file fd _ => some (file, fd)
  | .closeEntry file fd _ => some (file, fd)
  | .closeUnlock file fd _ => some (file, fd)
  | .closeFree file fd => some (file, fd)
  | _ => none

/-! ## What is promised -/

/-- What a step promises: `file_alloc` takes no slot that is being closed,
`fatfs_close` writes back what was in the slot when the last reference went,
and its `file_free` finds the count at 0. -/
def CloseUndisturbed (s : OpenClose) : OpenCloseEvent → Prop
  | .sysOpen t _ _ => s.pc t = .user →
      ∀ i, (fileAlloc s.desc).2 = some i → ∀ u fd, (s.pc u).closes ≠ some (i, fd)
  | .step t =>
      (∀ i fd index, s.pc t = .closeEntry i fd index →
        fatfsCloseEntry (s.file i) index =
          fatfsCloseEntry (s.closing t) (s.closing t).pIndex) ∧
      ∀ i fd, s.pc t = .closeFree i fd → fileFree s.desc i = s.desc
  | _ => True

/-- A `sys_open` scans the table while there is a slot with count 0 below
every one that is being closed, and a `sys_close` is about a slot that is not
being opened. -/
def CallsApart (s : OpenClose) : OpenCloseEvent → Prop
  | .sysOpen t _ _ => s.pc t = .user →
      ∀ u i fd, (s.pc u).closes = some (i, fd) → ∃ j < i, s.desc.ref j = 0
  | .sysClose t fd => ∀ i, taskFile s.desc t fd = some i → ∀ u, (s.pc u).opens ≠ some i
  | _ => True

/-! ## The invariant -/

structure SlotsOwned (s : OpenClose) : Prop where
  closing : ∀ t i fd, (s.pc t).closes = some (i, fd) →
    s.desc.ref i = 0 ∧ s.file i = s.closing t
  entry : ∀ t i fd index, s.pc t = .closeEntry i fd index → index = (s.closing t).pIndex
  closer : ∀ t u i fd fd', (s.pc t).closes = some (i, fd) → (s.pc u).closes = some (i, fd') → t = u
  opening : ∀ t i, (s.pc t).opens = some i → s.desc.ref i = 1
  opener : ∀ t u i, (s.pc t).opens = some i → (s.pc u).opens = some i → t = u

/-- `file_alloc` takes the lowest slot with count 0. -/
theorem fileAlloc_found {s r : Files} {i : Nat} (h : fileAlloc s = (r, some i)) :
    r = { s with ref := Function.update s.ref i 1 } ∧ s.ref i = 0 ∧ ∀ j < i, s.ref j ≠ 0 := by
  unfold fileAlloc at h
  split at h
  · cases h
  next k hk =>
    cases h
    refine ⟨rfl, of_decide_eq_true (findSlot_eq_some hk).1, fun j hj => ?_⟩
    exact of_decide_eq_false (findSlot_first hk (Nat.zero_le j) hj)

/-- `task_remove_fd` leaves the counts alone. -/
theorem taskRemoveFd_ref (s : Files) (t : TaskId) (fd : Int) :
    (taskRemoveFd s t fd).ref = s.ref := by
  unfold taskRemoveFd
  split <;> rfl

section Invariant

variable {s s' : OpenClose} {t : TaskId}

/-- Where nobody opens or closes, nothing is said. -/
theorem slotsOwned_of_user (h : ∀ t, s.pc t = .user) : SlotsOwned s where
  closing := fun t i fd hc => by simp [h t, FdPc.closes] at hc
  entry := fun t i fd index hc => by simp [h t] at hc
  closer := fun t u i fd fd' hc => by simp [h t, FdPc.closes] at hc
  opening := fun t i ho => by simp [h t, FdPc.opens] at ho
  opener := fun t u i ho => by simp [h t, FdPc.opens] at ho

/-- Under the condition, a slot that `file_alloc` takes is not being closed. -/
theorem CallsApart.not_closing {flags : Nat} {dev : Bool} {r : Files} {i : Nat}
    (hc : CallsApart s (.sysOpen t flags dev)) (hpc : s.pc t = .user)
    (ha : fileAlloc s.desc = (r, some i)) (u : TaskId) (fd : Int) :
    (s.pc u).closes ≠ some (i, fd) := by
  intro hu
  obtain ⟨j, hj, h0⟩ := hc hpc u i fd hu
  exact (fileAlloc_found ha).2.2 j hj h0

/-- The promises of a step follow from the invariant. -/
theorem SlotsOwned.undisturbed {e : OpenCloseEvent} (h : SlotsOwned s) (hc : CallsApart s e) :
    CloseUndisturbed s e := by
  cases e with
  | sysOpen t flags dev =>
    intro hpc i hi
    have hpair : fileAlloc s.desc = ((fileAlloc s.desc).1, some i) := by rw [← hi]
    exact hc.not_closing hpc hpair
  | step t =>
    refine ⟨fun i fd index hpc => ?_, fun i fd hpc => ?_⟩
    · obtain ⟨-, hfile⟩ := h.closing t i fd (by rw [hpc]; rfl)
      rw [hfile, h.entry t i fd index hpc]
    · obtain ⟨h0, -⟩ := h.closing t i fd (by rw [hpc]; rfl)
      exact if_neg (not_not.mpr h0)
  | _ => trivial

/-- Tasks go on inside the call they are in, or leave it. -/
theorem SlotsOwned.move (h : SlotsOwned s) (hdesc : s'.desc = s.desc) (hfile : s'.file = s.file)
    (hcl : s'.closing = s.closing)
    (ho : ∀ u i, (s'.pc u).opens = some i → (s.pc u).opens = some i)
    (hc : ∀ u x, (s'.pc u).closes = some x → (s.pc u).closes = some x)
    (he : ∀ u i fd index, s'.pc u = .closeEntry i fd index →
      s.pc u = .closeEntry i fd index ∨ index = (s.closing u).pIndex) : SlotsOwned s' where
  closing := fun u i fd hu => by
    rw [hdesc, hfile, hcl]
    exact h.closing u i fd (hc u _ hu)
  entry := fun u i fd index hu => by
    rw [hcl]
    exact (he u i fd index hu).elim (h.entry u i fd index) id
  closer := fun u v i fd fd' hu hv => h.closer u v i fd fd' (hc u _ hu) (hc v _ hv)
  opening := fun u i hu => by
    rw [hdesc]
    exact h.opening u i (ho u i hu)
  opener := fun u v i hu hv => h.opener u v i (ho u i hu) (ho v i hv)

/-- One task goes on inside its call, or leaves it. -/
theorem SlotsOwned.goOn (h : SlotsOwned s) {pc : FdPc} (ho : ∀ i, pc.opens = some i →
      (s.pc t).opens = some i) (hc : ∀ x, pc.closes = some x → (s.pc t).closes = some x)
    (he : ∀ i fd index, pc = .closeEntry i fd index → index = (s.closing t).pIndex)
    (mutex : Lock TaskId) (written : List WriteBack) :
    SlotsOwned { s with
      pc := Function.update s.pc t pc, mutex := mutex, written := written } := by
  refine h.move rfl rfl rfl (fun u i hu => ?_) (fun u x hu => ?_) fun u i fd index hu => ?_
  · dsimp only at hu
    by_cases hut : u = t
    · rw [hut, Function.update_self] at hu
      exact hut ▸ ho i hu
    · rwa [Function.update_of_ne hut] at hu
  · dsimp only at hu
    by_cases hut : u = t
    · rw [hut, Function.update_self] at hu
      exact hut ▸ hc x hu
    · rwa [Function.update_of_ne hut] at hu
  · dsimp only at hu
    by_cases hut : u = t
    · rw [hut, Function.update_self] at hu
      exact .inr (hut ▸ he i fd index hu)
    · rw [Function.update_of_ne hut] at hu
      exact .inl hu

theorem FdPc.granted_opens (pc : FdPc) : pc.granted.opens = pc.opens := by cases pc <;> rfl

theorem FdPc.granted_closes (pc : FdPc) : pc.granted.closes = pc.closes := by cases pc <;> rfl

theorem FdPc.granted_entry {pc : FdPc} {i : Nat} {fd index : Int}
    (h : pc.granted = .closeEntry i fd index) : pc = .closeEntry i fd index := by
  cases pc <;> simp_all [FdPc.granted]

theorem SlotsOwned.protect (h : SlotsOwned s) {dev : Bool} {inside waiting : FdPc}
    (ho : inside.opens = (s.pc t).opens ∧ waiting.opens = (s.pc t).opens)
    (hc : inside.closes = (s.pc t).closes ∧ waiting.closes = (s.pc t).closes)
    (he : ∀ i fd index, inside ≠ .closeEntry i fd index ∧ waiting ≠ .closeEntry i fd index) :
    SlotsOwned (fsProtect s t dev inside waiting) := by
  unfold fsProtect
  split
  · exact h.goOn (fun i hi => ho.1 ▸ hi) (fun x hx => hc.1 ▸ hx)
      (fun i fd index hpc => absurd hpc (he i fd index).1) _ _
  · dsimp only
    split
    · exact h.goOn (fun i hi => ho.1 ▸ hi) (fun x hx => hc.1 ▸ hx)
        (fun i fd index hpc => absurd hpc (he i fd index).1) _ _
    · exact h.goOn (fun i hi => ho.2 ▸ hi) (fun x hx => hc.2 ▸ hx)
        (fun i fd index hpc => absurd hpc (he i fd index).2) _ _

theorem SlotsOwned.unprotect (h : SlotsOwned s) {dev : Bool} {next : FdPc}
    (ho : ∀ i, next.opens = some i → (s.pc t).opens = some i)
    (hc : ∀ x, next.closes = some x → (s.pc t).closes = some x)
    (he : ∀ i fd index, next ≠ .closeEntry i fd index) :
    SlotsOwned (fsUnprotect s t dev next) := by
  have hgo := fun mutex => h.goOn ho hc (fun i fd index hpc => absurd hpc (he i fd index)) mutex
    s.written
  unfold fsUnprotect
  split
  · exact hgo s.mutex
  · dsimp only
    cases (s.mutex.unlock t).2 with
    | none => exact hgo _
    | some u =>
      -- the waiter stays in its call
      refine (hgo (s.mutex.unlock t).1).move rfl rfl rfl (fun v i hv => ?_) (fun v x hv => ?_)
        fun v i fd index hv => ?_
      · dsimp only [wakeFd] at hv ⊢
        by_cases hvu : v = u
        · rw [hvu, Function.update_self, FdPc.granted_opens] at hv
          rwa [hvu]
        · rwa [Function.update_of_ne hvu] at hv
      · dsimp only [wakeFd] at hv ⊢
        by_cases hvu : v = u
        · rw [hvu, Function.update_self, FdPc.granted_closes] at hv
          rwa [hvu]
        · rwa [Function.update_of_ne hvu] at hv
      · dsimp only [wakeFd] at hv ⊢
        by_cases hvu : v = u
        · rw [hvu, Function.update_self] at hv
          rw [hvu]
          exact .inl (FdPc.granted_entry hv)
        · rw [Function.update_of_ne hvu] at hv
          exact .inl hv

/-- A task takes another step with the slot `i`, which no other call has. -/
theorem SlotsOwned.take (h : SlotsOwned s) (i : Nat) {pc : FdPc}
    (hfree : ∀ u, u ≠ t → (s.pc u).opens ≠ some i ∧ ∀ fd, (s.pc u).closes ≠ some (i, fd))
    {desc : Files} {file : Nat → File} {closing : TaskId → File}
    (hopen : ∀ j, pc.opens = some j → j = i ∧ desc.ref i = 1)
    (hclose : ∀ j fd, pc.closes = some (j, fd) → j = i ∧ desc.ref i = 0 ∧ file i = closing t)
    (hentry : ∀ j fd index, pc ≠ .closeEntry j fd index)
    (hother : ∀ j, j ≠ i → desc.ref j = s.desc.ref j ∧ file j = s.file j)
    (hclosing : ∀ u, u ≠ t → closing u = s.closing u) (dev : Nat → Bool) :
    SlotsOwned { s with
      desc := desc, file := file, closing := closing, dev := dev
      pc := Function.update s.pc t pc } := by
  have hpc : ∀ u, u ≠ t → Function.update s.pc t pc u = s.pc u := fun u hu =>
    Function.update_of_ne hu _ _
  have hself : Function.update s.pc t pc t = pc := Function.update_self ..
  refine ⟨fun u j fd hu => ?_, fun u j fd index hu => ?_, fun u v j fd fd' hu hv => ?_,
    fun u j hu => ?_, fun u v j hu hv => ?_⟩ <;> dsimp only at hu ⊢
  · by_cases hut : u = t
    · subst hut
      rw [hself] at hu
      obtain ⟨rfl, h0, hf⟩ := hclose j fd hu
      exact ⟨h0, hf⟩
    · rw [hpc u hut] at hu
      have hne : j ≠ i := fun he => (hfree u hut).2 fd (he ▸ hu)
      rw [(hother j hne).1, (hother j hne).2, hclosing u hut]
      exact h.closing u j fd hu
  · by_cases hut : u = t
    · subst hut
      rw [hself] at hu
      exact absurd hu (hentry j fd index)
    · rw [hpc u hut] at hu
      rw [hclosing u hut]
      exact h.entry u j fd index hu
  · dsimp only at hv
    by_cases hut : u = t <;> by_cases hvt : v = t
    · rw [hut, hvt]
    · subst hut
      rw [hself] at hu
      rw [hpc v hvt] at hv
      exact absurd ((hclose j fd hu).1 ▸ hv) ((hfree v hvt).2 fd')
    · subst hvt
      rw [hself] at hv
      rw [hpc u hut] at hu
      exact absurd ((hclose j fd' hv).1 ▸ hu) ((hfree u hut).2 fd)
    · rw [hpc u hut] at hu
      rw [hpc v hvt] at hv
      exact h.closer u v j fd fd' hu hv
  · by_cases hut : u = t
    · subst hut
      rw [hself] at hu
      obtain ⟨rfl, h1⟩ := hopen j hu
      exact h1
    · rw [hpc u hut] at hu
      have hne : j ≠ i := fun he => (hfree u hut).1 (he ▸ hu)
      rw [(hother j hne).1]
      exact h.opening u j hu
  · dsimp only at hv
    by_cases hut : u = t <;> by_cases hvt : v = t
    · rw [hut, hvt]
    · subst hut
      rw [hself] at hu
      rw [hpc v hvt] at hv
      exact absurd ((hopen j hu).1 ▸ hv) (hfree v hvt).1
    · subst hvt
      rw [hself] at hv
      rw [hpc u hut] at hu
      exact absurd ((hopen j hv).1 ▸ hu) (hfree u hut).1
    · rw [hpc u hut] at hu
      rw [hpc v hvt] at hv
      exact h.opener u v j hu hv

/-- The counts of slots that are in no hands do not matter, nor do the
descriptors. -/
theorem SlotsOwned.desc (h : SlotsOwned s) {desc : Files}
    (href : ∀ u i, (s.pc u).opens = some i ∨ (∃ fd, (s.pc u).closes = some (i, fd)) →
      desc.ref i = s.desc.ref i) : SlotsOwned { s with desc := desc } where
  closing := fun u i fd hu => by
    obtain ⟨h0, hf⟩ := h.closing u i fd hu
    exact ⟨(href u i (.inr ⟨fd, hu⟩)).trans h0, hf⟩
  entry := h.entry
  closer := h.closer
  opening := fun u i hu => (href u i (.inl hu)).trans (h.opening u i hu)
  opener := h.opener

/-- A task leaves its call. -/
theorem SlotsOwned.leave (h : SlotsOwned s) {pc : FdPc} (ho : pc.opens = none)
    (hc : pc.closes = none) : SlotsOwned { s with pc := Function.update s.pc t pc } :=
  h.goOn (fun i hi => by rw [ho] at hi; cases hi) (fun x hx => by rw [hc] at hx; cases hx)
    (fun i fd index hpc => by rw [hpc] at hc; cases hc) s.mutex s.written

end Invariant

/-! ## Every step keeps it -/

section Step

variable {s s' : OpenClose}

/-- The calls that other tasks are in have other slots. -/
theorem SlotsOwned.other_calls (h : SlotsOwned s) {t : TaskId} {i : Nat}
    (hi : (s.pc t).opens = some i) (u : TaskId) (hu : u ≠ t) :
    (s.pc u).opens ≠ some i ∧ ∀ fd, (s.pc u).closes ≠ some (i, fd) := by
  refine ⟨fun ho => hu (h.opener u t i ho hi), fun fd hc => ?_⟩
  have h0 := (h.closing u i fd hc).1
  have h1 := h.opening t i hi
  omega

/-- `sys_open` takes a slot. -/
theorem SlotsOwned.sysOpen (h : SlotsOwned s) {t : TaskId} {flags : Nat} {dev : Bool}
    (hc : CallsApart s (.sysOpen t flags dev))
    (hs : openCloseStep s (.sysOpen t flags dev) = some s') : SlotsOwned s' := by
  unfold openCloseStep at hs
  dsimp only at hs
  split at hs
  swap
  · cases hs
  next hpc =>
  split at hs
  · exact Option.some.inj hs ▸ h
  next desc i ha =>
    obtain ⟨hdesc, h0, -⟩ := fileAlloc_found ha
    have hfree : ∀ u, u ≠ t →
        (s.pc u).opens ≠ some i ∧ ∀ fd, (s.pc u).closes ≠ some (i, fd) := by
      refine fun u _ => ⟨fun ho => ?_, hc.not_closing hpc ha u⟩
      have := h.opening u i ho
      omega
    rw [← Option.some.inj hs, hdesc]
    refine h.take i hfree (fun j hj => ?_) (fun j fd hj => ?_) (fun j fd index => by simp)
      (fun j hj => ?_) (fun u _ => rfl) s.dev
    · exact ⟨(Option.some.inj hj).symm, Function.update_self ..⟩
    · cases hj
    · exact ⟨Function.update_of_ne hj _ _, Function.update_of_ne hj _ _⟩

/-- `sys_close` gives a reference back. -/
theorem SlotsOwned.sysClose (h : SlotsOwned s) {t : TaskId} {fd : Int}
    (hc : CallsApart s (.sysClose t fd))
    (hs : openCloseStep s (.sysClose t fd) = some s') : SlotsOwned s' := by
  unfold openCloseStep at hs
  dsimp only at hs
  split at hs
  swap
  · cases hs
  next hpc =>
  split at hs
  · exact Option.some.inj hs ▸ h
  split at hs
  · exact Option.some.inj hs ▸ h
  next i htask =>
  split at hs
  swap
  · cases hs
  next hpos =>
  -- no other call has the slot: it is not being opened, and its count is not 0
  have hfree : ∀ u, (s.pc u).opens ≠ some i ∧ ∀ fd, (s.pc u).closes ≠ some (i, fd) := by
    refine fun u => ⟨hc i htask u, fun fd' hcl => ?_⟩
    have := (h.closing u i fd' hcl).1
    omega
  split at hs
  next h1 =>
    rw [← Option.some.inj hs]
    refine h.take i (fun u _ => hfree u) (fun j hj => ?_) (fun j fd' hj => ?_)
      (fun j fd index => by simp) (fun j hj => ?_) (fun u hu => ?_) s.dev
    · cases hj
    · obtain ⟨rfl, rfl⟩ := Prod.mk.inj (Option.some.inj hj)
      refine ⟨rfl, ?_, ?_⟩
      · exact (Function.update_self ..).trans (by omega)
      · exact (Function.update_self t (s.file i) s.closing).symm
    · exact ⟨Function.update_of_ne hj _ _, rfl⟩
    · exact Function.update_of_ne hu _ _
  next h1 =>
    rw [← Option.some.inj hs]
    refine h.desc fun u j hj => ?_
    have hji : j ≠ i := by
      rintro rfl
      exact hj.elim (hfree u).1 fun ⟨fd', hcl⟩ => (hfree u).2 fd' hcl
    rw [taskRemoveFd_ref]
    exact Function.update_of_ne hji _ _

theorem SlotsOwned.fsOpen (h : SlotsOwned s) {t : TaskId} {file : Option File}
    (hs : openCloseStep s (.fsOpen t file) = some s') : SlotsOwned s' := by
  unfold openCloseStep at hs
  dsimp only at hs
  split at hs
  swap
  · cases hs
  next i fd dev hpc =>
  have hi : (s.pc t).opens = some i := by rw [hpc]; rfl
  split at hs
  · rw [← Option.some.inj hs]
    exact h.goOn (fun j hj => by rw [hpc]; exact hj) (fun x hx => by cases hx)
      (fun j fd index hj => by cases hj) s.mutex s.written
  · rw [← Option.some.inj hs]
    refine h.take i (h.other_calls hi) (fun j hj => ?_) (fun j fd' hj => by cases hj)
      (fun j fd index => by simp) (fun j hj => ?_) (fun u _ => rfl) s.dev
    · exact ⟨(Option.some.inj hj).symm, h.opening t i hi⟩
    · exact ⟨rfl, Function.update_of_ne hj _ _⟩

theorem SlotsOwned.fsClose (h : SlotsOwned s) {t : TaskId} {ok : Bool}
    (hs : openCloseStep s (.fsClose t ok) = some s') : SlotsOwned s' := by
  unfold openCloseStep at hs
  dsimp only at hs
  split at hs
  swap
  · cases hs
  next i fd dev hpc =>
  have hfile := (h.closing t i fd (by rw [hpc]; rfl)).2
  rw [← Option.some.inj hs]
  refine h.goOn (fun j hj => ?_) (fun x hx => ?_) (fun j fd' index hj => ?_) s.mutex s.written
  · split at hj <;> cases hj
  · rw [hpc]
    split at hx <;> exact hx
  · split at hj
    · cases hj
    · cases hj
      rw [hfile]

theorem SlotsOwned.step (h : SlotsOwned s) {t : TaskId}
    (hs : openCloseStep s (.step t) = some s') : SlotsOwned s' := by
  unfold openCloseStep at hs
  dsimp only at hs
  cases hpc : s.pc t with
  | opened i flags dev =>
    rw [hpc] at hs
    dsimp only at hs
    have hi : (s.pc t).opens = some i := by rw [hpc]; rfl
    have hdesc : ∀ r fd, taskAllocFd s.desc t i = (r, fd) → r.ref = s.desc.ref := by
      intro r fd ha
      rcases taskAllocFd_cases s.desc t i with ⟨hr, -⟩ | ⟨k, -, -, -, hr⟩ <;> rw [hr] at ha <;>
        cases ha <;> rfl
    cases ha : taskAllocFd s.desc t i with
    | mk r fd =>
    rw [ha] at hs
    dsimp only at hs
    split at hs
    · rw [← Option.some.inj hs]
      refine h.take i (h.other_calls hi) (fun j hj => ?_) (fun j fd' hj => by cases hj)
        (fun j fd index => by simp) (fun j _ => ⟨?_, rfl⟩) (fun u _ => rfl) s.dev
      · rw [hdesc r fd ha]
        exact ⟨(Option.some.inj hj).symm, h.opening t i hi⟩
      · rw [hdesc r fd ha]
    · rw [← Option.some.inj hs]
      refine h.take i (h.other_calls hi) (fun j hj => ?_) (fun j fd' hj => by cases hj)
        (fun j fd index => by simp) (fun j hj => ⟨?_, ?_⟩) (fun u _ => rfl) _
      · exact ⟨(Option.some.inj hj).symm, Function.update_self ..⟩
      · rw [← hdesc r fd ha]
        exact Function.update_of_ne hj _ _
      · exact Function.update_of_ne hj _ _
  | openLock i fd dev =>
    rw [hpc] at hs
    rw [← Option.some.inj hs]
    exact h.protect (by rw [hpc]; exact ⟨rfl, rfl⟩) (by rw [hpc]; exact ⟨rfl, rfl⟩) (by simp)
  | openUnlock i fd dev ok =>
    rw [hpc] at hs
    rw [← Option.some.inj hs]
    refine h.unprotect (fun j hj => ?_) (fun x hx => ?_) fun j fd index => ?_
    · rw [hpc]
      cases ok
      · exact hj
      · cases hj
    · cases ok <;> cases hx
    · cases ok <;> simp
  | openFailed i fd =>
    rw [hpc] at hs
    rw [← Option.some.inj hs]
    have hi : (s.pc t).opens = some i := by rw [hpc]; rfl
    have h1 := h.opening t i hi
    have hfree : fileFree s.desc i =
        { s.desc with ref := Function.update s.desc.ref i (s.desc.ref i - 1) } :=
      if_pos (by omega)
    refine h.take i (h.other_calls hi) (fun j hj => ?_) (fun j fd' hj => ?_)
      (fun j fd' index => ?_) (fun j hj => ⟨?_, rfl⟩) (fun u _ => rfl) s.dev
    · split at hj <;> cases hj
    · split at hj <;> cases hj
    · split <;> simp
    · rw [hfree]
      exact Function.update_of_ne hj _ _
  | closeLock i fd dev =>
    rw [hpc] at hs
    rw [← Option.some.inj hs]
    exact h.protect (by rw [hpc]; exact ⟨rfl, rfl⟩) (by rw [hpc]; exact ⟨rfl, rfl⟩) (by simp)
  | closeEntry i fd index =>
    rw [hpc] at hs
    rw [← Option.some.inj hs]
    exact h.goOn (fun j hj => by cases hj) (fun x hx => by rw [hpc]; exact hx)
      (fun j fd index hj => by cases hj) s.mutex _
  | closeUnlock i fd dev =>
    rw [hpc] at hs
    rw [← Option.some.inj hs]
    exact h.unprotect (fun j hj => by cases hj) (fun x hx => by rw [hpc]; exact hx) (by simp)
  | closeFree i fd =>
    rw [hpc] at hs
    rw [← Option.some.inj hs]
    -- the count is 0: `file_free` does nothing
    have h0 := (h.closing t i fd (by rw [hpc]; rfl)).1
    have hfree : fileFree s.desc i = s.desc := if_neg (not_not.mpr h0)
    rw [hfree]
    exact h.leave rfl rfl
  | removeFd fd =>
    rw [hpc] at hs
    rw [← Option.some.inj hs]
    have hl : SlotsOwned { s with desc := taskRemoveFd s.desc t fd } :=
      h.desc fun u i _ => by rw [taskRemoveFd_ref]
    exact hl.leave rfl rfl
  | _ =>
    rw [hpc] at hs
    cases hs

/-- One step. -/
theorem SlotsOwned.next (h : SlotsOwned s) {e : OpenCloseEvent} (hc : CallsApart s e)
    (hs : openCloseStep s e = some s') : SlotsOwned s' := by
  cases e with
  | sysOpen t flags dev => exact h.sysOpen hc hs
  | sysClose t fd => exact h.sysClose hc hs
  | fsOpen t file => exact h.fsOpen hs
  | fsClose t ok => exact h.fsClose hs
  | step t => exact h.step hs

end Step

/-- In every run whose steps all meet `CallsApart`, from any state with no call
in progress, no slot that is being closed is opened, `fatfs_close` writes back
the file that was closed, and its `file_free` gives no reference back. -/
theorem close_keeps_slot {es : List OpenCloseEvent} {s : OpenClose} (hs : ∀ t, s.pc t = .user)
    (h : Along openCloseStep CallsApart s es) : Along openCloseStep CloseUndisturbed s es :=
  Along.of_invariant (fun _ _ _ hi hc hs => hi.next hc hs) (fun _ _ hi hc => hi.undisturbed hc)
    (slotsOwned_of_user hs) h

/-! ## Two runs -/

/-- The fields of a file of the volume after `fatfs_open`. -/
def fatFile (size sblk : Nat) (pIndex : Int) : File where
  type := .normal
  size := size
  pos := 0
  mode := oWronly
  sblk := sblk
  cblk := sblk
  pIndex := pIndex

/-- A file of 5 bytes in slot 1, open as descriptor 1 of `first_task`; slot 0
is free. -/
def oneOpen : OpenClose :=
  { openCloseInit with
    desc := { filesInit with
      ref := fun i => if i = 1 then 1 else 0
      fileTable := fun p => if p = (.first, 1) then some 1 else none }
    file := fun i => if i = 1 then fatFile 5 2 0 else fileNew 0 }

/-- `first_task` closes its file while a child opens one, and waits for the
mutex until the file is closed. -/
def contendedRun : List OpenCloseEvent :=
  [.sysClose .first 1, .sysOpen (.slot 0) oWronly false, .step .first, .step (.slot 0),
    .step (.slot 0), .fsClose .first true, .step .first, .step .first,
    .fsOpen (.slot 0) (some (fatFile 7 4 1)), .step .first, .step .first, .step (.slot 0)]

theorem close_keeps_slot_contended :
    (run openCloseStep oneOpen contendedRun).map (fun s => (s.written, s.desc.ref 0)) =
        some ([⟨0, 0, 5, 2⟩], 1) ∧
      Along openCloseStep CloseUndisturbed oneOpen contendedRun := by
  refine ⟨by decide +kernel, close_keeps_slot (fun _ => rfl) ⟨fun i _ u => ?_, fun s hs =>
    ⟨fun _ u i fd hu => ⟨0, ?_, ?_⟩, ?_⟩⟩⟩
  · simp [oneOpen, openCloseInit, FdPc.opens]
  all_goals cases hs
  · -- slot 1 is being closed, slot 0 is below it
    by_cases h : u = .first
    · subst h
      cases hu
      decide
    · dsimp only at hu
      rw [Function.update_of_ne h] at hu
      cases hu
  · rfl
  · exact fun _ _ => ⟨trivial, fun _ _ => ⟨trivial, fun _ _ => ⟨trivial, fun _ _ => ⟨trivial,
      fun _ _ => ⟨trivial, fun _ _ => ⟨trivial, fun _ _ => ⟨trivial, fun _ _ => ⟨trivial,
      fun _ _ => ⟨trivial, fun _ _ => ⟨trivial, fun _ _ => trivial⟩⟩⟩⟩⟩⟩⟩⟩⟩⟩

/-- `first_task` opens a terminal and a file of 5 bytes, and closes the file
as far as `fs_protect`. -/
def closingRun : List OpenCloseEvent :=
  [.sysOpen .first oWronly true, .step .first, .step .first, .fsOpen .first (some (fileNew 0)),
    .step .first, .sysOpen .first oWronly false, .step .first, .step .first,
    .fsOpen .first (some (fatFile 5 2 0)), .step .first, .sysClose .first 1]

/-- Meanwhile a child opens a file of 7 bytes; then the close goes on. -/
def openedRun : List OpenCloseEvent :=
  [.sysOpen (.slot 0) oWronly false, .step (.slot 0), .step (.slot 0),
    .fsOpen (.slot 0) (some (fatFile 7 4 1)), .step (.slot 0), .step .first,
    .fsClose .first true, .step .first, .step .first, .step .first, .step .first]

/-- The child gets the slot that is being closed; `fatfs_close` writes back
the child's file, and `file_free` takes its reference away, although its
descriptor 0 leads to the slot. -/
theorem open_takes_closing_slot :
    (∃ s, run openCloseStep openCloseInit closingRun = some s ∧
      s.pc .first = .closeLock 1 1 false ∧ s.closing .first = fatFile 5 2 0 ∧
      (fileAlloc s.desc).2 = some 1) ∧
    ∃ s, run openCloseStep openCloseInit (closingRun ++ openedRun) = some s ∧
      s.written = [⟨1, 1, 7, 4⟩] ∧ taskFile s.desc (.slot 0) 0 = some 1 ∧ s.desc.ref 1 = 0 := by
  constructor
  · have h : (run openCloseStep openCloseInit closingRun).any (fun s =>
        decide (s.pc .first = .closeLock 1 1 false ∧ s.closing .first = fatFile 5 2 0 ∧
          (fileAlloc s.desc).2 = some 1)) = true := by
      decide +kernel
    obtain ⟨s, hs, h⟩ := (Option.any_eq_true ..).mp h
    exact ⟨s, hs, of_decide_eq_true h⟩
  · have h : (run openCloseStep openCloseInit (closingRun ++ openedRun)).any (fun s =>
        decide (s.written = [⟨1, 1, 7, 4⟩] ∧ taskFile s.desc (.slot 0) 0 = some 1 ∧
          s.desc.ref 1 = 0)) = true := by
      decide +kernel
    obtain ⟨s, hs, h⟩ := (Option.any_eq_true ..).mp h
    exact ⟨s, hs, of_decide_eq_true h⟩

end Wjos
