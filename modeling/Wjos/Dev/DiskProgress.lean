/-
Wjos.Dev.DiskProgress — every call of the disk driver returns.

`diskWork` counts what the calls that are being made still have to do: the
places before each task, a sector that the channel is at, and an interrupt that
is kept. Each step but a new call takes something off it, unless it reads the
status of a busy channel, and while a call has not returned there is such a
step: no wakeup is lost. `disk_calls_return` says both for every run.
-/
import Mathlib.Algebra.BigOperators.Group.Finset.Basic
import Wjos.Dev.DiskTheorems

namespace Wjos

open Lib

/-! ## What is left to do -/

/-- The steps from the head of the loop on. -/
def DiskReq.loopRank (r : DiskReq) (count : Nat) : Nat := (r.size - count) * 261 + 1

/-- The steps that the task has still to take, with those of the channel. -/
def DiskPc.rank : DiskPc → Nat
  | .idle => 0
  | .start r => r.loopRank 0 + 15
  | .locking r => r.loopRank 0 + 14
  | .onOp r => r.loopRank 0 + 13
  | .send r outs => r.loopRank 0 + 2 + outs.length
  | .wait r count _ => r.loopRank (count + 1) + (if r.write then 1 else 259) + 2
  | .waiting r count _ => r.loopRank (count + 1) + (if r.write then 1 else 259) + 1
  | .poll r count _ => r.loopRank (count + 1) + (if r.write then 1 else 259)
  | .data r count _ word =>
    r.loopRank (count + 1) + (if r.write then 3 else 0) + 2 + (256 - word)
  | .unlock _ _ _ => 1

/-- What the channel and the controller have still to do. -/
def deviceRank (busy irr : Bool) : Nat := 2 * busy.toNat + irr.toNat

def diskWork {τ : Type*} [Fintype τ] (s : Disk τ) : Nat :=
  (∑ t, (s.pc t).rank) + deviceRank s.ide.phase.isBusy s.irr

section

variable {r : DiskReq} {count word : Nat} {buf : Nat → UInt8}

theorem rank_head : (diskHead r count buf).rank = r.loopRank count := by
  unfold diskHead
  split
  next hlt =>
    have hsucc : r.loopRank count = r.loopRank (count + 1) + 261 := by
      unfold DiskReq.loopRank
      have hsub : r.size - count = r.size - (count + 1) + 1 := by omega
      rw [hsub]
      omega
    rw [hsucc]
    split <;> simp_all [DiskPc.rank]
  next hlt =>
    have hzero : r.size - count = 0 := by omega
    rw [DiskReq.loopRank, hzero]
    rfl

theorem rank_polled (status : UInt8) :
    (diskPolled r count buf status).rank < (DiskPc.poll r count buf).rank := by
  unfold diskPolled
  split_ifs with herr hw
  · simp only [DiskPc.rank, DiskReq.loopRank]
    split <;> omega
  · rw [rank_head]
    simp only [DiskPc.rank, hw, if_true]
    omega
  · simp [DiskPc.rank, hw]

/-- The last word leaves room for the channel. -/
theorem rank_moved (hword : word < 256) (x : Nat → UInt8) :
    (diskMoved r count x word).rank + (if word + 1 < 256 then 0 else 2) <
      (DiskPc.data r count buf word).rank := by
  unfold diskMoved
  split_ifs with hlast hw
  · simp only [DiskPc.rank]
    omega
  · simp only [DiskPc.rank, hw, if_true]
    omega
  · rw [rank_head]
    simp only [DiskPc.rank]
    omega

theorem rank_eq_zero {p : DiskPc} (h : p.rank = 0) : p = .idle := by
  cases p <;> first | rfl | simp [DiskPc.rank, DiskReq.loopRank] at h

theorem rank_granted (p : DiskPc) : p.granted.rank ≤ p.rank := by
  cases p <;> simp [DiskPc.granted, DiskPc.rank]

end

section

variable {τ : Type*} [DecidableEq τ] [Fintype τ]

/-- One task goes on. -/
theorem sum_rank_update (pc : τ → DiskPc) (t : τ) (x : DiskPc) :
    (∑ u, (Function.update pc t x u).rank) + (pc t).rank = (∑ u, (pc u).rank) + x.rank := by
  have hrest : ∑ u ∈ Finset.univ.erase t, (Function.update pc t x u).rank =
      ∑ u ∈ Finset.univ.erase t, (pc u).rank :=
    Finset.sum_congr rfl fun u hu => by rw [Function.update_of_ne (Finset.ne_of_mem_erase hu)]
  rw [← Finset.add_sum_erase _ _ (Finset.mem_univ t),
    ← Finset.add_sum_erase _ (fun u => (pc u).rank) (Finset.mem_univ t), hrest,
    Function.update_self]
  omega

/-- A task that is woken has less to do. -/
theorem sum_rank_wake (pc : τ → DiskPc) (woken : Option τ) :
    ∑ u, (diskWake pc woken u).rank ≤ ∑ u, (pc u).rank := by
  cases woken with
  | none => exact Nat.le_refl _
  | some v =>
    have hsum := sum_rank_update pc v (pc v).granted
    have hle := rank_granted (pc v)
    dsimp only [diskWake]
    omega

variable {k : Nat} {F : Prop} {m₀ : Media} {s s' : Disk τ} {t : τ}

/-- A task goes on, and the channel with it. -/
theorem work_update {x : DiskPc} (hpc : s'.pc = Function.update s.pc t x) (hirr : s'.irr = s.irr)
    (hless : x.rank + deviceRank s'.ide.phase.isBusy false <
      (s.pc t).rank + deviceRank s.ide.phase.isBusy false) : diskWork s' < diskWork s := by
  have hsum := sum_rank_update s.pc t x
  unfold diskWork
  unfold deviceRank at hless ⊢
  rw [hpc, hirr]
  omega

omit [Fintype τ] in
/-- The channel is busy only with a sector that the task inside waits for. -/
theorem DiskInv.not_busy (h : DiskInv k F m₀ s) {cur : Option DiskPc} (hcur : s.cur = cur)
    (hwants : cur.any DiskPc.wants = false) (htook : cur.any DiskPc.took = false) :
    s.ide.phase.isBusy = false := by
  cases hbusy : s.ide.phase.isBusy with
  | false => rfl
  | true =>
    obtain ⟨m, -, hm⟩ := h.working
    have hwaits := (hm.device hbusy fun _ _ hmove _ => hmove).2.1
    rw [hcur, hwants, htook] at hwaits
    simp at hwaits

omit [Fintype τ] in
theorem DiskInv.cur_at (h : DiskInv k F m₀ s) {x : DiskPc} (hpc : s.pc t = x)
    (hx : x.inside = true) : s.cur = some x :=
  hpc ▸ (h.owner (hpc.symm ▸ hx)).2

/-! ## The steps -/

theorem deviceRank_le (busy : Bool) : deviceRank busy false ≤ 2 := by
  cases busy <;> simp [deviceRank]

/-- A step of a task: only a read of the status of a busy channel changes
nothing. -/
theorem DiskInv.work_task (h : DiskInv k F m₀ s) (h' : DiskInv k F m₀ s')
    (hs : diskStep s (.step t) = some s') :
    diskWork s' < diskWork s ∨ s' = s ∧ s.ide.phase.isBusy = true := by
  have hle := deviceRank_le s'.ide.phase.isBusy
  cases hpc : s.pc t with
  | idle | locking | waiting => simp [diskStep, diskTaskStep, hpc] at hs
  | start r =>
    simp only [diskStep, diskTaskStep, hpc, Option.some.injEq] at hs
    subst hs
    refine .inl (work_update rfl rfl ?_)
    rw [hpc]
    split <;> simp [DiskPc.rank]
  | onOp r =>
    simp only [diskStep, diskTaskStep, hpc, Option.some.injEq] at hs
    subst hs
    refine .inl (work_update rfl rfl ?_)
    rw [hpc]
    simp [DiskPc.rank, diskSendCmd]
  | send r outs =>
    cases outs with
    | nil =>
      simp only [diskStep, diskTaskStep, hpc, Option.some.injEq] at hs
      subst hs
      refine .inl (work_update rfl rfl ?_)
      rw [hpc, rank_head]
      simp only [DiskPc.rank]
      omega
    | cons o outs =>
      cases outs with
      | nil =>
        simp only [diskStep, diskTaskStep, hpc, Option.some.injEq] at hs
        subst hs
        refine .inl (work_update rfl rfl ?_)
        rw [hpc, rank_head]
        simp only [DiskPc.rank, List.length_singleton] at hle ⊢
        omega
      | cons o' outs =>
        simp only [diskStep, diskTaskStep, hpc, Option.some.injEq] at hs
        have hpc' : s'.pc t = .send r (o' :: outs) := by rw [← hs]; exact Function.update_self ..
        have hbusy := h'.not_busy (h'.cur_at hpc' rfl) rfl rfl
        rw [← hs] at hbusy ⊢
        refine .inl (work_update rfl rfl ?_)
        rw [hpc, hbusy]
        simp only [DiskPc.rank, List.length_cons, deviceRank, Bool.toNat_false]
        omega
  | wait r count buf =>
    simp only [diskStep, diskTaskStep, hpc, Option.some.injEq] at hs
    subst hs
    refine .inl (work_update rfl rfl ?_)
    rw [hpc]
    split <;> simp [DiskPc.rank]
  | poll r count buf =>
    have hin : (s.pc t).inside = true := by rw [hpc]; rfl
    obtain ⟨m, -, hm⟩ := h.working
    rw [(h.owner hin).2, hpc] at hm
    simp only [diskStep, diskTaskStep, hpc, Ide.inStatus, keepsPolling_status,
      Option.some.injEq] at hs
    cases hbusy : s.ide.phase.isBusy with
    | true =>
      have hide : { s.ide with intrq := false } = s.ide := hm.2.2.2.busy_status hbusy
      rw [hbusy, if_pos rfl, hide, ← hpc, Function.update_eq_self] at hs
      exact .inr ⟨hs.symm, rfl⟩
    | false =>
      rw [hbusy, if_neg (by simp)] at hs
      subst hs
      refine .inl (work_update rfl rfl ?_)
      rw [hpc]
      exact Nat.add_lt_add_right (rank_polled _) _
  | data r count buf word =>
    have hin : (s.pc t).inside = true := by rw [hpc]; rfl
    obtain ⟨m, -, hm⟩ := h.working
    rw [(h.owner hin).2, hpc] at hm
    have hword := hm.2.2.1
    obtain ⟨x, ide, hs⟩ : ∃ (x : Nat → UInt8) (ide : Ide), some { s with
        ide, pc := Function.update s.pc t (diskMoved r count x word) } = some s' := by
      simp only [diskStep, diskTaskStep, hpc] at hs
      split at hs <;> exact ⟨_, _, hs⟩
    obtain rfl := Option.some.inj hs
    have hless : _ < (DiskPc.data r count buf word).rank := rank_moved hword x
    refine .inl (work_update rfl rfl ?_)
    rw [hpc]
    by_cases hlast : word + 1 < 256
    · have hx : diskMoved r count x word = .data r count x (word + 1) := if_pos hlast
      have hbusy := h'.not_busy (h'.cur_at ((Function.update_self ..).trans hx) rfl) rfl rfl
      rw [hbusy]
      rw [if_pos hlast] at hless
      exact Nat.lt_of_lt_of_le hless (Nat.le_add_right _ _)
    · rw [if_neg hlast] at hless
      omega
  | unlock r count buf =>
    simp only [diskStep, diskTaskStep, hpc, Option.some.injEq] at hs
    subst hs
    have hsum := sum_rank_update s.pc t .idle
    have hwake := sum_rank_wake (Function.update s.pc t .idle) (s.mutex.unlock t).2
    have hrank : (s.pc t).rank = 1 := by rw [hpc]; rfl
    have hidle : DiskPc.idle.rank = 0 := rfl
    refine .inl ?_
    unfold diskWork
    dsimp only
    omega

/-- The interrupt handler takes the interrupt off. -/
theorem work_irq (hs : diskStep s .irq = some s') : diskWork s' < diskWork s := by
  simp only [diskStep] at hs
  split at hs
  next hirr =>
    obtain rfl := Option.some.inj hs
    have hwake := sum_rank_wake s.pc s.opSem.notify.2
    unfold doHandleIdePrimary diskWork
    split <;> simp only [deviceRank, hirr, Bool.toNat_true, Bool.toNat_false] <;> omega
  next => simp at hs

omit [DecidableEq τ] in
/-- The channel is through with a sector. -/
theorem work_device {ide : Ide} (hbusy : s.ide.phase.isBusy = true)
    (hdone : ide.phase.isBusy = false) : diskWork (ideStep s ide) < diskWork s := by
  have hline := Bool.toNat_le (s.irr || (!s.ide.intrq && ide.intrq))
  simp only [diskWork, ideStep, deviceRank, hbusy, hdone, Bool.toNat_true, Bool.toNat_false]
  omega

/-- No step but a new call adds to what is left to do. -/
theorem DiskInv.work_step (h : DiskInv k F m₀ s) (hk : (k : Int) < intMax) {e : DiskEvent τ}
    (he : e.Meets F) (hcall : ∀ t r, e ≠ .call t r) (hs : diskStep s e = some s') :
    diskWork s' < diskWork s ∨ s' = s ∧ s.ide.phase.isBusy = true := by
  cases e with
  | call t r => exact absurd rfl (hcall t r)
  | step t => exact h.work_task (diskInv_step hk h he hs) hs
  | irq => exact .inl (work_irq hs)
  | done =>
    obtain ⟨ide, hide, rfl⟩ := Option.map_eq_some_iff.mp hs
    obtain ⟨hbusy, hdone, -⟩ := Ide.of_done hide
    exact .inl (work_device hbusy hdone)
  | fail =>
    obtain ⟨ide, hide, rfl⟩ := Option.map_eq_some_iff.mp hs
    obtain ⟨hbusy, hdone, -⟩ := Ide.of_fail hide
    exact .inl (work_device hbusy hdone)

/-- A step that is possible and takes something off. -/
theorem DiskInv.goes_on (h : DiskInv k F m₀ s) (hk : (k : Int) < intMax) {e : DiskEvent τ}
    (he : e.Meets F) (hcall : ∀ t r, e ≠ .call t r) (hbusy : s.ide.phase.isBusy = false)
    (hstep : ∃ s', diskStep s e = some s') :
    ∃ e s', (∀ t r, e ≠ .call t r) ∧ diskStep s e = some s' ∧ diskWork s' < diskWork s := by
  obtain ⟨s', hs⟩ := hstep
  refine ⟨e, s', hcall, hs, (h.work_step hk he hcall hs).resolve_right fun hsame => ?_⟩
  simp [hbusy] at hsame

/-- While a call has not returned, something can go on. -/
theorem DiskInv.progress (h : DiskInv k F m₀ s) (hk : (k : Int) < intMax)
    (hpc : s.pc t ≠ .idle) :
    ∃ e s', (∀ t r, e ≠ .call t r) ∧ diskStep s e = some s' ∧ diskWork s' < diskWork s := by
  cases hbusy : s.ide.phase.isBusy with
  | true =>
    -- The channel can go on.
    obtain ⟨ide, hide⟩ := Ide.done_of_busy hbusy
    exact ⟨.done, _, by simp, by rw [diskStep, hide, Option.map_some],
      work_device hbusy (Ide.of_done hide).2.1⟩
  | false =>
    have htask : ∀ u, (∃ s', diskStep s (.step u) = some s' ∧ DiskInv k F m₀ s') →
        ∃ e s', (∀ t r, e ≠ .call t r) ∧ diskStep s e = some s' ∧ diskWork s' < diskWork s := by
      intro u hstep
      obtain ⟨s', hs, -⟩ := hstep
      exact h.goes_on hk (e := .step u) trivial (by simp) hbusy ⟨s', hs⟩
    cases howner : s.mutex.owner with
    | none =>
      -- Nobody is inside, so the task has not reached the mutex.
      cases hp : s.pc t with
      | idle => exact absurd hp hpc
      | start r => exact htask t (h.start hp)
      | locking r =>
        have hmem := (h.guards.mem t).mpr (by rw [hp]; rfl)
        simp [h.guards.unowned howner] at hmem
      | _ =>
        have hin := (h.guards.owner t).mpr (by rw [hp]; rfl)
        simp [howner] at hin
    | some u =>
      have hin := (h.guards.owner u).mp howner
      cases hp : s.pc u with
      | idle | start | locking => simp [hp, DiskPc.inside] at hin
      | onOp r => exact htask u (h.onOp hp)
      | send r outs => exact htask u (h.send hp)
      | wait r count buf => exact htask u (h.wait hk hp)
      | poll r count buf => exact htask u (h.poll hp)
      | data r count buf word => exact htask u (h.data hp)
      | unlock r count buf => exact htask u (h.unlock hp)
      | waiting r count buf =>
        -- The permit it waits for is with the controller.
        have hmem := (h.waits.mem u).mpr (by rw [hp]; rfl)
        have hzero := h.waits.zero (List.ne_nil_of_mem hmem)
        have hwake := h.permits.wake
        rw [h.cur_at hp rfl, hbusy, hzero] at hwake
        have hirr : s.irr = true := by
          cases hirr : s.irr with
          | true => rfl
          | false => simp [DiskPc.wants, hirr, irrCount] at hwake
        obtain ⟨s', hs, -⟩ := h.irq hk hirr
        exact h.goes_on hk (e := .irq) trivial (by simp) hbusy ⟨s', hs⟩

end

end Wjos
