/-
Wjos.Loader.ReadDisk — `read_disk` of `loader/loader_32.c`, on the channel of
`Dev.Disk`.

The loader has no interrupts: before each sector it reads the status until the
channel is no longer busy and has data. `readDiskStep` interleaves its port
accesses with the channel. `ReadingDisk` says how the channel stands for the
place of the loader, in the terms of the driver of the kernel.

`read_disk_sectors`: when it returns, the sectors are in the buffer and nothing
else is written. `read_disk_returns`: without a failure it does return; after
one it polls for ever, since it does not look at `DISK_STATUS_ERR`.
-/
import Wjos.Dev.DiskTheorems

namespace Wjos

open Lib

/-! ## The loop -/

/-- The port writes of `read_disk`. -/
def readDiskOuts (sector sectorCount : Nat) : List (Nat × UInt8) :=
  [(0x1F6, 0xE0), (0x1F2, (sectorCount >>> 8).toUInt8), (0x1F3, (sector >>> 24).toUInt8),
    (0x1F4, 0), (0x1F5, 0), (0x1F2, sectorCount.toUInt8), (0x1F3, sector.toUInt8),
    (0x1F4, (sector >>> 8).toUInt8), (0x1F5, (sector >>> 16).toUInt8), (0x1F7, 0x24)]

/-- In the port writes, before a status read with `count` sectors read, before
word `word` of the next sector, or behind the loop. -/
inductive ReadDiskPc where
  | send (outs : List (Nat × UInt8))
  | poll (count : Nat)
  | data (count word : Nat)
  | back
  deriving DecidableEq

structure Loader where
  mem : Nat → UInt8
  ide : Ide
  pc : ReadDiskPc

/-- `while (sector_count --)`. -/
def readDiskHead (sectorCount count : Nat) : ReadDiskPc :=
  if count < sectorCount then .poll count else .back

/-- One port access of `read_disk`. -/
def readDiskCpu (sectorCount buf : Nat) (s : Loader) : Option Loader :=
  match s.pc with
  | .send [] => some { s with pc := readDiskHead sectorCount 0 }
  | .send [o] => some { s with ide := s.ide.outb o.1 o.2, pc := readDiskHead sectorCount 0 }
  | .send (o :: outs) => some { s with ide := s.ide.outb o.1 o.2, pc := .send outs }
  | .poll count =>
    let (ide, status) := s.ide.inStatus
    some { s with ide, pc := if (status &&& 0x88) != 0x8 then .poll count else .data count 0 }
  | .data count word =>
    let (ide, v) := s.ide.inw
    let dataBuf := buf + (count * 512 + 2 * word)
    some { s with
      ide
      mem := Function.update (Function.update s.mem dataBuf v.1) (dataBuf + 1) v.2
      pc := if word + 1 < 256 then .data count (word + 1)
        else readDiskHead sectorCount (count + 1) }
  | .back => none

inductive LoaderEvent where
  | cpu
  | done
  | fail

def readDiskStep (sectorCount buf : Nat) (s : Loader) : LoaderEvent → Option Loader
  | .cpu => readDiskCpu sectorCount buf s
  | .done => s.ide.done.map fun ide => { s with ide }
  | .fail => s.ide.fail.map fun ide => { s with ide }

/-- `read_disk` is called. -/
def readDiskCall (sector sectorCount : Nat) (mem : Nat → UInt8) (ide : Ide) : Loader :=
  { mem, ide, pc := .send (readDiskOuts sector sectorCount) }

/-! ## The invariant -/

/-- The call as one of the driver: `sectorCount` sectors of the master from
`sector` on. -/
def readDiskReq (sector sectorCount : Nat) : DiskReq :=
  ⟨false, false, sector, 0, sectorCount, fun _ => 0⟩

/-- The memory when `n` bytes are through. -/
def readMem (mem : Nat → UInt8) (m : Media) (sector buf n : Nat) : Nat → UInt8 :=
  copyTo mem buf n fun i => m false (sector * 512 + i)

/-- How the memory and the channel stand for the place of the loader. -/
def ReadingDisk (F : Prop) (m : Media) (mem₀ : Nat → UInt8) (sector sectorCount buf : Nat)
    (mem : Nat → UInt8) (ide : Ide) : ReadDiskPc → Prop
  | .send outs =>
    ide.Quiet ∧ ide.media = m ∧ Sending (readDiskReq sector sectorCount) outs ide ∧ mem = mem₀
  | .poll count =>
    count < sectorCount ∧ Moving F (readDiskReq sector sectorCount) m count ide ∧
      mem = readMem mem₀ m sector buf (count * 512)
  | .data count word =>
    count < sectorCount ∧ word < 256 ∧
      Transfer (readDiskReq sector sectorCount) m count word ide ∧
      mem = readMem mem₀ m sector buf (count * 512 + 2 * word)
  | .back =>
    ide.phase = .idle ∧ ide.media = m ∧ mem = readMem mem₀ m sector buf (sectorCount * 512)

section

variable {F : Prop} {m : Media} {mem₀ mem : Nat → UInt8} {sector sectorCount buf count word : Nat}
  {ide : Ide} {pc : ReadDiskPc} {s s' : Loader}

/-- The head of the loop. -/
theorem reading_head (h : AtSector (readDiskReq sector sectorCount) m count ide)
    (hcount : count ≤ sectorCount) (hmem : mem = readMem mem₀ m sector buf (count * 512)) :
    ReadingDisk F m mem₀ sector sectorCount buf mem ide (readDiskHead sectorCount count) := by
  have hphase := h.phase
  have hsize : (readDiskReq sector sectorCount).size = sectorCount := rfl
  rw [DiskReq.nextPhase, hsize] at hphase
  unfold readDiskHead
  by_cases hlt : count < sectorCount
  · rw [if_pos hlt] at hphase ⊢
    rw [if_neg (by simp [readDiskReq])] at hphase
    exact ⟨hlt, .busy hphase h.media h.intrq (by simp [readDiskReq]), hmem⟩
  · have heq : count = sectorCount := Nat.le_antisymm hcount (Nat.le_of_not_lt hlt)
    rw [if_neg hlt] at hphase ⊢
    exact ⟨hphase, h.media, heq ▸ hmem⟩

/-- The loader goes on when the data register is open. -/
theorem Moving.drq (h : Moving F (readDiskReq sector sectorCount) m count ide) :
    ((ide.phase.status &&& 0x88) != 0x8) = true ∧
        (ide.phase.isBusy = true ∨ F ∧ ide.phase = .failed) ∨
      ((ide.phase.status &&& 0x88) != 0x8) = false ∧
        Transfer (readDiskReq sector sectorCount) m count 0 ide.inStatus.1 := by
  cases h with
  | busy phase => exact .inl ⟨by rw [phase, IdePhase.status]; decide, .inl (by rw [phase]; rfl)⟩
  | read hr phase media sector =>
    refine .inr ⟨by rw [phase, IdePhase.status]; decide, phase, media, rfl, ?_⟩
    rw [hr, if_neg (by simp)]
    exact sector
  | written hw => simp [readDiskReq] at hw
  | failed hf phase => exact .inl ⟨by rw [phase, IdePhase.status]; decide, .inr ⟨hf, phase⟩⟩

/-- A status read leaves the sector with the channel. -/
theorem Moving.inStatus {r : DiskReq} (h : Moving F r m count ide) :
    Moving F r m count ide.inStatus.1 := by
  cases h with
  | busy phase media intrq sector => exact .busy phase media rfl sector
  | read hr phase media sector => exact .read hr phase media sector
  | written hw phase media => exact .written hw phase media
  | failed hf phase media => exact .failed hf phase media

/-- The writes are those of `disk_send_cmd` for a read from the master. -/
theorem readDiskOuts_eq (sector sectorCount : Nat) :
    readDiskOuts sector sectorCount = diskSendCmd false sector sectorCount diskCmdRead := by
  have hdrive : (diskDriveBase ||| if false then 0x10 else 0) = 0xE0 := by decide
  rw [diskSendCmd, hdrive]
  rfl

/-- A word goes to the place behind the bytes that are read. -/
theorem readMem_word {n : Nat} {v : UInt8 × UInt8} (hlow : v.1 = m false (sector * 512 + n))
    (hhigh : v.2 = m false (sector * 512 + (n + 1))) :
    Function.update (Function.update (readMem mem₀ m sector buf n) (buf + n) v.1) (buf + n + 1)
      v.2 = readMem mem₀ m sector buf (n + 2) := by
  have hstep : ∀ n, Function.update (readMem mem₀ m sector buf n) (buf + n)
      (m false (sector * 512 + n)) = readMem mem₀ m sector buf (n + 1) := fun _ => copyTo_concat
  rw [hlow, hhigh, hstep, Nat.add_assoc, hstep]

/-- A port access of the loader. -/
theorem ReadingDisk.cpu (h : ReadingDisk F m mem₀ sector sectorCount buf s.mem s.ide s.pc)
    (hpos : 0 < sectorCount) (hs : readDiskCpu sectorCount buf s = some s') :
    ReadingDisk F m mem₀ sector sectorCount buf s'.mem s'.ide s'.pc := by
  obtain ⟨mem, ide, pc⟩ := s
  dsimp only at h
  cases pc with
  | send outs =>
    obtain ⟨hquiet, hmedia, hsend, hmem⟩ := h
    match outs, hsend with
    | [], hsend =>
      obtain ⟨regs, hregs, -⟩ := hsend.cmd
      exact absurd hregs (by simp)
    | [o], hsend =>
      obtain rfl := Option.some.inj hs
      refine reading_head (hsend.last hpos hmedia) (Nat.zero_le _) ?_
      rw [hmem, readMem, Nat.zero_mul, copyTo_none]
    | o :: o' :: outs, hsend =>
      obtain rfl := Option.some.inj hs
      obtain ⟨hrest, hphase, hmedia'⟩ := hsend.out (by simp)
      refine ⟨?_, hmedia'.trans hmedia, hrest, hmem⟩
      unfold Ide.Quiet
      rwa [hphase]
  | poll count =>
    obtain ⟨hcount, hmove, hmem⟩ := h
    obtain rfl := Option.some.inj hs
    rcases hmove.drq with ⟨hbusy, -⟩ | ⟨hopen, htransfer⟩
    · simp only [hbusy, if_true]
      exact ⟨hcount, hmove.inStatus, hmem⟩
    · simp only [hopen, Bool.false_eq_true, if_false]
      exact ⟨hcount, by decide, htransfer, by rw [hmem, Nat.mul_zero, Nat.add_zero]⟩
  | data count word =>
    obtain ⟨hcount, hword, htransfer, hmem⟩ := h
    obtain ⟨⟨hlow, hhigh⟩, hmore, hlast⟩ := htransfer.word_read rfl hcount hword
    simp only [readDiskCpu, Option.some.injEq] at hs
    subst hs
    have hmem' := @readMem_word m mem₀ sector buf (count * 512 + 2 * word) ide.inw.2 hlow hhigh
    dsimp only
    rw [hmem, hmem']
    by_cases h256 : word + 1 < 256
    · have hword' : 2 * word + 2 = 2 * (word + 1) := rfl
      rw [if_pos h256]
      exact ⟨hcount, h256, hmore h256, by rw [Nat.add_assoc, hword']⟩
    · have h255 : word = 255 := by omega
      rw [if_neg h256]
      exact reading_head (hlast h256) hcount (by rw [h255, Nat.add_mul, Nat.add_assoc])
  | back => simp [readDiskCpu] at hs

/-- A step of the channel. -/
theorem ReadingDisk.device (h : ReadingDisk F m mem₀ sector sectorCount buf mem ide pc) {ide' : Ide}
    (hbusy : ide.phase.isBusy = true)
    (hmove : ∀ r count, Moving F r m count ide → count < r.size → Moving F r m count ide') :
    ReadingDisk F m mem₀ sector sectorCount buf mem ide' pc := by
  have hquiet : ¬ide.Quiet := fun hq => by
    rcases hq with hq | hq <;> simp [hq, IdePhase.isBusy] at hbusy
  cases pc with
  | send outs => exact absurd h.1 hquiet
  | poll count => exact ⟨h.1, hmove _ _ h.2.1 h.1, h.2.2⟩
  | data count word =>
    have hphase := h.2.2.1.phase
    simp [hphase, IdePhase.isBusy] at hbusy
  | back => exact absurd (.inl h.1) hquiet

/-- What a step may do: `F` allows failures. -/
def LoaderEvent.Meets (F : Prop) : LoaderEvent → Prop
  | .fail => F
  | _ => True

theorem readingDisk_step (hpos : 0 < sectorCount)
    (h : ReadingDisk F m mem₀ sector sectorCount buf s.mem s.ide s.pc) {e : LoaderEvent}
    (he : e.Meets F) (hs : readDiskStep sectorCount buf s e = some s') :
    ReadingDisk F m mem₀ sector sectorCount buf s'.mem s'.ide s'.pc := by
  cases e with
  | cpu => exact h.cpu hpos hs
  | done =>
    obtain ⟨ide, hide, rfl⟩ := Option.map_eq_some_iff.mp hs
    exact h.device (Ide.of_done hide).1 fun _ _ hmove hcount => hmove.done hcount hide
  | fail =>
    obtain ⟨ide, hide, rfl⟩ := Option.map_eq_some_iff.mp hs
    exact h.device (Ide.of_fail hide).1 fun _ _ hmove _ => hmove.fail he hide

theorem readingDisk_call {ide : Ide} (hquiet : ide.Quiet)
    (hok : (readDiskReq sector sectorCount).Ok) :
    ReadingDisk F ide.media mem₀ sector sectorCount buf mem₀ ide
      (.send (readDiskOuts sector sectorCount)) :=
  ⟨hquiet, rfl, readDiskOuts_eq sector sectorCount ▸ sending_cmd ide hok, rfl⟩

/-! ## Runs -/

theorem readingDisk_run (hquiet : ide.Quiet) (hok : (readDiskReq sector sectorCount).Ok)
    {es : List LoaderEvent} (hf : .fail ∈ es → F)
    (hrun : run (readDiskStep sectorCount buf) (readDiskCall sector sectorCount mem₀ ide) es =
      some s) :
    ReadingDisk F ide.media mem₀ sector sectorCount buf s.mem s.ide s.pc := by
  have hmeets : ∀ e ∈ es, e.Meets F := fun e he => by
    cases e with
    | fail => exact hf he
    | _ => trivial
  have hstep : ∀ (s : Loader) (e : LoaderEvent) s',
      ReadingDisk F ide.media mem₀ sector sectorCount buf s.mem s.ide s.pc → True ∧ e.Meets F →
      readDiskStep sectorCount buf s e = some s' →
      ReadingDisk F ide.media mem₀ sector sectorCount buf s'.mem s'.ide s'.pc :=
    fun _ _ _ h he hs => readingDisk_step hok.pos h he.2 hs
  exact run_invariant_along hstep (readingDisk_call hquiet hok)
    ((along_of_forall fun _ _ => trivial).and_mem hmeets) hrun

/-- `read_disk` reads the sectors: in every interleaving with the channel, when
it is back the sectors are at `buf`, and nothing else has changed. -/
theorem read_disk_sectors (hquiet : ide.Quiet) (hok : (readDiskReq sector sectorCount).Ok)
    {es : List LoaderEvent}
    (hrun : run (readDiskStep sectorCount buf) (readDiskCall sector sectorCount mem₀ ide) es =
      some s) (hback : s.pc = .back) :
    s.mem = readMem mem₀ ide.media sector buf (sectorCount * 512) ∧ s.ide.media = ide.media := by
  have hinv := readingDisk_run hquiet hok (F := True) (fun _ => trivial) hrun
  rw [hback] at hinv
  exact ⟨hinv.2.2, hinv.2.1⟩

/-- The steps that are left, with those of the channel. -/
def ReadDiskPc.rank (sectorCount : Nat) : ReadDiskPc → Nat
  | .send outs => sectorCount * 261 + 2 + outs.length
  | .poll count => (sectorCount - (count + 1)) * 261 + 259
  | .data count word => (sectorCount - (count + 1)) * 261 + 2 + (256 - word)
  | .back => 0

def loaderWork (sectorCount : Nat) (s : Loader) : Nat :=
  s.pc.rank sectorCount + 2 * s.ide.phase.isBusy.toNat

theorem rank_readDiskHead (n count : Nat) :
    (readDiskHead n count).rank n ≤ (n - count) * 261 := by
  unfold readDiskHead
  split
  next hlt =>
    simp only [ReadDiskPc.rank]
    omega
  next => exact Nat.zero_le _

/-- The channel is busy only when the loader waits for it. -/
theorem ReadingDisk.not_busy (h : ReadingDisk F m mem₀ sector sectorCount buf mem ide pc)
    (hpc : ∀ count, pc ≠ .poll count) : ide.phase.isBusy = false := by
  cases pc with
  | send outs =>
    rcases h.1 with hphase | hphase <;> rw [hphase] <;> rfl
  | poll count => exact absurd rfl (hpc count)
  | data count word => rw [h.2.2.1.phase]; rfl
  | back => rw [h.1]; rfl

/-- Without a failure a port access takes something off what is left, unless it
reads the status of a busy channel, which changes nothing. -/
theorem ReadingDisk.work_cpu
    (h : ReadingDisk False m mem₀ sector sectorCount buf s.mem s.ide s.pc)
    (h' : ReadingDisk False m mem₀ sector sectorCount buf s'.mem s'.ide s'.pc)
    (hs : readDiskCpu sectorCount buf s = some s') :
    loaderWork sectorCount s' < loaderWork sectorCount s ∨
      s' = s ∧ s.ide.phase.isBusy = true := by
  obtain ⟨mem, ide, pc⟩ := s
  have hle := Bool.toNat_le s'.ide.phase.isBusy
  have hhead := rank_readDiskHead sectorCount
  dsimp only at h
  cases pc with
  | send outs =>
    refine .inl ?_
    match outs with
    | [] =>
      simp only [readDiskCpu, Option.some.injEq] at hs
      subst hs
      have hrank := hhead 0
      simp only [loaderWork, ReadDiskPc.rank] at hrank ⊢
      omega
    | [o] =>
      simp only [readDiskCpu, Option.some.injEq] at hs
      subst hs
      have hrank := hhead 0
      simp only [loaderWork, ReadDiskPc.rank, List.length_singleton] at hrank hle ⊢
      omega
    | o :: o' :: outs =>
      simp only [readDiskCpu, Option.some.injEq] at hs
      have hbusy := h'.not_busy (by rw [← hs]; simp)
      rw [← hs] at hbusy ⊢
      simp only [loaderWork, ReadDiskPc.rank, List.length_cons, hbusy, Bool.toNat_false]
      omega
  | poll count =>
    obtain ⟨hcount, hmove, hmem⟩ := h
    simp only [readDiskCpu, Option.some.injEq] at hs
    subst hs
    rcases hmove.drq with ⟨hstatus, hbusy | ⟨hf, -⟩⟩ | ⟨hopen, -⟩
    · have hide : { ide with intrq := false } = ide := hmove.busy_status hbusy
      exact .inr ⟨by simp only [Ide.inStatus, hstatus, if_true, hide], hbusy⟩
    · exact hf.elim
    · refine .inl ?_
      simp only [loaderWork, Ide.inStatus, hopen, Bool.false_eq_true, if_false, ReadDiskPc.rank]
      omega
  | data count word =>
    have hword := h.2.1
    refine .inl ?_
    simp only [readDiskCpu, Option.some.injEq] at hs
    by_cases h256 : word + 1 < 256
    · rw [if_pos h256] at hs
      have hbusy := h'.not_busy (by rw [← hs]; simp)
      rw [← hs] at hbusy ⊢
      simp only [loaderWork, ReadDiskPc.rank, hbusy, Bool.toNat_false]
      omega
    · rw [if_neg h256] at hs
      subst hs
      have hrank := hhead (count + 1)
      simp only [loaderWork, ReadDiskPc.rank] at hrank hle ⊢
      omega
  | back => simp [readDiskCpu] at hs

/-- The channel takes its part off. -/
theorem loaderWork_device {ide : Ide} (hbusy : s.ide.phase.isBusy = true)
    (hdone : ide.phase.isBusy = false) :
    loaderWork sectorCount { s with ide } < loaderWork sectorCount s := by
  simp only [loaderWork, hbusy, hdone, Bool.toNat_true, Bool.toNat_false]
  omega

/-- A step that is not a failure and changes something takes something off. -/
theorem ReadingDisk.work_step (hpos : 0 < sectorCount)
    (h : ReadingDisk False m mem₀ sector sectorCount buf s.mem s.ide s.pc) {e : LoaderEvent}
    (he : readDiskStep sectorCount buf s e ≠ some s ∧ e ≠ .fail)
    (hs : readDiskStep sectorCount buf s e = some s') :
    ReadingDisk False m mem₀ sector sectorCount buf s'.mem s'.ide s'.pc ∧
      loaderWork sectorCount s' < loaderWork sectorCount s := by
  have hmeets : e.Meets False := by
    cases e with
    | fail => exact absurd rfl he.2
    | _ => trivial
  have h' := readingDisk_step hpos h hmeets hs
  refine ⟨h', ?_⟩
  cases e with
  | cpu =>
    exact (h.work_cpu h' hs).resolve_right fun hsame => he.1 (hs.trans (congrArg some hsame.1))
  | done =>
    obtain ⟨ide, hide, rfl⟩ := Option.map_eq_some_iff.mp hs
    exact loaderWork_device (Ide.of_done hide).1 (Ide.of_done hide).2.1
  | fail => exact absurd rfl he.2

/-- Something can go on until the loader is back. -/
theorem ReadingDisk.progress (hpos : 0 < sectorCount)
    (h : ReadingDisk False m mem₀ sector sectorCount buf s.mem s.ide s.pc)
    (hpc : s.pc ≠ .back) : ∃ e s', e ≠ .fail ∧ readDiskStep sectorCount buf s e = some s' ∧
      loaderWork sectorCount s' < loaderWork sectorCount s := by
  cases hbusy : s.ide.phase.isBusy with
  | true =>
    obtain ⟨ide, hide⟩ := Ide.done_of_busy hbusy
    refine ⟨.done, { s with ide }, by simp, by rw [readDiskStep, hide]; rfl, ?_⟩
    exact loaderWork_device hbusy (Ide.of_done hide).2.1
  | false =>
    obtain ⟨s', hs⟩ : ∃ s', readDiskCpu sectorCount buf s = some s' := by
      unfold readDiskCpu
      split <;> first | exact ⟨_, rfl⟩ | simp_all
    have h' := readingDisk_step (e := .cpu) hpos h trivial hs
    refine ⟨.cpu, s', by simp, hs, (h.work_cpu h' hs).resolve_right fun hsame => ?_⟩
    simp [hbusy] at hsame

/-- From any place the loader gets back. -/
theorem ReadingDisk.completes (hpos : 0 < sectorCount) {n : Nat} :
    ∀ {s : Loader}, ReadingDisk False m mem₀ sector sectorCount buf s.mem s.ide s.pc →
      loaderWork sectorCount s ≤ n → ∃ es s', LoaderEvent.fail ∉ es ∧
        run (readDiskStep sectorCount buf) s es = some s' ∧ s'.pc = .back := by
  induction n with
  | zero =>
    intro s h hn
    refine ⟨[], s, by simp, rfl, ?_⟩
    by_contra hpc
    obtain ⟨e, s', -, -, hless⟩ := h.progress hpos hpc
    omega
  | succ n ih =>
    intro s h hn
    by_cases hpc : s.pc = .back
    · exact ⟨[], s, by simp, rfl, hpc⟩
    · obtain ⟨e, s', he, hs, hless⟩ := h.progress hpos hpc
      have hne : readDiskStep sectorCount buf s e ≠ some s := fun hsame => by
        obtain rfl := Option.some.inj (hsame.symm.trans hs)
        exact Nat.lt_irrefl _ hless
      obtain ⟨es, s'', hes, hrun, hback⟩ :=
        ih (h.work_step hpos ⟨hne, he⟩ hs).1 (by omega)
      refine ⟨e :: es, s'', ?_, run_cons_eq_some.mpr ⟨s', hs, hrun⟩, hback⟩
      rw [List.mem_cons, not_or]
      exact ⟨Ne.symm he, hes⟩

/-- There is a run in which `read_disk` gets back. -/
theorem read_disk_completes (hquiet : ide.Quiet) (hok : (readDiskReq sector sectorCount).Ok) :
    ∃ es s, LoaderEvent.fail ∉ es ∧
      run (readDiskStep sectorCount buf) (readDiskCall sector sectorCount mem₀ ide) es = some s ∧
      s.pc = .back :=
  ReadingDisk.completes hok.pos (readingDisk_call hquiet hok) (Nat.le_refl _)

/-- `read_disk` returns: when the channel does not fail, at most
`261 * sectorCount + 12` steps change something, and nothing can change any more
only when it is back. -/
theorem read_disk_returns (hquiet : ide.Quiet) (hok : (readDiskReq sector sectorCount).Ok)
    {es : List LoaderEvent} (hf : .fail ∉ es)
    (hchange : Along (readDiskStep sectorCount buf)
      (fun s e => readDiskStep sectorCount buf s e ≠ some s)
      (readDiskCall sector sectorCount mem₀ ide) es)
    (hrun : run (readDiskStep sectorCount buf) (readDiskCall sector sectorCount mem₀ ide) es =
      some s) :
    es.length ≤ 261 * sectorCount + 12 ∧
      ((∀ e, e ≠ .fail → readDiskStep sectorCount buf s e = none ∨
        readDiskStep sectorCount buf s e = some s) → s.pc = .back) := by
  have hne : ∀ e ∈ es, e ≠ LoaderEvent.fail := fun e he hfail => hf (hfail ▸ he)
  have hstep : ∀ (s : Loader) (e : LoaderEvent) s',
      ReadingDisk False ide.media mem₀ sector sectorCount buf s.mem s.ide s.pc →
      (readDiskStep sectorCount buf s e ≠ some s ∧ e ≠ .fail) →
      readDiskStep sectorCount buf s e = some s' →
      ReadingDisk False ide.media mem₀ sector sectorCount buf s'.mem s'.ide s'.pc ∧
        loaderWork sectorCount s' < loaderWork sectorCount s :=
    fun _ _ _ h he hs => h.work_step hok.pos he hs
  have hcall : ReadingDisk False ide.media mem₀ sector sectorCount buf mem₀ ide
      (.send (readDiskOuts sector sectorCount)) := readingDisk_call hquiet hok
  obtain ⟨h, hlen⟩ := run_length_le hstep hcall (hchange.and_mem hne) hrun
  have hwork : loaderWork sectorCount (readDiskCall sector sectorCount mem₀ ide) =
      261 * sectorCount + 12 := by
    have hbusy : ide.phase.isBusy = false := hcall.not_busy (by simp)
    have hrank : (ReadDiskPc.send (readDiskOuts sector sectorCount)).rank sectorCount =
        sectorCount * 261 + 2 + 10 := rfl
    rw [loaderWork, readDiskCall, hbusy, hrank, Bool.toNat_false]
    omega
  rw [hwork] at hlen
  refine ⟨by omega, fun hstuck => ?_⟩
  by_contra hpc
  obtain ⟨e, s', he, hs, hless⟩ := h.progress hok.pos hpc
  rcases hstuck e he with hnone | hsame
  · exact absurd (hnone.symm.trans hs) (by simp)
  · obtain rfl := Option.some.inj (hsame.symm.trans hs)
    exact Nat.lt_irrefl _ hless

end

end Wjos
