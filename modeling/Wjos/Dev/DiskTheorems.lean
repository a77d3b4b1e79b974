/-
Wjos.Dev.DiskTheorems — the disk driver is the block device that the file
system is written for.

The mutex leaves at most one task inside the driver. `Working` says how the
channel stands for the place this task is at: the sectors before `count` are
through, and the one at `count` is being done, is done, or has failed. `Permits`
counts the interrupts: one that is still to come, is kept by the controller or
has been counted by `op_sem` lets every `sem_wait` through. `DiskInv` adds the
wait lists and the history.

`disk_calls_served`: the calls that have returned are calls of `dev_read` and
`dev_write`, one after the other, in the order of their returns.
-/
import Wjos.Dev.Disk
import Wjos.Fs.Fatfs.Volume
import Wjos.Lib.Run

namespace Wjos

open Lib

/-! ## What a call does -/

namespace DiskReq

/-- What the callers promise: a number of sectors that the registers can hold,
and no overflow of the sector number. -/
structure Ok (r : DiskReq) : Prop where
  pos : 0 < r.size
  le : r.size ≤ 65536
  lba : r.lba < 2 ^ 31

/-- The media when `count` sectors are through. -/
def mediaAt (r : DiskReq) (m : Media) (count : Nat) : Media :=
  if r.write then
    Function.update m r.slave (copyTo (m r.slave) (r.lba * 512) (count * 512) r.buf)
  else m

/-- The buffer of the call when `n` bytes are through. -/
def bufAt (r : DiskReq) (m : Media) (n : Nat) : Nat → UInt8 :=
  if r.write then r.buf else copyTo r.buf 0 n fun i => m r.slave (r.lba * 512 + i)

/-- The phase when `count` sectors are through and the next one is begun. -/
def nextPhase (r : DiskReq) (count : Nat) : IdePhase :=
  if count < r.size then
    if r.write then .ready true r.slave (r.lba + count) (r.size - count) 0
    else .busy false r.slave (r.lba + count) (r.size - count)
  else .idle

section

variable {r : DiskReq} {m : Media} {count : Nat}

theorem mediaAt_zero : r.mediaAt m 0 = m := by
  rw [mediaAt, Nat.zero_mul, copyTo_none, Function.update_eq_self, ite_self]

theorem bufAt_zero : r.bufAt m 0 = r.buf := by
  rw [bufAt, copyTo_none, ite_self]

/-- One more sector is written. -/
theorem mediaAt_succ (hw : r.write = true) {sector : Nat → UInt8}
    (hsector : ∀ i < 512, sector i = r.buf (count * 512 + i)) :
    Function.update (r.mediaAt m count) r.slave
        (copyTo (r.mediaAt m count r.slave) ((r.lba + count) * 512) 512 sector) =
      r.mediaAt m (count + 1) := by
  simp only [mediaAt, hw, if_true, Function.update_self, Function.update_idem]
  rw [Nat.add_mul, Nat.add_mul, copyTo_append hsector, Nat.one_mul]

/-- One more word is read. -/
theorem bufAt_word (hr : r.write = false) {n : Nat} {v : UInt8 × UInt8}
    (hlow : v.1 = m r.slave (r.lba * 512 + n)) (hhigh : v.2 = m r.slave (r.lba * 512 + (n + 1))) :
    Function.update (Function.update (r.bufAt m n) n v.1) (n + 1) v.2 = r.bufAt m (n + 2) := by
  have hstep : ∀ n, Function.update (r.bufAt m n) n (m r.slave (r.lba * 512 + n)) =
      r.bufAt m (n + 1) := fun n => by
    have h := @copyTo_concat UInt8 r.buf (fun i => m r.slave (r.lba * 512 + i)) 0 n
    rw [Nat.zero_add] at h
    simp only [bufAt, hr, Bool.false_eq_true, if_false]
    exact h
  rw [hlow, hhigh, hstep, hstep]

end

end DiskReq

/-! ## The command -/

namespace Ide

variable {d : Ide} {port : Nat} {v : UInt8}

/-- Only the command register changes more than the registers. -/
theorem outb_of_ne (h : port ≠ diskCmd) :
    (d.outb port v).phase = d.phase ∧ (d.outb port v).media = d.media := by
  unfold outb
  split_ifs <;> exact ⟨rfl, rfl⟩

/-- The channel stands as the command of `r` begins. -/
structure Addressed (d : Ide) (r : DiskReq) : Prop where
  slave : d.slave = r.slave
  lba : d.lba = r.lba
  sectors : d.sectors = r.size

/-- The registers after the writes of `disk_send_cmd` before the command. -/
theorem addressed_of_send (d : Ide) {r : DiskReq} (hok : r.Ok) :
    Addressed ((diskSendCmd r.slave r.lba r.size r.cmd).dropLast.foldl
      (fun d o => d.outb o.1 o.2) d) r := by
  have hpos := hok.pos
  have hle := hok.le
  have hlba := hok.lba
  refine ⟨?_, ?_, ?_⟩
  · change (((diskDriveBase ||| if r.slave then 0x10 else 0) &&& 0x10) != 0) = r.slave
    cases r.slave <;> decide
  · change r.lba.toUInt8.toNat + 2 ^ 8 * (r.lba >>> 8).toUInt8.toNat +
      2 ^ 16 * (r.lba >>> 16).toUInt8.toNat + 2 ^ 24 * (r.lba >>> 24).toUInt8.toNat +
      2 ^ 32 * (0 : UInt8).toNat + 2 ^ 40 * (0 : UInt8).toNat = r.lba
    simp only [Nat.toUInt8, UInt8.toNat_ofNat', Nat.shiftRight_eq_div_pow, UInt8.toNat_zero]
    omega
  · change (if r.size.toUInt8.toNat + 2 ^ 8 * (r.size >>> 8).toUInt8.toNat = 0 then 65536
      else r.size.toUInt8.toNat + 2 ^ 8 * (r.size >>> 8).toUInt8.toNat) = r.size
    simp only [Nat.toUInt8, UInt8.toNat_ofNat', Nat.shiftRight_eq_div_pow]
    split <;> omega

/-- What the command starts. -/
theorem command_addressed {r : DiskReq} (h : d.Addressed r) (hpos : 0 < r.size) :
    (d.command r.cmd).phase = r.nextPhase 0 := by
  unfold command DiskReq.cmd DiskReq.nextPhase
  rw [if_pos hpos, h.slave, h.lba, h.sectors]
  cases r.write <;> rfl

end Ide

/-! ## Kinds of places -/

namespace DiskPc

/-- Holds the mutex. -/
def inside : DiskPc → Bool
  | .idle | .start _ | .locking _ => false
  | _ => true

def isLocking : DiskPc → Bool
  | .locking _ => true
  | _ => false

def isWaiting : DiskPc → Bool
  | .waiting _ _ _ => true
  | _ => false

/-- Has still to take the permit of the sector it is at. -/
def wants : DiskPc → Bool
  | .wait _ _ _ | .waiting _ _ _ => true
  | _ => false

/-- Has taken the permit, and not yet looked at the status. -/
def took : DiskPc → Bool
  | .poll _ _ _ => true
  | _ => false

/-- The call that is being made. -/
def req : DiskPc → Option DiskReq
  | .idle => none
  | .start r | .locking r | .onOp r | .send r _ | .wait r _ _ | .waiting r _ _ | .poll r _ _ |
    .data r _ _ _ | .unlock r _ _ => some r

theorem inside_granted {p : DiskPc} (h : p.isLocking = true) :
    ∃ r, p = .locking r ∧ p.granted = .onOp r := by
  cases p with
  | locking r => exact ⟨r, rfl, rfl⟩
  | _ => exact absurd h (by simp [isLocking])

theorem poll_granted {p : DiskPc} (h : p.isWaiting = true) :
    ∃ r count buf, p = .waiting r count buf ∧ p.granted = .poll r count buf := by
  cases p with
  | waiting r count buf => exact ⟨r, count, buf, rfl, rfl⟩
  | _ => exact absurd h (by simp [isWaiting])

end DiskPc

/-! ## Where the channel stands -/

/-- The channel does nothing until a command comes. -/
def Ide.Quiet (d : Ide) : Prop := d.phase = .idle ∨ d.phase = .failed

/-- `count` sectors are through and the next one is begun. -/
structure AtSector (r : DiskReq) (m : Media) (count : Nat) (d : Ide) : Prop where
  phase : d.phase = r.nextPhase count
  media : d.media = r.mediaAt m count
  intrq : d.intrq = false

/-- The sector at `count` is with the channel. `F` says that the channel has
failed before. -/
inductive Moving (F : Prop) (r : DiskReq) (m : Media) (count : Nat) (d : Ide) : Prop
  | busy (phase : d.phase = .busy r.write r.slave (r.lba + count) (r.size - count))
      (media : d.media = r.mediaAt m count) (intrq : d.intrq = false)
      (sector : r.write = true → ∀ i < 512, d.sector i = r.buf (count * 512 + i))
  | read (hr : r.write = false)
      (phase : d.phase = .ready false r.slave (r.lba + count) (r.size - count) 0)
      (media : d.media = r.mediaAt m count)
      (sector : ∀ i < 512, d.sector i = m r.slave ((r.lba + count) * 512 + i))
  | written (hw : r.write = true) (phase : d.phase = r.nextPhase (count + 1))
      (media : d.media = r.mediaAt m (count + 1))
  | failed (hf : F) (phase : d.phase = .failed) (media : d.media = r.mediaAt m count)

/-- What the data register has moved of the sector at `count`. -/
structure Transfer (r : DiskReq) (m : Media) (count word : Nat) (d : Ide) : Prop where
  phase : d.phase = .ready r.write r.slave (r.lba + count) (r.size - count) word
  media : d.media = r.mediaAt m count
  intrq : d.intrq = false
  sector : if r.write then ∀ i < 2 * word, d.sector i = r.buf (count * 512 + i)
    else ∀ i < 512, d.sector i = m r.slave ((r.lba + count) * 512 + i)

/-- `disk_send_cmd` has the writes `outs` left. -/
structure Sending (r : DiskReq) (outs : List (Nat × UInt8)) (d : Ide) : Prop where
  cmd : ∃ regs, outs = regs ++ [(diskCmd, r.cmd)] ∧ (∀ o ∈ regs, o.1 ≠ diskCmd) ∧
    (regs.foldl (fun d o => d.outb o.1 o.2) d).Addressed r

/-- How the channel stands for the place of the task inside the driver, `m`
being the media before its call. -/
def Working (F : Prop) (m : Media) (d : Ide) (onOp : Bool) : Option DiskPc → Prop
  | none | some (.onOp _) => d.Quiet ∧ d.media = m
  | some (.send r outs) => onOp = true ∧ d.Quiet ∧ d.media = m ∧ Sending r outs d
  | some (.wait r count buf) | some (.waiting r count buf) | some (.poll r count buf) =>
    onOp = true ∧ count < r.size ∧ buf = r.bufAt m (count * 512) ∧ Moving F r m count d
  | some (.data r count buf word) =>
    onOp = true ∧ count < r.size ∧ word < 256 ∧ buf = r.bufAt m (count * 512 + 2 * word) ∧
      Transfer r m count word d
  | some (.unlock r count buf) =>
    count ≤ r.size ∧ (count < r.size → F) ∧ buf = r.bufAt m (count * 512) ∧ d.Quiet ∧
      d.media = r.mediaAt m count
  | some (.idle) | some (.start _) | some (.locking _) => False

/-- The task goes on at `x`, where it has nobody to wait for unless the channel
is busy. -/
structure Enters (F : Prop) (m : Media) (r : DiskReq) (d : Ide) (x : DiskPc) : Prop where
  working : Working F m d true (some x)
  inside : x.inside = true
  calm : x.isWaiting = false ∧ x.took = false
  wants : x.wants = true → d.phase.isBusy = true
  req : x.req = some r

section Steps

variable {F : Prop} {r : DiskReq} {m : Media} {count word : Nat} {buf : Nat → UInt8} {d : Ide}

/-- The head of the loop. -/
theorem enters_head (h : AtSector r m count d) (hcount : count ≤ r.size)
    (hbuf : buf = r.bufAt m (count * 512)) : Enters F m r d (diskHead r count buf) := by
  have hphase := h.phase
  rw [DiskReq.nextPhase] at hphase
  unfold diskHead
  by_cases hlt : count < r.size
  · rw [if_pos hlt] at hphase ⊢
    cases hw : r.write with
    | true =>
      rw [hw, if_pos rfl] at hphase
      rw [if_pos rfl]
      refine ⟨⟨rfl, hlt, by decide, by rw [hbuf, Nat.mul_zero, Nat.add_zero],
        by rw [hphase, hw], h.media, h.intrq, ?_⟩, rfl, ⟨rfl, rfl⟩, by simp [DiskPc.wants], rfl⟩
      simp [hw]
    | false =>
      rw [hw, if_neg (by simp)] at hphase
      rw [if_neg (by simp)]
      refine ⟨⟨rfl, hlt, hbuf, .busy (by rw [hphase, hw]) h.media h.intrq ?_⟩, rfl, ⟨rfl, rfl⟩,
        fun _ => by rw [hphase]; rfl, rfl⟩
      simp [hw]
  · rw [if_neg hlt] at hphase ⊢
    exact ⟨⟨hcount, fun h => absurd h hlt, hbuf, .inl hphase, h.media⟩, rfl, ⟨rfl, rfl⟩,
      by simp [DiskPc.wants], rfl⟩

/-- The first write of `disk_send_cmd`. -/
theorem sending_cmd (d : Ide) (hok : r.Ok) :
    Sending r (diskSendCmd r.slave r.lba r.size r.cmd) d :=
  ⟨_, rfl, by simp [diskSendCmd, diskCmd, diskDrive, diskSectorCount, diskLbaLo, diskLbaMid,
    diskLbaHi], d.addressed_of_send hok⟩

/-- A write of `disk_send_cmd`. -/
theorem Sending.out {o : Nat × UInt8} {outs : List (Nat × UInt8)} (hne : outs ≠ [])
    (h : Sending r (o :: outs) d) :
    Sending r outs (d.outb o.1 o.2) ∧ (d.outb o.1 o.2).phase = d.phase ∧
      (d.outb o.1 o.2).media = d.media := by
  obtain ⟨regs, hregs, hport, haddr⟩ := h.cmd
  cases regs with
  | nil => simp_all
  | cons o' regs =>
    rw [List.cons_append, List.cons.injEq] at hregs
    obtain ⟨rfl, rfl⟩ := hregs
    have ho := hport o List.mem_cons_self
    exact ⟨⟨regs, rfl, fun o' ho' => hport o' (List.mem_cons_of_mem _ ho'), haddr⟩,
      Ide.outb_of_ne ho⟩

/-- The last write of `disk_send_cmd`. -/
theorem Sending.last {o : Nat × UInt8} (h : Sending r [o] d) (hpos : 0 < r.size)
    (hmedia : d.media = m) : AtSector r m 0 (d.outb o.1 o.2) := by
  obtain ⟨regs, hregs, -, haddr⟩ := h.cmd
  cases regs with
  | cons o' regs => simp_all
  | nil =>
    obtain ⟨rfl, -⟩ := List.cons.inj hregs
    exact ⟨Ide.command_addressed haddr hpos, by rw [DiskReq.mediaAt_zero, ← hmedia]; rfl, rfl⟩

/-- `disk_wait_data` goes on when the channel is no longer busy. -/
theorem keepsPolling_status (p : IdePhase) : keepsPolling p.status = p.isBusy := by
  cases p <;> simp only [IdePhase.status, IdePhase.isBusy, keepsPolling] <;> decide

theorem err_status (p : IdePhase) : (p.status &&& diskStatusErr != 0) = decide (p = .failed) := by
  cases p <;> simp [IdePhase.status] <;> decide

/-- The next sector is begun, or all are through. -/
theorem next_eq (hcount : count < r.size) :
    Ide.next r.write r.slave (r.lba + count) (r.size - count) = r.nextPhase (count + 1) := by
  unfold Ide.next DiskReq.nextPhase
  by_cases hlast : r.size - count = 1
  · rw [if_pos hlast, if_neg (by omega)]
  · have hlt : count + 1 < r.size := by omega
    rw [if_neg hlast, if_pos hlt, Nat.add_assoc, Nat.sub_sub]

/-- The word that the channel hands over, and where it stands then. -/
theorem Transfer.word_read (h : Transfer r m count word d) (hr : r.write = false)
    (hcount : count < r.size) (hword : word < 256) :
    (d.inw.2.1 = m r.slave (r.lba * 512 + (count * 512 + 2 * word)) ∧
      d.inw.2.2 = m r.slave (r.lba * 512 + (count * 512 + 2 * word + 1))) ∧
      (word + 1 < 256 → Transfer r m count (word + 1) d.inw.1) ∧
      (¬word + 1 < 256 → AtSector r m (count + 1) d.inw.1) := by
  have hphase := h.phase
  have hsector := h.sector
  rw [hr] at hphase hsector
  rw [if_neg (by simp)] at hsector
  have hinw : d.inw = ({ d with
      phase :=
        if word + 1 < 256 then .ready false r.slave (r.lba + count) (r.size - count) (word + 1)
        else Ide.next false r.slave (r.lba + count) (r.size - count) },
      (d.sector (2 * word), d.sector (2 * word + 1))) := by
    rw [Ide.inw, hphase]
  have hat : ∀ i, (r.lba + count) * 512 + i = r.lba * 512 + (count * 512 + i) := fun i => by
    rw [Nat.add_mul, Nat.add_assoc]
  have hlow := hsector (2 * word) (by omega)
  have hhigh := hsector (2 * word + 1) (by omega)
  rw [hat] at hlow hhigh
  rw [← Nat.add_assoc (count * 512)] at hhigh
  rw [hinw]
  refine ⟨⟨hlow, hhigh⟩, fun hlast => ?_, fun hlast => ?_⟩
  · rw [if_pos hlast]
    refine ⟨by dsimp only; rw [hr], h.media, h.intrq, ?_⟩
    rw [hr, if_neg (by simp)]
    exact hsector
  · rw [if_neg hlast]
    refine ⟨?_, ?_, h.intrq⟩
    · rw [← next_eq hcount, hr]
    · have hm := h.media
      simp only [DiskReq.mediaAt, hr, Bool.false_eq_true, if_false] at hm ⊢
      exact hm

/-- A word of a sector that is read. -/
theorem Transfer.inw (h : Transfer r m count word d) (hr : r.write = false)
    (hcount : count < r.size) (hword : word < 256)
    (hbuf : buf = r.bufAt m (count * 512 + 2 * word)) :
    Enters F m r d.inw.1 (diskMoved r count
      (Function.update (Function.update buf (count * 512 + 2 * word) d.inw.2.1)
        (count * 512 + 2 * word + 1) d.inw.2.2) word) := by
  obtain ⟨⟨hlow, hhigh⟩, hmore, hlast⟩ := h.word_read hr hcount hword
  rw [hbuf, DiskReq.bufAt_word hr hlow hhigh]
  unfold diskMoved
  by_cases h256 : word + 1 < 256
  · have hword' : 2 * word + 2 = 2 * (word + 1) := rfl
    rw [if_pos h256]
    exact ⟨⟨rfl, hcount, h256, by rw [Nat.add_assoc, hword'], hmore h256⟩, rfl, ⟨rfl, rfl⟩,
      by simp [DiskPc.wants], rfl⟩
  · have h255 : word = 255 := by omega
    rw [if_neg h256, hr, if_neg (by simp)]
    exact enters_head (hlast h256) hcount (by rw [h255, Nat.add_mul, Nat.add_assoc])

/-- A word of a sector that is written. -/
theorem Transfer.outw (h : Transfer r m count word d) (hw : r.write = true)
    (hcount : count < r.size) (hword : word < 256)
    (hbuf : buf = r.bufAt m (count * 512 + 2 * word)) :
    Enters F m r (d.outw (buf (count * 512 + 2 * word), buf (count * 512 + 2 * word + 1)))
      (diskMoved r count buf word) := by
  have hphase := h.phase
  have hsector := h.sector
  rw [hw] at hphase hsector
  rw [if_pos rfl] at hsector
  have hbuf' : buf = r.buf := by
    rw [hbuf, DiskReq.bufAt, hw, if_pos rfl]
  have hall : ∀ n, buf = r.bufAt m n := fun n => by
    rw [hbuf', DiskReq.bufAt, hw, if_pos rfl]
  have houtw : d.outw (buf (count * 512 + 2 * word), buf (count * 512 + 2 * word + 1)) =
      { d with
        sector := Function.update (Function.update d.sector (2 * word)
          (buf (count * 512 + 2 * word))) (2 * word + 1) (buf (count * 512 + 2 * word + 1))
        phase :=
          if word + 1 < 256 then .ready true r.slave (r.lba + count) (r.size - count) (word + 1)
          else .busy true r.slave (r.lba + count) (r.size - count) } := by
    rw [Ide.outw, hphase]
  have hfilled : ∀ i < 2 * (word + 1), Function.update (Function.update d.sector (2 * word)
      (buf (count * 512 + 2 * word))) (2 * word + 1) (buf (count * 512 + 2 * word + 1)) i =
        r.buf (count * 512 + i) := by
    intro i hi
    by_cases h₁ : i = 2 * word + 1
    · rw [h₁, Function.update_self, hbuf', Nat.add_assoc]
    · rw [Function.update_of_ne h₁]
      by_cases h₀ : i = 2 * word
      · rw [h₀, Function.update_self, hbuf']
      · rw [Function.update_of_ne h₀, hsector i (by omega)]
  rw [houtw]
  unfold diskMoved
  by_cases hlast : word + 1 < 256
  · rw [if_pos hlast, if_pos hlast]
    refine ⟨⟨rfl, hcount, hlast, hall _, by dsimp only; rw [hw], h.media, h.intrq, ?_⟩, rfl,
      ⟨rfl, rfl⟩, by simp [DiskPc.wants], rfl⟩
    rw [hw, if_pos rfl]
    exact hfilled
  · have h256 : word = 255 := by omega
    rw [if_neg hlast, if_neg hlast, hw, if_pos rfl]
    refine ⟨⟨rfl, hcount, hall _, .busy (by dsimp only; rw [hw]) h.media h.intrq ?_⟩, rfl,
      ⟨rfl, rfl⟩, fun _ => rfl, rfl⟩
    exact fun _ i hi => hfilled i (by omega)

theorem nextPhase_write (hw : r.write = true) :
    (r.nextPhase count).isBusy = false ∧ r.nextPhase count ≠ .failed := by
  unfold DiskReq.nextPhase
  rw [hw, if_pos rfl]
  split <;> simp [IdePhase.isBusy]

/-- A busy channel is at the sector. -/
theorem Moving.of_busy (h : Moving F r m count d) (hbusy : d.phase.isBusy = true) :
    d.phase = .busy r.write r.slave (r.lba + count) (r.size - count) ∧
      d.media = r.mediaAt m count ∧ d.intrq = false ∧
      (r.write = true → ∀ i < 512, d.sector i = r.buf (count * 512 + i)) := by
  cases h with
  | busy phase media intrq sector => exact ⟨phase, media, intrq, sector⟩
  | read hr phase => simp [phase, IdePhase.isBusy] at hbusy
  | written hw phase =>
    rw [phase, (nextPhase_write hw).1] at hbusy
    simp at hbusy
  | failed hf phase => simp [phase, IdePhase.isBusy] at hbusy

/-- The status is read while the channel is busy. -/
theorem Moving.busy_status (h : Moving F r m count d) (hbusy : d.phase.isBusy = true) :
    d.inStatus.1 = d := by
  obtain ⟨-, -, hintrq, -⟩ := h.of_busy hbusy
  obtain ⟨⟩ := d
  cases hintrq
  rfl

/-- The status says how the sector went. -/
theorem Moving.polled (h : Moving F r m count d) (hcount : count < r.size)
    (hbuf : buf = r.bufAt m (count * 512)) (hbusy : d.phase.isBusy = false) :
    Enters F m r d.inStatus.1 (diskPolled r count buf d.phase.status) := by
  unfold diskPolled
  rw [err_status]
  cases h with
  | busy phase => simp [phase, IdePhase.isBusy] at hbusy
  | read hr phase media sector =>
    rw [phase, hr, if_neg (by simp), if_neg (by simp)]
    refine ⟨⟨rfl, hcount, by decide, by rw [hbuf, Nat.mul_zero, Nat.add_zero], ?_⟩, rfl,
      ⟨rfl, rfl⟩, by simp [DiskPc.wants], rfl⟩
    refine ⟨phase.trans (by rw [hr]), media, rfl, ?_⟩
    rw [hr, if_neg (by simp)]
    exact sector
  | written hw phase media =>
    have hok : d.phase ≠ .failed := phase ▸ (nextPhase_write hw).2
    rw [hw, if_neg (by simpa using hok), if_pos rfl]
    refine enters_head ⟨phase, media, rfl⟩ hcount ?_
    rw [hbuf, DiskReq.bufAt, DiskReq.bufAt, hw, if_pos rfl, if_pos rfl]
  | failed hf phase media =>
    rw [phase, if_pos (by simp)]
    exact ⟨⟨Nat.le_of_lt hcount, fun _ => hf, hbuf, .inr phase, media⟩, rfl, ⟨rfl, rfl⟩,
      by simp [DiskPc.wants], rfl⟩

/-- The channel stops being busy and raises its line. -/
theorem Ide.of_done {d' : Ide} (h : d.done = some d') :
    d.phase.isBusy = true ∧ d'.phase.isBusy = false ∧ d'.intrq = true := by
  unfold Ide.done at h
  split at h
  next hphase =>
    obtain rfl := Option.some.inj h
    exact ⟨by rw [hphase]; rfl, rfl, rfl⟩
  next slave lba left hphase =>
    obtain rfl := Option.some.inj h
    refine ⟨by rw [hphase]; rfl, ?_, rfl⟩
    simp only [Ide.next, if_true]
    split <;> rfl
  next => simp at h

theorem Ide.done_of_busy (h : d.phase.isBusy = true) : ∃ d', d.done = some d' := by
  unfold Ide.done
  split <;> first | exact ⟨_, rfl⟩ | simp_all [IdePhase.isBusy]

theorem Ide.of_fail {d' : Ide} (h : d.fail = some d') :
    d.phase.isBusy = true ∧ d'.phase.isBusy = false ∧ d'.intrq = true := by
  unfold Ide.fail at h
  split at h
  next hphase =>
    obtain rfl := Option.some.inj h
    exact ⟨by rw [hphase]; rfl, rfl, rfl⟩
  next => simp at h

/-- The channel has done the sector. -/
theorem Moving.done (h : Moving F r m count d) (hcount : count < r.size) {d' : Ide}
    (hd : d.done = some d') : Moving F r m count d' := by
  obtain ⟨phase, media, intrq, sector⟩ := h.of_busy (Ide.of_done hd).1
  cases hw : r.write with
  | true =>
    have hnext := next_eq hcount
    rw [hw] at phase hnext
    rw [Ide.done, phase] at hd
    obtain rfl := Option.some.inj hd
    refine .written hw hnext ?_
    rw [media]
    exact DiskReq.mediaAt_succ hw (sector hw)
  | false =>
    rw [hw] at phase
    rw [Ide.done, phase] at hd
    obtain rfl := Option.some.inj hd
    refine .read hw rfl media fun i _ => ?_
    rw [media, DiskReq.mediaAt, hw, if_neg (by simp)]

/-- The channel could not do the sector. -/
theorem Moving.fail (h : Moving F r m count d) (hf : F) {d' : Ide} (hd : d.fail = some d') :
    Moving F r m count d' := by
  obtain ⟨phase, media, -, -⟩ := h.of_busy (Ide.of_fail hd).1
  rw [Ide.fail, phase] at hd
  obtain rfl := Option.some.inj hd
  exact .failed hf rfl media

end Steps

/-! ## The permits -/

/-- An interrupt that the controller keeps. -/
def irrCount (irr : Bool) : Int := if irr then 1 else 0

/-- How many permits there are, with those to come, beyond the surplus. -/
def slack (cur : Option DiskPc) (busy : Bool) : Int :=
  if cur.any DiskPc.wants then if busy then 0 else 1
  else if cur.any DiskPc.took then if busy then -1 else 0
  else 0

theorem slack_le (cur : Option DiskPc) (busy : Bool) : slack cur busy ≤ 1 := by
  unfold slack
  split_ifs <;> omega

theorem irrCount_nonneg (irr : Bool) : 0 ≤ irrCount irr := by cases irr <;> simp [irrCount]

/-- The permits of `op_sem` and the interrupts on their way. -/
structure Permits (k : Nat) (count : Int) (irr busy : Bool) (cur : Option DiskPc) : Prop where
  bound : count + irrCount irr ≤ k + slack cur busy
  wake : cur.any DiskPc.wants = true → busy = true ∨ 1 ≤ count + irrCount irr

section Permits

variable {k : Nat} {count : Int} {irr busy busy' : Bool} {p x : DiskPc}

/-- A task that asks for nothing goes on. -/
theorem Permits.calm (h : Permits k count irr busy (some p)) (hp : p.wants = false)
    (hp' : p.took = true → busy = false) (hx : x.took = false)
    (hb : x.wants = true → busy' = true) : Permits k count irr busy' (some x) := by
  have hslack : slack (some p) busy = 0 := by
    cases hpt : p.took with
    | true => simp [slack, hp, hpt, hp' hpt]
    | false => simp [slack, hp, hpt]
  have hslack' : slack (some x) busy' = 0 := by
    cases hxw : x.wants with
    | true => simp [slack, hxw, hb hxw]
    | false => simp [slack, hxw, hx]
  refine ⟨?_, fun hw => .inl (hb (by simpa using hw))⟩
  have hbound := h.bound
  rw [hslack] at hbound
  rwa [hslack']

/-- A task that asks for nothing leaves. -/
theorem Permits.left (h : Permits k count irr busy (some p)) (hp : p.wants = false ∧ p.took = false)
    {cur : Option DiskPc} (hcur : cur.any DiskPc.wants = false ∧ cur.any DiskPc.took = false) :
    Permits k count irr busy cur := by
  refine ⟨?_, by simp [hcur.1]⟩
  have hbound := h.bound
  simpa [slack, hp, hcur] using hbound

/-- A task takes a permit. -/
theorem Permits.taken (h : Permits k count irr busy (some p)) (hp : p.wants = true)
    (hx : x.wants = false) (hx' : x.took = true) : Permits k (count - 1) irr busy (some x) := by
  have hbound := h.bound
  refine ⟨?_, by simp [hx]⟩
  cases busy <;> simp [slack, hp, hx, hx'] at hbound ⊢ <;> omega

/-- A task starts to wait. -/
theorem Permits.blocked (h : Permits k count irr busy (some p)) (hp : p.wants = true)
    (hx : x.wants = true) : Permits k count irr busy (some x) := by
  refine ⟨?_, fun _ => h.wake (by simpa using hp)⟩
  have hbound := h.bound
  simpa [slack, hp, hx] using hbound

variable {cur : Option DiskPc}

/-- `op_sem` counts the interrupt. -/
theorem Permits.raised (h : Permits k count true busy cur) :
    Permits k (count + 1) false busy cur := by
  have hbound := h.bound
  have hwake := h.wake
  simp only [irrCount, if_true] at hbound hwake
  exact ⟨by simpa [irrCount] using hbound, fun hw => by simpa [irrCount] using hwake hw⟩

/-- An interrupt that nobody is told of. -/
theorem Permits.dropped (h : Permits k count true busy cur) (hcur : cur.any DiskPc.wants = false) :
    Permits k count false busy cur := by
  have hbound := h.bound
  simp only [irrCount, if_true] at hbound
  refine ⟨?_, fun hw => by simp [hcur] at hw⟩
  simp only [irrCount, Bool.false_eq_true, if_false]
  omega

/-- The channel is through with a sector. -/
theorem Permits.finished (h : Permits k count irr true cur) (hnonneg : 0 ≤ count)
    (hcur : cur.any DiskPc.wants = true ∨ cur.any DiskPc.took = true) :
    Permits k count true false cur := by
  have hbound := h.bound
  have hirr := irrCount_nonneg irr
  refine ⟨?_, fun _ => .inr (by simp [irrCount, hnonneg])⟩
  cases hw : cur.any DiskPc.wants with
  | true =>
    simp only [slack, hw, if_true, Bool.false_eq_true, if_false] at hbound ⊢
    simp only [irrCount, if_true]
    omega
  | false =>
    have ht : cur.any DiskPc.took = true := hcur.resolve_left (by simp [hw])
    simp only [slack, hw, ht, if_true, Bool.false_eq_true, if_false] at hbound ⊢
    simp only [irrCount, if_true]
    omega

end Permits

/-! ## The invariant -/

section

variable {τ : Type*} [DecidableEq τ]

/-- The bytes of the partition, as the file system sees them. -/
def DiskReq.volume (r : DiskReq) (m : Media) : Volume where
  disk i := m r.slave (r.startSector * sectorSize + i)
  fatBuffer _ := 0
  currSector := -1
  calls := 0
  stack _ := 0

/-- The media with the bytes of the partition replaced. -/
def DiskReq.store (r : DiskReq) (m : Media) (disk : Nat → UInt8) : Media := fun slave a =>
  if slave = r.slave ∧ r.startSector * sectorSize ≤ a then disk (a - r.startSector * sectorSize)
  else m slave a

/-- The calls of `log` made one after the other, from the media `m₀`: a call
that returns `count` is a call of `dev_read` or `dev_write` that the device
answers with `count`. -/
inductive Served (m₀ : Media) : List (DiskDone τ) → Media → Prop
  | none : Served m₀ [] m₀
  | read {log m e} : Served m₀ log m → e.req.write = false →
      e.buf = (devRead (fun _ _ => e.count) (e.req.volume m) e.req.addr e.req.buf
        e.req.size).2.1 →
      Served m₀ (log ++ [e]) m
  | write {log m e} : Served m₀ log m → e.req.write = true → e.buf = e.req.buf →
      Served m₀ (log ++ [e]) (e.req.store m
        (devWrite (fun _ _ => e.count) (e.req.volume m) e.req.addr e.req.buf e.req.size).1.disk)

omit [DecidableEq τ] in
/-- A call that returns is one of `dev_read` or `dev_write`. -/
theorem Served.snoc {m₀ m : Media} {log : List (DiskDone τ)} (h : Served m₀ log m)
    {e : DiskDone τ} (hcount : e.count ≤ e.req.size)
    (hbuf : e.buf = e.req.bufAt m (e.count * 512)) :
    Served m₀ (log ++ [e]) (e.req.mediaAt m e.count) := by
  have hmin : min ((e.count : Int).toNat) e.req.size * sectorSize = e.count * 512 := by
    rw [Int.toNat_natCast, Nat.min_eq_left hcount]
    rfl
  have hlba : e.req.lba * 512 = e.req.startSector * sectorSize + e.req.addr * sectorSize :=
    Nat.add_mul ..
  cases hw : e.req.write with
  | false =>
    have hread := h.read (e := e) hw (by
      rw [hbuf, DiskReq.bufAt, hw, if_neg (by simp), devRead]
      dsimp only [DiskReq.volume]
      simp only [hmin, hlba, Nat.add_assoc])
    rwa [DiskReq.mediaAt, hw, if_neg (by simp)]
  | true =>
    have hwrite := h.write (e := e) hw (by rw [hbuf, DiskReq.bufAt, hw, if_pos rfl])
    refine (congrArg (Served m₀ (log ++ [e])) ?_).mpr hwrite
    rw [DiskReq.mediaAt, hw, if_pos rfl, devWrite]
    funext slave a
    dsimp only [DiskReq.volume, DiskReq.store]
    by_cases hs : slave = e.req.slave
    · rw [hs, Function.update_self, hmin, hlba]
      by_cases ha : e.req.startSector * sectorSize ≤ a
      · rw [if_pos ⟨rfl, ha⟩, copyTo_window ha]
      · rw [if_neg (fun hc => ha hc.2), copyTo_of_lt (by omega)]
    · rw [Function.update_of_ne hs, if_neg (fun hc => hs hc.1)]

/-- The task inside the driver. -/
def Disk.cur (s : Disk τ) : Option DiskPc := s.mutex.owner.map s.pc

/-- `k` bounds the permits that nobody asked for; `F` says that the channel has
failed before. -/
structure DiskInv (k : Nat) (F : Prop) (m₀ : Media) (s : Disk τ) : Prop where
  waits : s.opSem.Waits DiskPc.isWaiting s.pc
  guards : s.mutex.Guards DiskPc.inside DiskPc.isLocking s.pc
  working : ∃ m, Served m₀ s.log m ∧ Working F m s.ide s.taskOnOp s.cur
  permits : Permits k s.opSem.count s.irr s.ide.phase.isBusy s.cur
  ok : ∀ t r, (s.pc t).req = some r → r.Ok
  counts : ∀ e ∈ s.log, e.count ≤ e.req.size ∧ (e.count < e.req.size → F)
  asked : ∀ t, s.asked t =
    (s.log.filter (·.task = t)).map DiskDone.req ++ (s.pc t).req.toList

variable {k : Nat} {F : Prop} {m₀ : Media} {s : Disk τ} {t : τ} {x : DiskPc}

theorem diskInv_init {surplus : Nat} {onOp irr : Bool} {ide : Ide} (hquiet : ide.Quiet) :
    DiskInv (surplus + 1) F ide.media (diskInit surplus onOp irr ide : Disk τ) := by
  have hbusy : ide.phase.isBusy = false := by
    rcases hquiet with h | h <;> rw [h] <;> rfl
  refine ⟨⟨by simp [diskInit], by simp [diskInit], List.nodup_nil, ?_⟩,
    ⟨?_, rfl, fun _ => rfl, List.nodup_nil, ?_⟩, ⟨_, .none, hquiet, rfl⟩, ⟨?_, ?_⟩, ?_, ?_, ?_⟩
  · simp [diskInit, DiskPc.isWaiting]
  · simp [diskInit, Lock.free, DiskPc.inside]
  · simp [diskInit, Lock.free, DiskPc.isLocking]
  · have hirr : irrCount irr ≤ 1 := by cases irr <;> simp [irrCount]
    simpa [diskInit, Disk.cur, Lock.free, slack] using hirr
  · simp [diskInit, Disk.cur, Lock.free]
  · simp [diskInit, DiskPc.req]
  · simp [diskInit]
  · simp [diskInit, DiskPc.req]

theorem DiskInv.owner (h : DiskInv k F m₀ s) (ht : (s.pc t).inside = true) :
    s.mutex.owner = some t ∧ s.cur = some (s.pc t) := by
  have howner := (h.guards.owner t).mpr ht
  exact ⟨howner, by rw [Disk.cur, howner]; rfl⟩

omit [DecidableEq τ] in
theorem cur_none {mutex : Lock τ} {pc : τ → DiskPc}
    (h : mutex.Guards DiskPc.inside DiskPc.isLocking pc)
    (hnone : ∀ u, (pc u).inside = false) : mutex.owner.map pc = none := by
  cases howner : mutex.owner with
  | none => rfl
  | some u => exact absurd ((h.owner u).mp howner) (by simp [hnone u])

omit [DecidableEq τ] in
/-- Where the tasks inside stay where they are. -/
theorem cur_same {mutex mutex' : Lock τ} {pc pc' : τ → DiskPc}
    (h : mutex.Guards DiskPc.inside DiskPc.isLocking pc)
    (h' : mutex'.Guards DiskPc.inside DiskPc.isLocking pc')
    (hsame : ∀ u, (pc u).inside = true ∨ (pc' u).inside = true → pc' u = pc u) :
    mutex'.owner.map pc' = mutex.owner.map pc := by
  cases howner : mutex.owner with
  | none =>
    refine cur_none h' fun u => Bool.not_eq_true _ ▸ fun hu => ?_
    have hin := (h.owner u).mpr (hsame u (.inr hu) ▸ hu)
    simp [howner] at hin
  | some u =>
    have hu := (h.owner u).mp howner
    have hpc := hsame u (.inl hu)
    rw [(h'.owner u).mpr (hpc ▸ hu), Option.map_some, Option.map_some, hpc]

/-- What the other tasks ask for stays as it is. -/
theorem req_update {pc : τ → DiskPc} (hreq : x.req = (pc t).req) (u : τ) :
    (Function.update pc t x u).req = (pc u).req := by
  by_cases hut : u = t
  · rw [hut, Function.update_self, hreq]
  · rw [Function.update_of_ne hut]

/-- The task inside goes on. -/
theorem DiskInv.move (h : DiskInv k F m₀ s) (ht : (s.pc t).inside = true) (hx : x.inside = true)
    (hreq : x.req = (s.pc t).req) {opSem : Semaphore τ} {ide : Ide} {onOp irr : Bool}
    (hwaits : opSem.Waits DiskPc.isWaiting (Function.update s.pc t x))
    (hwork : ∀ m, Working F m s.ide s.taskOnOp (some (s.pc t)) →
      Working F m ide onOp (some x))
    (hperm : Permits k s.opSem.count s.irr s.ide.phase.isBusy (some (s.pc t)) →
      Permits k opSem.count irr ide.phase.isBusy (some x)) :
    DiskInv k F m₀ { s with
      opSem, ide, irr, taskOnOp := onOp, pc := Function.update s.pc t x } := by
  obtain ⟨howner, hcur⟩ := h.owner ht
  obtain ⟨m, hserved, hm⟩ := h.working
  have hcur' : s.mutex.owner.map (Function.update s.pc t x) = some x := by
    rw [howner, Option.map_some, Function.update_self]
  have houtside : ∀ p : DiskPc, p.inside = true → p.isLocking = false := fun p hp => by
    cases p <;> first | rfl | exact absurd hp (by simp [DiskPc.inside])
  have hpermits := h.permits
  rw [hcur] at hm hpermits
  refine ⟨hwaits, h.guards.step (hx.trans ht.symm)
    ((houtside x hx).trans (houtside _ ht).symm), ⟨m, hserved, ?_⟩, ?_, fun u r hu => ?_,
    h.counts, fun u => ?_⟩
  · rw [Disk.cur, hcur']
    exact hwork m hm
  · rw [Disk.cur, hcur']
    exact hperm hpermits
  · exact h.ok u r ((req_update hreq u).symm.trans hu)
  · rw [h.asked u, req_update hreq u]

/-- The task inside goes on where it has nobody to wait for. -/
theorem DiskInv.enter (h : DiskInv k F m₀ s) {r : DiskReq} {ide : Ide}
    (ht : (s.pc t).inside = true) (hwait : (s.pc t).isWaiting = false)
    (hwants : (s.pc t).wants = false) (htook : (s.pc t).took = true → s.ide.phase.isBusy = false)
    (hreq : (s.pc t).req = some r) (honOp : s.taskOnOp = true)
    (hwork : ∀ m, Working F m s.ide s.taskOnOp (some (s.pc t)) → Enters F m r ide x) :
    DiskInv k F m₀ { s with ide, pc := Function.update s.pc t x } := by
  obtain ⟨m, -, hm⟩ := h.working
  rw [(h.owner ht).2] at hm
  have hx := hwork m hm
  exact h.move ht hx.inside (hx.req.trans hreq.symm) (h.waits.step hwait hx.calm.1)
    (fun m hm => honOp ▸ (hwork m hm).working)
    (fun hp => hp.calm hwants htook hx.calm.2 hx.wants)

/-! ## The steps -/

section Steps

variable {r : DiskReq} {count word : Nat} {buf : Nat → UInt8}

/-- A task that stays outside goes on. -/
theorem DiskInv.aside (h : DiskInv k F m₀ s) (ht : (s.pc t).inside = false)
    (hx : x.inside = false) {mutex : Lock τ} {asked : τ → List DiskReq}
    (hguards : mutex.Guards DiskPc.inside DiskPc.isLocking (Function.update s.pc t x))
    (hok : ∀ r, x.req = some r → r.Ok)
    (hasked : ∀ u, asked u = (s.log.filter (·.task = u)).map DiskDone.req ++
      (Function.update s.pc t x u).req.toList) :
    DiskInv k F m₀ { s with mutex, asked, pc := Function.update s.pc t x } := by
  have hcur : mutex.owner.map (Function.update s.pc t x) = s.cur :=
    cur_same h.guards hguards fun u hu => by
      by_cases hut : u = t
      · rw [hut, Function.update_self, ht, hx] at hu
        simp at hu
      · exact Function.update_of_ne hut ..
  have houtside : ∀ p : DiskPc, p.inside = false → p.isWaiting = false := fun p hp => by
    cases p <;> first | rfl | exact absurd hp (by simp [DiskPc.inside])
  refine ⟨h.waits.step (houtside _ ht) (houtside _ hx), hguards, ?_, ?_, fun u r hu => ?_,
    h.counts, hasked⟩
  · rw [Disk.cur, hcur]
    exact h.working
  · rw [Disk.cur, hcur]
    exact h.permits
  · dsimp only at hu
    by_cases hut : u = t
    · rw [hut, Function.update_self] at hu
      exact hok r hu
    · rw [Function.update_of_ne hut] at hu
      exact h.ok u r hu

/-- A call of `disk_read` or `disk_write`. -/
theorem DiskInv.call (h : DiskInv k F m₀ s) (hpc : s.pc t = .idle) (hok : r.Ok) :
    DiskInv k F m₀ { s with
      pc := Function.update s.pc t (.start r)
      asked := Function.update s.asked t (s.asked t ++ [r]) } := by
  have hasked := h.asked t
  rw [hpc] at hasked
  refine h.aside (by rw [hpc]; rfl) rfl (h.guards.step (by rw [hpc]; rfl) (by rw [hpc]; rfl))
    (fun r' hr' => Option.some.inj hr' ▸ hok) fun u => ?_
  by_cases hut : u = t
  · subst hut
    rw [Function.update_self, Function.update_self, hasked]
    simp [DiskPc.req]
  · rw [Function.update_of_ne hut, Function.update_of_ne hut, h.asked u]

/-- The step `mutex_lock`. -/
theorem DiskInv.start (h : DiskInv k F m₀ s) (hpc : s.pc t = .start r) :
    ∃ s', diskStep s (.step t) = some s' ∧ DiskInv k F m₀ s' := by
  have hreq : ∀ x : DiskPc, x.req = some r → x.req = (s.pc t).req := fun x hx => by
    rw [hx, hpc]
    rfl
  have hok : r.Ok := h.ok t r (by rw [hpc]; rfl)
  simp only [diskStep, diskTaskStep, hpc]
  rcases h.guards.lock (a := .onOp r) (b := .locking r) (by rw [hpc]; rfl) (by rw [hpc]; rfl)
    ⟨rfl, rfl⟩ ⟨rfl, rfl⟩ with ⟨mutex, hlock, hnone, hguards⟩ | ⟨mutex, hlock, hguards⟩
  · have howner : mutex.owner = some t := (hguards.owner t).mpr (by rw [Function.update_self]; rfl)
    have hcur : mutex.owner.map (Function.update s.pc t (.onOp r)) = some (.onOp r) := by
      rw [howner, Option.map_some, Function.update_self]
    have hwork := h.working
    have hperm := h.permits
    rw [Disk.cur, cur_none h.guards hnone] at hwork hperm
    rw [hlock]
    refine ⟨_, rfl, h.waits.step (by rw [hpc]; rfl) rfl, hguards, ?_, ?_, fun u r' hu => ?_,
      h.counts, fun u => ?_⟩
    · rw [Disk.cur, if_pos rfl, hcur]
      exact hwork
    · rw [Disk.cur, if_pos rfl, hcur]
      exact ⟨hperm.bound, by simp [DiskPc.wants]⟩
    · exact h.ok u r' ((req_update (hreq _ rfl) u).symm.trans hu)
    · dsimp only
      rw [h.asked u, if_pos rfl, req_update (hreq _ rfl) u]
  · rw [hlock]
    refine ⟨_, rfl, h.aside (by rw [hpc]; rfl) rfl hguards
      (fun r' hr' => Option.some.inj hr' ▸ hok) fun u => ?_⟩
    rw [h.asked u, req_update (hreq _ rfl) u]

/-- The step `task_on_op = 1`. -/
theorem DiskInv.onOp (h : DiskInv k F m₀ s) (hpc : s.pc t = .onOp r) :
    ∃ s', diskStep s (.step t) = some s' ∧ DiskInv k F m₀ s' := by
  have hok : r.Ok := h.ok t r (by rw [hpc]; rfl)
  simp only [diskStep, diskTaskStep, hpc]
  refine ⟨_, rfl, h.move (by rw [hpc]; rfl) rfl (by rw [hpc]; rfl)
    (h.waits.step (by rw [hpc]; rfl) rfl) (fun m hm => ?_) fun hp => ?_⟩
  · rw [hpc] at hm
    exact ⟨rfl, hm.1, hm.2, sending_cmd s.ide hok⟩
  · exact hp.calm (by rw [hpc]; rfl) (by rw [hpc]; simp [DiskPc.took]) rfl (by simp [DiskPc.wants])

/-- A port write of `disk_send_cmd`. -/
theorem DiskInv.send {outs : List (Nat × UInt8)} (h : DiskInv k F m₀ s)
    (hpc : s.pc t = .send r outs) :
    ∃ s', diskStep s (.step t) = some s' ∧ DiskInv k F m₀ s' := by
  have hok : r.Ok := h.ok t r (by rw [hpc]; rfl)
  have hin : (s.pc t).inside = true := by rw [hpc]; rfl
  obtain ⟨m, -, hm⟩ := h.working
  rw [(h.owner hin).2, hpc] at hm
  obtain ⟨honOp, hquiet, -, hsend⟩ := hm
  simp only [diskStep, diskTaskStep, hpc]
  match outs, hpc, hsend with
  | [], hpc, hsend =>
    obtain ⟨regs, hregs, -⟩ := hsend.cmd
    exact absurd hregs (by simp)
  | [o], hpc, hsend =>
    refine ⟨_, rfl, h.enter hin (by rw [hpc]; rfl) (by rw [hpc]; rfl)
      (by rw [hpc]; simp [DiskPc.took]) (by rw [hpc]; rfl) honOp fun m' hm' => ?_⟩
    rw [hpc] at hm'
    exact enters_head (hsend.last hok.pos hm'.2.2.1) (Nat.zero_le _)
      (by rw [Nat.zero_mul, DiskReq.bufAt_zero])
  | o :: o' :: outs, hpc, hsend =>
    obtain ⟨hrest, hphase, hmedia⟩ := hsend.out (by simp)
    refine ⟨_, rfl, h.move hin rfl (by rw [hpc]; rfl) (h.waits.step (by rw [hpc]; rfl) rfl)
      (fun m' hm' => ?_) fun hp => ?_⟩
    · rw [hpc] at hm'
      refine ⟨honOp, ?_, hmedia.trans hm'.2.2.1, hrest⟩
      unfold Ide.Quiet
      rwa [hphase]
    · exact hp.calm (by rw [hpc]; rfl) (by rw [hpc]; simp [DiskPc.took]) rfl
        (by simp [DiskPc.wants])

/-- The step `sem_wait`. -/
theorem DiskInv.wait (h : DiskInv k F m₀ s) (hk : (k : Int) < intMax)
    (hpc : s.pc t = .wait r count buf) :
    ∃ s', diskStep s (.step t) = some s' ∧ DiskInv k F m₀ s' := by
  have hin : (s.pc t).inside = true := by rw [hpc]; rfl
  have hwait : (s.pc t).isWaiting = false := by rw [hpc]; rfl
  have hwants : (s.pc t).wants = true := by rw [hpc]; rfl
  simp only [diskStep, diskTaskStep, hpc]
  by_cases hpos : s.opSem.count > 0
  · have hmax : s.opSem.count ≤ intMax := by
      have hbound := h.permits.bound
      have hirr := irrCount_nonneg s.irr
      have hslack := slack_le s.cur s.ide.phase.isBusy
      omega
    obtain ⟨hw, hwaits⟩ := h.waits.granted (a := .poll r count buf) hpos hmax hwait rfl
    rw [hw]
    refine ⟨_, rfl, h.move hin rfl (by rw [hpc]; rfl) hwaits (fun m hm => ?_) fun hp => ?_⟩
    · rw [hpc] at hm
      exact hm
    · exact hp.taken hwants rfl rfl
  · obtain ⟨hw, hwaits⟩ := h.waits.blocked (a := .waiting r count buf) hpos hwait rfl
    rw [hw]
    refine ⟨_, rfl, h.move hin rfl (by rw [hpc]; rfl) hwaits (fun m hm => ?_) fun hp => ?_⟩
    · rw [hpc] at hm
      exact hm
    · exact hp.blocked hwants rfl

/-- A read of the status in `disk_wait_data`. -/
theorem DiskInv.poll (h : DiskInv k F m₀ s) (hpc : s.pc t = .poll r count buf) :
    ∃ s', diskStep s (.step t) = some s' ∧ DiskInv k F m₀ s' := by
  have hin : (s.pc t).inside = true := by rw [hpc]; rfl
  obtain ⟨m, -, hm⟩ := h.working
  rw [(h.owner hin).2, hpc] at hm
  obtain ⟨honOp, hcount, hbuf, hmove⟩ := hm
  simp only [diskStep, diskTaskStep, hpc, Ide.inStatus, keepsPolling_status]
  cases hbusy : s.ide.phase.isBusy with
  | true =>
    have hide : { s.ide with intrq := false } = s.ide := hmove.busy_status hbusy
    have hpc' : Function.update s.pc t (.poll r count buf) = s.pc := by
      rw [← hpc, Function.update_eq_self]
    rw [if_pos rfl, hide, hpc']
    exact ⟨_, rfl, h⟩
  | false =>
    rw [if_neg (by simp)]
    refine ⟨_, rfl, h.enter hin (by rw [hpc]; rfl) (by rw [hpc]; rfl) (fun _ => hbusy)
      (by rw [hpc]; rfl) honOp fun m' hm' => ?_⟩
    rw [hpc] at hm'
    exact hm'.2.2.2.polled hm'.2.1 hm'.2.2.1 hbusy

/-- A word of a sector. -/
theorem DiskInv.data (h : DiskInv k F m₀ s) (hpc : s.pc t = .data r count buf word) :
    ∃ s', diskStep s (.step t) = some s' ∧ DiskInv k F m₀ s' := by
  have hin : (s.pc t).inside = true := by rw [hpc]; rfl
  obtain ⟨m, -, hm⟩ := h.working
  rw [(h.owner hin).2, hpc] at hm
  obtain ⟨honOp, -⟩ := hm
  simp only [diskStep, diskTaskStep, hpc]
  cases hw : r.write with
  | true =>
    rw [if_pos rfl]
    refine ⟨_, rfl, h.enter hin (by rw [hpc]; rfl) (by rw [hpc]; rfl)
      (by rw [hpc]; simp [DiskPc.took]) (by rw [hpc]; rfl) honOp fun m' hm' => ?_⟩
    rw [hpc] at hm'
    obtain ⟨-, hcount, hword, hbuf, htransfer⟩ := hm'
    exact htransfer.outw hw hcount hword hbuf
  | false =>
    rw [if_neg (by simp)]
    refine ⟨_, rfl, h.enter hin (by rw [hpc]; rfl) (by rw [hpc]; rfl)
      (by rw [hpc]; simp [DiskPc.took]) (by rw [hpc]; rfl) honOp fun m' hm' => ?_⟩
    rw [hpc] at hm'
    obtain ⟨-, hcount, hword, hbuf, htransfer⟩ := hm'
    exact htransfer.inw hw hcount hword hbuf

/-- The call of `t` returns, and the task inside, if there is one, has just
got the mutex. -/
theorem DiskInv.returned (h : DiskInv k F m₀ s) (hpc : s.pc t = .unlock r count buf)
    {mutex : Lock τ} {pc : τ → DiskPc}
    (hguards : mutex.Guards DiskPc.inside DiskPc.isLocking pc)
    (hwaits : s.opSem.Waits DiskPc.isWaiting pc) (ht : (pc t).req = none)
    (hreq : ∀ u, u ≠ t → (pc u).req = (s.pc u).req)
    (hcur : mutex.owner.map pc = none ∨ ∃ r, mutex.owner.map pc = some (.onOp r)) :
    DiskInv k F m₀ { s with mutex, pc, log := s.log ++ [⟨t, r, count, buf⟩] } := by
  have hin : (s.pc t).inside = true := by rw [hpc]; rfl
  obtain ⟨m, hserved, hm⟩ := h.working
  have hperm := h.permits
  rw [(h.owner hin).2, hpc] at hm hperm
  obtain ⟨hcount, hshort, hbuf, hquiet, hmedia⟩ := hm
  refine ⟨hwaits, hguards, ⟨_, hserved.snoc hcount hbuf, ?_⟩, ?_, fun u r' hu => ?_,
    fun e he => ?_, fun u => ?_⟩
  · rw [Disk.cur]
    rcases hcur with hcur | ⟨r', hcur⟩ <;> rw [hcur] <;> exact ⟨hquiet, hmedia⟩
  · refine hperm.left ⟨rfl, rfl⟩ ?_
    rw [Disk.cur]
    rcases hcur with hcur | ⟨r', hcur⟩ <;> rw [hcur] <;> exact ⟨rfl, rfl⟩
  · by_cases hut : u = t
    · dsimp only at hu
      rw [hut, ht] at hu
      simp at hu
    · exact h.ok u r' ((hreq u hut).symm.trans hu)
  · rcases List.mem_append.mp he with he | he
    · exact h.counts e he
    · obtain rfl := List.mem_singleton.mp he
      exact ⟨hcount, hshort⟩
  · dsimp only
    rw [h.asked u, List.filter_append, List.map_append]
    by_cases hut : u = t
    · subst hut
      rw [ht, hpc]
      simp [DiskPc.req]
    · rw [hreq u hut]
      simp [Ne.symm hut]

/-- The step `mutex_unlock`. -/
theorem DiskInv.unlock (h : DiskInv k F m₀ s) (hpc : s.pc t = .unlock r count buf) :
    ∃ s', diskStep s (.step t) = some s' ∧ DiskInv k F m₀ s' := by
  have hin : (s.pc t).inside = true := by rw [hpc]; rfl
  have hgranted : ∀ u, (s.pc u).isLocking = true →
      (s.pc u).granted.inside = true ∧ (s.pc u).granted.isLocking = false := fun u hu => by
    obtain ⟨r', -, hg⟩ := DiskPc.inside_granted hu
    rw [hg]
    exact ⟨rfl, rfl⟩
  have hwaits := h.waits.step (t := t) (a := .idle) (by rw [hpc]; rfl) rfl
  simp only [diskStep, diskTaskStep, hpc]
  rcases h.guards.unlock (a := .idle) (b := fun u => (s.pc u).granted) hin (by rw [hpc]; rfl)
    ⟨rfl, rfl⟩ hgranted with ⟨mutex, hunlock, hguards⟩ | ⟨mutex, u, hunlock, hut, hu, hguards⟩
  · rw [hunlock]
    dsimp only [diskWake]
    refine ⟨_, rfl, h.returned hpc hguards hwaits (by rw [Function.update_self]; rfl)
      (fun u hu => by rw [Function.update_of_ne hu]) (.inl (cur_none hguards fun u => ?_))⟩
    by_cases hut : u = t
    · rw [hut, Function.update_self]
      rfl
    · rw [Function.update_of_ne hut]
      cases hu : (s.pc u).inside with
      | false => rfl
      | true => exact absurd (h.guards.unique hu hin) hut
  · obtain ⟨r', hr', hg⟩ := DiskPc.inside_granted hu
    have hwake : diskWake (Function.update s.pc t .idle) (some u) =
        Function.update (Function.update s.pc t .idle) u (s.pc u).granted := by
      rw [diskWake, Function.update_of_ne hut]
    have howner : mutex.owner = some u := (hguards.owner u).mpr (by
      rw [Function.update_self, hg]
      rfl)
    rw [hunlock]
    dsimp only
    rw [hwake]
    refine ⟨_, rfl, h.returned hpc hguards
      (hwaits.step (by rw [Function.update_of_ne hut, hr']; rfl) (by rw [hg]; rfl))
      (by rw [Function.update_of_ne (Ne.symm hut), Function.update_self]; rfl) (fun v hv => ?_)
      (.inr ⟨r', by rw [howner, Option.map_some, Function.update_self, hg]⟩)⟩
    by_cases hvu : v = u
    · rw [hvu, Function.update_self, hg, hr']
      rfl
    · rw [Function.update_of_ne hvu, Function.update_of_ne hv]

omit [DecidableEq τ] in
/-- A task that wants a permit has set `task_on_op`. -/
theorem Working.onOp_of_wants {m : Media} {d : Ide} {onOp : Bool} {cur : Option DiskPc}
    (h : Working F m d onOp cur) (hcur : cur.any DiskPc.wants = true) : onOp = true := by
  cases cur with
  | none => simp at hcur
  | some p =>
    cases p with
    | wait | waiting => exact h.1
    | _ => simp [DiskPc.wants] at hcur

/-- The interrupt handler. -/
theorem DiskInv.irq (h : DiskInv k F m₀ s) (hk : (k : Int) < intMax) (hirr : s.irr = true) :
    ∃ s', diskStep s .irq = some s' ∧ DiskInv k F m₀ s' := by
  have hperm := h.permits
  rw [hirr] at hperm
  simp only [diskStep, hirr, if_true]
  refine ⟨_, rfl, ?_⟩
  unfold doHandleIdePrimary
  cases honOp : s.taskOnOp with
  | false =>
    obtain ⟨m, hserved, hm⟩ := h.working
    rw [if_neg (by simp)]
    refine { h with permits := hperm.dropped ?_, working := ⟨m, hserved, honOp ▸ hm⟩ }
    cases hcur : s.cur.any DiskPc.wants with
    | false => rfl
    | true => exact absurd (hm.onOp_of_wants hcur) (by simp [honOp])
  | true =>
    rw [if_pos rfl]
    dsimp only
    cases hl : s.opSem.waitList with
    | nil =>
      have hbound := hperm.bound
      have hslack := slack_le s.cur s.ide.phase.isBusy
      simp only [irrCount, if_true] at hbound
      obtain ⟨hnotify, hwaits⟩ := h.waits.raised hl (by omega)
      obtain ⟨m, hserved, hm⟩ := h.working
      rw [hnotify]
      exact { h with
        waits := hwaits
        permits := hperm.raised
        working := ⟨m, hserved, honOp ▸ hm⟩ }
    | cons u rest =>
      obtain ⟨r, count, buf, hpc, hg⟩ := DiskPc.poll_granted
        ((h.waits.mem u).mp (by rw [hl]; exact List.mem_cons_self))
      obtain ⟨hnotify, -, hwaits⟩ := h.waits.woken (a := .poll r count buf) hl rfl
      have hin : (s.pc u).inside = true := by rw [hpc]; rfl
      rw [hnotify]
      dsimp only [diskWake]
      rw [hg]
      refine h.move hin rfl (by rw [hpc]; rfl) hwaits (fun m hm => ?_) fun hp => ?_
      · rw [hpc, honOp] at hm
        exact hm
      · rw [hirr] at hp
        have htaken := hp.raised.taken (x := .poll r count buf) (by rw [hpc]; rfl) rfl rfl
        rwa [Int.add_sub_cancel] at htaken

omit [DecidableEq τ] in
/-- While the channel is busy, the task inside is waiting for it. -/
theorem Working.device {m : Media} {d d' : Ide} {onOp : Bool} {cur : Option DiskPc}
    (h : Working F m d onOp cur) (hbusy : d.phase.isBusy = true)
    (hmove : ∀ r count, Moving F r m count d → count < r.size → Moving F r m count d') :
    Working F m d' onOp cur ∧ (cur.any DiskPc.wants = true ∨ cur.any DiskPc.took = true) ∧
      d.intrq = false := by
  have hquiet : ¬d.Quiet := fun hq => by
    rcases hq with hq | hq <;> simp [hq, IdePhase.isBusy] at hbusy
  cases cur with
  | none => exact absurd h.1 hquiet
  | some p =>
    cases p with
    | idle | start | locking => exact h.elim
    | onOp => exact absurd h.1 hquiet
    | send => exact absurd h.2.1 hquiet
    | unlock => exact absurd h.2.2.2.1 hquiet
    | data =>
      have hphase := h.2.2.2.2.phase
      simp [hphase, IdePhase.isBusy] at hbusy
    | wait | waiting =>
      obtain ⟨honOp, hcount, hbuf, hm⟩ := h
      exact ⟨⟨honOp, hcount, hbuf, hmove _ _ hm hcount⟩, .inl rfl, (hm.of_busy hbusy).2.2.1⟩
    | poll =>
      obtain ⟨honOp, hcount, hbuf, hm⟩ := h
      exact ⟨⟨honOp, hcount, hbuf, hmove _ _ hm hcount⟩, .inr rfl, (hm.of_busy hbusy).2.2.1⟩

/-- The channel goes on. -/
theorem DiskInv.device (h : DiskInv k F m₀ s) {ide : Ide} (hbusy : s.ide.phase.isBusy = true)
    (hdone : ide.phase.isBusy = false) (hintrq : ide.intrq = true)
    (hmove : ∀ m r count, Moving F r m count s.ide → count < r.size → Moving F r m count ide) :
    DiskInv k F m₀ (ideStep s ide) := by
  obtain ⟨m, hserved, hm⟩ := h.working
  obtain ⟨hm', hcur, hline⟩ := hm.device hbusy (hmove m)
  have hperm := h.permits
  rw [hbusy] at hperm
  refine { h with working := ⟨m, hserved, hm'⟩, permits := ?_ }
  dsimp only [ideStep]
  rw [hdone, hline, hintrq, Bool.not_false, Bool.true_and, Bool.or_true]
  exact hperm.finished h.waits.nonneg hcur

end Steps

/-! ## Runs -/

/-- What a step may do: a call meets `DiskReq.Ok`, and `F` allows failures. -/
def DiskEvent.Meets (F : Prop) : DiskEvent τ → Prop
  | .call _ r => r.Ok
  | .fail => F
  | _ => True

theorem diskInv_step (hk : (k : Int) < intMax) (h : DiskInv k F m₀ s) {e : DiskEvent τ}
    (he : e.Meets F) {s' : Disk τ} (hs : diskStep s e = some s') : DiskInv k F m₀ s' := by
  have hsome : ∀ e, (∃ s', diskStep s e = some s' ∧ DiskInv k F m₀ s') →
      diskStep s e = some s' → DiskInv k F m₀ s' := fun e ⟨s'', hs'', h'⟩ hs' =>
    Option.some.inj (hs''.symm.trans hs') ▸ h'
  cases e with
  | call t r =>
    simp only [diskStep] at hs
    split at hs
    next hpc =>
      obtain rfl := Option.some.inj hs
      exact h.call hpc he
    · simp at hs
  | step t =>
    cases hpc : s.pc t with
    | idle | locking | waiting => simp [diskStep, diskTaskStep, hpc] at hs
    | start => exact hsome _ (h.start hpc) hs
    | onOp => exact hsome _ (h.onOp hpc) hs
    | send => exact hsome _ (h.send hpc) hs
    | wait => exact hsome _ (h.wait hk hpc) hs
    | poll => exact hsome _ (h.poll hpc) hs
    | data => exact hsome _ (h.data hpc) hs
    | unlock => exact hsome _ (h.unlock hpc) hs
  | irq =>
    cases hirr : s.irr with
    | true => exact hsome _ (h.irq hk hirr) hs
    | false => simp [diskStep, hirr] at hs
  | done =>
    obtain ⟨ide, hide, rfl⟩ := Option.map_eq_some_iff.mp hs
    obtain ⟨hbusy, hdone, hline⟩ := Ide.of_done hide
    exact h.device hbusy hdone hline fun _ _ _ hmove hcount => hmove.done hcount hide
  | fail =>
    obtain ⟨ide, hide, rfl⟩ := Option.map_eq_some_iff.mp hs
    obtain ⟨hbusy, hdone, hline⟩ := Ide.of_fail hide
    exact h.device hbusy hdone hline fun _ _ _ hmove _ => hmove.fail he hide

/-- In every run from the first task on, in which the callers ask for what the
registers can hold. -/
theorem diskInv_run {surplus : Nat} {onOp irr : Bool} {ide : Ide} (hquiet : ide.Quiet)
    (hk : (surplus : Int) + 1 < intMax) {es : List (DiskEvent τ)}
    (hok : ∀ t r, .call t r ∈ es → r.Ok) (hf : .fail ∈ es → F)
    (hrun : run diskStep (diskInit surplus onOp irr ide) es = some s) :
    DiskInv (surplus + 1) F ide.media s := by
  have hmeets : ∀ e ∈ es, e.Meets F := fun e he => by
    cases e with
    | call t r => exact hok t r he
    | fail => exact hf he
    | _ => trivial
  exact run_invariant_along (fun _ _ _ h he hs => diskInv_step (by simpa using hk) h he.2 hs)
    (diskInv_init hquiet) ((along_of_forall fun _ _ => trivial).and_mem hmeets) hrun

end

/-- A channel that nothing was asked of yet. -/
def Ide.zero : Ide := ⟨0, (0, 0), (0, 0), (0, 0), (0, 0), fun _ => 0, .idle, false, fun _ _ => 0⟩

/-- A sector of a partition that starts at sector 63. -/
def sectorReq (write : Bool) (buf : Nat → UInt8) : DiskReq := ⟨write, false, 63, 2, 1, buf⟩

/-- Task 0 writes a sector, and task 1, which waits for the mutex meanwhile,
reads it. -/
def writeThenRead : List (DiskEvent (Fin 2)) :=
  [.call 0 (sectorReq true fun i => UInt8.ofNat i), .call 1 (sectorReq false fun _ => 0)] ++
    List.replicate 12 (.step 0) ++ [.step 1] ++ List.replicate 257 (.step 0) ++
    [.done, .irq, .step 0, .step 0] ++ List.replicate 12 (.step 1) ++
    [.done, .irq, .step 1] ++ List.replicate 257 (.step 1)

theorem writeThenRead_ok (t : Fin 2) (r : DiskReq) (h : .call t r ∈ writeThenRead) : r.Ok := by
  have hreq : ∃ write buf, r = sectorReq write buf := by
    simp only [writeThenRead, List.mem_append, List.mem_cons, List.mem_replicate,
      List.not_mem_nil, reduceCtorEq, and_false, or_false, DiskEvent.call.injEq] at h
    rcases h with ⟨-, rfl⟩ | ⟨-, rfl⟩ <;> exact ⟨_, _, rfl⟩
  obtain ⟨write, buf, rfl⟩ := hreq
  exact ⟨Nat.one_pos, Nat.le_add_left .., by change 63 + 2 < 2 ^ 31; decide⟩

end Wjos
