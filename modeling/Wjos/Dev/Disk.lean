/-
Wjos.Dev.Disk — the disk driver of `kernel/dev/disk.c`, on the channel it
drives.

`Ide` is the primary channel as the driver sees it through its ports: a
register that is written twice keeps both values, the command register starts
a command, and from then on the channel is at work (`busy`), has the data
register open for one sector (`ready`), has failed, or is idle. It raises its
interrupt line when a sector is done or has failed, and drops it when the
status is read or a command comes. The first sector of a write is taken without
waiting. What it does on its own are two events, `done` and `fail`.

`diskStep` interleaves tasks that call `disk_read` and `disk_write`, one port
access at a time, with the channel and with the interrupt handler. The
interrupt controller keeps one raised line for the handler (`irr`). `asked` is
the history of the calls and `log` the calls that have returned.
-/
import Wjos.Lib.Sync
import Wjos.Lib.Memory

namespace Wjos

open Lib

/-! ## Ports and registers -/

/-- `IOBASE_PRIMARY`. -/
def iobasePrimary : Nat := 0x1F0

/-- `DISK_SECTOR_COUNT(disk)`. -/
def diskSectorCount : Nat := iobasePrimary + 2

/-- `DISK_LBA_LO(disk)`. -/
def diskLbaLo : Nat := iobasePrimary + 3

/-- `DISK_LBA_MID(disk)`. -/
def diskLbaMid : Nat := iobasePrimary + 4

/-- `DISK_LBA_HI(disk)`. -/
def diskLbaHi : Nat := iobasePrimary + 5

/-- `DISK_DRIVE(disk)`. -/
def diskDrive : Nat := iobasePrimary + 6

/-- `DISK_CMD(disk)`. -/
def diskCmd : Nat := iobasePrimary + 7

/-- `DISK_STATUS_ERR`. -/
def diskStatusErr : UInt8 := 0x01

/-- `DISK_STATUS_DRQ`. -/
def diskStatusDrq : UInt8 := 0x08

/-- `DISK_STATUS_BUSY`. -/
def diskStatusBusy : UInt8 := 0x80

/-- `DISK_DRIVE_BASE`. -/
def diskDriveBase : UInt8 := 0xE0

/-- `DISK_CMD_READ`. -/
def diskCmdRead : UInt8 := 0x24

/-- `DISK_CMD_WRITE`. -/
def diskCmdWrite : UInt8 := 0x34

/-- The bytes of the two drives of the channel; `true` is the slave. -/
abbrev Media := Bool → Nat → UInt8

/-! ## The channel -/

inductive IdePhase where
  | idle
  | failed
  /-- `left` sectors from `lba` on are still to be done, and one is being done. -/
  | busy (write slave : Bool) (lba left : Nat)
  /-- `word` words of the sector at `lba` have gone through the data register. -/
  | ready (write slave : Bool) (lba left word : Nat)
  deriving DecidableEq

/-- Each of `count`, `lo`, `mid`, `hi` holds the last value and the one before
it. -/
structure Ide where
  drive : UInt8
  count : UInt8 × UInt8
  lo : UInt8 × UInt8
  mid : UInt8 × UInt8
  hi : UInt8 × UInt8
  sector : Nat → UInt8
  phase : IdePhase
  intrq : Bool
  media : Media

namespace IdePhase

def isBusy : IdePhase → Bool
  | .busy _ _ _ _ => true
  | _ => false

/-- What the status register shows. -/
def status : IdePhase → UInt8
  | .idle => 0x40
  | .failed => 0x40 ||| diskStatusErr
  | .busy _ _ _ _ => diskStatusBusy
  | .ready _ _ _ _ _ => 0x40 ||| diskStatusDrq

end IdePhase

namespace Ide

/-- The 48-bit sector number in the registers. -/
def lba (d : Ide) : Nat :=
  d.lo.1.toNat + 2 ^ 8 * d.mid.1.toNat + 2 ^ 16 * d.hi.1.toNat +
    2 ^ 24 * d.lo.2.toNat + 2 ^ 32 * d.mid.2.toNat + 2 ^ 40 * d.hi.2.toNat

/-- The number of sectors in the registers; 0 stands for 65536. -/
def sectors (d : Ide) : Nat :=
  let n := d.count.1.toNat + 2 ^ 8 * d.count.2.toNat
  if n = 0 then 65536 else n

/-- The drive that is selected. -/
def slave (d : Ide) : Bool := (d.drive &&& 0x10) != 0

/-- A command that is not known fails. -/
def command (d : Ide) (cmd : UInt8) : Ide :=
  { d with
    intrq := false
    phase :=
      if cmd = diskCmdRead then .busy false d.slave d.lba d.sectors
      else if cmd = diskCmdWrite then .ready true d.slave d.lba d.sectors 0
      else .failed }

/-- The CPU writes a byte to a port. -/
def outb (d : Ide) (port : Nat) (v : UInt8) : Ide :=
  if port = diskSectorCount then { d with count := (v, d.count.1) }
  else if port = diskLbaLo then { d with lo := (v, d.lo.1) }
  else if port = diskLbaMid then { d with mid := (v, d.mid.1) }
  else if port = diskLbaHi then { d with hi := (v, d.hi.1) }
  else if port = diskDrive then { d with drive := v }
  else if port = diskCmd then d.command v
  else d

/-- The CPU reads `DISK_STATUS`. -/
def inStatus (d : Ide) : Ide × UInt8 := ({ d with intrq := false }, d.phase.status)

/-- What comes after the sector at `lba`, of `left` sectors. -/
def next (write slave : Bool) (lba left : Nat) : IdePhase :=
  if left = 1 then .idle
  else if write then .ready true slave (lba + 1) (left - 1) 0
  else .busy false slave (lba + 1) (left - 1)

/-- The CPU reads a word of `DISK_DATA`: its low and its high byte. -/
def inw (d : Ide) : Ide × (UInt8 × UInt8) :=
  match d.phase with
  | .ready false slave lba left word =>
    ({ d with
        phase :=
          if word + 1 < 256 then .ready false slave lba left (word + 1)
          else next false slave lba left },
      (d.sector (2 * word), d.sector (2 * word + 1)))
  | _ => (d, (0, 0))

/-- The CPU writes a word to `DISK_DATA`. -/
def outw (d : Ide) (v : UInt8 × UInt8) : Ide :=
  match d.phase with
  | .ready true slave lba left word =>
    { d with
      sector := Function.update (Function.update d.sector (2 * word) v.1) (2 * word + 1) v.2
      phase :=
        if word + 1 < 256 then .ready true slave lba left (word + 1)
        else .busy true slave lba left }
  | _ => d

/-- The channel has done the sector it was at. -/
def done (d : Ide) : Option Ide :=
  match d.phase with
  | .busy false slave lba left =>
    some { d with
      sector := fun i => d.media slave (lba * 512 + i)
      phase := .ready false slave lba left 0
      intrq := true }
  | .busy true slave lba left =>
    some { d with
      media := Function.update d.media slave (copyTo (d.media slave) (lba * 512) 512 d.sector)
      phase := next true slave lba left
      intrq := true }
  | _ => none

/-- The channel could not do the sector it was at. -/
def fail (d : Ide) : Option Ide :=
  match d.phase with
  | .busy _ _ _ _ => some { d with phase := .failed, intrq := true }
  | _ => none

end Ide

/-! ## The driver -/

/-- A call of `disk_read` or `disk_write`: the drive and the start of the
partition that `dev->data` stands for, and the arguments. -/
structure DiskReq where
  write : Bool
  slave : Bool
  startSector : Nat
  addr : Nat
  size : Nat
  buf : Nat → UInt8

namespace DiskReq

/-- `part_info->start_sector + addr`. -/
def lba (r : DiskReq) : Nat := r.startSector + r.addr

/-- The command that is sent. -/
def cmd (r : DiskReq) : UInt8 := if r.write then diskCmdWrite else diskCmdRead

end DiskReq

/-- The port writes of `disk_send_cmd`, with the registers of the high bytes
first. -/
def diskSendCmd (slave : Bool) (startSector sectorCount : Nat) (cmd : UInt8) :
    List (Nat × UInt8) :=
  [(diskDrive, diskDriveBase ||| if slave then 0x10 else 0),
    (diskSectorCount, (sectorCount >>> 8).toUInt8),
    (diskLbaLo, (startSector >>> 24).toUInt8),
    (diskLbaMid, 0),
    (diskLbaHi, 0),
    (diskSectorCount, sectorCount.toUInt8),
    (diskLbaLo, startSector.toUInt8),
    (diskLbaMid, (startSector >>> 8).toUInt8),
    (diskLbaHi, (startSector >>> 16).toUInt8),
    (diskCmd, cmd)]

/-- Where a call is: before `mutex_lock`, in its wait list, at `task_on_op`, in
`disk_send_cmd` with the writes that are left, at or in `sem_wait`, in
`disk_wait_data`, in the transfer of a sector at a word, at `mutex_unlock`.
`count` sectors are through. -/
inductive DiskPc where
  | idle
  | start (r : DiskReq)
  | locking (r : DiskReq)
  | onOp (r : DiskReq)
  | send (r : DiskReq) (outs : List (Nat × UInt8))
  | wait (r : DiskReq) (count : Nat) (buf : Nat → UInt8)
  | waiting (r : DiskReq) (count : Nat) (buf : Nat → UInt8)
  | poll (r : DiskReq) (count : Nat) (buf : Nat → UInt8)
  | data (r : DiskReq) (count : Nat) (buf : Nat → UInt8) (word : Nat)
  | unlock (r : DiskReq) (count : Nat) (buf : Nat → UInt8)

/-- The head of the loop: `disk_read` waits for the sector, `disk_write` sends
it first. -/
def diskHead (r : DiskReq) (count : Nat) (buf : Nat → UInt8) : DiskPc :=
  if count < r.size then if r.write then .data r count buf 0 else .wait r count buf
  else .unlock r count buf

/-- The test of `disk_wait_data`: the channel is busy and nothing else. -/
def keepsPolling (status : UInt8) : Bool :=
  (status &&& (diskStatusBusy ||| diskStatusDrq ||| diskStatusErr)) == diskStatusBusy

/-- Where the call goes on after `disk_wait_data`. -/
def diskPolled (r : DiskReq) (count : Nat) (buf : Nat → UInt8) (status : UInt8) : DiskPc :=
  if (status &&& diskStatusErr) != 0 then .unlock r count buf
  else if r.write then diskHead r (count + 1) buf
  else .data r count buf 0

/-- Where the call goes on after word `word` of a sector. -/
def diskMoved (r : DiskReq) (count : Nat) (buf : Nat → UInt8) (word : Nat) : DiskPc :=
  if word + 1 < 256 then .data r count buf (word + 1)
  else if r.write then .wait r count buf
  else diskHead r (count + 1) buf

/-- A task that is handed the mutex or a permit of `op_sem`. -/
def DiskPc.granted : DiskPc → DiskPc
  | .locking r => .onOp r
  | .waiting r count buf => .poll r count buf
  | pc => pc

/-- A call that has returned: what it returned and its buffer then. -/
structure DiskDone (τ : Type*) where
  task : τ
  req : DiskReq
  count : Nat
  buf : Nat → UInt8

structure Disk (τ : Type*) where
  mutex : Lock τ
  opSem : Semaphore τ
  taskOnOp : Bool
  irr : Bool
  ide : Ide
  pc : τ → DiskPc
  asked : τ → List DiskReq
  log : List (DiskDone τ)

section

variable {τ : Type*} [DecidableEq τ]

/-- A task that is woken goes on. -/
def diskWake (pc : τ → DiskPc) : Option τ → τ → DiskPc
  | some u => Function.update pc u (pc u).granted
  | none => pc

/-- One port access, or one call into the kernel, of task `t`. -/
def diskTaskStep (s : Disk τ) (t : τ) : Option (Disk τ) :=
  let goto (pc : DiskPc) := Function.update s.pc t pc
  match s.pc t with
  | .idle | .locking _ | .waiting _ _ _ => none
  | .start r =>
    let (mutex, got) := s.mutex.lock t
    some { s with mutex, pc := goto (if got then .onOp r else .locking r) }
  | .onOp r =>
    some { s with taskOnOp := true, pc := goto (.send r (diskSendCmd r.slave r.lba r.size r.cmd)) }
  | .send r [] => some { s with pc := goto (diskHead r 0 r.buf) }
  | .send r [o] => some { s with ide := s.ide.outb o.1 o.2, pc := goto (diskHead r 0 r.buf) }
  | .send r (o :: outs) => some { s with ide := s.ide.outb o.1 o.2, pc := goto (.send r outs) }
  | .wait r count buf =>
    let (opSem, got) := s.opSem.wait t
    some { s with opSem, pc := goto (if got then .poll r count buf else .waiting r count buf) }
  | .poll r count buf =>
    let (ide, status) := s.ide.inStatus
    some { s with
      ide
      pc := goto (if keepsPolling status then .poll r count buf
        else diskPolled r count buf status) }
  | .data r count buf word =>
    let at_ := count * 512 + 2 * word
    if r.write then
      some { s with
        ide := s.ide.outw (buf at_, buf (at_ + 1))
        pc := goto (diskMoved r count buf word) }
    else
      let (ide, v) := s.ide.inw
      let buf := Function.update (Function.update buf at_ v.1) (at_ + 1) v.2
      some { s with ide, pc := goto (diskMoved r count buf word) }
  | .unlock r count buf =>
    let (mutex, woken) := s.mutex.unlock t
    some { s with
      mutex
      pc := diskWake (goto .idle) woken
      log := s.log ++ [⟨t, r, count, buf⟩] }

/-- `do_handle_ide_primary`. -/
def doHandleIdePrimary (s : Disk τ) : Disk τ :=
  if s.taskOnOp then
    let (opSem, woken) := s.opSem.notify
    { s with opSem, pc := diskWake s.pc woken }
  else s

inductive DiskEvent (τ : Type*) where
  | call (t : τ) (r : DiskReq)
  | step (t : τ)
  | irq
  | done
  | fail

/-- The channel goes on, and the controller sees its line rise. -/
def ideStep (s : Disk τ) (ide : Ide) : Disk τ :=
  { s with ide, irr := s.irr || (!s.ide.intrq && ide.intrq) }

def diskStep (s : Disk τ) : DiskEvent τ → Option (Disk τ)
  | .call t r =>
    match s.pc t with
    | .idle => some { s with
        pc := Function.update s.pc t (.start r)
        asked := Function.update s.asked t (s.asked t ++ [r]) }
    | _ => none
  | .step t => diskTaskStep s t
  | .irq => if s.irr then some (doHandleIdePrimary { s with irr := false }) else none
  | .done => s.ide.done.map (ideStep s)
  | .fail => s.ide.fail.map (ideStep s)

/-- The driver when the first task runs: `disk_init` has run, and the reads made
before left `surplus` interrupts that nobody waited for. -/
def diskInit (surplus : Nat) (onOp irr : Bool) (ide : Ide) : Disk τ where
  mutex := .free
  opSem := ⟨surplus, []⟩
  taskOnOp := onOp
  irr := irr
  ide := ide
  pc := fun _ => .idle
  asked := fun _ => []
  log := []

end

end Wjos
