/-
Wjos.Base.HistoryGet — copying the history to a caller with
`sys_get_history`.

The two loops of the call are one loop over the buffers: `oldestEntry h k` is
the entry that goes to buffer `k`, the `k`-th oldest. Each buffer gets its
command with a NUL and no other buffer changes, but buffer 0: the clearing
before the loops has set its pointer to null, so the oldest command is not
copied, and the caller's array has changed.
-/
import Wjos.Base.HistoryWalk

namespace Wjos

open Lib

variable {h : CmdHistory} {l : List (Nat × Command)} {s src : Nat → UInt8} {chars : List UInt8}

/-! ## Copying a string -/

theorem kernelStrlen_eq {n : Nat} (hs : IsStr s chars) (hnul : ∀ c ∈ chars, c ≠ 0)
    (hn : chars.length ≤ n) : CmdHistory.kernelStrlen s n = chars.length := by
  induction chars generalizing s n with
  | nil =>
    cases n with
    | zero => rfl
    | succ n => exact if_pos (hs 0 (Nat.le_refl 0))
  | cons c chars ih =>
    obtain ⟨n, rfl⟩ := Nat.exists_eq_succ_of_ne_zero (by simp at hn; omega : n ≠ 0)
    obtain ⟨h0, ht⟩ := isStr_cons.mp hs
    have hc : s 0 ≠ 0 := h0 ▸ hnul c List.mem_cons_self
    rw [CmdHistory.kernelStrlen, if_neg hc, List.length_cons,
      ih ht (fun a ha => hnul a (List.mem_cons_of_mem c ha)) (by simpa using hn)]

/-- Without a NUL among them, `size` characters are copied and one is added. -/
theorem strncpyLoop_eq (size : Nat) (dest : Nat → UInt8) (d : Nat)
    (hsrc : ∀ k, d ≤ k → k < d + size → src k ≠ 0) (a : Nat) :
    strncpyLoop src size dest d a =
      if a = d + size then 0 else if d ≤ a ∧ a < d + size then src a else dest a := by
  induction size generalizing dest d with
  | zero =>
    rw [strncpyLoop, Function.update_apply, Nat.add_zero]
    split
    · rfl
    · rw [if_neg (by omega)]
  | succ size ih =>
    rw [strncpyLoop, if_neg (hsrc d (Nat.le_refl d) (by omega)),
      ih _ _ fun k h₁ h₂ => hsrc k (by omega) (by omega), Function.update_apply]
    by_cases hend : a = d + (size + 1)
    · rw [if_pos (by omega), if_pos hend]
    rw [if_neg (by omega), if_neg hend]
    by_cases hd : a = d
    · subst hd
      rw [if_neg (by omega), if_pos rfl, if_pos (by omega)]
    · rw [if_neg hd]
      by_cases hin : d ≤ a ∧ a < d + (size + 1)
      · rw [if_pos hin, if_pos (by omega)]
      · rw [if_neg hin, if_neg (by omega)]

/-- A command copied to a buffer. -/
theorem copyOut_eq {user : Nat → UInt8} {dest : Nat} (hd : dest ≠ 0) {c : Command}
    (hs : IsStr src c.chars) (a : Nat) :
    CmdHistory.copyOut user dest src a =
      if dest ≤ a ∧ a ≤ dest + c.chars.length then c.chars.getD (a - dest) 0 else user a := by
  have hfits := c.fits
  have hpos : c.chars.length ≠ 0 := fun h0 => c.nonempty (List.eq_nil_of_length_eq_zero h0)
  have hsrc : ∀ k, 0 ≤ k → k < 0 + c.chars.length → src k ≠ 0 := fun k _ hk => by
    rw [Nat.zero_add] at hk
    rw [hs k (Nat.le_of_lt hk), List.getD_eq_getElem?_getD, List.getElem?_eq_getElem hk]
    exact c.nonNul _ (List.getElem_mem hk)
  rw [CmdHistory.copyOut, if_neg hd, kernelStrlen_eq hs c.nonNul (Nat.le_of_lt hfits)]
  by_cases hle : dest ≤ a
  · rw [if_pos hle, kernelStrncpy, if_neg hpos, strncpyLoop_eq _ _ _ hsrc, Nat.zero_add]
    by_cases hend : a - dest = c.chars.length
    · rw [if_pos hend, if_pos (by omega), hend, List.getD_eq_getElem?_getD,
        List.getElem?_eq_none (Nat.le_refl _), Option.getD_none]
    · rw [if_neg hend]
      by_cases hin : a - dest < c.chars.length
      · rw [if_pos ⟨Nat.zero_le _, hin⟩, if_pos (by omega), hs _ (Nat.le_of_lt hin)]
      · rw [if_neg (fun h' => hin h'.2), if_neg (by omega), Nat.add_sub_cancel' hle]
  · rw [if_neg hle, if_neg fun h' => hle h'.1]

/-! ## The loop over the buffers -/

/-- The buffers do not overlap. -/
def Apart (cmds : Nat → Nat) : Prop :=
  ∀ i j, i < 100 → j < 100 → i ≠ j → cmds i ≠ 0 → cmds j ≠ 0 →
    cmds i + cliInputSize ≤ cmds j ∨ cmds j + cliInputSize ≤ cmds i

/-- After `n` rounds the first `n` buffers hold their commands; a null pointer
is passed over. -/
theorem copyLoop_spec {cmds : Nat → Nat} (hapart : Apart cmds) {entry : Nat → Nat → UInt8}
    {cs : Nat → Command} (user : Nat → UInt8) (n : Nat) (hn : n ≤ 100)
    (hentry : ∀ k < n, IsStr (entry k) (cs k).chars) :
    let user' := (List.range n).foldl (fun m k => CmdHistory.copyOut m (cmds k) (entry k)) user
    ∀ k < n, cmds k ≠ 0 → IsStr (fun j => user' (cmds k + j)) (cs k).chars := by
  induction n with
  | zero => exact fun k hk => absurd hk (Nat.not_lt_zero k)
  | succ n ih =>
    have hprev := ih (by omega) fun k hk => hentry k (by omega)
    dsimp only at hprev ⊢
    intro k hk hnull j hj
    rw [List.range_succ, List.foldl_append, List.foldl_cons, List.foldl_nil]
    generalize (List.range n).foldl (fun m k => CmdHistory.copyOut m (cmds k) (entry k)) user = m
      at hprev ⊢
    dsimp only
    by_cases hlast : k = n
    · subst hlast
      rw [copyOut_eq hnull (hentry k hk), if_pos (by omega), Nat.add_sub_cancel_left]
    · have hold := hprev k (by omega) hnull j hj
      by_cases hzero : cmds n = 0
      · rw [hzero, CmdHistory.copyOut, if_pos rfl]
        exact hold
      · -- the last copy goes to another buffer
        have hfits := (cs n).fits
        have hfits' := (cs k).fits
        have hother := hapart k n (by omega) (by omega) hlast hnull hzero
        rw [copyOut_eq hzero (hentry n (by omega)), if_neg (by omega)]
        exact hold

/-- The entry that goes to buffer `k`. -/
def oldestEntry (h : CmdHistory) (k : Nat) : Int :=
  if h.historyHead = 0 then k
  else if (k : Int) < maxSaveCmdsNr - h.historyHead then h.historyHead + k
  else k - (maxSaveCmdsNr - h.historyHead)

/-- Both branches of the call are one loop. -/
theorem sysGetHistory_eq (hhead : 0 ≤ h.historyHead ∧ h.historyHead < 100)
    (hcount : h.historyHead ≠ 0 → h.historyCount = 100) (cmds : Nat → Nat) (user : Nat → UInt8) :
    h.sysGetHistory cmds user = (Function.update cmds 0 0,
      (List.range h.historyCount.toNat).foldl
        (fun m k => CmdHistory.copyOut m (Function.update cmds 0 0 k) (h.cmd (oldestEntry h k)))
        user) := by
  unfold CmdHistory.sysGetHistory
  by_cases h0 : h.historyHead = 0
  · simp only [oldestEntry, h0, if_true]
  · have hsum : h.historyCount.toNat =
        (maxSaveCmdsNr - h.historyHead).toNat + h.historyHead.toNat := by
      rw [hcount h0, maxSaveCmdsNr]
      omega
    simp only [if_neg h0]
    rw [hsum, List.range_add, List.foldl_append, List.foldl_map]
    congr 1
    have hfirst : ∀ m : Nat → UInt8, ∀ k ∈ List.range (maxSaveCmdsNr - h.historyHead).toNat,
        CmdHistory.copyOut m (Function.update cmds 0 0 k) (h.cmd (h.historyHead + k)) =
          CmdHistory.copyOut m (Function.update cmds 0 0 k) (h.cmd (oldestEntry h k)) := by
      intro m k hk
      rw [List.mem_range] at hk
      rw [oldestEntry, if_neg h0, if_pos (by omega)]
    have hsecond : ∀ m : Nat → UInt8, ∀ k ∈ List.range h.historyHead.toNat,
        CmdHistory.copyOut m (Function.update cmds 0 0 ((maxSaveCmdsNr - h.historyHead).toNat + k))
            (h.cmd k) =
          CmdHistory.copyOut m
            (Function.update cmds 0 0 ((maxSaveCmdsNr - h.historyHead).toNat + k))
            (h.cmd (oldestEntry h ((maxSaveCmdsNr - h.historyHead).toNat + k))) := by
      intro m k _
      have hk : oldestEntry h ((maxSaveCmdsNr - h.historyHead).toNat + k) = k := by
        rw [oldestEntry, if_neg h0, if_neg (by omega)]
        omega
      rw [hk]
    rw [List.foldl_ext _ _ _ hfirst, List.foldl_ext _ _ _ hsecond]

/-! ## Stored commands -/

/-- The last entry is empty until the ring is full. -/
theorem StoredCommands.last_iff (hs : StoredCommands h l) :
    h.cmd (maxSaveCmdsNr - 1) 0 = 0 ↔ l.length < 100 := by
  have hlt := hs.ring.ring.idx_lt
  obtain ⟨k, hk, he⟩ := exists_recentSlot hlt (by decide : 99 < 100)
  have hiff := hs.ring.entry_iff hk
  rw [he] at hiff
  refine hiff.trans ⟨fun hle => by omega, fun hn => ?_⟩
  have hidx := hs.idx hn
  unfold recentSlot at he
  split at hidx <;> split at he <;> omega

theorem StoredCommands.count (hs : StoredCommands h l) : h.historyCount = l.length := by
  have hle := hs.ring.ring.le
  have hlast := hs.last_iff
  have hidx := hs.idx
  unfold CmdHistory.historyCount
  by_cases hn : l.length < 100
  · rw [if_neg (not_not.mpr (hlast.mpr hn))]
    have hval := hidx hn
    rw [maxSaveCmdsNr]
    split at hval <;> split <;> omega
  · rw [if_pos fun he => hn (hlast.mp he), maxSaveCmdsNr]
    omega

theorem StoredCommands.head (hs : StoredCommands h l) : h.historyHead =
    if l.length < 100 ∨ h.hisIdx = 99 then 0 else h.hisIdx + 1 := by
  have hlast := hs.last_iff
  unfold CmdHistory.historyHead
  by_cases hn : l.length < 100
  · rw [if_neg (not_not.mpr (hlast.mpr hn)), if_pos (.inl hn)]
  · rw [if_pos fun he => hn (hlast.mp he), maxSaveCmdsNr]
    split <;> split <;> omega

/-- Buffer `k` gets the `k`-th oldest command. -/
theorem StoredCommands.oldest (hs : StoredCommands h l) {k : Nat} (hk : k < l.length) :
    oldestEntry h k = recentSlot 100 h.hisIdx.toNat (l.length - 1 - k) := by
  have hidx := hs.idx
  have h0 := hs.ring.idx_nonneg
  have hlt := hs.ring.ring.idx_lt
  have hle := hs.ring.ring.le
  have hhead := hs.head
  unfold oldestEntry recentSlot maxSaveCmdsNr
  by_cases hn : l.length < 100
  · have hval := hidx hn
    rw [if_pos (.inl hn)] at hhead
    rw [if_neg (by omega)] at hval
    rw [if_pos hhead]
    split <;> omega
  · split at hhead
    · rw [if_pos hhead]
      split <;> omega
    · rw [if_neg (by omega)]
      split <;> split <;> omega

/-! ## sys_get_history -/

/-- The caller's array: no null pointer, and buffers that do not overlap. -/
structure Buffers (cmds : Nat → Nat) : Prop where
  nonNull : ∀ i < 100, cmds i ≠ 0
  apart : Apart cmds

/-- What the call promises: the buffers hold the commands, oldest first, and
the pointers are as they were. -/
structure GotHistory (l : List (Nat × Command)) (cmds : Nat → Nat)
    (r : (Nat → Nat) × (Nat → UInt8)) : Prop where
  pointers : ∀ i < 100, r.1 i = cmds i
  buffers : ∀ k (hk : k < l.length),
    IsStr (fun j => r.2 (cmds k + j)) (l.get ⟨l.length - 1 - k, by omega⟩).2.chars

/-- The first pointer is null after the call. The other pointers are kept and
their buffers hold their commands. -/
theorem sysGetHistory_rest (hs : StoredCommands h l) {cmds : Nat → Nat} (hb : Buffers cmds)
    (user : Nat → UInt8) :
    (h.sysGetHistory cmds user).1 = Function.update cmds 0 0 ∧
      ∀ k (hk : k < l.length), k ≠ 0 →
        IsStr (fun j => (h.sysGetHistory cmds user).2 (cmds k + j))
          (l.get ⟨l.length - 1 - k, by omega⟩).2.chars := by
  have hhead := hs.head
  have hcount := hs.count
  have h0 := hs.ring.idx_nonneg
  have hlt := hs.ring.ring.idx_lt
  have hle := hs.ring.ring.le
  have heq := sysGetHistory_eq (h := h) (by split at hhead <;> omega)
    (fun hne => by split at hhead <;> omega) cmds user
  rw [heq]
  refine ⟨rfl, fun k hk hk0 => ?_⟩
  have hkeep : Function.update cmds 0 0 k = cmds k := Function.update_of_ne hk0 _ _
  have hapart : Apart (Function.update cmds 0 0) := by
    intro i j hi hj hij hi0 hj0
    have hi' : i ≠ 0 := fun he => hi0 (by rw [he, Function.update_self])
    have hj' : j ≠ 0 := fun he => hj0 (by rw [he, Function.update_self])
    rw [Function.update_of_ne hi', Function.update_of_ne hj']
    exact hb.apart i j hi hj hij (hb.nonNull i hi) (hb.nonNull j hj)
  have hentry : ∀ k < l.length, IsStr (h.cmd (oldestEntry h k))
      ((l[l.length - 1 - k]?.map fun e => e.2).getD commandA).chars := by
    intro k hk
    have hslot : l.length - 1 - k < l.length := by omega
    rw [hs.oldest hk, List.getElem?_eq_getElem hslot]
    exact (hs.ring.ring.held _ hslot).str
  have hloop := copyLoop_spec hapart user l.length hle hentry k hk (hkeep ▸ hb.nonNull k (by omega))
  rw [List.getElem?_eq_getElem (by omega : l.length - 1 - k < l.length), hkeep] at hloop
  rw [hcount, Int.toNat_natCast]
  exact hloop

/-- The call never keeps its promise: it sets the first pointer to null. -/
theorem sysGetHistory_wrong {m : Int → UInt8} {es l : List (Nat × Command)}
    (hr : Represents (addAll m es) l) {cmds : Nat → Nat} (hb : Buffers cmds) (user : Nat → UInt8) :
    ¬GotHistory l cmds ((addAll m es).sysGetHistory cmds user) := by
  intro hgot
  have hnull := hgot.pointers 0 (by decide)
  rw [(sysGetHistory_rest (stored_of_represents hr) hb user).1, Function.update_self] at hnull
  exact hb.nonNull 0 (by decide) hnull.symm

/-- Buffers one after the other from 4096 on. -/
def bufferRow (i : Nat) : Nat := 4096 + 128 * i

theorem bufferRow_buffers : Buffers bufferRow := by
  refine ⟨fun i _ => ?_, fun i j _ _ hij _ _ => ?_⟩
  · unfold bufferRow
    omega
  · unfold bufferRow cliInputSize
    omega

/-- One command and these buffers. -/
theorem sysGetHistory_wrong_one : ¬GotHistory [(1, commandA)] bufferRow
    ((addAll (fun _ => 0) [(1, commandA)]).sysGetHistory bufferRow fun _ => 0) := by
  have hr : Represents (addAll (fun _ => 0) [(1, commandA)]) [(1, commandA)] :=
    (init_represents fun _ => 0).add 1 commandA
  exact sysGetHistory_wrong hr bufferRow_buffers fun _ => 0

/-- After one command the first pointer is null. -/
theorem sysGetHistory_clears_pointer :
    ¬∀ (m : Int → UInt8) (es l : List (Nat × Command)), Represents (addAll m es) l →
      ∀ cmds, Buffers cmds → ∀ user, GotHistory l cmds ((addAll m es).sysGetHistory cmds user) := by
  intro h
  have hgot := h (fun _ => 0) [(1, commandA)] _ ((init_represents fun _ => 0).add 1 commandA)
    bufferRow bufferRow_buffers fun _ => 0
  have hs := (init_stored fun _ => 0).add 1 commandA
  have hnull := hgot.pointers 0 (by decide)
  rw [show addAll (fun _ => 0) [(1, commandA)] =
      (CmdHistory.init fun _ => 0).add 1 commandA.toCStr from rfl,
    (sysGetHistory_rest hs bufferRow_buffers fun _ => 0).1] at hnull
  exact absurd hnull (by decide)

end Wjos
