/-
Wjos.Base.HistoryWalk — walking through the history with `pre_cmd` and
`next_cmd`.

The walk is over the list: position 0 is before the newest command, position
`p` is at the `p`-th newest one. A call past an end leaves the position.
`WalkRight` compares the entries read with these positions, for every value
the uninitialised local of `pre_cmd` may have.

After an `add` the position of the console is -1, and `pre_cmd` reads the
entry of its uninitialised local then; `next_cmd` reads entry 0, which is the
oldest command unless the newest lies there. So little of the walk is right;
`walk_right_iff` says what.
-/
import Wjos.Base.HistoryList

namespace Wjos

open Lib

/-! ## The states that add leaves -/

/-- A history after the commands `es` on a new console. -/
def addAll (m : Int → UInt8) (es : List (Nat × Command)) : CmdHistory :=
  es.foldl (fun h e => h.add e.1 e.2.toCStr) (CmdHistory.init m)

/-- What adding commands leaves: the commands `l` in the ring, the newest in
entry `l.length - 1` until the ring is full, and the position before it. -/
structure StoredCommands (h : CmdHistory) (l : List (Nat × Command)) : Prop where
  ring : Represents h l
  idx : l.length < 100 → h.hisIdx = if l.length = 0 then 99 else (l.length : Int) - 1
  curr : h.currHisIdx = if l.length = 0 then 99 else -1

theorem init_stored (m : Int → UInt8) : StoredCommands (CmdHistory.init m) [] :=
  ⟨init_represents m, fun _ => rfl, rfl⟩

theorem StoredCommands.add {h : CmdHistory} {l : List (Nat × Command)}
    (hs : StoredCommands h l) (t : Nat)
    (c : Command) : StoredCommands (h.add t c.toCStr) (addList l t c) := by
  have hring := hs.ring.add t c
  refine ⟨hring, ?_, ?_⟩
  · unfold CmdHistory.add addList
    by_cases hsame : ∃ hk : 1 < l.length, l[1].2 = c
    · rw [if_pos ((hs.ring.compare_iff c).mpr hsame), if_pos hsame, List.length_set]
      exact hs.idx
    · rw [if_neg fun he => hsame ((hs.ring.compare_iff c).mp he), if_neg hsame]
      intro hlt
      rw [List.length_take, List.length_cons] at hlt
      have hidx := hs.idx (by omega)
      have hlen : (((t, c) :: l).take 100).length = l.length + 1 := by
        rw [List.length_take, List.length_cons]
        omega
      rw [hlen, if_neg (by omega)]
      dsimp only
      unfold CmdHistory.newIdx maxSaveCmdsNr
      split at hidx <;> split <;> omega
  · unfold CmdHistory.add addList
    by_cases hsame : ∃ hk : 1 < l.length, l[1].2 = c
    · rw [if_pos ((hs.ring.compare_iff c).mpr hsame), if_pos hsame, List.length_set]
      exact hs.curr
    · rw [if_neg fun he => hsame ((hs.ring.compare_iff c).mp he), if_neg hsame]
      have hlen : (((t, c) :: l).take 100).length ≠ 0 := by
        rw [List.length_take, List.length_cons]
        omega
      rw [if_neg hlen]

theorem addAll_stored (m : Int → UInt8) (es : List (Nat × Command)) :
    ∃ l, StoredCommands (addAll m es) l := by
  have hfold : ∀ (es : List (Nat × Command)) (h : CmdHistory) (l : List (Nat × Command)),
      StoredCommands h l →
        ∃ l', StoredCommands (es.foldl (fun h e => h.add e.1 e.2.toCStr) h) l' := by
    intro es
    induction es with
    | nil => exact fun h l hs => ⟨l, hs⟩
    | cons e es ih => exact fun h l hs => ih _ _ (hs.add e.1 e.2)
  exact hfold es _ _ (init_stored m)

/-- The list a ring of added commands stands for is the stored one. -/
theorem stored_of_represents {m : Int → UInt8} {es l : List (Nat × Command)}
    (hr : Represents (addAll m es) l) : StoredCommands (addAll m es) l := by
  obtain ⟨l', hs⟩ := addAll_stored m es
  have hlen : l'.length = l.length := by
    have := congrArg List.length (hs.ring.unique hr)
    rwa [List.length_map, List.length_map] at this
  have hidx := hs.idx
  have hcurr := hs.curr
  rw [hlen] at hidx hcurr
  exact ⟨hr, hidx, hcurr⟩

/-! ## The walk over the list -/

inductive WalkCall where
  | pre
  | next
  deriving DecidableEq, Repr

/-- The console after a call, and the entry it read. -/
def walkStep (h : CmdHistory) (garbage : Int) : WalkCall → CmdHistory × Int
  | .pre => h.preCmd garbage
  | .next => h.nextCmd

/-- The position after a call, with `n` commands in the list. -/
def walkPos (n p : Nat) : WalkCall → Nat
  | .pre => if p < n then p + 1 else p
  | .next => if 1 < p then p - 1 else p

/-- The entry `i` is what a call from position `p` should read: the command
it moves to, or at an end an empty entry or the command at that end. -/
def RightEntry (h : CmdHistory) (n p : Nat) (i : Int) : WalkCall → Prop
  | .pre =>
    if p < n then i = recentSlot 100 h.hisIdx.toNat p
    else h.cmd i 0 = 0 ∨ 0 < n ∧ i = recentSlot 100 h.hisIdx.toNat (n - 1)
  | .next =>
    if 1 < p then i = recentSlot 100 h.hisIdx.toNat (p - 2)
    else h.cmd i 0 = 0 ∨ 0 < n ∧ i = recentSlot 100 h.hisIdx.toNat 0

/-- The call reads the right entry, whatever the local holds. -/
structure CallRight (h : CmdHistory) (n p : Nat) (call : WalkCall) : Prop where
  independent : ∀ g g', (walkStep h g call).2 = (walkStep h g' call).2
  inRange : ∀ g, 0 ≤ (walkStep h g call).2 ∧ (walkStep h g call).2 < maxSaveCmdsNr
  entry : ∀ g, RightEntry h n p (walkStep h g call).2 call

/-- Every call of a sequence reads the right entry. -/
def WalkRight (h : CmdHistory) (n p : Nat) : List WalkCall → Prop
  | [] => True
  | call :: calls =>
    CallRight h n p call ∧ ∀ g, WalkRight (walkStep h g call).1 n (walkPos n p call) calls

/-- What is right of the walk: nothing is read; or there are no commands and no
`pre_cmd` follows a `next_cmd`; or there is one and only `next_cmd` is called;
or the ring is full with the newest command in entry 0 and `next_cmd` is called
once. -/
def WalkFine (h : CmdHistory) (n : Nat) (calls : List WalkCall) : Prop :=
  calls = [] ∨
    (n = 0 ∧ ∃ a b, calls = List.replicate a .pre ++ List.replicate b .next) ∨
    (n = 1 ∧ ∀ call ∈ calls, call = .next) ∨
    (n = 100 ∧ h.hisIdx = 0 ∧ calls = [.next])

/-! ## Single calls -/

variable {h : CmdHistory} {n : Nat} {l : List (Nat × Command)}

/-- Right after an `add`, `pre_cmd` reads the entry of its local. -/
theorem preCmd_new (hcurr : h.currHisIdx = -1) (h0 : 0 ≤ h.hisIdx) (g : Int) :
    (h.preCmd g).2 = g := by
  have hneg : ¬h.hisIdx < 0 := by omega
  simp only [CmdHistory.preCmd, hcurr, if_true, hneg, if_false]
  split <;> rfl

theorem not_callRight_pre_new (hcurr : h.currHisIdx = -1) (h0 : 0 ≤ h.hisIdx) (p : Nat) :
    ¬CallRight h n p .pre := by
  intro hr
  have hlt := (hr.inRange 100).2
  rw [walkStep, preCmd_new hcurr h0] at hlt
  exact absurd hlt (by decide)

/-- `pre_cmd` at entry 0 of the ring. -/
theorem preCmd_zero (hcurr : h.currHisIdx = 0) (g : Int) :
    h.preCmd g =
      ({ h with currHisIdx := if h.cmd (99 : Nat) 0 = 0 then 0 else 99 }, ((99 : Nat) : Int)) := by
  change h.preCmd g = ({ h with currHisIdx := if h.cmd 99 0 = 0 then 0 else 99 }, 99)
  have hcmd : ∀ k i, CmdHistory.cmd { h with currHisIdx := k } i = h.cmd i := fun _ _ => rfl
  simp only [CmdHistory.preCmd, hcurr, maxSaveCmdsNr]
  by_cases he : h.cmd 99 0 = 0 <;> simp [he, hcmd]

/-- `pre_cmd` at a later entry of the ring. -/
theorem preCmd_pos {k : Nat} (hcurr : h.currHisIdx = (k + 1 : Nat)) (hk : k + 1 < 100) (g : Int) :
    h.preCmd g =
      ({ h with currHisIdx := if h.cmd k 0 = 0 then (k + 1 : Nat) else k }, (k : Int)) := by
  have hcmd : ∀ k i, CmdHistory.cmd { h with currHisIdx := k } i = h.cmd i := fun _ _ => rfl
  have hne : h.currHisIdx ≠ -1 := by omega
  have hback : h.currHisIdx - 1 = k := by omega
  have hneg : ¬(k : Int) < 0 := by omega
  have hfull : ¬(k : Int) + 1 = 100 := by omega
  simp only [CmdHistory.preCmd, hne, if_false, hback, hneg, maxSaveCmdsNr, hcmd, hfull]
  by_cases he : h.cmd k 0 = 0 <;> simp [he]

/-- `next_cmd` reads the entry after the position, round the ring. -/
theorem nextCmd_eq {k : Nat} (hcurr : h.currHisIdx + 1 = k) (hk : k < 100) :
    h.nextCmd =
      ({ h with
          currHisIdx :=
            if h.cmd k 0 = 0 then (if (k : Int) - 1 = 0 then 99 else (k : Int) - 1) else k },
        (k : Int)) := by
  have hcmd : ∀ k i, CmdHistory.cmd { h with currHisIdx := k } i = h.cmd i := fun _ _ => rfl
  have hfull : ¬(k : Int) = 100 := by omega
  simp only [CmdHistory.nextCmd, hcurr, maxSaveCmdsNr, hfull, if_false, hcmd]
  by_cases he : h.cmd k 0 = 0 <;> simp [he]

theorem nextCmd_last (hcurr : h.currHisIdx = 99) :
    h.nextCmd =
      ({ h with currHisIdx := if h.cmd (0 : Nat) 0 = 0 then -1 else 0 }, ((0 : Nat) : Int)) := by
  change h.nextCmd = ({ h with currHisIdx := if h.cmd 0 0 = 0 then -1 else 0 }, 0)
  have hcmd : ∀ k i, CmdHistory.cmd { h with currHisIdx := k } i = h.cmd i := fun _ _ => rfl
  simp only [CmdHistory.nextCmd, hcurr, maxSaveCmdsNr, hcmd]
  by_cases he : h.cmd 0 0 = 0 <;> simp [he]

/-! ## A ring without commands -/

/-- Every entry is empty. -/
def AllEmpty (h : CmdHistory) : Prop := ∀ j : Nat, j < 100 → h.cmd j 0 = 0

/-- A call that reads a fixed entry of the ring is right when that entry is. -/
theorem callRight_iff {p i : Nat} {call : WalkCall} {h' : CmdHistory}
    (hstep : ∀ g, walkStep h g call = (h', (i : Int))) (hi : i < 100) :
    CallRight h n p call ↔ RightEntry h n p i call := by
  refine ⟨fun hr => ?_, fun he => ⟨fun g g' => by rw [hstep, hstep], fun g => ?_, fun g => ?_⟩⟩
  · have := hr.entry 0
    rwa [hstep] at this
  · rw [hstep]
    exact ⟨Int.natCast_nonneg i, by rw [maxSaveCmdsNr]; omega⟩
  · rw [hstep]
    exact he

/-- The same for the rest of the walk. -/
theorem walkRight_cons_iff {p i : Nat} {call : WalkCall} {calls : List WalkCall} {h' : CmdHistory}
    (hstep : ∀ g, walkStep h g call = (h', (i : Int))) (hi : i < 100) :
    WalkRight h n p (call :: calls) ↔
      RightEntry h n p i call ∧ WalkRight h' n (walkPos n p call) calls := by
  rw [WalkRight, callRight_iff hstep hi]
  simp only [hstep, forall_const]

/-- After a `next_cmd` without commands the position is -1. -/
theorem walk_empty_new (hempty : AllEmpty h) (h0 : 0 ≤ h.hisIdx) (hcurr : h.currHisIdx = -1)
    (calls : List WalkCall) : WalkRight h 0 0 calls ↔ ∀ call ∈ calls, call = .next := by
  induction calls with
  | nil => exact iff_of_true trivial (by simp)
  | cons call calls ih =>
    cases call with
    | pre =>
      refine iff_of_false (fun hw => not_callRight_pre_new hcurr h0 0 hw.1) fun hall => ?_
      exact absurd (hall .pre List.mem_cons_self) (by decide)
    | next =>
      have he : h.cmd (0 : Nat) 0 = 0 := hempty 0 (by decide)
      have hstay : ∀ g, walkStep h g .next = (h, ((0 : Nat) : Int)) := fun g => by
        rw [walkStep, nextCmd_eq (k := 0) (by omega) (by decide), if_pos he, if_neg (by decide)]
        congr 1
        exact congrArg (fun k => { h with currHisIdx := k }) hcurr.symm
      rw [walkRight_cons_iff hstay (by decide)]
      have hpos : walkPos 0 0 .next = 0 := rfl
      rw [hpos, ih]
      simp only [RightEntry, he, true_or, true_and, List.mem_cons, forall_eq_or_imp,
        if_neg (by decide : ¬1 < 0)]

theorem next_only_iff (calls : List WalkCall) :
    (∃ a b, WalkCall.next :: calls = List.replicate a .pre ++ List.replicate b .next) ↔
      ∀ call ∈ calls, call = .next := by
  constructor
  · rintro ⟨a, b, he⟩ call hcall
    cases a with
    | zero =>
      rw [List.replicate_zero, List.nil_append] at he
      exact List.eq_of_mem_replicate (he ▸ List.mem_cons_of_mem _ hcall)
    | succ a => exact absurd (List.cons.inj he).1 (by decide)
  · intro hall
    refine ⟨0, calls.length + 1, ?_⟩
    rw [List.replicate_zero, List.nil_append, List.replicate_succ, ← List.eq_replicate_of_mem hall]

theorem pre_cons_iff (calls : List WalkCall) :
    (∃ a b, WalkCall.pre :: calls = List.replicate a .pre ++ List.replicate b .next) ↔
      ∃ a b, calls = List.replicate a .pre ++ List.replicate b .next := by
  constructor
  · rintro ⟨a, b, he⟩
    cases a with
    | zero =>
      cases b with
      | zero => exact absurd he (by simp)
      | succ b => exact absurd (List.cons.inj he).1 (by decide)
    | succ a => exact ⟨a, b, (List.cons.inj he).2⟩
  · rintro ⟨a, b, rfl⟩
    exact ⟨a + 1, b, rfl⟩

/-- On a new console `pre_cmd` stays where it is until a `next_cmd` leaves. -/
theorem walk_empty (hempty : AllEmpty h) (h0 : 0 ≤ h.hisIdx) (hcurr : h.currHisIdx = 99)
    (calls : List WalkCall) : WalkRight h 0 0 calls ↔
      ∃ a b, calls = List.replicate a .pre ++ List.replicate b .next := by
  induction calls with
  | nil => exact iff_of_true trivial ⟨0, 0, rfl⟩
  | cons call calls ih =>
    cases call with
    | pre =>
      have he : h.cmd (98 : Nat) 0 = 0 := hempty 98 (by decide)
      have hstay : ∀ g, walkStep h g .pre = (h, ((98 : Nat) : Int)) := fun g => by
        rw [walkStep, preCmd_pos (k := 98) hcurr (by decide), if_pos he]
        congr 1
        exact congrArg (fun k => { h with currHisIdx := k }) hcurr.symm
      have hpos : walkPos 0 0 .pre = 0 := rfl
      rw [walkRight_cons_iff hstay (by decide), hpos, ih, pre_cons_iff]
      exact and_iff_right (.inl he)
    | next =>
      have he : h.cmd (0 : Nat) 0 = 0 := hempty 0 (by decide)
      have hleave : ∀ g, walkStep h g .next = ({ h with currHisIdx := -1 }, ((0 : Nat) : Int)) :=
        fun g => by
          rw [walkStep, nextCmd_last hcurr, if_pos he]
      have hpos : walkPos 0 0 .next = 0 := rfl
      have hrest : WalkRight { h with currHisIdx := -1 } 0 0 calls ↔ ∀ call ∈ calls, call = .next :=
        walk_empty_new (h := { h with currHisIdx := -1 }) hempty h0 rfl calls
      rw [walkRight_cons_iff hleave (by decide), hpos, hrest, next_only_iff]
      exact and_iff_right (.inl he)

/-! ## A ring with one command -/

/-- Only entry 0 holds a command. -/
structure OnlyFirst (h : CmdHistory) : Prop where
  idx : h.hisIdx = 0
  first : h.cmd (0 : Nat) 0 ≠ 0
  rest : ∀ j : Nat, 0 < j → j < 100 → h.cmd j 0 = 0

/-- The positions that calls of `next_cmd` go through. -/
theorem walk_one (hone : OnlyFirst h)
    (hcurr : h.currHisIdx = -1 ∨ h.currHisIdx = 0 ∨ h.currHisIdx = 99) (calls : List WalkCall) :
    WalkRight h 1 0 calls ↔ ∀ call ∈ calls, call = .next := by
  induction calls generalizing h with
  | nil => exact iff_of_true trivial (by simp)
  | cons call calls ih =>
    have hidx := hone.idx
    have hslot : recentSlot 100 h.hisIdx.toNat 0 = 0 := by rw [hidx]; rfl
    cases call with
    | pre =>
      refine iff_of_false (fun hw => ?_) fun hall => ?_
      · have hcall := hw.1
        rcases hcurr with hc | hc | hc
        · exact not_callRight_pre_new hc (by omega) 0 hcall
        · have hstep : ∀ g, walkStep h g .pre = ({ h with currHisIdx := 0 }, ((99 : Nat) : Int)) :=
            fun g => by
              rw [walkStep, preCmd_zero hc, if_pos (hone.rest 99 (by decide) (by decide))]
          rw [callRight_iff hstep (by decide)] at hcall
          simp [RightEntry, hslot] at hcall
        · have hstep : ∀ g, walkStep h g .pre = (_, ((98 : Nat) : Int)) :=
            fun g => preCmd_pos (k := 98) hc (by decide) g
          rw [callRight_iff hstep (by decide)] at hcall
          simp [RightEntry, hslot] at hcall
      · exact absurd (hall .pre List.mem_cons_self) (by decide)
    | next =>
      have hpos : walkPos 1 0 .next = 0 := rfl
      have hmem : (∀ call ∈ WalkCall.next :: calls, call = .next) ↔
          ∀ call ∈ calls, call = .next := by
        simp
      rw [hmem]
      rcases hcurr with hc | hc | hc
      · have hstep : ∀ g, walkStep h g .next = ({ h with currHisIdx := 0 }, ((0 : Nat) : Int)) :=
          fun g => by
            rw [walkStep, nextCmd_eq (k := 0) (by omega) (by decide), if_neg hone.first]
            rfl
        rw [walkRight_cons_iff hstep (by decide), hpos,
          ih (h := { h with currHisIdx := 0 }) ⟨hidx, hone.first, hone.rest⟩ (.inr (.inl rfl))]
        exact and_iff_right (.inr ⟨by decide, by rw [hslot]⟩)
      · have he : h.cmd (1 : Nat) 0 = 0 := hone.rest 1 (by decide) (by decide)
        have hstep : ∀ g, walkStep h g .next = ({ h with currHisIdx := 99 }, ((1 : Nat) : Int)) :=
          fun g => by
            rw [walkStep, nextCmd_eq (k := 1) (by omega) (by decide), if_pos he, if_pos (by decide)]
        rw [walkRight_cons_iff hstep (by decide), hpos,
          ih (h := { h with currHisIdx := 99 }) ⟨hidx, hone.first, hone.rest⟩ (.inr (.inr rfl))]
        exact and_iff_right (.inl he)
      · have hstep : ∀ g, walkStep h g .next = ({ h with currHisIdx := 0 }, ((0 : Nat) : Int)) :=
          fun g => by
            rw [walkStep, nextCmd_last hc, if_neg hone.first]
        rw [walkRight_cons_iff hstep (by decide), hpos,
          ih (h := { h with currHisIdx := 0 }) ⟨hidx, hone.first, hone.rest⟩ (.inr (.inl rfl))]
        exact and_iff_right (.inr ⟨by decide, by rw [hslot]⟩)

/-! ## StoredCommands commands -/

/-- The entries of the commands are the ones that are not empty. -/
theorem Represents.entry_iff (hr : Represents h l) {k : Nat} (hk : k < 100) :
    h.cmd (recentSlot 100 h.hisIdx.toNat k) 0 = 0 ↔ l.length ≤ k := by
  have hempty : ∀ j : Nat, h.cmd j 0 = 0 ↔ EmptyEntry h.mem j := fun j => by
    simp [CmdHistory.cmd, EmptyEntry]
  rw [hempty]
  constructor
  · intro he
    by_contra hlt
    exact (hr.ring.held k (by omega)).not_empty he
  · intro hle
    exact hr.ring.rest k hle hk

theorem StoredCommands.allEmpty (hs : StoredCommands h []) : AllEmpty h := by
  intro j hj
  obtain ⟨k, hk, rfl⟩ := exists_recentSlot hs.ring.ring.idx_lt hj
  exact (hs.ring.entry_iff hk).mpr (Nat.zero_le k)

theorem StoredCommands.onlyFirst {e : Nat × Command} (hs : StoredCommands h [e]) : OnlyFirst h := by
  have hidx : h.hisIdx = 0 := hs.idx (by simp)
  have hentry : ∀ j : Nat, j < 100 → (h.cmd j 0 = 0 ↔ j ≠ 0) := fun j hj => by
    obtain ⟨k, hk, he⟩ := exists_recentSlot hs.ring.ring.idx_lt hj
    have hiff := hs.ring.entry_iff hk
    rw [he] at hiff
    rw [hiff, List.length_singleton]
    rw [hidx] at he
    unfold recentSlot at he
    split at he <;> omega
  exact ⟨hidx, fun he => (hentry 0 (by decide)).mp he rfl,
    fun j h0 hj => (hentry j hj).mpr (by omega)⟩

/-- Entry 0 is the first one a command goes to. -/
theorem StoredCommands.first (hs : StoredCommands h l) (hn : 0 < l.length) :
    h.cmd (0 : Nat) 0 ≠ 0 := by
  obtain ⟨k, hk, he⟩ := exists_recentSlot hs.ring.ring.idx_lt (by decide : 0 < 100)
  have hiff := hs.ring.entry_iff hk
  rw [he] at hiff
  rw [Ne, hiff]
  intro hle
  have hidx := hs.idx (by omega)
  rw [if_neg (by omega)] at hidx
  unfold recentSlot at he
  split at he <;> omega

/-- With two or more commands, only a `next_cmd` that finds the newest one in
entry 0 is right, and nothing after it. -/
theorem walk_many (hs : StoredCommands h l) (hn : 2 ≤ l.length) (calls : List WalkCall) :
    WalkRight h l.length 0 calls ↔
      calls = [] ∨ (l.length = 100 ∧ h.hisIdx = 0 ∧ calls = [.next]) := by
  have h0 := hs.ring.idx_nonneg
  have hle := hs.ring.ring.le
  have hcurr : h.currHisIdx = -1 := by
    rw [hs.curr, if_neg (by omega)]
  have hidx : l.length < 100 → h.hisIdx = (l.length : Int) - 1 := fun hlt => by
    rw [hs.idx hlt, if_neg (by omega)]
  have hfirst := hs.first (by omega)
  match calls with
  | [] => exact iff_of_true trivial (.inl rfl)
  | .pre :: calls =>
    refine iff_of_false (fun hw => not_callRight_pre_new hcurr h0 0 hw.1) ?_
    rintro (he | ⟨-, -, he⟩)
    · exact absurd he (by simp)
    · exact absurd (List.cons.inj he).1 (by decide)
  | .next :: calls =>
    have hstep : ∀ g, walkStep h g .next = ({ h with currHisIdx := 0 }, ((0 : Nat) : Int)) :=
      fun g => by
        rw [walkStep, nextCmd_eq (k := 0) (by omega) (by decide), if_neg hfirst]
        rfl
    have hpos : walkPos l.length 0 .next = 0 := rfl
    have hright : RightEntry h l.length 0 ((0 : Nat) : Int) .next ↔ h.hisIdx = 0 := by
      simp only [RightEntry, if_neg (by decide : ¬1 < 0), hfirst, false_or, recentSlot_zero]
      omega
    rw [walkRight_cons_iff hstep (by decide), hpos, hright]
    match calls with
    | [] =>
      have hfull : h.hisIdx = 0 → l.length = 100 := fun hz => by
        by_contra hne
        have := hidx (by omega)
        omega
      refine ⟨fun hz => .inr ⟨hfull hz.1, hz.1, rfl⟩, ?_⟩
      rintro (he | ⟨-, hz, -⟩)
      · exact absurd he (by simp)
      · exact ⟨hz, trivial⟩
    | call :: calls =>
      refine iff_of_false ?_ (by simp)
      rintro ⟨hz, hw⟩
      have hcall := hw.1
      have hfull : l.length = 100 := by
        by_contra hne
        have := hidx (by omega)
        omega
      have hslot : recentSlot 100 h.hisIdx.toNat 0 = 0 := by rw [hz]; rfl
      cases call with
      | pre =>
        have hback : ∀ g, walkStep { h with currHisIdx := 0 } g .pre = (_, ((99 : Nat) : Int)) :=
          fun g => preCmd_zero (h := { h with currHisIdx := 0 }) rfl g
        rw [callRight_iff hback (by decide)] at hcall
        simp [RightEntry, hslot, hfull] at hcall
      | next =>
        have hnext : ∀ g, walkStep { h with currHisIdx := 0 } g .next = (_, ((1 : Nat) : Int)) :=
          fun _ => nextCmd_eq (h := { h with currHisIdx := 0 }) (k := 1) rfl (by decide)
        rw [callRight_iff hnext (by decide)] at hcall
        have hfilled : h.cmd (1 : Nat) 0 ≠ 0 := by
          obtain ⟨k, hk, he⟩ := exists_recentSlot hs.ring.ring.idx_lt (by decide : 1 < 100)
          have hiff := hs.ring.entry_iff hk
          rw [he] at hiff
          rw [Ne, hiff]
          omega
        have hsame : CmdHistory.cmd { h with currHisIdx := 0 } ((1 : Nat) : Int) 0 ≠ 0 := hfilled
        simp only [RightEntry, if_neg (by decide : ¬1 < 0), hsame, hslot, false_or] at hcall
        omega

/-- The walk through the commands that were added is right exactly where
`WalkFine` says. -/
theorem walk_right_iff {m : Int → UInt8} {es l : List (Nat × Command)}
    (hr : Represents (addAll m es) l) (calls : List WalkCall) :
    WalkRight (addAll m es) l.length 0 calls ↔ WalkFine (addAll m es) l.length calls := by
  have hs := stored_of_represents hr
  have hidx := hs.idx
  have hcurr := hs.curr
  match l with
  | [] =>
    have h99 : (addAll m es).hisIdx = 99 := hidx (by decide)
    rw [List.length_nil, walk_empty hs.allEmpty (by omega) hcurr]
    constructor
    · exact fun hab => .inr (.inl ⟨rfl, hab⟩)
    · rintro (rfl | ⟨-, hab⟩ | ⟨hn, -⟩ | ⟨hn, -⟩)
      · exact ⟨0, 0, rfl⟩
      · exact hab
      · exact absurd hn (by decide)
      · exact absurd hn (by decide)
  | [e] =>
    rw [List.length_singleton, walk_one hs.onlyFirst (.inl hcurr)]
    constructor
    · exact fun hall => .inr (.inr (.inl ⟨rfl, hall⟩))
    · rintro (rfl | ⟨hn, -⟩ | ⟨-, hall⟩ | ⟨hn, -⟩)
      · simp
      · exact absurd hn (by decide)
      · exact hall
      · exact absurd hn (by decide)
  | e :: e' :: l =>
    rw [walk_many hs (by simp)]
    constructor
    · rintro (hnil | hfull)
      · exact .inl hnil
      · exact .inr (.inr (.inr hfull))
    · rintro (hnil | ⟨hn, -⟩ | ⟨hn, -⟩ | hfull)
      · exact .inl hnil
      · exact absurd hn (by simp)
      · exact absurd hn (by simp)
      · exact .inr hfull

/-- `next_cmd` after one command. -/
theorem walk_right_iff_one :
    WalkRight (addAll (fun _ => 0) [(1, commandA)]) 1 0 [.next] ↔
      WalkFine (addAll (fun _ => 0) [(1, commandA)]) 1 [.next] := by
  have hr : Represents (addAll (fun _ => 0) [(1, commandA)]) [(1, commandA)] :=
    (init_represents fun _ => 0).add 1 commandA
  exact walk_right_iff hr [.next]

/-- `pre_cmd` after one command reads the entry of its local. -/
theorem walk_reads_garbage : ¬∀ (m : Int → UInt8) (es l : List (Nat × Command)),
    Represents (addAll m es) l → ∀ calls, WalkRight (addAll m es) l.length 0 calls := by
  intro h
  have hr := h (fun _ => 0) [(1, commandA)] _ ((init_represents fun _ => 0).add 1 commandA) [.pre]
  have hs := (init_stored fun _ => 0).add 1 commandA
  exact not_callRight_pre_new hs.curr hs.ring.idx_nonneg 0 hr.1

end Wjos
