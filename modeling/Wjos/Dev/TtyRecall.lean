/-
Wjos.Dev.TtyRecall — recalling commands while a task is in `tty_read`.

UP and DOWN erase what the counter says on the screen and put the recalled
command in the input queue, behind what is there already; `tty_read` keeps
what it has kept. `RecallNotes` notes beside the run what entered the queue
before the last recall and what was recalled and typed from then on.
`recalled_line_iff` says when the line is made of the latter alone: when the
characters kept from before had all been deleted, or still are by deletions
that reach past the recalled command.

Translation notes. `Typing` is the terminal with its one reader; the key press
is one step, as it runs in the keyboard interrupt. Where it comes between two
steps of `tty_read` is the matter of `TtyReader`. The history of the console
stands beside the rest of the console. What the uninitialised local of
`pre_cmd` holds comes with the event.
-/
import Wjos.Base.HistoryWalk
import Wjos.Dev.TtyLine
import Wjos.Dev.TtyTyping

namespace Wjos

open Lib

/-! ## A line on top of other characters -/

/-- The deletions in an input that find nothing left of the `n` characters
kept and those of the input. -/
def overDeletes : (n : Nat) → List UInt8 → Nat
  | _, [] => 0
  | n, ch :: r =>
    if ch = 0x7f then if n = 0 then overDeletes 0 r + 1 else overDeletes (n - 1) r
    else overDeletes (n + 1) r

section Line

variable {size : Nat} {r k own : List UInt8}

/-- Only those deletions reach what was kept before. -/
theorem foldl_keepChar_append (hr : ∀ ch ∈ r, ch ≠ 10) (k own : List UInt8) :
    r.foldl (keepChar size) (k ++ own) =
      k.take (k.length - overDeletes own.length r) ++ r.foldl (keepChar size) own := by
  induction r generalizing k own with
  | nil => simp [overDeletes]
  | cons ch r ih =>
    have hrest : ∀ c ∈ r, c ≠ 10 := fun c hc => hr c (List.mem_cons_of_mem _ hc)
    rw [List.foldl_cons, List.foldl_cons, overDeletes]
    by_cases hdel : ch = 0x7f
    · have hkeep : ∀ kept, keepChar size kept ch = kept.dropLast := fun kept => if_pos hdel
      rw [hkeep, hkeep, if_pos hdel]
      cases own using List.reverseRecOn with
      | nil =>
        have hstep := ih hrest k.dropLast []
        rw [List.append_nil] at hstep
        rw [List.append_nil, hstep, List.length_dropLast, List.dropLast_eq_take, List.take_take]
        simp only [List.length_nil, if_true, List.dropLast_nil]
        congr 2
        omega
      | append_singleton own c =>
        rw [← List.append_assoc, List.dropLast_concat, List.dropLast_concat, ih hrest,
          List.length_append, List.length_singleton, if_neg (by omega), Nat.add_sub_cancel]
    · have hkeep : ∀ kept, keepChar size kept ch = kept ++ [ch] := fun kept => by
        rw [keepChar, if_neg hdel, if_neg (hr ch List.mem_cons_self)]
      rw [hkeep, hkeep, if_neg hdel, List.append_assoc, ih hrest, List.length_append,
        List.length_singleton]

/-- Before the end of a line every character kept has been typed. -/
theorem mem_of_mem_lineOf (hr : ∀ ch ∈ r, ch ≠ 10) {c : UInt8} (hc : c ∈ lineOf size r) :
    c ∈ r := by
  induction r using List.reverseRecOn with
  | nil => exact hc
  | append_singleton r ch ih =>
    have hrest : ∀ c ∈ r, c ≠ 10 := fun c hc => hr c (List.mem_append_left _ hc)
    rw [lineOf_concat, keepChar] at hc
    split at hc
    · exact List.mem_append_left _ (ih hrest (List.mem_of_mem_dropLast hc))
    · rw [if_neg (hr ch (by simp))] at hc
      rcases List.mem_append.mp hc with hc | hc
      · exact List.mem_append_left _ (ih hrest hc)
      · exact List.mem_append_right _ hc

/-- Enter ends two lines alike only if they were alike. -/
theorem keepChar_enter_iff (hcr : 13 ∉ k ++ own) :
    keepChar size (k ++ own) 10 = keepChar size own 10 ↔ k = [] := by
  refine ⟨fun he => ?_, fun hk => by rw [hk, List.nil_append]⟩
  have hkeep : ∀ kept, keepChar size kept 10 =
      kept ++ (if kept.length + 1 < size then [13, 10] else [10]) := fun kept => rfl
  rw [hkeep, hkeep, List.length_append] at he
  by_cases hlong : k.length + own.length + 1 < size
  · rw [if_pos hlong, if_pos (by omega)] at he
    exact List.append_left_eq_self.mp (List.append_cancel_right he)
  by_cases hshort : own.length + 1 < size
  · -- the longer line has no room for the `\r` of the shorter one
    rw [if_neg hlong, if_pos hshort] at he
    have hsplit : k ++ own = own ++ [13] := by
      have he' : k ++ own ++ [10] = own ++ [13] ++ [10] := by rw [he, List.append_assoc]; rfl
      exact List.append_cancel_right he'
    exact absurd (by rw [hsplit]; simp) hcr
  · rw [if_neg hlong, if_neg hshort] at he
    exact List.append_left_eq_self.mp (List.append_cancel_right he)

theorem overDeletes_enter (r : List UInt8) (n : Nat) :
    overDeletes n (r ++ [10]) = overDeletes n r := by
  induction r generalizing n with
  | nil => rfl
  | cons ch r ih => simp only [List.cons_append, overDeletes, ih]

/-- A line typed on top of others equals the line typed alone exactly when
nothing of the others is left. -/
theorem lineOf_append_iff {before : List UInt8} (hplain : ∀ ch ∈ before ++ r, ch ≠ 10 ∧ ch ≠ 13) :
    lineOf size (before ++ (r ++ [10])) = lineOf size (r ++ [10]) ↔
      (lineOf size before).length ≤ overDeletes 0 (r ++ [10]) := by
  have hr : ∀ ch ∈ r, ch ≠ 10 := fun ch hch => (hplain ch (List.mem_append_right _ hch)).1
  have htop : lineOf size (before ++ r) =
      (lineOf size before).take ((lineOf size before).length - overDeletes 0 r) ++
        lineOf size r := by
    have h := @foldl_keepChar_append size r hr (lineOf size before) []
    rw [List.append_nil] at h
    rw [lineOf, List.foldl_append]
    exact h
  have hcr : 13 ∉ lineOf size (before ++ r) := fun hmem =>
    (hplain 13 (mem_of_mem_lineOf (fun ch hch => (hplain ch hch).1) hmem)).2 rfl
  rw [← List.append_assoc, lineOf_concat, lineOf_concat, overDeletes_enter]
  rw [htop] at hcr ⊢
  rw [keepChar_enter_iff hcr, List.take_eq_nil_iff]
  constructor
  · rintro (hzero | hnil)
    · omega
    · rw [hnil]
      exact Nat.zero_le _
  · intro hle
    exact .inl (by omega)

end Line

/-! ## Recalling -/

/-- What the loop of `show_his_cmd` sends: the characters before the NUL, `n`
at most. -/
def hisChars (cmd : Nat → UInt8) : (n : Nat) → List UInt8
  | 0 => []
  | n + 1 => if cmd 0 ≠ 0 then cmd 0 :: hisChars (fun i => cmd (i + 1)) n else []

/-- A terminal with a reader and the history of its console; `line` is what
`tty_read` has returned. -/
structure Recall where
  typing : Typing
  history : CmdHistory
  cmdMode : Bool
  line : Option (List UInt8)

inductive RecallEvent where
  /-- A key with a character: `tty_in`. -/
  | type (ch : UInt8)
  /-- `tty_handle_key` with KEY_UP or KEY_DOWN. -/
  | arrow (call : WalkCall) (garbage : Int)
  /-- The reader takes a character. -/
  | take

/-- `show_his_cmd`. -/
def showHisCmd (s : Typing) (cmd : Nat → UInt8) : Typing :=
  { s with
    console := s.console.eraseBackword s.console.inputLen
    queue := (hisChars cmd cliInputSize).foldl typeIn s.queue }

/-- `tty_handle_key`. -/
def ttyHandleKey (s : Recall) (call : WalkCall) (garbage : Int) : Recall :=
  if s.cmdMode then
    let (history, i) := walkStep s.history garbage call
    if history.cmd i 0 = 0 then { s with history := history }
    else { s with history := history, typing := showHisCmd s.typing (history.cmd i) }
  else s

def recallStep (s : Recall) : RecallEvent → Option Recall
  | .type ch => some { s with typing := { s.typing with queue := typeIn s.typing.queue ch } }
  | .arrow call garbage => some (ttyHandleKey s call garbage)
  | .take =>
    match s.typing.reading, s.typing.queue with
    | some (size, kept), ch :: queue =>
      let typing := takeChar s.typing size kept ch queue
      let kept' := (readSwitch echoFlags size kept s.typing.console.inputLen ch).1
      some { s with
        typing := typing
        line := if typing.reading.isNone then some kept' else none }
    | _, _ => none

/-- A task is in `tty_read` with nothing kept yet, and nothing is typed. -/
def Recall.start (c : Console) (history : CmdHistory) (cmdMode : Bool) (size : Nat) : Recall where
  typing := { console := c, queue := [], reading := some (size, []), lineLen := 0 }
  history := history
  cmdMode := cmdMode
  line := none

/-- What entered the queue, what of it before the last recall, and what was
recalled then and typed since. -/
structure RecallNotes where
  accepted : List UInt8
  before : List UInt8
  since : List UInt8

def RecallNotes.start : RecallNotes where
  accepted := []
  before := []
  since := []

/-- The command that a key recalls, if it recalls one. -/
def recalledCmd (s : Recall) (call : WalkCall) (garbage : Int) : Option (List UInt8) :=
  let (history, i) := walkStep s.history garbage call
  if s.cmdMode ∧ history.cmd i 0 ≠ 0 then some (hisChars (history.cmd i) cliInputSize) else none

def RecallNotes.note (n : RecallNotes) (s : Recall) (e : RecallEvent) (s' : Recall) :
    RecallNotes :=
  let accepted := n.accepted ++ s'.typing.queue.drop s.typing.queue.length
  match e with
  | .type ch => { n with accepted := accepted, since := n.since ++ [ch] }
  | .arrow call garbage =>
    match recalledCmd s call garbage with
    | none => n
    | some cmd => { accepted := accepted, before := n.accepted, since := cmd }
  | .take => n

/-- The terminal with these notes at its side. -/
def recallNoted : Recall × RecallNotes → RecallEvent → Option (Recall × RecallNotes) :=
  observed recallStep RecallNotes.note

/-! ## The line -/

/-- What has been taken from the queue is in the line that is being read, or
is the line that was returned. -/
structure RecallInv (size : Nat) (x : Recall × RecallNotes) (taken : List UInt8) : Prop where
  accepted : x.2.accepted = taken ++ x.1.typing.queue
  reading : x.1.line = none → x.1.typing.reading = some ((size : Int), lineOf size taken) ∧
    ∀ ch ∈ taken, ch ≠ 10 ∧ ch ≠ 13
  returned : ∀ line, x.1.line = some line → x.1.typing.reading = none ∧
    line = lineOf size taken ∧ ∀ ch ∈ taken.dropLast, ch ≠ 10 ∧ ch ≠ 13

/-- Keys only append to the queue. -/
theorem foldl_typeIn (chars queue : List UInt8) :
    ∃ new, chars.foldl typeIn queue = queue ++ new := by
  induction chars generalizing queue with
  | nil => exact ⟨[], (List.append_nil queue).symm⟩
  | cons ch chars ih =>
    obtain ⟨new, hnew⟩ := ih (typeIn queue ch)
    rw [List.foldl_cons, hnew]
    unfold typeIn
    split
    · exact ⟨new, rfl⟩
    · exact ⟨ch :: new, by simp⟩

/-- The switch keeps what the line discipline keeps. -/
theorem readSwitch_kept (size : Nat) (kept : List UInt8) (n : Int) (ch : UInt8) :
    (readSwitch echoFlags size kept n ch).1 = keepChar size kept ch := by
  unfold readSwitch keepChar
  split
  · by_cases hkept : kept.length = 0
    · rw [if_pos hkept, List.eq_nil_of_length_eq_zero hkept]
      rfl
    · rw [if_neg hkept]
  split
  · have hflags : echoFlags ≠ 0 := by decide
    by_cases hroom : kept.length + 1 < size
    · rw [if_pos hroom, if_pos ⟨hflags, by omega⟩]
      exact List.append_assoc kept [13] [10]
    · rw [if_neg hroom, if_neg (by rintro ⟨-, hl⟩; omega)]
  · rfl

/-- The reader goes on until the line ends or is full. -/
theorem takeChar_reading (s : Typing) (size : Nat) (kept : List UInt8) (ch : UInt8)
    (queue : List UInt8) : (takeChar s size kept ch queue).reading =
      if ch = 10 ∨ ch = 13 then none
      else if ((keepChar size kept ch).length : Int) < size then
        some ((size : Int), keepChar size kept ch)
      else none := by
  have hkept := readSwitch_kept size kept s.console.inputLen ch
  have hgoes : ch = 10 ∨ ch = 13 →
      (readSwitch echoFlags size kept s.console.inputLen ch).2.2 = true := by
    rintro (rfl | rfl) <;> rfl
  revert hkept hgoes
  unfold takeChar
  rcases readSwitch echoFlags size kept s.console.inputLen ch with ⟨kept', inputLen, goesOn⟩
  rintro rfl hgoes
  by_cases hend : ch = 10 ∨ ch = 13
  · exact (if_pos ⟨hgoes hend, hend⟩).trans (if_pos hend).symm
  · exact (if_neg fun h => hend h.2).trans (if_neg hend).symm

/-! ## Arrows -/

section Arrow

variable {s : Recall} {call : WalkCall} {garbage : Int}

theorem ttyHandleKey_line (s : Recall) (call : WalkCall) (garbage : Int) :
    (ttyHandleKey s call garbage).line = s.line := by
  unfold ttyHandleKey
  rcases walkStep s.history garbage call with ⟨history, i⟩
  split
  · dsimp only
    split <;> rfl
  · rfl

/-- A key that recalls nothing leaves the terminal alone. -/
theorem ttyHandleKey_none (h : recalledCmd s call garbage = none) :
    (ttyHandleKey s call garbage).typing = s.typing := by
  revert h
  unfold recalledCmd ttyHandleKey
  rcases walkStep s.history garbage call with ⟨history, i⟩
  intro h
  by_cases hmode : s.cmdMode
  · by_cases hempty : history.cmd i 0 = 0
    · simp [hmode, hempty]
    · simp [hmode, hempty] at h
  · simp [hmode]

/-- A key that recalls a command types it. -/
theorem ttyHandleKey_some {cmd : List UInt8} (h : recalledCmd s call garbage = some cmd) :
    (ttyHandleKey s call garbage).typing.queue = cmd.foldl typeIn s.typing.queue ∧
      (ttyHandleKey s call garbage).typing.reading = s.typing.reading := by
  revert h
  unfold recalledCmd ttyHandleKey
  rcases walkStep s.history garbage call with ⟨history, i⟩
  intro h
  by_cases hrecall : s.cmdMode ∧ history.cmd i 0 ≠ 0
  · obtain rfl : hisChars (history.cmd i) cliInputSize = cmd := by simpa [hrecall] using h
    simp [hrecall, showHisCmd]
  · simp [hrecall] at h

end Arrow

/-! ## The invariant -/

namespace RecallInv

variable {size : Nat} {x y : Recall × RecallNotes} {taken : List UInt8}

/-- A key appends to the queue and leaves the reader alone. -/
theorem append (h : RecallInv size x taken) {new : List UInt8}
    (hqueue : y.1.typing.queue = x.1.typing.queue ++ new)
    (haccepted : y.2.accepted = x.2.accepted ++ new)
    (hreading : y.1.typing.reading = x.1.typing.reading) (hline : y.1.line = x.1.line) :
    RecallInv size y taken := by
  refine ⟨?_, ?_, ?_⟩
  · rw [haccepted, h.accepted, hqueue, List.append_assoc]
  · rw [hreading, hline]
    exact h.reading
  · rw [hreading, hline]
    exact h.returned

theorem type (h : RecallInv size x taken) (ch : UInt8) {s' : Recall}
    (hs : recallStep x.1 (.type ch) = some s') :
    RecallInv size (s', x.2.note x.1 (.type ch) s') taken := by
  obtain rfl := Option.some.inj hs
  obtain ⟨new, hnew⟩ := foldl_typeIn [ch] x.1.typing.queue
  have hqueue : typeIn x.1.typing.queue ch = x.1.typing.queue ++ new := hnew
  refine h.append hqueue ?_ rfl rfl
  simp only [RecallNotes.note, hqueue, List.drop_left]

theorem arrow (h : RecallInv size x taken) (call : WalkCall) (garbage : Int) {s' : Recall}
    (hs : recallStep x.1 (.arrow call garbage) = some s') :
    RecallInv size (s', x.2.note x.1 (.arrow call garbage) s') taken := by
  obtain rfl := Option.some.inj hs
  have hline := ttyHandleKey_line x.1 call garbage
  cases hcmd : recalledCmd x.1 call garbage with
  | none =>
    have htyping := ttyHandleKey_none hcmd
    have hqueue : (ttyHandleKey x.1 call garbage).typing.queue = x.1.typing.queue ++ [] := by
      rw [htyping, List.append_nil]
    refine h.append hqueue ?_ (by rw [htyping]) hline
    simp only [RecallNotes.note, hcmd, List.append_nil]
  | some cmd =>
    obtain ⟨hqueue, hreading⟩ := ttyHandleKey_some hcmd
    obtain ⟨new, hnew⟩ := foldl_typeIn cmd x.1.typing.queue
    rw [hnew] at hqueue
    refine h.append hqueue ?_ hreading hline
    simp only [RecallNotes.note, hcmd, hqueue, List.drop_left]

/-- The reader takes one more character. -/
theorem take (h : RecallInv size x taken) {s' : Recall} (hs : recallStep x.1 .take = some s') :
    ∃ ch, RecallInv size (s', x.2.note x.1 .take s') (taken ++ [ch]) := by
  simp only [recallStep] at hs
  split at hs
  case h_2 => exact absurd hs (by simp)
  case h_1 size' kept ch queue hreading hqueue =>
    obtain rfl := Option.some.inj hs
    have hnone : x.1.line = none := by
      cases hline : x.1.line with
      | none => rfl
      | some line => exact absurd ((h.returned line hline).1.symm.trans hreading) (by simp)
    obtain ⟨hread, hplain⟩ := h.reading hnone
    obtain ⟨rfl, rfl⟩ := Prod.mk.inj (Option.some.inj (hreading.symm.trans hread))
    have htaken := takeChar_reading x.1.typing size (lineOf size taken) ch queue
    have hkept := readSwitch_kept size (lineOf size taken) x.1.typing.console.inputLen ch
    rw [← lineOf_concat] at htaken hkept
    have haccepted : x.2.accepted = taken ++ [ch] ++ queue := by
      rw [h.accepted, hqueue, List.append_assoc]
      rfl
    split at htaken
    case' isFalse hend => split at htaken
    case' isFalse.isTrue =>
      refine ⟨ch, haccepted, fun _ => ⟨htaken, fun c hc => ?_⟩, fun line hline => ?_⟩
      · rcases List.mem_append.mp hc with hc | hc
        · exact hplain c hc
        · obtain rfl := List.mem_singleton.mp hc
          exact not_or.mp hend
      · simp [htaken] at hline
    all_goals
      refine ⟨ch, haccepted, fun hline => ?_, fun line hline => ⟨htaken, ?_, ?_⟩⟩
      · simp [htaken] at hline
      · simp only [htaken, Option.isNone_none, if_true, hkept, Option.some.injEq] at hline
        exact hline.symm
      · rw [List.dropLast_concat]
        exact hplain

/-- The invariant holds at the end of every run. -/
theorem run_recallInv {size : Nat} {x y : Recall × RecallNotes} {taken : List UInt8}
    (h : RecallInv size x taken) {es : List RecallEvent} (hrun : run recallNoted x es = some y) :
    ∃ taken', RecallInv size y taken' := by
  have hstep : ∀ x e y, (∃ taken, RecallInv size x taken) → recallNoted x e = some y →
      ∃ taken, RecallInv size y taken := by
    rintro x e y ⟨taken, hx⟩ hy
    obtain ⟨hs, hnote⟩ := observed_eq_some.mp hy
    rw [← Prod.mk.eta (p := y), hnote]
    cases e with
    | type ch => exact ⟨taken, hx.type ch hs⟩
    | arrow call garbage => exact ⟨taken, hx.arrow call garbage hs⟩
    | take =>
      obtain ⟨ch, hnext⟩ := hx.take hs
      exact ⟨taken ++ [ch], hnext⟩
  exact run_invariant hstep ⟨taken, h⟩ hrun

end RecallInv

/-- A terminal where the whole input has been taken and its last character is
the Enter that ended the line, and where nothing has been dropped since the
last recall. -/
structure Entered (x : Recall × RecallNotes) (line : List UInt8) : Prop where
  returned : x.1.line = some line
  queue : x.1.typing.queue = []
  enter : x.2.since.getLast? = some 10
  room : x.2.accepted = x.2.before ++ x.2.since

/-- The line that Enter ends is made of the recalled command and what was
typed after it exactly when nothing is left of what was kept before. -/
theorem recalled_line_iff {c : Console} {history : CmdHistory} {cmdMode : Bool} {size : Nat}
    {es : List RecallEvent} {x : Recall × RecallNotes} {line : List UInt8}
    (hrun : run recallNoted (Recall.start c history cmdMode size, RecallNotes.start) es = some x)
    (h : Entered x line) :
    line = lineOf size x.2.since ↔
      (lineOf size x.2.before).length ≤ overDeletes 0 x.2.since := by
  have hstart : RecallInv size (Recall.start c history cmdMode size, RecallNotes.start) [] :=
    ⟨rfl, fun _ => ⟨rfl, by simp⟩, fun line hline => absurd hline (by simp [Recall.start])⟩
  obtain ⟨taken, hinv⟩ := hstart.run_recallInv hrun
  obtain ⟨r, hr⟩ := List.getLast?_eq_some_iff.mp h.enter
  have htaken : taken = x.2.before ++ (r ++ [10]) := by
    have haccepted := hinv.accepted
    rw [h.queue, List.append_nil, h.room, hr] at haccepted
    exact haccepted.symm
  obtain ⟨-, hline, hplain⟩ := hinv.returned line h.returned
  rw [htaken, ← List.append_assoc, List.dropLast_concat] at hplain
  rw [hline, htaken, hr]
  exact lineOf_append_iff hplain

/-- A task that reads into 8 bytes, after one command, `a`. -/
def readingAfterA : Recall × RecallNotes :=
  (Recall.start (Console.zero.init 0 0) (addAll (fun _ => 0) [(0, commandA)]) true 8,
    RecallNotes.start)

/-- DOWN on an empty line, and Enter. -/
theorem recalled_line_iff_empty : ∃ x,
    run recallNoted readingAfterA [.arrow .next 0, .type 10, .take, .take] = some x ∧
      [97, 13, 10] = lineOf 8 x.2.since := by
  have hrun : run recallNoted readingAfterA [.arrow .next 0, .type 10, .take, .take] = some _ := rfl
  refine ⟨_, hrun, (recalled_line_iff hrun ⟨?_, ?_, ?_, ?_⟩).mpr ?_⟩
  all_goals decide +kernel

/-- `x`, DOWN and Enter give the line `xa`. -/
theorem recall_keeps_typed : ¬∀ (es : List RecallEvent) x line,
    run recallNoted readingAfterA es = some x → Entered x line → line = lineOf 8 x.2.since := by
  intro hall
  have hrun : run recallNoted readingAfterA
      [.type 120, .arrow .next 0, .type 10, .take, .take, .take] = some _ := rfl
  refine absurd (hall _ _ [120, 97, 13, 10] hrun ⟨?_, ?_, ?_, ?_⟩) ?_
  all_goals decide +kernel

end Wjos
