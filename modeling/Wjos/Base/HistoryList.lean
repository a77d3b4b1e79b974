/-
Wjos.Base.HistoryList — the ring of a console's history as a list.

`Represents h l` says that the ring holds the commands `l`, newest first, each
with the time it was given, and that the other entries are empty. `addList` is
what `add` does to that list, for commands that fit an entry: the command is
compared with the entry before the newest one, so it is left out when it
equals the second newest and stored again when it equals the newest.
`remember` is the list that a history is for: a command that equals the newest
one only renews its time. `add_refines_iff` compares the two along a run.
-/
import Wjos.Base.HistoryCmd
import Wjos.Lib.Recent
import Wjos.Lib.Run

namespace Wjos

open Lib

/-- A command as the shell saves it: not empty, and short enough for an
entry with its NUL. -/
structure Command extends CStr where
  nonempty : chars ≠ []
  fits : chars.length < cliInputSize

theorem Command.ext_chars {c c' : Command} (h : c.chars = c'.chars) : c = c' := by
  obtain ⟨⟨chars, _⟩, _, _⟩ := c
  obtain ⟨⟨chars', _⟩, _, _⟩ := c'
  obtain rfl : chars = chars' := h
  rfl

instance : DecidableEq Command := fun c c' =>
  decidable_of_iff (c.chars = c'.chars) ⟨Command.ext_chars, fun h => h ▸ rfl⟩

/-! ## Strings in memory -/

/-- `s` begins with the characters `l` and a NUL. -/
def IsStr (s : Nat → UInt8) (l : List UInt8) : Prop := ∀ k ≤ l.length, s k = l.getD k 0

theorem isStr_cons {s : Nat → UInt8} {c : UInt8} {l : List UInt8} :
    IsStr s (c :: l) ↔ s 0 = c ∧ IsStr (fun i => s (i + 1)) l := by
  constructor
  · intro h
    exact ⟨h 0 (Nat.zero_le _), fun k hk => h (k + 1) (by simpa using hk)⟩
  · rintro ⟨h0, h⟩ k hk
    cases k with
    | zero => exact h0
    | succ k => exact h k (by simpa using hk)

/-- The comparison finds exactly the equal string. -/
theorem kernelAllStrcmp_eq_zero {s : Nat → UInt8} {l : List UInt8} (h : ∀ c ∈ l, c ≠ 0) :
    kernelAllStrcmp s l = 0 ↔ IsStr s l := by
  have hval : ∀ a b : UInt8, a.toInt8.toInt - b.toInt8.toInt = 0 ↔ a = b := fun a b => by
    rw [Int.sub_eq_zero, Int8.toInt_inj]
    exact ⟨congrArg Int8.toUInt8, congrArg UInt8.toInt8⟩
  induction l generalizing s with
  | nil =>
    have h0 := hval (s 0) 0
    simp only [kernelAllStrcmp, IsStr, List.length_nil, Nat.le_zero, forall_eq, List.getD_nil]
    rw [← h0]
    simp
  | cons c l ih =>
    have hc : c ≠ 0 := h c List.mem_cons_self
    rw [kernelAllStrcmp, isStr_cons]
    by_cases he : s 0 = c
    · have htail := ih (s := fun i => s (i + 1)) fun c' hc' => h c' (List.mem_cons_of_mem c hc')
      rw [if_pos ⟨he ▸ hc, he⟩]
      exact htail.trans (by simp [he])
    · rw [if_neg fun h' => he h'.2, hval]
      simp [he]

/-- Memory holds one string at a place. -/
theorem IsStr.unique {s : Nat → UInt8} {l l' : List UInt8} (h : IsStr s l) (h' : IsStr s l')
    (hl : ∀ c ∈ l, c ≠ 0) (hl' : ∀ c ∈ l', c ≠ 0) : l = l' := by
  induction l generalizing s l' with
  | nil =>
    cases l' with
    | nil => rfl
    | cons c' l' =>
      have h0 := (isStr_cons.mp h').1
      exact absurd (h0.symm.trans (h 0 (Nat.le_refl 0))) (hl' c' List.mem_cons_self)
  | cons c l ih =>
    cases l' with
    | nil =>
      have h0 := (isStr_cons.mp h).1
      exact absurd (h0.symm.trans (h' 0 (Nat.le_refl 0))) (hl c List.mem_cons_self)
    | cons c' l' =>
      obtain ⟨h0, ht⟩ := isStr_cons.mp h
      obtain ⟨h0', ht'⟩ := isStr_cons.mp h'
      rw [ih ht ht' (fun a ha => hl a (List.mem_cons_of_mem c ha))
        (fun a ha => hl' a (List.mem_cons_of_mem c' ha)), ← h0, h0']

/-! ## Entries -/

/-- Entry `j` holds the command `e.2` given at the time `e.1`. -/
structure HoldsCommand (m : Int → UInt8) (j : Nat) (e : Nat × Command) : Prop where
  time : ∀ k : Nat, k < 8 → m (entryAt j + k) = timeByte e.1 k
  str : IsStr (fun k => m (cmdAt j + k)) e.2.chars

/-- Entry `j` holds no command. -/
def EmptyEntry (m : Int → UInt8) (j : Nat) : Prop := m (cmdAt j) = 0

/-- Memory that is the same in entry `j`. -/
def SameEntry (m m' : Int → UInt8) (j : Nat) : Prop :=
  ∀ a, entryAt j ≤ a → a < entryAt (j + 1) → m' a = m a

theorem HoldsCommand.congr {m m' : Int → UInt8} {j : Nat} {e : Nat × Command}
    (h : HoldsCommand m j e)
    (hs : SameEntry m m' j) : HoldsCommand m' j e := by
  refine ⟨fun k hk => ?_, fun k hk => ?_⟩
  · rw [hs _ (by omega) (by unfold entryAt; omega)]
    exact h.time k hk
  · have hfits := e.2.fits
    rw [cliInputSize] at hfits
    dsimp only
    rw [hs _ (by unfold cmdAt; omega) (by unfold cmdAt entryAt; omega)]
    exact h.str k hk

theorem EmptyEntry.congr {m m' : Int → UInt8} {j : Nat} (h : EmptyEntry m j)
    (hs : SameEntry m m' j) :
    EmptyEntry m' j := by
  have := hs (cmdAt j) (by unfold cmdAt; omega) (by unfold cmdAt entryAt; omega)
  exact this.trans h

/-- An entry holds one command. -/
theorem HoldsCommand.unique {m : Int → UInt8} {j : Nat} {e e' : Nat × Command}
    (h : HoldsCommand m j e)
    (h' : HoldsCommand m j e') : e.2 = e'.2 :=
  Command.ext_chars (h.str.unique h'.str e.2.nonNul e'.2.nonNul)

/-- An entry that holds a command is not free. -/
theorem HoldsCommand.not_empty {m : Int → UInt8} {j : Nat} {e : Nat × Command}
    (h : HoldsCommand m j e) :
    ¬EmptyEntry m j := by
  intro hf
  obtain ⟨c, l, hl⟩ := List.exists_cons_of_ne_nil e.2.nonempty
  have h0 := h.str
  rw [hl, isStr_cons] at h0
  have hc : c ≠ 0 := e.2.nonNul c (hl ▸ List.mem_cons_self)
  refine hc (h0.1.symm.trans ?_)
  simpa [EmptyEntry] using hf

/-! ## The list of a ring -/

/-- The ring holds the commands `l`, newest first. -/
structure Represents (h : CmdHistory) (l : List (Nat × Command)) : Prop where
  idx_nonneg : 0 ≤ h.hisIdx
  ring : RecentHolds 100 h.hisIdx.toNat (HoldsCommand h.mem) (EmptyEntry h.mem) l

namespace Represents

variable {h : CmdHistory} {l l' : List (Nat × Command)}

theorem newIdx_eq (hr : Represents h l) : h.newIdx = nextSlot 100 h.hisIdx.toNat := by
  have h0 := hr.idx_nonneg
  unfold CmdHistory.newIdx nextSlot maxSaveCmdsNr
  split <;> split <;> omega

/-- The entry compared is that of the second newest command. -/
theorem peekPreCmd_eq (hr : Represents h l) :
    h.peekPreCmd = recentSlot 100 h.hisIdx.toNat 1 := by
  have h0 := hr.idx_nonneg
  unfold CmdHistory.peekPreCmd recentSlot maxSaveCmdsNr
  split <;> split <;> omega

/-- The commands of the list are determined by the ring. -/
theorem unique (hr : Represents h l) (hr' : Represents h l') :
    l.map Prod.snd = l'.map Prod.snd := by
  have hmap : ∀ {l l' : List (Nat × Command)}, Represents h l → Represents h l' →
      ∀ k (hk : k < l.length), ∃ hk' : k < l'.length, l[k].2 = l'[k].2 := by
    intro l l' hr hr' k hk
    have hheld := hr.ring.held k hk
    have hle := hr.ring.le
    have hk' : k < l'.length := by
      by_contra hge
      exact hheld.not_empty (hr'.ring.rest k (by omega) (by omega))
    exact ⟨hk', hheld.unique (hr'.ring.held k hk')⟩
  have hlen : l.length = l'.length := by
    rcases Nat.lt_trichotomy l.length l'.length with hlt | heq | hgt
    · obtain ⟨hk, -⟩ := hmap hr' hr l.length hlt
      omega
    · exact heq
    · obtain ⟨hk, -⟩ := hmap hr hr' l'.length hgt
      omega
  refine List.ext_getElem (by simpa using hlen) fun k hk _ => ?_
  rw [List.length_map] at hk
  obtain ⟨hk', he⟩ := hmap hr hr' k hk
  rw [List.getElem_map, List.getElem_map, he]

/-- The newest command lies in the entry of the index. -/
theorem newest (hr : Represents h l) {e : Nat × Command} (he : l.head? = some e) :
    HoldsCommand h.mem h.hisIdx.toNat e := by
  cases l with
  | nil => exact absurd he (by simp)
  | cons a l =>
    obtain rfl : a = e := by simpa using he
    have hheld := hr.ring.held 0 (by simp)
    rwa [recentSlot_zero] at hheld

/-- The comparison of `add` finds the second newest command. -/
theorem compare_iff (hr : Represents h l) (c : Command) :
    kernelAllStrcmp (h.cmd h.peekPreCmd) c.chars = 0 ↔ ∃ hk : 1 < l.length, l[1].2 = c := by
  rw [kernelAllStrcmp_eq_zero c.nonNul, hr.peekPreCmd_eq]
  constructor
  · intro hstr
    by_cases hk : 1 < l.length
    · have hheld := hr.ring.held 1 hk
      exact ⟨hk, Command.ext_chars (hheld.str.unique hstr l[1].2.nonNul c.nonNul)⟩
    · -- a command is not the empty string
      exfalso
      have hfree := hr.ring.rest 1 (by omega) (by omega)
      obtain ⟨a, chars, hl⟩ := List.exists_cons_of_ne_nil c.nonempty
      have ha : a ≠ 0 := c.nonNul a (hl ▸ List.mem_cons_self)
      rw [hl, isStr_cons] at hstr
      refine ha (hstr.1.symm.trans ?_)
      simpa [CmdHistory.cmd, EmptyEntry] using hfree
  · rintro ⟨hk, rfl⟩
    exact (hr.ring.held 1 hk).str

end Represents

/-! ## What add does to the list -/

/-- `add` on the list: the second newest command decides. -/
def addList (l : List (Nat × Command)) (t : Nat) (c : Command) : List (Nat × Command) :=
  if ∃ hk : 1 < l.length, l[1].2 = c then l.set 1 (t, c) else ((t, c) :: l).take 100

/-- A byte inside another entry is not in this one. -/
theorem sameEntry_of_ne {m m' : Int → UInt8} {i : Int} {j : Nat} (hne : (j : Int) ≠ i)
    (hs : ∀ a, ¬(entryAt i ≤ a ∧ a < entryAt (i + 1)) → m' a = m a) : SameEntry m m' j := by
  intro a h₁ h₂
  refine hs a fun h => hne ?_
  unfold entryAt at *
  omega

theorem setTime_of_not_mem {m : Int → UInt8} {i : Int} {t : Nat} {a : Int}
    (h : ¬(entryAt i ≤ a ∧ a < cmdAt i)) : setTime m i t a = m a := if_neg h

theorem setTime_time (m : Int → UInt8) (i : Int) (t : Nat) {k : Nat} (hk : k < 8) :
    setTime m i t (entryAt i + k) = timeByte t k := by
  have hin : entryAt i ≤ entryAt i + k ∧ entryAt i + k < cmdAt i := by
    unfold cmdAt
    omega
  have hsub : (entryAt i + k - entryAt i).toNat = k := by omega
  rw [setTime, if_pos hin, hsub]

/-- A command written into a cleared entry. -/
theorem holds_new (m : Int → UInt8) (j : Nat) (t : Nat) (c : Command) :
    HoldsCommand (copyChars (setTime (CmdHistory.historyCommandInit m j) j t) (cmdAt j) c.chars) j
      (t, c) := by
  have hfits := c.fits
  rw [cliInputSize] at hfits
  refine ⟨fun k hk => ?_, fun k hk => ?_⟩
  · have hbefore : ¬(cmdAt j ≤ entryAt j + k ∧ entryAt j + k < cmdAt j + c.chars.length) := by
      unfold cmdAt
      omega
    rw [copyChars, if_neg hbefore, setTime_time _ _ _ hk]
  · have hsub : (cmdAt j + k - cmdAt j).toNat = k := by omega
    dsimp only [copyChars]
    split
    · rw [hsub]
    next hend =>
      -- the NUL comes from the clearing
      have hlen : k = c.chars.length := by
        dsimp only at hk
        omega
      have htime : ¬(entryAt j ≤ cmdAt j + k ∧ cmdAt j + k < cmdAt j) := by omega
      have hfill : cmdAt j ≤ cmdAt j + (k : Int) ∧
          cmdAt j + (k : Int) < cmdAt j + cliInputSize := by
        rw [cliInputSize]
        omega
      rw [setTime_of_not_mem htime, CmdHistory.historyCommandInit, fill, if_pos hfill, hlen,
        List.getD_eq_getElem?_getD, List.getElem?_eq_none (Nat.le_refl _), Option.getD_none]

/-- A command that fits stays in its entry. -/
theorem new_of_not_mem (m : Int → UInt8) (i : Int) (t : Nat) {chars : List UInt8}
    (hfits : chars.length ≤ cliInputSize) {a : Int} (ha : ¬(entryAt i ≤ a ∧ a < entryAt (i + 1))) :
    copyChars (setTime (CmdHistory.historyCommandInit m i) i t) (cmdAt i) chars a = m a := by
  rw [cliInputSize] at hfits
  unfold entryAt at ha
  unfold copyChars setTime CmdHistory.historyCommandInit fill setTime cmdAt entryAt cliInputSize
  rw [if_neg (by omega), if_neg (by omega), if_neg (by omega), if_neg (by omega)]

/-- A new time for a command that an entry holds. -/
theorem HoldsCommand.setTime {m : Int → UInt8} {j : Nat} {e : Nat × Command}
    (h : HoldsCommand m j e) (t : Nat) :
    HoldsCommand (setTime m j t) j (t, e.2) := by
  refine ⟨fun k hk => setTime_time m j t hk, fun k hk => ?_⟩
  have hout : ¬(entryAt j ≤ cmdAt j + k ∧ cmdAt j + k < cmdAt j) := by omega
  dsimp only
  rw [setTime_of_not_mem hout]
  exact h.str k hk

/-- A new time stays in its entry. -/
theorem setTime_sameEntry {m : Int → UInt8} {i j : Nat} {t : Nat} (hne : j ≠ i) :
    SameEntry m (Wjos.setTime m i t) j := by
  refine sameEntry_of_ne (i := i) (by omega) fun a ha => setTime_of_not_mem fun h => ha ?_
  unfold cmdAt at h
  unfold entryAt at *
  omega

/-- A new command stays in its entry. -/
theorem new_sameEntry {m : Int → UInt8} {i j : Nat} {t : Nat} {c : Command} (hne : j ≠ i) :
    SameEntry m (copyChars (Wjos.setTime (CmdHistory.historyCommandInit m i) i t) (cmdAt i) c.chars)
      j :=
  sameEntry_of_ne (i := i) (by omega) fun _ ha =>
    new_of_not_mem m i t (Nat.le_of_lt c.fits) ha

theorem Represents.add {h : CmdHistory} {l : List (Nat × Command)} (hr : Represents h l) (t : Nat)
    (c : Command) : Represents (h.add t c.toCStr) (addList l t c) := by
  unfold CmdHistory.add addList
  by_cases hsame : ∃ hk : 1 < l.length, l[1].2 = c
  · rw [if_pos ((hr.compare_iff c).mpr hsame), if_pos hsame]
    obtain ⟨hk, rfl⟩ := hsame
    rw [hr.peekPreCmd_eq]
    exact ⟨hr.idx_nonneg, hr.ring.set hk ((hr.ring.held 1 hk).setTime t)
      (fun j _ hj e he => he.congr (setTime_sameEntry hj))
      (fun j _ hj he => he.congr (setTime_sameEntry hj))⟩
  · rw [if_neg fun he => hsame ((hr.compare_iff c).mp he), if_neg hsame]
    dsimp only
    rw [hr.newIdx_eq]
    refine ⟨Int.natCast_nonneg _, ?_⟩
    rw [Int.toNat_natCast]
    exact hr.ring.push (holds_new h.mem _ t c)
      (fun j _ hj e he => he.congr (new_sameEntry hj))
      (fun j _ hj he => he.congr (new_sameEntry hj))

/-- Clearing the entries one after the other leaves them free. -/
theorem empty_of_clear (m : Int → UInt8) (n : Nat) {j : Nat} (hj : j < n) :
    EmptyEntry
      ((List.range n).foldl (fun m (i : Nat) => CmdHistory.historyCommandInit m i) m) j := by
  induction n with
  | zero => exact absurd hj (Nat.not_lt_zero j)
  | succ n ih =>
    rw [List.range_succ, List.foldl_append, List.foldl_cons, List.foldl_nil]
    by_cases hn : j = n
    · subst hn
      exact if_pos ⟨Int.le_refl _, by rw [cliInputSize]; omega⟩
    · refine (ih (by omega)).congr (sameEntry_of_ne (i := n) (by omega) fun a ha => ?_)
      unfold entryAt at ha
      unfold CmdHistory.historyCommandInit fill setTime cmdAt entryAt cliInputSize
      rw [if_neg (by omega), if_neg (by omega)]

/-- A new console has no commands. -/
theorem init_represents (m : Int → UInt8) : Represents (CmdHistory.init m) [] := by
  have hidx : (CmdHistory.init m).hisIdx = (99 : Nat) := rfl
  refine ⟨by rw [hidx]; exact Int.natCast_nonneg 99, ?_⟩
  rw [hidx, Int.toNat_natCast]
  exact ⟨by decide, Nat.zero_le 100, fun k hk => absurd hk (Nat.not_lt_zero k),
    fun k _ hk => empty_of_clear m 100 (recentSlot_lt (by decide) hk)⟩

/-! ## The list a history is for -/

/-- A command that equals the newest one renews its time, another one is put
before it; a hundred are kept. -/
def remember (l : List (Nat × Command)) (t : Nat) (c : Command) : List (Nat × Command) :=
  if ∃ hk : 0 < l.length, l[0].2 = c then l.set 0 (t, c) else ((t, c) :: l).take 100

/-- The newest command is the one just given. -/
theorem remember_head (l : List (Nat × Command)) (t : Nat) (c : Command) :
    (remember l t c).head? = some (t, c) := by
  unfold remember
  split
  next h =>
    obtain ⟨hk, -⟩ := h
    obtain ⟨a, l', rfl⟩ := List.exists_cons_of_length_pos hk
    rfl
  · rfl

/-- The two newest commands differ. -/
def NewestDiffer (l : List (Nat × Command)) : Prop :=
  ∀ hk : 1 < l.length, l[0].2 ≠ l[1].2

theorem remember_newestDiffer {l : List (Nat × Command)} (h : NewestDiffer l) (t : Nat)
    (c : Command) : NewestDiffer (remember l t c) := by
  unfold remember
  split
  next hsame =>
    obtain ⟨hk, rfl⟩ := hsame
    intro hk₁
    rw [List.length_set] at hk₁
    simpa using h hk₁
  next hnew =>
    intro hk₁ he
    rw [List.length_take, List.length_cons] at hk₁
    refine hnew ⟨by omega, ?_⟩
    simpa using he.symm

/-- `add` keeps the list right exactly for a command that is neither the
newest nor the second newest. -/
theorem add_represents_iff {h : CmdHistory} {l : List (Nat × Command)} (hr : Represents h l)
    (hd : NewestDiffer l) (t : Nat) (c : Command) :
    Represents (h.add t c.toCStr) (remember l t c) ↔ c ∉ (l.take 2).map Prod.snd := by
  have hadd := hr.add t c
  rcases l with _ | ⟨a, _ | ⟨b, rest⟩⟩
  · exact iff_of_true (by simpa [addList, remember] using hadd) (by simp)
  · by_cases ha : a.2 = c
    · -- the only command is stored a second time
      refine iff_of_false (fun hrem => ?_) (by simp [ha])
      have hlists := hadd.unique hrem
      simp [addList, remember, ha] at hlists
    · refine iff_of_true ?_ (by simpa using Ne.symm ha)
      simpa [addList, remember, ha] using hadd
  · have hab : a.2 ≠ b.2 := hd (by simp)
    by_cases hb : b.2 = c
    · -- the command is not stored, and the newest one is another
      refine iff_of_false (fun hrem => ?_) (by simp [hb])
      have hlists := hadd.unique hrem
      have ha : a.2 ≠ c := hb ▸ hab
      simp [addList, remember, hb, ha] at hlists
    by_cases ha : a.2 = c
    · -- the newest command is stored a second time
      refine iff_of_false (fun hrem => ?_) (by simp [ha])
      have hlists := hadd.unique hrem
      simp [addList, remember, hb, ha, Ne.symm hb] at hlists
    · refine iff_of_true ?_ (by simp [Ne.symm ha, Ne.symm hb])
      simpa [addList, remember, ha, hb] using hadd

/-! ## Runs -/

/-- A command is added, to the ring and to the list it stands for. -/
def historyStep (s : CmdHistory × List (Nat × Command)) (e : Nat × Command) :
    Option (CmdHistory × List (Nat × Command)) :=
  some (s.1.add e.1 e.2.toCStr, remember s.2 e.1 e.2)

/-- No command equals one of the two before it; `prev` are the earlier
commands, the last one first. -/
def FarApart : (prev : List Command) → List Command → Prop
  | _, [] => True
  | prev, c :: cs => c ∉ prev.take 2 ∧ FarApart (c :: prev) cs

/-- A command that is not the newest one is put before it. -/
theorem remember_of_not_mem {l : List (Nat × Command)} {t : Nat} {c : Command}
    (h : c ∉ (l.take 2).map Prod.snd) : remember l t c = ((t, c) :: l).take 100 := by
  refine if_neg ?_
  rintro ⟨hk, rfl⟩
  obtain ⟨a, l', rfl⟩ := List.exists_cons_of_length_pos hk
  exact h (by simp)

/-- The condition along a run is one on the commands alone. -/
theorem along_iff_farApart {s : CmdHistory × List (Nat × Command)} {prev : List Command}
    (h : (s.2.take 2).map Prod.snd = prev.take 2) (es : List (Nat × Command)) :
    Along historyStep (fun s e => e.2 ∉ (s.2.take 2).map Prod.snd) s es ↔
      FarApart prev (es.map Prod.snd) := by
  induction es generalizing s prev with
  | nil => exact Iff.rfl
  | cons e es ih =>
    rw [along_cons, h]
    refine and_congr_right fun hfar => ?_
    have hnext : ((remember s.2 e.1 e.2).take 2).map Prod.snd = (e.2 :: prev).take 2 := by
      rw [remember_of_not_mem (h ▸ hfar), List.take_take]
      have hone : (s.2.take 1).map Prod.snd = prev.take 1 := by
        have := congrArg (List.take 1) h
        simpa [List.take_take, ← List.map_take] using this
      simp [hone]
    have hrest := ih (s := (s.1.add e.1 e.2.toCStr, remember s.2 e.1 e.2)) hnext
    exact ⟨fun hall => hrest.mp (hall _ rfl), fun hfit s' hs' => by
      obtain rfl := Option.some.inj hs'
      exact hrest.mpr hfit⟩

/-- The ring stands for the list after the commands `fs`, and the newest
entry is the command added last. -/
structure Remembers (s : CmdHistory × List (Nat × Command)) (fs : List (Nat × Command)) :
    Prop where
  ring : Represents s.1 s.2
  newest : ∀ e ∈ fs.getLast?, HoldsCommand s.1.mem s.1.hisIdx.toNat e

theorem remembers_of_represents {s s₀ : CmdHistory × List (Nat × Command)}
    {fs : List (Nat × Command)} (hrun : run historyStep s₀ fs = some s)
    (h : Represents s.1 s.2) : Remembers s fs := by
  refine ⟨h, fun e he => ?_⟩
  rcases List.eq_nil_or_concat fs with rfl | ⟨fs', e', rfl⟩
  · exact absurd he (by simp)
  · rw [List.concat_eq_append] at he hrun
    obtain rfl : e' = e := by simpa using he
    obtain ⟨u, -, hs⟩ := run_concat.mp hrun
    obtain rfl := Option.some.inj hs
    exact h.newest (remember_head u.2 e'.1 e'.2)

/-! ## Long commands -/

/-- The entry that `add` writes to. -/
def CmdHistory.addEntry (h : CmdHistory) (c : CStr) : Int :=
  if kernelAllStrcmp (h.cmd h.peekPreCmd) c.chars = 0 then h.peekPreCmd else h.newIdx

/-- From no state does `add` change a byte outside that entry. -/
def WritesInside (c : CStr) : Prop :=
  ∀ (h : CmdHistory) (t : Nat) (a : Int),
    ¬(entryAt (h.addEntry c) ≤ a ∧ a < entryAt (h.addEntry c + 1)) → (h.add t c).mem a = h.mem a

theorem writesInside_iff (c : CStr) : WritesInside c ↔ c.chars.length ≤ cliInputSize := by
  constructor
  · intro h
    by_contra hlong
    rw [cliInputSize] at hlong
    -- a cleared memory, where the character behind the entry shows
    let h₀ : CmdHistory := { hisIdx := 99, currHisIdx := 99, mem := fun _ => 0 }
    have hne : ¬kernelAllStrcmp (h₀.cmd h₀.peekPreCmd) c.chars = 0 := by
      rw [kernelAllStrcmp_eq_zero c.nonNul]
      intro hstr
      obtain ⟨a, l, hl⟩ := List.exists_cons_of_length_pos (by omega : 0 < c.chars.length)
      rw [hl, isStr_cons] at hstr
      exact c.nonNul a (hl ▸ List.mem_cons_self) hstr.1.symm
    have hsame := h h₀ 0 136 (by
      unfold CmdHistory.addEntry
      rw [if_neg hne]
      decide)
    unfold CmdHistory.add at hsame
    rw [if_neg hne] at hsame
    have hin : cmdAt h₀.newIdx ≤ 136 ∧ (136 : Int) < cmdAt h₀.newIdx + c.chars.length := by
      have h0 : cmdAt h₀.newIdx = 8 := by decide
      rw [h0]
      omega
    have hchar : c.chars.getD 128 0 = 0 := by
      simp only [copyChars, if_pos hin] at hsame
      exact hsame
    rw [List.getD_eq_getElem?_getD, List.getElem?_eq_getElem (by omega)] at hchar
    exact c.nonNul _ (List.getElem_mem _) hchar
  · intro hfits h t a ha
    unfold CmdHistory.addEntry at ha
    unfold CmdHistory.add
    by_cases hsame : kernelAllStrcmp (h.cmd h.peekPreCmd) c.chars = 0
    · rw [if_pos hsame] at ha ⊢
      refine setTime_of_not_mem fun h' => ha ?_
      unfold cmdAt at h'
      unfold entryAt at *
      omega
    · rw [if_neg hsame] at ha ⊢
      exact new_of_not_mem h.mem _ t hfits ha

/-- Along every sequence of commands that fit an entry the ring stands for the
list it should, exactly when no command equals one of the two before it; and
of the longer commands only those of `CLI_INPUT_SIZE` characters stay in their
entry. -/
theorem add_refines_iff (m : Int → UInt8) (es : List (Nat × Command)) (c : CStr) :
    ((∀ fs s, fs <+: es → run historyStep (CmdHistory.init m, []) fs = some s →
        Remembers s fs) ↔ FarApart [] (es.map Prod.snd)) ∧
    (cliInputSize ≤ c.chars.length → (WritesInside c ↔ c.chars.length = cliInputSize)) := by
  constructor
  · have hstep : ∀ (s : CmdHistory × List (Nat × Command)) e s', NewestDiffer s.2 →
        Represents s.1 s.2 → historyStep s e = some s' →
        NewestDiffer s'.2 ∧ (Represents s'.1 s'.2 ↔ e.2 ∉ (s.2.take 2).map Prod.snd) := by
      intro s e s' hd hr hs
      obtain rfl := Option.some.inj hs
      exact ⟨remember_newestDiffer hd e.1 e.2, add_represents_iff hr hd e.1 e.2⟩
    have hfar : ∀ s : CmdHistory × List (Nat × Command), s.2 = [] →
        (Along historyStep (fun s e => e.2 ∉ (s.2.take 2).map Prod.snd) s es ↔
          FarApart [] (es.map Prod.snd)) := fun s hs => along_iff_farApart (by simp [hs]) es
    have hempty : NewestDiffer (CmdHistory.init m, ([] : List (Nat × Command))).2 :=
      fun hk => absurd hk (Nat.not_lt_zero 1)
    rw [← hfar (CmdHistory.init m, []) rfl,
      ← always_iff_along (fun s e hs => absurd hs (by simp [historyStep])) hstep hempty
        (init_represents m)]
    exact ⟨fun h fs s hp hrun => (h fs s hp hrun).ring,
      fun h fs s hp hrun => remembers_of_represents hrun (h fs s hp hrun)⟩
  · intro hlong
    rw [writesInside_iff]
    omega

/-- A command of 128 characters fills its entry. -/
theorem add_refines_iff_full :
    WritesInside ⟨List.replicate 128 97, fun _ hc => List.eq_of_mem_replicate hc ▸ by decide⟩ :=
  ((add_refines_iff (fun _ => 0) [] _).2 (by simp [cliInputSize])).mpr (by simp [cliInputSize])

/-- The command `a`. -/
def commandA : Command where
  chars := [97]
  nonNul := by simp
  nonempty := by decide
  fits := by decide

/-- The same command twice is stored twice. -/
theorem add_stores_repeat : ¬∀ (m : Int → UInt8) (es : List (Nat × Command)) fs s,
    fs <+: es → run historyStep (CmdHistory.init m, []) fs = some s → Remembers s fs := by
  intro h
  have hone := (h (fun _ => 0) [(1, commandA)] _ _ List.prefix_rfl rfl).ring
  have htwo := (h (fun _ => 0) [(1, commandA), (2, commandA)] _ _ List.prefix_rfl rfl).ring
  have hdiffer : NewestDiffer (remember [] 1 commandA) := fun hk => absurd hk (by decide)
  exact (add_represents_iff hone hdiffer 2 commandA).mp htwo (by decide)

end Wjos
