/-
Wjos.Core.CopyUvm — the loops of `memory_copy_uvm` of `kernel/core/memory.c`,
over every address space and every number of free frames.

`uvmAllocs` lists the kinds of frame in the order in which the copy takes
them: the directory, and for a table with pages first a page, then the table,
then the other pages.

While the copy is built, `use k` says what frame `k` is for; `UvmLinked` ties
these uses to the map, to the entries and to the bytes. A frame that has been
taken and not linked yet is `spare`. It is one for a moment only, but
`find_pte` may fail in that moment: the data page is taken before its table.
-/
import Wjos.Core.Uvm

namespace Wjos

open Lib

/-! ## The frames of a copy -/

/-- What a frame is taken for. -/
inductive FrameKind where
  | dir
  | table
  | page
  deriving DecidableEq, Repr

/-- The frames that the copy of a table with `n` pages takes, in order. -/
def tableAllocs : Nat → List FrameKind
  | 0 => []
  | n + 1 => .page :: .table :: List.replicate n .page

/-- The frames that `memory_copy_uvm` takes, in order. -/
def uvmAllocs (mem : Nat → UInt8) (pageDir : Nat) : List FrameKind :=
  .dir :: userPdes.flatMap fun i => tableAllocs (tablePages mem pageDir i).length

section Allocs

variable {mem : Nat → UInt8} {pageDir : Nat}

/-- Only the tables that are there need frames. -/
theorem flatMap_tableAllocs {is : List Nat} :
    (is.flatMap fun i => tableAllocs (tablePages mem pageDir i).length) =
      (is.filter fun i => entryPresent (uvmPde mem pageDir i)).flatMap fun i =>
        tableAllocs (tablePages mem pageDir i).length := by
  induction is with
  | nil => rfl
  | cons i is ih =>
    rw [List.flatMap_cons, ih, List.filter_cons]
    split
    next hp => rfl
    next hp =>
      rw [tablePages_absent (by simpa using hp)]
      rfl

end Allocs

/-! ## A copy being built -/

/-- What a frame of the copy is for. -/
inductive FrameUse where
  | spare
  | dir
  | table (i : Nat)
  | page (i j : Nat)
  deriving DecidableEq, Repr

/-- The entry `v` leads to the frame used as `u`, or is empty where there is none. -/
def Leads (use : Nat → Option FrameUse) (u : FrameUse) (flags v : Nat) : Prop :=
  (∀ k, use k = some u → v = frameAddr k + flags) ∧ ((∀ k, use k ≠ some u) → v = 0)

/-- What lies in frame `k`, used as `u`, in a copy of the address space `pageDir` of `m₀`. -/
def FrameHolds (m₀ : PhysMem) (pageDir : Nat) (use : Nat → Option FrameUse) (mem : Nat → UInt8)
    (k : Nat) : FrameUse → Prop
  | .spare => True
  | .dir => (∀ i < 512, uvmPde mem (frameAddr k) i = uvmPde m₀.mem m₀.kernelPageDir i) ∧
      ∀ i, 512 ≤ i → i < 1024 → Leads use (.table i) 7 (uvmPde mem (frameAddr k) i)
  | .table i => ∀ j < 1024, Leads use (.page i j) (getPtePerm (uvmPte m₀.mem pageDir i j))
      (le32 mem (frameAddr k + 4 * j))
  | .page i j => ∀ o < 4096,
      mem (frameAddr k + o) = m₀.mem (entryPaddr (uvmPte m₀.mem pageDir i j) + o)

/-- Two memories that differ in the frames of the copy only. -/
def SameOutside (use : Nat → Option FrameUse) (mem mem' : Nat → UInt8) : Prop :=
  ∀ a, (∀ k, (use k).isSome → ¬InFrame k a) → mem a = mem' a

/-- The frames in use are new, those of `m₀` are as they were. -/
structure UvmLinked (m₀ : PhysMem) (pageDir : Nat) (use : Nat → Option FrameUse) (m : PhysMem) :
    Prop where
  ok : PhysOk m
  frames : m.frames = m₀.frames
  kernelPageDir : m.kernelPageDir = m₀.kernelPageDir
  used : ∀ k, m.used k = (m₀.used k || (use k).isSome)
  fresh : ∀ k u, use k = some u → k < m₀.frames ∧ m₀.used k = false
  unique : ∀ j k u, use j = some u → use k = some u → u ≠ .spare → j = k
  old : SameOutside use m.mem m₀.mem
  holds : ∀ k u, use k = some u → FrameHolds m₀ pageDir use m.mem k u

/-- A frame without an entry that leads to it. -/
def Unlinked (use : Nat → Option FrameUse) (k : Nat) : Prop := use k = none ∨ use k = some .spare

section UvmLinked

variable {m₀ m : PhysMem} {pageDir k x : Nat} {use : Nat → Option FrameUse} {u v : FrameUse}
  {mem mem' : Nat → UInt8}

theorem Leads.update {flags e : Nat} (h : Leads use u flags e) (hx : Unlinked use x)
    (huv : u ≠ v) (hu : u ≠ .spare) : Leads (Function.update use x (some v)) u flags e := by
  have hiff : ∀ k, Function.update use x (some v) k = some u ↔ use k = some u := by
    intro k
    by_cases hk : k = x
    · subst hk
      rcases hx with hx | hx <;> simp [hx, Ne.symm huv, Ne.symm hu]
    · rw [Function.update_of_ne hk]
  exact ⟨fun k hk => h.1 k ((hiff k).mp hk), fun hn => h.2 fun k hk => hn k ((hiff k).mpr hk)⟩

/-- A frame that no store has reached, and none of whose entries is about `v`. -/
theorem FrameHolds.frame (h : FrameHolds m₀ pageDir use mem k u) (hx : Unlinked use x)
    (hdir : ∀ i, u = .dir → v ≠ .table i) (htab : ∀ i j, u = .table i → v ≠ .page i j)
    (hmem : ∀ o < 4096, mem' (frameAddr k + o) = mem (frameAddr k + o)) :
    FrameHolds m₀ pageDir (Function.update use x (some v)) mem' k u := by
  have hword : ∀ i < 1024, le32 mem' (frameAddr k + 4 * i) = le32 mem (frameAddr k + 4 * i) := by
    intro i hi
    refine le32_congr fun o ho => ?_
    rw [Nat.add_assoc]
    exact hmem _ (by omega)
  cases u with
  | spare => trivial
  | dir =>
    refine ⟨fun i hi => (hword i (by omega)).trans (h.1 i hi), fun i hlo hhi => ?_⟩
    rw [uvmPde, hword i hhi]
    exact (h.2 i hlo hhi).update hx (hdir i rfl).symm (by simp)
  | table i =>
    intro j hj
    rw [hword j hj]
    exact (h j hj).update hx (htab i j rfl).symm (by simp)
  | page i j => exact fun o ho => (hmem o ho).trans (h o ho)

/-- A free frame taken. -/
theorem UvmLinked.take (h : UvmLinked m₀ pageDir use m) (hk : k < m.frames)
    (hfree : m.used k = false) :
    UvmLinked m₀ pageDir (Function.update use k (some .spare)) (m.mark k (~~~0)) := by
  have hused := h.used k
  rw [hfree] at hused
  simp only [Bool.false_eq, Bool.or_eq_false_iff, Option.isSome_eq_false_iff,
    Option.isNone_iff_eq_none] at hused
  have hother : ∀ j, j ≠ k → Function.update use k (some FrameUse.spare) j = use j :=
    fun j hj => Function.update_of_ne hj ..
  refine ⟨h.ok.mark, mark_frames.trans h.frames, h.kernelPageDir, ?_, ?_, ?_, ?_, ?_⟩
  · intro j
    rw [mark_used hk]
    by_cases hj : j = k
    · simp [hj, show ¬ ~~~(0 : Int) = 0 by decide]
    · simp [hj, h.used j]
  · intro j u hu
    by_cases hj : j = k
    · exact hj ▸ ⟨h.frames ▸ hk, hused.1⟩
    · exact h.fresh j u (hother j hj ▸ hu)
  · intro i j u hi hj hu
    have hne : ∀ a, Function.update use k (some FrameUse.spare) a = some u → a ≠ k := by
      rintro a ha rfl
      simp only [Function.update_self, Option.some.injEq] at ha
      exact hu ha.symm
    rw [hother i (hne i hi)] at hi
    rw [hother j (hne j hj)] at hj
    exact h.unique i j u hi hj hu
  · intro a ha
    refine h.old a fun j hj => ha j ?_
    by_cases hjk : j = k
    · simp [hjk]
    · rwa [hother j hjk]
  · intro j u hu
    by_cases hj : j = k
    · rw [hj, Function.update_self] at hu
      cases hu
      trivial
    · rw [hother j hj] at hu
      exact (h.holds j u hu).frame (.inl hused.2) (by simp) (by simp) fun o _ => rfl

/-- A spare frame put to use: the stores are into frames of the copy. -/
theorem UvmLinked.relink (h : UvmLinked m₀ pageDir use m) (hk : use k = some .spare)
    (hv : ∀ j, use j ≠ some v) (hmem : SameOutside use mem' m.mem)
    (hholds : ∀ j u, Function.update use k (some v) j = some u →
      FrameHolds m₀ pageDir (Function.update use k (some v)) mem' j u) :
    UvmLinked m₀ pageDir (Function.update use k (some v)) { m with mem := mem' } := by
  have hother : ∀ j, j ≠ k → Function.update use k (some v) j = use j :=
    fun j hj => Function.update_of_ne hj ..
  have hsome : ∀ j, (Function.update use k (some v) j).isSome = (use j).isSome := by
    intro j
    by_cases hj : j = k
    · simp [hj, hk]
    · rw [hother j hj]
  refine ⟨h.ok.setMem mem', h.frames, h.kernelPageDir, ?_, ?_, ?_, ?_, hholds⟩
  · intro j
    rw [hsome]
    exact h.used j
  · intro j u hu
    by_cases hj : j = k
    · exact h.fresh j .spare (hj ▸ hk)
    · exact h.fresh j u (hother j hj ▸ hu)
  · intro i j u hi hj hu
    by_cases huv : u = v
    · have hnew : ∀ a, Function.update use k (some v) a = some v → a = k := by
        intro a ha
        by_contra hne
        exact hv a (hother a hne ▸ ha)
      exact (hnew i (huv ▸ hi)).trans (hnew j (huv ▸ hj)).symm
    · have hne : ∀ a, Function.update use k (some v) a = some u → a ≠ k := by
        rintro a ha rfl
        simp only [Function.update_self, Option.some.injEq] at ha
        exact huv ha.symm
      rw [hother i (hne i hi)] at hi
      rw [hother j (hne j hj)] at hj
      exact h.unique i j u hi hj hu
  · intro a ha
    have hout : ∀ j, (use j).isSome → ¬InFrame j a := fun j hj => ha j (hsome j ▸ hj)
    exact (hmem a hout).trans (h.old a hout)

/-- A frame filled, and the entry `n` of another that leads to it. -/
def linkFrame (mem : Nat → UInt8) (parent n v child : Nat) (src : Nat → UInt8) : Nat → UInt8 :=
  copyTo (put32 mem (frameAddr parent + 4 * n) v) (frameAddr child) 4096 src

section LinkFrame

variable {parent child n j o : Nat} {src : Nat → UInt8}

theorem linkFrame_child (ho : o < 4096) :
    linkFrame mem parent n x child src (frameAddr child + o) = src o := copyTo_add ho

theorem linkFrame_outside {a : Nat} (hn : n < 1024) (hp : ¬InFrame parent a)
    (hc : ¬InFrame child a) : linkFrame mem parent n x child src a = mem a := by
  rw [linkFrame, copyTo_outside hc, put32_outside hn hp]

theorem linkFrame_word (hpc : parent ≠ child) (hx : x < 4294967296) (hj : j < 1024) :
    le32 (linkFrame mem parent n x child src) (frameAddr parent + 4 * j) =
      if j = n then x else le32 mem (frameAddr parent + 4 * j) := by
  have hcopy : le32 (linkFrame mem parent n x child src) (frameAddr parent + 4 * j) =
      le32 (put32 mem (frameAddr parent + 4 * n) x) (frameAddr parent + 4 * j) :=
    le32_other (fun a ha => copyTo_outside ha) hpc hj
  rw [hcopy]
  split
  next h => rw [h, le32_put32, Nat.mod_eq_of_lt hx]
  next h => exact le32_put32_of_ne (by omega)

end LinkFrame

/-- A frame in use lies below 4 GiB. -/
theorem UvmLinked.entry_lt (h : UvmLinked m₀ pageDir use m) (hk : use k = some u) {flags : Nat}
    (hf : flags < 1024) : frameAddr k + flags < 4294967296 := by
  have := frameAddr_lt h.ok (h.frames ▸ (h.fresh k u hk).1)
  omega

/-- The entry of a frame put to use, and the others beside it. -/
theorem Leads.link {flags e : Nat} (hk : use k = some .spare) (hv : ∀ j, use j ≠ some v)
    (huv : u = v → e = frameAddr k + flags) (hne : u ≠ v → Leads use u flags e)
    (hu : u ≠ .spare) : Leads (Function.update use k (some v)) u flags e := by
  by_cases h : u = v
  · subst h
    refine ⟨fun j hj => ?_, fun hn => absurd (Function.update_self ..) (hn k)⟩
    by_cases hjk : j = k
    · rw [hjk, huv rfl]
    · rw [Function.update_of_ne hjk] at hj
      exact absurd hj (hv j)
  · exact (hne h).update (.inr hk) h hu

variable {d i j t : Nat}

/-- A spare frame becomes table `i`. -/
theorem UvmLinked.table (h : UvmLinked m₀ pageDir use m) (hd : use d = some .dir)
    (hk : use k = some .spare) (hi : 512 ≤ i ∧ i < 1024) (hnew : ∀ t, use t ≠ some (.table i))
    (hpages : ∀ p j, use p ≠ some (.page i j)) :
    UvmLinked m₀ pageDir (Function.update use k (some (.table i)))
      { m with mem := linkFrame m.mem d i (frameAddr k + 7) k fun _ => 0 } := by
  have hdk : d ≠ k := by
    rintro rfl
    simp [hd] at hk
  have hlt : frameAddr k + 7 < 4294967296 := h.entry_lt hk (by omega)
  refine h.relink hk hnew (fun a ha => ?_) fun x u hu => ?_
  · exact linkFrame_outside hi.2 (ha d (by simp [hd])) (ha k (by simp [hk]))
  · by_cases hxk : x = k
    · -- the table is empty, and no page of it is in use
      subst hxk
      rw [Function.update_self] at hu
      cases hu
      intro j hj
      refine ⟨fun p hp => ?_, fun _ => ?_⟩
      · by_cases hpx : p = x
        · simp [hpx] at hp
        · rw [Function.update_of_ne hpx] at hp
          exact absurd hp (hpages p j)
      · have hzero : le32 (linkFrame m.mem d i (frameAddr x + 7) x fun _ => 0)
            (frameAddr x + 4 * j) = le32 (fun _ => 0) 0 := by
          refine le32_congr fun o ho => ?_
          rw [Nat.add_assoc, linkFrame_child (by omega)]
        exact hzero
    · rw [Function.update_of_ne hxk] at hu
      have hheld := h.holds x u hu
      by_cases hxd : x = d
      · subst hxd
        rw [hd] at hu
        cases hu
        have hword : ∀ n < 1024, uvmPde (linkFrame m.mem x i (frameAddr k + 7) k fun _ => 0)
            (frameAddr x) n = if n = i then frameAddr k + 7 else uvmPde m.mem (frameAddr x) n :=
          fun n hn => linkFrame_word hdk hlt hn
        refine ⟨fun n hn => ?_, fun n hlo hhi => ?_⟩
        · rw [hword n (by omega), if_neg (by omega)]
          exact hheld.1 n hn
        · rw [hword n hhi]
          refine .link hk hnew (fun he => ?_) (fun hne => ?_) (by simp)
          · rw [if_pos (by simpa using he)]
          · rw [if_neg (by simpa using hne)]
            exact hheld.2 n hlo hhi
      · refine hheld.frame (.inr hk) (fun n hn => ?_) (by simp) fun o ho => ?_
        · exact absurd (h.unique x d .dir (hn ▸ hu) hd (by simp)) hxd
        · exact linkFrame_outside hi.2 (not_inFrame hxd ho) (not_inFrame hxk ho)

/-- A spare frame becomes page `j` of table `i`. -/
theorem UvmLinked.page (h : UvmLinked m₀ pageDir use m) (ht : use t = some (.table i))
    (hk : use k = some .spare) (hj : j < 1024) (hnew : ∀ p, use p ≠ some (.page i j)) :
    UvmLinked m₀ pageDir (Function.update use k (some (.page i j)))
      { m with
        mem := linkFrame m.mem t j (frameAddr k + getPtePerm (uvmPte m₀.mem pageDir i j)) k
          fun o => m₀.mem (entryPaddr (uvmPte m₀.mem pageDir i j) + o) } := by
  have htk : t ≠ k := by
    rintro rfl
    simp [ht] at hk
  have hlt : frameAddr k + getPtePerm (uvmPte m₀.mem pageDir i j) < 4294967296 :=
    h.entry_lt hk (getPtePerm_lt _)
  refine h.relink hk hnew (fun a ha => ?_) fun x u hu => ?_
  · exact linkFrame_outside hj (ha t (by simp [ht])) (ha k (by simp [hk]))
  · by_cases hxk : x = k
    · subst hxk
      rw [Function.update_self] at hu
      cases hu
      exact fun o ho => linkFrame_child ho
    · rw [Function.update_of_ne hxk] at hu
      have hheld := h.holds x u hu
      by_cases hxt : x = t
      · subst hxt
        rw [ht] at hu
        cases hu
        intro n hn
        rw [linkFrame_word htk hlt hn]
        refine .link hk hnew (fun he => ?_) (fun hne => ?_) (by simp)
        · have hnj : n = j := by simpa using he
          rw [if_pos hnj, hnj]
        · rw [if_neg (by simpa using hne)]
          exact hheld n hn
      · refine hheld.frame (.inr hk) (by simp) (fun n n' hn => ?_) fun o ho => ?_
        · rintro ⟨rfl, rfl⟩
          exact hxt (h.unique x t _ (hn ▸ hu) ht (by simp))
        · exact linkFrame_outside hj (not_inFrame hxt ho) (not_inFrame hxk ho)

/-- A free frame is not in use. -/
theorem UvmLinked.unused (h : UvmLinked m₀ pageDir use m) (hfree : m.used k = false) :
    use k = none := by
  have hused := h.used k
  rw [hfree] at hused
  simpa using (Bool.or_eq_false_iff.mp hused.symm).2

/-- The frames of the source are not in use by the copy. -/
theorem UvmLinked.source (h : UvmLinked m₀ pageDir use m) (hmem : SameOutside use mem m₀.mem)
    (hk : m₀.used k = true) {o : Nat} (ho : o < 4096) :
    mem (frameAddr k + o) = m₀.mem (frameAddr k + o) := by
  refine hmem _ fun j hj hin => ?_
  obtain ⟨u, hu⟩ := Option.isSome_iff_exists.mp hj
  have hjk : j ≠ k := by
    rintro rfl
    exact absurd ((h.fresh j u hu).2) (by simp [hk])
  exact not_inFrame hjk.symm ho hin

theorem UvmLinked.source_word (h : UvmLinked m₀ pageDir use m)
    (hmem : SameOutside use mem m₀.mem) (hk : m₀.used k = true) (hj : j < 1024) :
    le32 mem (frameAddr k + 4 * j) = le32 m₀.mem (frameAddr k + 4 * j) := by
  refine le32_congr fun o ho => ?_
  rw [Nat.add_assoc]
  exact h.source hmem hk (by omega)

end UvmLinked

/-! ## The frames of the source -/

section Source

variable {m₀ m : PhysMem} {pageDir i j k : Nat} {use : Nat → Option FrameUse} {mem : Nat → UInt8}

theorem UvmOk.dir (h : UvmOk m₀ pageDir) : ∃ k, pageDir = frameAddr k ∧ m₀.used k = true := by
  obtain ⟨k, -, ha, hu⟩ := h.taken pageDir (mem_uvmFrames.mpr (.inl rfl))
  exact ⟨k, ha, hu⟩

theorem UvmOk.table (h : UvmOk m₀ pageDir) (hi : i ∈ userPdes)
    (hp : entryPresent (uvmPde m₀.mem pageDir i) = true) :
    ∃ k, entryPaddr (uvmPde m₀.mem pageDir i) = frameAddr k ∧ m₀.used k = true := by
  obtain ⟨k, -, ha, hu⟩ := h.taken _ (mem_uvmFrames.mpr (.inr (.inl ⟨i, hi, hp, rfl⟩)))
  exact ⟨k, ha, hu⟩

theorem UvmOk.page (h : UvmOk m₀ pageDir) (hi : i ∈ userPdes) (hj : j < 1024)
    (hp : pagePresent m₀.mem pageDir i j = true) :
    ∃ k, entryPaddr (uvmPte m₀.mem pageDir i j) = frameAddr k ∧ m₀.used k = true := by
  obtain ⟨k, -, ha, hu⟩ := h.taken _ (mem_uvmFrames.mpr (.inr (.inr ⟨i, hi, j, hj, hp, rfl⟩)))
  exact ⟨k, ha, hu⟩

/-- The directory of the source during the copy. -/
theorem UvmLinked.source_pde (h : UvmLinked m₀ pageDir use m) (hmem : SameOutside use mem m₀.mem)
    (hs : UvmOk m₀ pageDir) (hi : i < 1024) :
    uvmPde mem pageDir i = uvmPde m₀.mem pageDir i := by
  obtain ⟨k, rfl, hk⟩ := hs.dir
  exact h.source_word hmem hk hi

/-- A table of the source during the copy. -/
theorem UvmLinked.source_pte (h : UvmLinked m₀ pageDir use m) (hmem : SameOutside use mem m₀.mem)
    (hs : UvmOk m₀ pageDir) (hi : i ∈ userPdes)
    (hp : entryPresent (uvmPde m₀.mem pageDir i) = true) (hj : j < 1024) :
    uvmPte mem pageDir i j = uvmPte m₀.mem pageDir i j := by
  obtain ⟨k, ha, hk⟩ := hs.table hi hp
  rw [uvmPte, uvmPte, h.source_pde hmem hs (mem_userPdes.mp hi).2, ha]
  exact h.source_word hmem hk hj

/-- The entry of a page, read by the copy. -/
theorem UvmLinked.load_pte (h : UvmLinked m₀ pageDir use m) (hs : UvmOk m₀ pageDir)
    (hi : i ∈ userPdes) (hp : entryPresent (uvmPde m₀.mem pageDir i) = true) (hj : j < 1024) :
    loadWord (entryPaddr (uvmPde m₀.mem pageDir i) + 4 * j) m =
      some (uvmPte m₀.mem pageDir i j, m) := by
  have hpte := h.source_pte h.old hs hi hp hj
  rw [uvmPte, h.source_pde h.old hs (mem_userPdes.mp hi).2] at hpte
  rw [← hpte]
  rfl

end Source

/-! ## One page -/

section Page

variable {m₀ m : PhysMem} {pageDir d i j k t : Nat} {use : Nat → Option FrameUse}

theorem pdeIndex_page (hj : j < 1024) : pdeIndex (i * 4194304 + j * 4096) = i := by
  unfold pdeIndex
  omega

theorem pteIndex_page (hj : j < 1024) : pteIndex (i * 4194304 + j * 4096) = j := by
  unfold pteIndex
  omega

/-- `find_pte` where the table is there. -/
theorem UvmLinked.findPte_table (h : UvmLinked m₀ pageDir use m) (hd : use d = some .dir)
    (ht : use t = some (.table i)) (hi : 512 ≤ i ∧ i < 1024) (hj : j < 1024) :
    findPte (frameAddr d) (i * 4194304 + j * 4096) true m =
      some (some (frameAddr t + 4 * j), m) := by
  have hpde : le32 m.mem (frameAddr d + 4 * i) = frameAddr t + 7 :=
    ((h.holds d .dir hd).2 i hi.1 hi.2).1 t ht
  have hload : loadWord (frameAddr d + 4 * i) m = some (frameAddr t + 7, m) := by
    rw [← hpde]
    rfl
  rw [findPte, pdeIndex_page hj, pteIndex_page hj, seq_some hload, entryPresent_frame,
    entryPaddr_frame (by omega)]
  rfl

/-- `find_pte` where it is not: it takes a frame for the table, or there is none. -/
theorem UvmLinked.findPte_new (h : UvmLinked m₀ pageDir use m) (hd : use d = some .dir)
    (hi : 512 ≤ i ∧ i < 1024) (hj : j < 1024) (hnew : ∀ t, use t ≠ some (.table i))
    (hpages : ∀ p j, use p ≠ some (.page i j)) :
    (m.freeCount = 0 ∧ findPte (frameAddr d) (i * 4194304 + j * 4096) true m = some (none, m)) ∨
      ∃ t m', use t = none ∧ m'.freeCount + 1 = m.freeCount ∧
        findPte (frameAddr d) (i * 4194304 + j * 4096) true m =
          some (some (frameAddr t + 4 * j), m') ∧
        UvmLinked m₀ pageDir (Function.update use t (some (.table i))) m' := by
  have hpde : le32 m.mem (frameAddr d + 4 * i) = 0 :=
    ((h.holds d .dir hd).2 i hi.1 hi.2).2 hnew
  have hload : loadWord (frameAddr d + 4 * i) m = some (0, m) := by
    rw [← hpde]
    rfl
  have habsent : ¬entryPresent 0 = true := by decide
  rw [findPte, pdeIndex_page hj, pteIndex_page hj, seq_some hload, if_neg habsent, if_pos rfl]
  rcases paddrAllocPage_cases h.ok with ⟨hfull, he⟩ | ⟨t, ht, hfree, he, -⟩
  · refine .inl ⟨hfull, ?_⟩
    rw [seq_some he]
    rfl
  · have hfresh := h.unused hfree
    have htaken := h.take ht hfree
    have hother : ∀ {x : Nat} {u : FrameUse}, u ≠ .spare →
        (Function.update use t (some FrameUse.spare) x = some u ↔ use x = some u) := by
      intro x u hu
      by_cases hx : x = t
      · subst hx
        simp [hfresh, Ne.symm hu]
      · rw [Function.update_of_ne hx]
    have hlinked := htaken.table ((hother (by simp)).mpr hd) (Function.update_self ..) hi
      (fun x hx => hnew x ((hother (by simp)).mp hx))
      (fun p j hp => hpages p j ((hother (by simp)).mp hp))
    rw [Function.update_idem] at hlinked
    refine .inr ⟨t, _, hfresh, ?_, ?_, hlinked⟩
    · rw [freeCount_setMem]
      exact freeCount_take ht hfree
    · rw [seq_some he, if_neg (frameAddr_pos t), frameAddr_or (by omega)]
      rfl

/-- The page mapped, once its entry is found. -/
theorem UvmLinked.create_map {m₁ : PhysMem} {pageDir' vaddr : Nat} (h : UvmLinked m₀ pageDir use m)
    (ht : use t = some (.table i)) (hj : j < 1024) (hnew : ∀ p, use p ≠ some (.page i j))
    (hp : pagePresent m₀.mem pageDir i j = true)
    (hf : findPte pageDir' vaddr true m₁ = some (some (frameAddr t + 4 * j), m)) :
    memoryCreateMap pageDir' vaddr (frameAddr k) 1 (getPtePerm (uvmPte m₀.mem pageDir i j)) m₁ =
      some (0, { m with
        mem := put32 m.mem (frameAddr t + 4 * j)
          (frameAddr k + getPtePerm (uvmPte m₀.mem pageDir i j)) }) := by
  have hempty : le32 m.mem (frameAddr t + 4 * j) = 0 := (h.holds t _ ht j hj).2 hnew
  have hload : loadWord (frameAddr t + 4 * j) m = some (0, m) := by
    rw [← hempty]
    rfl
  have hcheck : check (σ := PhysMem) (!entryPresent 0) m = some ((), m) := rfl
  have hpte : entryPresent (uvmPte m₀.mem pageDir i j) = true := by
    simp only [pagePresent, Bool.and_eq_true] at hp
    exact hp.2
  have hflags : frameAddr k ||| getPtePerm (uvmPte m₀.mem pageDir i j) ||| 1 =
      frameAddr k + getPtePerm (uvmPte m₀.mem pageDir i j) := by
    have hlt := getPtePerm_lt (uvmPte m₀.mem pageDir i j)
    rw [Nat.or_assoc, perm_or_one hpte, frameAddr_or (by omega)]
  rw [memoryCreateMap, seq_some hf]
  simp only [seq_some hload, seq_some hcheck]
  rw [hflags]
  rfl

/-- The page read through the tables of the source. -/
theorem UvmLinked.copy_page {m' : PhysMem} (h : UvmLinked m₀ pageDir use m)
    (hs : UvmOk m₀ pageDir) (hmem : SameOutside use m'.mem m₀.mem) (hi : i ∈ userPdes)
    (hj : j < 1024) (hp : pagePresent m₀.mem pageDir i j = true) :
    copyUserPage pageDir (frameAddr k) (i * 4194304 + j * 4096) m' =
      some ((), { m' with
        mem := copyTo m'.mem (frameAddr k) 4096
          fun o => m₀.mem (entryPaddr (uvmPte m₀.mem pageDir i j) + o) }) := by
  have hboth := hp
  simp only [pagePresent, Bool.and_eq_true] at hboth
  have htrans : translate m' pageDir (i * 4194304 + j * 4096) =
      some (entryPaddr (uvmPte m₀.mem pageDir i j)) := by
    have hpde := h.source_pde hmem hs (mem_userPdes.mp hi).2
    have hpte := h.source_pte hmem hs hi hboth.1 hj
    have hoff : (i * 4194304 + j * 4096) % 4096 = 0 := by omega
    unfold uvmPde at hpde
    unfold uvmPte uvmPde at hpte
    simp only [translate, pdeIndex_page hj, pteIndex_page hj, hpte, hoff]
    rw [hpde] at hpte ⊢
    unfold uvmPte uvmPde at hboth ⊢
    simp [hboth.1, hboth.2]
  have hlook : (look fun m => translate m pageDir (i * 4194304 + j * 4096)) m' =
      some (some (entryPaddr (uvmPte m₀.mem pageDir i j)), m') := by
    rw [← htrans]
    rfl
  obtain ⟨s, hsrc, hused⟩ := hs.page hi hj hp
  have hsame : copyTo m'.mem (frameAddr k) 4096
        (fun o => m'.mem (entryPaddr (uvmPte m₀.mem pageDir i j) + o)) =
      copyTo m'.mem (frameAddr k) 4096
        fun o => m₀.mem (entryPaddr (uvmPte m₀.mem pageDir i j) + o) := by
    refine copyTo_congr fun o ho => ?_
    rw [hsrc]
    exact h.source hmem hused ho
  rw [copyUserPage, seq_some hlook, ← hsame]
  rfl

/-- The rest of the body of the loop, once the entry is found. -/
theorem UvmLinked.map_copy {m₁ : PhysMem} {pageDir' : Nat} (h : UvmLinked m₀ pageDir use m)
    (hs : UvmOk m₀ pageDir) (ht : use t = some (.table i)) (hk : use k = some .spare)
    (hi : i ∈ userPdes) (hj : j < 1024) (hp : pagePresent m₀.mem pageDir i j = true)
    (hnew : ∀ p, use p ≠ some (.page i j))
    (hf : findPte pageDir' (i * 4194304 + j * 4096) true m₁ =
      some (some (frameAddr t + 4 * j), m)) :
    ∃ m', (do
        let err ← memoryCreateMap pageDir' (i * 4194304 + j * 4096) (frameAddr k) 1
          (getPtePerm (uvmPte m₀.mem pageDir i j))
        if err < 0 then pure false
        else do
          copyUserPage pageDir (frameAddr k) (i * 4194304 + j * 4096)
          pure true : Prog PhysMem Bool) m₁ = some (true, m') ∧
      m'.freeCount = m.freeCount ∧
      UvmLinked m₀ pageDir (Function.update use k (some (.page i j))) m' := by
  have hmap := h.create_map (k := k) ht hj hnew hp hf
  have hsame : SameOutside use
      (put32 m.mem (frameAddr t + 4 * j) (frameAddr k + getPtePerm (uvmPte m₀.mem pageDir i j)))
      m₀.mem := by
    intro a ha
    rw [put32_outside hj (ha t (by simp [ht]))]
    exact h.old a ha
  refine ⟨_, ?_, ?_, h.page ht hk hj hnew⟩
  · rw [seq_some hmap, if_neg (by decide), seq_some (h.copy_page hs hsame hi hj hp)]
    rfl
  · rfl

end Page

/-! ## What has been copied -/

/-- The frames in use are the directory, those of the pages in `S` and their tables. -/
structure Settled (use : Nat → Option FrameUse) (d : Nat) (S : Nat → Nat → Prop) : Prop where
  dir : use d = some .dir
  pages : ∀ i j, (∃ p, use p = some (.page i j)) ↔ S i j
  tables : ∀ i, (∃ t, use t = some (.table i)) ↔ ∃ j, S i j

/-- The pages in `S` are copied; there is a spare frame or there is none. -/
def Copied (m₀ : PhysMem) (pageDir d : Nat) (S : Nat → Nat → Prop) (leak : Prop) (m : PhysMem) :
    Prop :=
  ∃ use, UvmLinked m₀ pageDir use m ∧ Settled use d S ∧ ((∃ k, use k = some .spare) ↔ leak)

section Settled

variable {m₀ m : PhysMem} {pageDir d i j k t : Nat} {use : Nat → Option FrameUse}
  {S : Nat → Nat → Prop} {u v : FrameUse}

theorem exists_update (hk : Unlinked use k) (hu : u ≠ .spare) :
    (∃ x, Function.update use k (some v) x = some u) ↔ u = v ∨ ∃ x, use x = some u := by
  constructor
  · rintro ⟨x, hx⟩
    by_cases hxk : x = k
    · rw [hxk, Function.update_self, Option.some.injEq] at hx
      exact .inl hx.symm
    · exact .inr ⟨x, by rwa [Function.update_of_ne hxk] at hx⟩
  · rintro (rfl | ⟨x, hx⟩)
    · exact ⟨k, Function.update_self ..⟩
    · have hxk : x ≠ k := by
        rintro rfl
        rcases hk with hk | hk <;> simp_all
      exact ⟨x, by rwa [Function.update_of_ne hxk]⟩

/-- A frame in use keeps its use. -/
theorem update_used (hk : Unlinked use k) (hu : u ≠ .spare) {x : Nat} (hx : use x = some u) :
    Function.update use k (some v) x = some u := by
  have hxk : x ≠ k := by
    rintro rfl
    rcases hk with hk | hk <;> simp_all
  rwa [Function.update_of_ne hxk]

theorem Settled.spare (h : Settled use d S) (hk : use k = none) :
    Settled (Function.update use k (some .spare)) d S where
  dir := update_used (.inl hk) (by simp) h.dir
  pages i j := by
    rw [exists_update (.inl hk) (by simp), ← h.pages i j]
    simp
  tables i := by
    rw [exists_update (.inl hk) (by simp), ← h.tables i]
    simp

/-- One more page, whose table is there. -/
theorem Settled.page (h : Settled use d S) (hk : Unlinked use k) (ht : ∃ b, S i b) :
    Settled (Function.update use k (some (.page i j))) d fun a b => S a b ∨ a = i ∧ b = j where
  dir := update_used hk (by simp) h.dir
  pages a b := by
    rw [exists_update hk (by simp), h.pages a b, or_comm]
    simp
  tables a := by
    rw [exists_update hk (by simp), h.tables a]
    constructor
    · rintro (he | ⟨b, hb⟩)
      · cases he
      · exact ⟨b, .inl hb⟩
    · rintro ⟨b, hb | ⟨rfl, rfl⟩⟩
      · exact .inr ⟨b, hb⟩
      · exact .inr ht

/-- A page and its table. -/
theorem Settled.table_page (h : Settled use d S) (ht : Unlinked use t)
    (hk : Unlinked (Function.update use t (some (.table i))) k) :
    Settled (Function.update (Function.update use t (some (.table i))) k (some (.page i j))) d
      fun a b => S a b ∨ a = i ∧ b = j where
  dir := update_used hk (by simp) (update_used ht (by simp) h.dir)
  pages a b := by
    rw [exists_update hk (by simp), exists_update ht (by simp), h.pages a b, or_comm]
    simp
  tables a := by
    rw [exists_update hk (by simp), exists_update ht (by simp), h.tables a]
    constructor
    · rintro (he | he | ⟨b, hb⟩)
      · cases he
      · cases he
        exact ⟨j, .inr ⟨rfl, rfl⟩⟩
      · exact ⟨b, .inl hb⟩
    · rintro ⟨b, hb | ⟨rfl, rfl⟩⟩
      · exact .inr (.inr ⟨b, hb⟩)
      · exact .inr (.inl rfl)

/-- A frame that is put to use is spare no longer. -/
theorem no_spare_update (hv : v ≠ .spare) (h : ∀ x, x ≠ k → use x ≠ some .spare) :
    ¬∃ x, Function.update use k (some v) x = some .spare := by
  rintro ⟨x, hx⟩
  by_cases hxk : x = k
  · rw [hxk, Function.update_self, Option.some.injEq] at hx
    exact hv hx
  · rw [Function.update_of_ne hxk] at hx
    exact h x hxk hx

/-- One page of the source: it is copied, or a frame for it or for its table is missing. -/
theorem copyUvmPage_step (hs : UvmOk m₀ pageDir) (h : Copied m₀ pageDir d S False m)
    (hi : i ∈ userPdes) (hj : j < 1024) (hp : pagePresent m₀.mem pageDir i j = true)
    (hnew : ¬S i j) :
    (m.freeCount = 0 ∧ copyUvmPage pageDir (frameAddr d) i (entryPaddr (uvmPde m₀.mem pageDir i)) j
        m = some (false, m)) ∨
      ((∀ b, ¬S i b) ∧ m.freeCount = 1 ∧ ∃ m', copyUvmPage pageDir (frameAddr d) i
          (entryPaddr (uvmPde m₀.mem pageDir i)) j m = some (false, m') ∧
        Copied m₀ pageDir d S True m' ∧ m'.freeCount = 0) ∨
      ∃ m', copyUvmPage pageDir (frameAddr d) i (entryPaddr (uvmPde m₀.mem pageDir i)) j m =
          some (true, m') ∧
        Copied m₀ pageDir d (fun a b => S a b ∨ a = i ∧ b = j) False m' ∧
        (((∃ b, S i b) ∧ m'.freeCount + 1 = m.freeCount) ∨
          ((∀ b, ¬S i b) ∧ m'.freeCount + 2 = m.freeCount)) := by
  obtain ⟨use, hl, hset, hspare⟩ := h
  have hbounds := mem_userPdes.mp hi
  have hboth := hp
  simp only [pagePresent, Bool.and_eq_true] at hboth
  have hno : ¬(!entryPresent (uvmPte m₀.mem pageDir i j)) = true := by simp [hboth.2]
  rw [copyUvmPage, seq_some (hl.load_pte hs hi hboth.1 hj), if_neg hno]
  rcases paddrAllocPage_cases hl.ok with ⟨hfull, he⟩ | ⟨k, hk, hfree, he, -⟩
  · refine .inl ⟨hfull, ?_⟩
    rw [seq_some he]
    rfl
  · -- `k` is taken for the page, and no entry leads to it yet
    refine .inr ?_
    have hnone : use k = none := hl.unused hfree
    have htake := hl.take hk hfree
    have hset' := hset.spare hnone
    have hspare' : ∀ x, x ≠ k → use x ≠ some .spare := fun x _ hx => hspare.mp ⟨x, hx⟩
    have hcount := freeCount_take hk hfree
    have hpages : ∀ p, Function.update use k (some .spare) p ≠ some (.page i j) :=
      fun p hx => hnew ((hset'.pages i j).mp ⟨p, hx⟩)
    rw [seq_some he, if_neg (frameAddr_pos k)]
    by_cases ht : ∃ b, S i b
    · obtain ⟨t, ht'⟩ := (hset'.tables i).mpr ht
      have hf := htake.findPte_table hset'.dir ht' hbounds hj
      obtain ⟨m', hrun, hfc, hlink⟩ :=
        htake.map_copy hs ht' (Function.update_self ..) hi hj hp hpages hf
      rw [Function.update_idem] at hlink
      refine .inr ⟨m', hrun, ⟨_, hlink, hset.page (.inl hnone) ht, ?_⟩, .inl ⟨ht, by omega⟩⟩
      exact iff_false_intro (no_spare_update (by simp) hspare')
    · have ht' : ∀ t, Function.update use k (some .spare) t ≠ some (.table i) :=
        fun t hx => ht ((hset'.tables i).mp ⟨t, hx⟩)
      have hpages' : ∀ p b, Function.update use k (some .spare) p ≠ some (.page i b) :=
        fun p b hx => ht ⟨b, (hset'.pages i b).mp ⟨p, hx⟩⟩
      rw [not_exists] at ht
      rcases htake.findPte_new hset'.dir hbounds hj ht' hpages' with
        ⟨hfull, hf⟩ | ⟨t, m₂, htnone, hfc, hf, hlink⟩
      · -- the page is left behind
        have hmap : memoryCreateMap (frameAddr d) (i * 4194304 + j * 4096) (frameAddr k) 1
            (getPtePerm (uvmPte m₀.mem pageDir i j)) (m.mark k (~~~0)) =
              some (-1, m.mark k (~~~0)) := by
          rw [memoryCreateMap, seq_some hf]
          rfl
        refine .inl ⟨ht, by omega, m.mark k (~~~0), ?_, ⟨_, htake, hset', ?_⟩, hfull⟩
        · rw [seq_some hmap]
          rfl
        · exact iff_true_intro ⟨k, Function.update_self ..⟩
      · have htk : k ≠ t := by
          rintro rfl
          simp at htnone
        have hk₂ : Function.update (Function.update use k (some .spare)) t (some (.table i)) k =
            some .spare := by
          rw [Function.update_of_ne htk, Function.update_self]
        have hpages₂ : ∀ p, Function.update (Function.update use k (some .spare)) t
            (some (.table i)) p ≠ some (.page i j) := by
          intro p hx
          rcases (exists_update (.inl htnone) (by simp)).mp ⟨p, hx⟩ with hx | ⟨p, hx⟩
          · cases hx
          · exact hpages p hx
        obtain ⟨m', hrun, hfc', hlink'⟩ :=
          hlink.map_copy hs (Function.update_self ..) hk₂ hi hj hp hpages₂ hf
        have hset₂ := hset'.table_page (j := j) (.inl htnone) (.inr hk₂)
        refine .inr ⟨m', hrun, ⟨_, hlink', hset₂, ?_⟩, .inr ⟨ht, by omega⟩⟩
        refine iff_false_intro (no_spare_update (by simp) fun x hx he => ?_)
        by_cases hxt : x = t
        · simp [hxt] at he
        · rw [Function.update_of_ne hxt, Function.update_of_ne hx] at he
          exact hspare' x hx he

end Settled

/-! ## The loops -/

theorem tableAllocs_succ (n : Nat) :
    tableAllocs (n + 1) = tableAllocs n ++ if n = 0 then [.page, .table] else [.page] := by
  cases n with
  | zero => rfl
  | succ n => simp [tableAllocs, List.replicate_succ']

theorem tableAllocs_le {n k : Nat} (h : n ≤ k) : tableAllocs n <+: tableAllocs k := by
  induction k, h using Nat.le_induction with
  | base => exact List.prefix_rfl
  | succ k hk ih =>
    rw [tableAllocs_succ]
    exact ih.trans (List.prefix_append _ _)

/-- `S` is about pages of the source. -/
def InSource (m₀ : PhysMem) (pageDir : Nat) (S : Nat → Nat → Prop) : Prop :=
  ∀ i j, S i j → i ∈ userPdes ∧ j ∈ tablePages m₀.mem pageDir i

/-- The allocation that failed is the one that `allocs` has after `F` others. -/
def Stuck (m₀ : PhysMem) (pageDir d : Nat) (allocs : List FrameKind) (F : Nat) (m : PhysMem) :
    Prop :=
  ∃ q x S, q ++ [x] <+: allocs ∧ q.length = F ∧ InSource m₀ pageDir S ∧
    Copied m₀ pageDir d S (x = .table) m

section Loops

variable {m₀ : PhysMem} {pageDir d i F : Nat} {S : Nat → Nat → Prop}

theorem Copied.congr {S' : Nat → Nat → Prop} {leak leak' : Prop} {m : PhysMem}
    (h : Copied m₀ pageDir d S leak m) (hS : ∀ i j, S i j ↔ S' i j) (hl : leak ↔ leak') :
    Copied m₀ pageDir d S' leak' m := by
  obtain rfl : S = S' := funext fun i => funext fun j => propext (hS i j)
  rwa [← propext hl]

/-- The pages of one table. -/
theorem copyUvmPage_loop (hs : UvmOk m₀ pageDir) (hi : i ∈ userPdes)
    (hp : entryPresent (uvmPde m₀.mem pageDir i) = true) (hnew : ∀ j, ¬S i j)
    (hS : InSource m₀ pageDir S) :
    Returns (fun m => Copied m₀ pageDir d S False m ∧ m.freeCount = F)
      (forEach (copyUvmPage pageDir (frameAddr d) i (entryPaddr (uvmPde m₀.mem pageDir i)))
        (List.range 1024))
      fun go m => if go then
        Copied m₀ pageDir d (fun a b => S a b ∨ a = i ∧ b ∈ tablePages m₀.mem pageDir i) False m ∧
          m.freeCount + (tableAllocs (tablePages m₀.mem pageDir i).length).length = F
      else Stuck m₀ pageDir d (tableAllocs (tablePages m₀.mem pageDir i).length) F m := by
  let present := pagePresent m₀.mem pageDir i
  let Inv : List Nat → PhysMem → Prop := fun done m =>
    Copied m₀ pageDir d (fun a b => S a b ∨ a = i ∧ b ∈ done.filter present) False m ∧
      m.freeCount + (tableAllocs (done.filter present).length).length = F
  suffices hloop : Returns (Inv [])
      (forEach (copyUvmPage pageDir (frameAddr d) i (entryPaddr (uvmPde m₀.mem pageDir i)))
        (List.range 1024))
      fun go m => if go then Inv (List.range 1024) m
        else Stuck m₀ pageDir d (tableAllocs (tablePages m₀.mem pageDir i).length) F m by
    refine hloop.imp (fun m hm => ⟨hm.1.congr (by simp) Iff.rfl, ?_⟩) fun go m hm => hm
    simpa [tableAllocs] using hm.2
  refine .each fun done j rest hrange m hm => ?_
  obtain ⟨hcopied, hcount⟩ := id hm
  have hjmem : j ∈ List.range 1024 := by simp [hrange]
  have hj : j < 1024 := List.mem_range.mp hjmem
  have hndone : j ∉ done := by
    have hnodup := List.nodup_range (n := 1024)
    rw [hrange] at hnodup
    exact fun hmem => List.disjoint_of_nodup_append hnodup hmem List.mem_cons_self
  have hrangeS : InSource m₀ pageDir fun a b => S a b ∨ a = i ∧ b ∈ done.filter present := by
    rintro a b (hab | ⟨rfl, hb⟩)
    · exact hS a b hab
    · refine ⟨hi, ?_⟩
      rw [tablePages, hrange, List.filter_append]
      exact List.mem_append_left _ hb
  cases hpage : present j with
  | true =>
    have hfilter : (done ++ [j]).filter present = done.filter present ++ [j] := by
      simp [List.filter_append, hpage]
    have hlong : (done.filter present).length + 1 ≤ (tablePages m₀.mem pageDir i).length := by
      have hall : tablePages m₀.mem pageDir i =
          done.filter present ++ j :: rest.filter present := by
        rw [tablePages, hrange, List.filter_append, List.filter_cons, if_pos hpage]
      rw [hall, List.length_append, List.length_cons]
      omega
    have hfirst : (∀ b, ¬(S i b ∨ i = i ∧ b ∈ done.filter present)) ↔
        (done.filter present).length = 0 := by
      simp only [hnew, false_or, true_and, List.length_eq_zero_iff, List.eq_nil_iff_forall_not_mem]
    have hstep := copyUvmPage_step hs hcopied hi hj hpage (by simp [hnew, hndone])
    rcases hstep with ⟨hfull, he⟩ | ⟨hnone, hone, m', he, hleak, hfull⟩ | ⟨m', he, hnext, hfc⟩
    · refine ⟨_, he, tableAllocs (done.filter present).length, .page, _, ?_, ?_, hrangeS,
        hcopied.congr (fun _ _ => Iff.rfl) (by simp)⟩
      · refine List.IsPrefix.trans ?_ (tableAllocs_le hlong)
        rw [tableAllocs_succ]
        split <;> simp
      · omega
    · have hzero := hfirst.mp hnone
      rw [hzero] at hcount hlong
      refine ⟨_, he, [.page], .table, _, ?_, ?_, hrangeS,
        hleak.congr (fun _ _ => Iff.rfl) (by simp)⟩
      · exact tableAllocs_le hlong
      · simpa [tableAllocs, hone] using hcount
    · have hallocs : (tableAllocs ((done ++ [j]).filter present).length).length =
          (tableAllocs (done.filter present).length).length +
            if (done.filter present).length = 0 then 2 else 1 := by
        rw [hfilter, List.length_append, List.length_singleton, tableAllocs_succ,
          List.length_append]
        split <;> rfl
      have hpages : Copied m₀ pageDir d
          (fun a b => S a b ∨ a = i ∧ b ∈ (done ++ [j]).filter present) False m' := by
        refine hnext.congr (fun a b => ?_) Iff.rfl
        rw [hfilter, List.mem_append, List.mem_singleton, and_or_left, or_assoc]
      refine ⟨_, he, hpages, ?_⟩
      rw [hallocs]
      rcases hfc with ⟨hsome, hfc⟩ | ⟨hnone, hfc⟩
      · have hpos : (done.filter present).length ≠ 0 := by
          intro hzero
          obtain ⟨b, hb⟩ := hsome
          exact hfirst.mpr hzero b hb
        rw [if_neg hpos]
        show m'.freeCount + _ = F
        omega
      · rw [if_pos (hfirst.mp hnone)]
        show m'.freeCount + _ = F
        omega
  | false =>
    have hfilter : (done ++ [j]).filter present = done.filter present := by
      simp [List.filter_append, hpage]
    obtain ⟨use, hl, -, -⟩ := hcopied
    have hskip : copyUvmPage pageDir (frameAddr d) i (entryPaddr (uvmPde m₀.mem pageDir i)) j m =
        some (true, m) := by
      have hpte : entryPresent (uvmPte m₀.mem pageDir i j) = false := by
        simpa [present, pagePresent, hp] using hpage
      rw [copyUvmPage, seq_some (hl.load_pte hs hi hp hj), if_pos (by simp [hpte])]
      rfl
    refine ⟨_, hskip, ?_⟩
    simp only [if_true, Inv, hfilter]
    exact hm

/-- All tables. -/
theorem copyUvmTable_loop (hs : UvmOk m₀ pageDir) :
    Returns (fun m => Copied m₀ pageDir d (fun _ _ => False) False m ∧ m.freeCount = F)
      (forEach (copyUvmTable pageDir pageDir (frameAddr d)) userPdes)
      fun go m => if go then
        Copied m₀ pageDir d (fun a b => a ∈ userPdes ∧ b ∈ tablePages m₀.mem pageDir a) False m ∧
          (userPdes.flatMap fun i => tableAllocs (tablePages m₀.mem pageDir i).length).length ≤ F
      else Stuck m₀ pageDir d
        (userPdes.flatMap fun i => tableAllocs (tablePages m₀.mem pageDir i).length) F m := by
  let allocs : Nat → List FrameKind := fun i => tableAllocs (tablePages m₀.mem pageDir i).length
  let Inv : List Nat → PhysMem → Prop := fun done m =>
    Copied m₀ pageDir d (fun a b => a ∈ done ∧ b ∈ tablePages m₀.mem pageDir a) False m ∧
      m.freeCount + (done.flatMap allocs).length = F
  suffices hloop : Returns (Inv []) (forEach (copyUvmTable pageDir pageDir (frameAddr d)) userPdes)
      fun go m => if go then Inv userPdes m
        else Stuck m₀ pageDir d (userPdes.flatMap allocs) F m by
    refine hloop.imp (fun m hm => ⟨hm.1.congr (by simp) Iff.rfl, by simpa using hm.2⟩) ?_
    intro go m hm
    cases go with
    | true => exact ⟨hm.1, hm.2 ▸ Nat.le_add_left _ _⟩
    | false => exact hm
  refine .each fun done i rest hall m hm => ?_
  obtain ⟨hcopied, hcount⟩ := id hm
  have hi : i ∈ userPdes := by simp [hall]
  have hndone : i ∉ done := by
    have hnodup : userPdes.Nodup := List.nodup_range'
    rw [hall] at hnodup
    exact fun hmem => List.disjoint_of_nodup_append hnodup hmem List.mem_cons_self
  have hload : loadWord (pageDir + 4 * i) m = some (uvmPde m₀.mem pageDir i, m) := by
    obtain ⟨use, hl, -, -⟩ := hcopied
    rw [← hl.source_pde hl.old hs (mem_userPdes.mp hi).2]
    rfl
  cases hp : entryPresent (uvmPde m₀.mem pageDir i) with
  | true =>
    have hS : InSource m₀ pageDir fun a b => a ∈ done ∧ b ∈ tablePages m₀.mem pageDir a := by
      rintro a b ⟨ha, hb⟩
      exact ⟨by simp [hall, ha], hb⟩
    obtain ⟨⟨go, m'⟩, he, hq⟩ := copyUvmPage_loop (F := m.freeCount) hs hi hp
      (by simp [hndone]) hS m ⟨hcopied, rfl⟩
    have hrun : copyUvmTable pageDir pageDir (frameAddr d) i m = some (go, m') := by
      rw [copyUvmTable, seq_some hload, if_neg (by simp [hp])]
      exact he
    refine ⟨_, hrun, ?_⟩
    cases go with
    | true =>
      refine ⟨hq.1.congr (fun a b => ?_) Iff.rfl, ?_⟩
      · simp only [List.mem_append, List.mem_singleton, or_and_right]
        constructor
        · rintro (h | ⟨rfl, h⟩)
          · exact .inl h
          · exact .inr ⟨rfl, h⟩
        · rintro (h | ⟨rfl, h⟩)
          · exact .inl h
          · exact .inr ⟨rfl, h⟩
      · rw [List.flatMap_append, List.length_append, List.flatMap_singleton]
        have hfc : m'.freeCount + (allocs i).length = m.freeCount := hq.2
        show m'.freeCount + _ = F
        omega
    | false =>
      obtain ⟨q, x, S, hq, hlen, hS', hstuck⟩ := hq
      refine ⟨done.flatMap allocs ++ q, x, S, ?_, ?_, hS', hstuck⟩
      · rw [hall, List.flatMap_append, List.flatMap_cons, List.append_assoc]
        exact List.prefix_append_right_inj _ |>.mpr (hq.trans (List.prefix_append _ _))
      · rw [List.length_append]
        omega
  | false =>
    have hnone := tablePages_absent hp
    have hrun : copyUvmTable pageDir pageDir (frameAddr d) i m = some (true, m) := by
      rw [copyUvmTable, seq_some hload, if_pos (by simp [hp])]
      rfl
    refine ⟨_, hrun, hcopied.congr (fun a b => ?_) Iff.rfl, ?_⟩
    · simp only [List.mem_append, List.mem_singleton]
      constructor
      · exact fun h => ⟨.inl h.1, h.2⟩
      · rintro ⟨ha | rfl, hb⟩
        · exact ⟨ha, hb⟩
        · simp [hnone] at hb
    · rw [List.flatMap_append, List.length_append, List.flatMap_singleton]
      simpa [allocs, hnone, tableAllocs] using hcount

end Loops

/-! ## The directory -/

section Start

variable {m : PhysMem} {pageDir : Nat}

/-- Before the copy no frame is in use. -/
theorem UvmLinked.start (hm : PhysOk m) : UvmLinked m pageDir (fun _ => none) m where
  ok := hm
  frames := rfl
  kernelPageDir := rfl
  used := by simp
  fresh := by simp
  unique := by simp
  old := fun _ _ => rfl
  holds := by simp

/-- `memory_create_uvm`: a directory with the entries of the kernel, or no frame is left. -/
theorem memoryCreateUvm_step (hm : PhysOk m) :
    (m.freeCount = 0 ∧ memoryCreateUvm m = some (0, m)) ∨
      ∃ d m', memoryCreateUvm m = some (frameAddr d, m') ∧ m'.freeCount + 1 = m.freeCount ∧
        Copied m pageDir d (fun _ _ => False) False m' := by
  rw [memoryCreateUvm]
  rcases paddrAllocPage_cases hm with ⟨hfull, he⟩ | ⟨d, hd, hfree, he, -⟩
  · refine .inl ⟨hfull, ?_⟩
    rw [seq_some he]
    rfl
  · let use : Nat → Option FrameUse := Function.update (fun _ => none) d (some .spare)
    have htake : UvmLinked m pageDir use (m.mark d (~~~0)) := (UvmLinked.start hm).take hd hfree
    let zeroed := copyTo m.mem (frameAddr d) 4096 fun _ => 0
    let mem' := copyTo zeroed (frameAddr d) 2048 fun o => zeroed (m.kernelPageDir + o)
    have hkernel : ∀ o < 4096, zeroed (m.kernelPageDir + o) = m.mem (m.kernelPageDir + o) := by
      intro o ho
      have hbelow := hm.kernelDir
      refine copyTo_of_lt ?_
      unfold frameAddr at hbelow ⊢
      omega
    have hlink : UvmLinked m pageDir (Function.update use d (some .dir))
        { m.mark d (~~~0) with mem := mem' } := by
      refine htake.relink (Function.update_self ..) (fun j hj => ?_) (fun a ha => ?_)
        fun j u hu => ?_
      · by_cases hjd : j = d <;> simp [use, hjd] at hj
      · have hout : ¬InFrame d a := ha d (by simp [use])
        have hlow : ¬(frameAddr d ≤ a ∧ a < frameAddr d + 2048) := fun h =>
          hout ⟨h.1, by omega⟩
        rw [show mem' a = zeroed a from if_neg hlow]
        exact copyTo_outside hout
      · by_cases hjd : j = d
        · subst hjd
          rw [Function.update_self] at hu
          cases hu
          refine ⟨fun i hi => le32_congr fun o ho => ?_,
            fun i hlo hhi => ⟨fun t ht => ?_, fun _ => ?_⟩⟩
          · rw [Nat.add_assoc, Nat.add_assoc, ← hkernel _ (by omega)]
            exact copyTo_add (by omega)
          · by_cases htj : t = j <;> simp [use, htj] at ht
          · have hzero : uvmPde mem' (frameAddr j) i = le32 (fun _ => 0) 0 := by
              refine le32_congr fun o ho => ?_
              rw [Nat.add_assoc, show mem' _ = zeroed _ from copyTo_of_ge (by omega)]
              exact copyTo_add (by omega)
            exact hzero
        · simp [use, hjd] at hu
    rw [Function.update_idem] at hlink
    refine .inr ⟨d, { m.mark d (~~~0) with mem := mem' }, ?_, freeCount_take hd hfree,
      _, hlink, ⟨Function.update_self .., ?_, ?_⟩, ?_⟩
    · rw [seq_some he, if_neg (frameAddr_pos d)]
      rfl
    · intro i j
      refine iff_false_intro ?_
      rintro ⟨p, hp⟩
      by_cases hpd : p = d <;> simp [hpd] at hp
    · intro i
      simp only [exists_false, iff_false]
      rintro ⟨p, hp⟩
      by_cases hpd : p = d <;> simp [hpd] at hp
    · refine iff_false_intro (no_spare_update (by simp) ?_)
      simp

/-- Nothing but the directory is in use then. -/
theorem UvmLinked.eq_dir {use : Nat → Option FrameUse} {m' : PhysMem} {d k : Nat} {u : FrameUse}
    (hl : UvmLinked m pageDir use m') (hset : Settled use d fun _ _ => False)
    (hspare : (∃ k, use k = some .spare) ↔ False) (hk : use k = some u) : k = d := by
  cases u with
  | spare => exact absurd ⟨k, hk⟩ (mt hspare.mp id)
  | dir => exact hl.unique k d _ hk hset.dir (by simp)
  | table i =>
    obtain ⟨j, hj⟩ := (hset.tables i).mp ⟨k, hk⟩
    exact hj.elim
  | page i j => exact ((hset.pages i j).mp ⟨k, hk⟩).elim

theorem Copied.used_dir {m' : PhysMem} {d : Nat}
    (h : Copied m pageDir d (fun _ _ => False) False m') (k : Nat) :
    m'.used k = (m.used k || decide (k = d)) := by
  obtain ⟨use, hl, hset, hspare⟩ := h
  rw [hl.used k]
  congr 1
  cases hu : use k with
  | none =>
    have hkd : k ≠ d := by
      rintro rfl
      rw [hset.dir] at hu
      cases hu
    simp [hkd]
  | some u => simp [hl.eq_dir hset hspare hu]

/-- Stores have gone into the directory only. -/
theorem Copied.mem_outside {m' : PhysMem} {d a : Nat}
    (h : Copied m pageDir d (fun _ _ => False) False m') (ha : ¬InFrame d a) :
    m'.mem a = m.mem a := by
  obtain ⟨use, hl, hset, hspare⟩ := h
  refine hl.old a fun k hk => ?_
  obtain ⟨u, hu⟩ := Option.isSome_iff_exists.mp hk
  rwa [hl.eq_dir hset hspare hu]

end Start
end Wjos
