/-
Wjos.Core.AllocPages — what `memory_alloc_for_page_dir` of
`kernel/core/memory.c` does with any number of free frames.

Each pass of its loop takes a frame for the page and, where the page has no
table, one for the table. `mapCost` adds these up along a list of pages, so
the loop runs to its end exactly when that many frames are free
(`allocLoop_cases`), and then the pages are backed by frames that were free
(`Backed`). It returns 0 either way.

The loop goes over as many pages as `size` needs when it starts a page, so an
unaligned range may have one page more (`rangePages`).
-/
import Wjos.Core.PageTables

namespace Wjos

open Lib

/-! ## Frames that are needed -/

/-- The frames that a loop over the pages takes, tables included, when `has`
says which tables are there. -/
def mapCost (has : Nat → Bool) : List Nat → Nat
  | [] => 0
  | p :: ps => (if has (p / 1024) then 1 else 2) + mapCost (fun i => has i || i == p / 1024) ps

/-- One frame for each page and one for each table that is missing. -/
def framesNeeded (has : Nat → Bool) (ps : List Nat) : Nat :=
  ps.length + ((ps.map (· / 1024)).toFinset.filter fun i => has i = false).card

/-- The loop takes these frames, in its own order. -/
theorem mapCost_eq (has : Nat → Bool) (ps : List Nat) : mapCost has ps = framesNeeded has ps := by
  unfold framesNeeded
  induction ps generalizing has with
  | nil => rfl
  | cons p ps ih =>
    rw [mapCost, ih, List.length_cons, List.map_cons, List.toFinset_cons]
    cases hp : has (p / 1024) with
    | true =>
      have hsame : ∀ i, (has i || i == p / 1024) = has i := by
        intro i
        by_cases hi : i = p / 1024
        · simp [hi, hp]
        · simp [hi]
      have hno : ¬has (p / 1024) = false := by simp [hp]
      rw [Finset.filter_insert, if_neg hno, if_pos rfl]
      simp only [hsame]
      omega
    | false =>
      have hrest : ((ps.map (· / 1024)).toFinset.filter fun i => (has i || i == p / 1024) = false) =
          ((ps.map (· / 1024)).toFinset.filter fun i => has i = false).erase (p / 1024) := by
        ext i
        simp only [Finset.mem_filter, Finset.mem_erase, Bool.or_eq_false_iff, beq_eq_false_iff_ne]
        constructor
        · rintro ⟨h₁, h₂, h₃⟩
          exact ⟨h₃, h₁, h₂⟩
        · rintro ⟨h₃, h₁, h₂⟩
          exact ⟨h₁, h₂, h₃⟩
      rw [hrest, Finset.filter_insert, if_pos hp, ← Finset.card_erase_add_one
        (Finset.mem_insert_self (p / 1024) _), Finset.erase_insert_eq_erase]
      simp only [Bool.false_eq_true, if_false]
      omega

theorem mapCost_congr {has has' : Nat → Bool} {ps : List Nat} (hps : ∀ p ∈ ps, p < 1048576)
    (h : ∀ i < 1024, has i = has' i) : mapCost has ps = mapCost has' ps := by
  induction ps generalizing has has' with
  | nil => rfl
  | cons p ps ih =>
    have hp := hps p List.mem_cons_self
    rw [mapCost, mapCost, h (p / 1024) (by omega)]
    congr 1
    refine ih (fun q hq => hps q (List.mem_cons_of_mem p hq)) fun i hi => ?_
    rw [h i hi]

/-! ## Pages that are backed -/

/-- Between `m` and `m'` the pages `ps` have each got a frame of their own
that was free, with the flags `perm`; nothing else has been mapped. -/
structure Backed (dir perm : Nat) (ps : List Nat) (m m' : PhysMem) : Prop where
  ok : DirOk m' dir
  took : Took dir m (mapCost (hasTable m dir) ps) m'
  tables : ∀ i < 1024, hasTable m' dir i = (hasTable m dir i || decide (∃ p ∈ ps, i = p / 1024))
  fresh : ∀ p ∈ ps, ∃ k < m.frames, m.used k = false ∧ m'.used k = true ∧
    pageEntry m' dir p = some (frameAddr k + (perm ||| 1))
  apart : ∀ p ∈ ps, ∀ q ∈ ps, pageEntry m' dir p = pageEntry m' dir q → p = q
  others : ∀ q < 1048576, q ∉ ps → pageEntry m' dir q = pageEntry m dir q

/-- The page of pass `i` of the loop. -/
def allocPage (vaddr i : Nat) : Nat := (vaddr + 4096 * i) % 4294967296 / 4096

section Loop

variable {m m' : PhysMem} {dir vaddr perm i k p : Nat} {is ps : List Nat}

theorem allocPage_lt (vaddr i : Nat) : allocPage vaddr i < 1048576 := by
  unfold allocPage
  omega

/-- A free frame taken. -/
theorem DirOk.take (h : DirOk m dir) (hk : k < m.frames) (hfree : m.used k = false) :
    DirOk (m.mark k (~~~0)) dir ∧ Took dir m 1 (m.mark k (~~~0)) := by
  have hused : ∀ j, m.used j = true → (m.mark k (~~~0)).used j = true := by
    intro j hj
    rw [mark_used hk, hj]
    split
    · decide
    · rfl
  refine ⟨⟨h.phys.mark, ?_, ?_, h.distinct, h.empty⟩,
    ⟨mark_frames, rfl, hused, freeCount_take hk hfree, fun _ _ ht => ht, fun _ _ _ => rfl⟩⟩
  · rcases h.dirAt with hlow | ⟨d, hd, he, hu⟩
    · exact .inl hlow
    · exact .inr ⟨d, by rwa [mark_frames], he, hused d hu⟩
  · intro i hi hp
    obtain ⟨t, ht, ha, hu, hne⟩ := h.table i hi hp
    exact ⟨t, by rwa [mark_frames], ha, hused t hu, hne⟩

/-- A pass that fails takes no frame, or the one that its page was to get, and
frees bits of the map. -/
def PassFailed (vaddr i : Nat) (m m' : PhysMem) : Prop :=
  m' = m ∨ ∃ k < m.frames, m.used k = false ∧ m' = { m.mark k (~~~0) with
    paddrAlloc := addrFreePage (m.mark k (~~~0)).paddrAlloc (UInt32.ofNat vaddr) (i + 1) }

theorem PassFailed.mem (h : PassFailed vaddr i m m') : m'.mem = m.mem := by
  rcases h with rfl | ⟨k, -, -, rfl⟩
  · rfl
  · rfl

/-- One pass over a page that is not mapped: a free frame is taken and mapped,
or there are too few frames and no entry has changed. -/
theorem allocForPageDir_mapped (h : DirOk m dir) (hperm : perm < 4096)
    (hnew : pageEntry m dir (allocPage vaddr i) = none) :
    (mapCost (hasTable m dir) [allocPage vaddr i] ≤ m.freeCount ∧
        ∃ k m', allocForPageDir dir vaddr perm i m = some (true, m') ∧ k < m.frames ∧
          m.used k = false ∧ TableOnly dir (allocPage vaddr i / 1024) (m.mark k (~~~0)) m' ∧
          Mapped dir (allocPage vaddr i) (frameAddr k + (perm ||| 1)) (m.mark k (~~~0)) m' ∧
          (addrAllocPage m.paddrAlloc 1).2.toNat = frameAddr k) ∨
      m.freeCount < mapCost (hasTable m dir) [allocPage vaddr i] ∧
        ∃ m', allocForPageDir dir vaddr perm i m = some (false, m') ∧ PassFailed vaddr i m m' := by
  have hcost : mapCost (hasTable m dir) [allocPage vaddr i] =
      if hasTable m dir (allocPage vaddr i / 1024) then 1 else 2 := rfl
  have hv : (vaddr + 4096 * i) % 4294967296 < 4294967296 := Nat.mod_lt _ (by decide)
  rw [hcost, allocForPageDir]
  rcases paddrAllocPage_cases h.phys with ⟨hfull, he⟩ | ⟨k, hk, hfree, he, -⟩
  · refine .inr ⟨by split <;> omega, m, ?_, .inl rfl⟩
    rw [seq_some he]
    rfl
  · have haddr : (addrAllocPage m.paddrAlloc 1).2.toNat = frameAddr k :=
      (Prod.mk.inj (Option.some.inj he)).1
    obtain ⟨hok, htook⟩ := h.take hk hfree
    have hlt := frameAddr_lt h.phys hk
    have hcount := htook.count
    have hflags : perm ||| 1 < 4096 := Nat.or_lt_two_pow (n := 12) hperm (by decide)
    have hentry : frameAddr k ||| perm ||| 1 = frameAddr k + (perm ||| 1) := by
      rw [Nat.or_assoc, frameAddr_or hflags]
    have hbound : frameAddr k ||| perm ||| 1 < 4294967296 := by
      rw [hentry]
      omega
    rw [seq_some he, if_neg (frameAddr_pos k)]
    rcases hok.createMap_step 0 hv hnew hbound with ⟨hno, hfull, hrun⟩ | ⟨m', hmap, honly, hrun⟩
    · -- no frame is left for the table; what is freed then is bits of the map only
      rw [pdeIndex_eq] at hno
      have hno' : hasTable m dir (allocPage vaddr i / 1024) = false := hno
      refine .inr ⟨by rw [hno', if_neg Bool.false_ne_true]; omega, ?_⟩
      let freed := addrFreePage (m.mark k (~~~0)).paddrAlloc (UInt32.ofNat vaddr) (i + 1)
      refine ⟨{ m.mark k (~~~0) with paddrAlloc := freed }, ?_, .inr ⟨k, hk, hfree, rfl⟩⟩
      rw [seq_some hrun, if_pos (by decide)]
      rfl
    · change Mapped dir (allocPage vaddr i) _ (m.mark k (~~~0)) m' at hmap
      rw [hentry] at hmap
      refine .inl ⟨?_, k, m', ?_, hk, hfree, honly, hmap, haddr⟩
      · have hmapped := hmap.took.count
        change m'.freeCount + (if hasTable m dir (allocPage vaddr i / 1024) then 0 else 1) = _
          at hmapped
        split at hmapped <;> split <;> simp_all <;> omega
      · rw [seq_some (hrun.trans rfl)]
        rfl

/-- So the page is backed. -/
theorem allocForPageDir_cases (h : DirOk m dir) (hperm : perm < 4096)
    (hnew : pageEntry m dir (allocPage vaddr i) = none) :
    (mapCost (hasTable m dir) [allocPage vaddr i] ≤ m.freeCount ∧
        ∃ m', allocForPageDir dir vaddr perm i m = some (true, m') ∧
          Backed dir perm [allocPage vaddr i] m m') ∨
      m.freeCount < mapCost (hasTable m dir) [allocPage vaddr i] ∧
        ∃ m', allocForPageDir dir vaddr perm i m = some (false, m') ∧ m'.mem = m.mem := by
  refine (allocForPageDir_mapped h hperm hnew).imp ?_ fun ⟨hless, m', hrun, hfail⟩ =>
    ⟨hless, m', hrun, hfail.mem⟩
  rintro ⟨hcost, k, m', hrun, hk, hfree, -, hmap, -⟩
  have hboth : Took dir m (1 + if hasTable m dir (allocPage vaddr i / 1024) then 0 else 1) m' :=
    (h.take hk hfree).2.trans hmap.took
  have hsum : (1 + if hasTable m dir (allocPage vaddr i / 1024) then 0 else 1) =
      mapCost (hasTable m dir) [allocPage vaddr i] := by
    rw [mapCost]
    split <;> rfl
  rw [hsum] at hboth
  refine ⟨hcost, m', hrun, hmap.ok, hboth, ?_, ?_, ?_, ?_⟩
  · intro j hj
    have htab : hasTable m' dir j =
      (hasTable m dir j || decide (j = allocPage vaddr i / 1024)) := hmap.tables j hj
    simpa using htab
  · intro p hp
    rw [List.mem_singleton.mp hp]
    refine ⟨k, hk, hfree, hmap.took.used k ?_, ?_⟩
    · simp [mark_used hk, show ¬ ~~~(0 : Int) = 0 by decide]
    · rw [hmap.entries _ (allocPage_lt ..)]
      exact if_pos rfl
  · intro p hp q hq _
    rw [List.mem_singleton.mp hp, List.mem_singleton.mp hq]
  · intro q hq hne
    rw [hmap.entries q hq]
    exact if_neg fun he => hne (List.mem_singleton.mpr he)

theorem mapCost_cons (hps : ∀ q ∈ ps, q < 1048576) (h : Backed dir perm [p] m m') :
    mapCost (hasTable m dir) (p :: ps) =
      mapCost (hasTable m dir) [p] + mapCost (hasTable m' dir) ps := by
  rw [mapCost, mapCost, mapCost, Nat.add_zero]
  congr 1
  refine mapCost_congr hps fun i hi => ?_
  rw [h.tables i hi]
  simp [beq_eq_decide]

/-- One more page in front. -/
theorem Backed.cons {m'' : PhysMem} (h : Backed dir perm [p] m m') (h' : Backed dir perm ps m' m'')
    (hp : p < 1048576) (hps : ∀ q ∈ ps, q < 1048576) (hnot : p ∉ ps) :
    Backed dir perm (p :: ps) m m'' := by
  have hold : ∀ k, m'.used k = false → m.used k = false := by
    intro k hk
    cases hu : m.used k with
    | true => exact absurd (h.took.used k hu) (by simp [hk])
    | false => rfl
  have hkeep : pageEntry m'' dir p = pageEntry m' dir p := h'.others p hp hnot
  obtain ⟨k, hk, hfree, hused, hentry⟩ := h.fresh p List.mem_cons_self
  have hlater : ∀ q ∈ ps, pageEntry m'' dir p ≠ pageEntry m'' dir q := by
    intro q hq he
    obtain ⟨k', -, hfree', -, hentry'⟩ := h'.fresh q hq
    rw [hkeep, hentry, hentry', Option.some.injEq] at he
    have hkk : k = k' := frameAddr_inj (by omega)
    rw [← hkk, hused] at hfree'
    exact absurd hfree' (by decide)
  refine ⟨h'.ok, ?_, ?_, ?_, ?_, ?_⟩
  · rw [mapCost_cons hps h]
    exact h.took.trans h'.took
  · intro i hi
    rw [h'.tables i hi, h.tables i hi]
    simp [Bool.or_assoc]
  · intro q hq
    rcases List.mem_cons.mp hq with rfl | hq
    · exact ⟨k, hk, hfree, h'.took.used k hused, hkeep.trans hentry⟩
    · obtain ⟨k', hk', hfree', hused', hentry'⟩ := h'.fresh q hq
      exact ⟨k', h.took.frames ▸ hk', hold k' hfree', hused', hentry'⟩
  · intro q hq q' hq' he
    rcases List.mem_cons.mp hq with hqp | hqs <;> rcases List.mem_cons.mp hq' with hqp' | hqs'
    · exact hqp.trans hqp'.symm
    · exact absurd (hqp ▸ he) (hlater q' hqs')
    · exact absurd (hqp' ▸ he.symm) (hlater q hqs)
    · exact h'.apart q hqs q' hqs' he
  · intro q hq hno
    rw [List.mem_cons, not_or] at hno
    rw [h'.others q hq hno.2]
    exact h.others q hq (by simp [hno.1])

/-- The loop over pages that are not mapped: all of them are backed, or there
are too few frames and one of them is left out. -/
theorem allocLoop_cases (h : DirOk m dir) (hperm : perm < 4096)
    (hnodup : (is.map (allocPage vaddr)).Nodup)
    (hnew : ∀ i ∈ is, pageEntry m dir (allocPage vaddr i) = none) :
    (mapCost (hasTable m dir) (is.map (allocPage vaddr)) ≤ m.freeCount ∧
        ∃ m', forEach (allocForPageDir dir vaddr perm) is m = some (true, m') ∧
          Backed dir perm (is.map (allocPage vaddr)) m m') ∨
      m.freeCount < mapCost (hasTable m dir) (is.map (allocPage vaddr)) ∧
        ∃ m', forEach (allocForPageDir dir vaddr perm) is m = some (false, m') ∧
          ∃ p ∈ is.map (allocPage vaddr), pageEntry m' dir p = none := by
  induction is generalizing m with
  | nil =>
    refine .inl ⟨Nat.zero_le _, m, rfl, h, Took.refl dir m, ?_, ?_, ?_, fun _ _ _ => rfl⟩
    · simp
    · simp
    · simp
  | cons i is ih =>
    rw [List.map_cons, List.nodup_cons] at hnodup
    have hlt : ∀ q ∈ is.map (allocPage vaddr), q < 1048576 := by
      intro q hq
      obtain ⟨j, -, rfl⟩ := List.mem_map.mp hq
      exact allocPage_lt vaddr j
    rw [List.map_cons]
    rcases allocForPageDir_cases h hperm (hnew i List.mem_cons_self) with
      ⟨hcost, m₁, hrun, hback⟩ | ⟨hcost, m', hrun, hmem⟩
    · have hcons := mapCost_cons hlt hback
      have hcount := hback.took.count
      have hnew' : ∀ j ∈ is, pageEntry m₁ dir (allocPage vaddr j) = none := by
        intro j hj
        have hne : allocPage vaddr j ≠ allocPage vaddr i := by
          intro he
          exact hnodup.1 (he ▸ List.mem_map_of_mem hj)
        rw [hback.others _ (allocPage_lt ..) (by simpa using hne)]
        exact hnew j (List.mem_cons_of_mem i hj)
      rw [forEach, seq_some hrun, if_pos rfl, hcons]
      rcases ih hback.ok hnodup.2 hnew' with ⟨hrest, m', hrun', hback'⟩ | ⟨hrest, m', hrun', hp⟩
      · exact .inl ⟨by omega, m', hrun',
          hback.cons hback' (allocPage_lt vaddr i) hlt hnodup.1⟩
      · obtain ⟨p, hp, hnone⟩ := hp
        exact .inr ⟨by omega, m', hrun', p, List.mem_cons_of_mem _ hp, hnone⟩
    · refine .inr ⟨?_, m', ?_, allocPage vaddr i, List.mem_cons_self, ?_⟩
      · rw [mapCost, mapCost, Nat.add_zero] at hcost
        rw [mapCost]
        omega
      · rw [forEach, seq_some hrun]
        rfl
      · have hsame :
            pageEntry m' dir (allocPage vaddr i) = pageEntry m dir (allocPage vaddr i) := by
          unfold pageEntry
          rw [hmem]
        rw [hsame]
        exact hnew i List.mem_cons_self

end Loop

/-! ## The whole call -/

/-- The pages that intersect the range. -/
def rangePages (vaddr size : Nat) : List Nat :=
  if size = 0 then []
  else (List.range ((vaddr % 4096 + size + 4095) / 4096)).map fun i => (vaddr / 4096 + i) % 1048576

/-- Every page of the range is mapped, with the flags `perm`, to a frame of
its own that was free. -/
def AllBacked (dir perm : Nat) (ps : List Nat) (m m' : PhysMem) : Prop :=
  (∀ p ∈ ps, ∃ k < m.frames, m.used k = false ∧
    pageEntry m' dir p = some (frameAddr k + (perm ||| 1))) ∧
  ∀ p ∈ ps, ∀ q ∈ ps, pageEntry m' dir p = pageEntry m' dir q → p = q

/-- The call that goes from `m` to `m'` and returns `r` says truly whether
the range is backed, and has done nothing when it fails. -/
structure AllocHonest (dir vaddr size perm : Nat) (m : PhysMem) (r : Int) (m' : PhysMem) :
    Prop where
  success : r = 0 ↔ AllBacked dir perm (rangePages vaddr size) m m'
  failure : r ≠ 0 → r < 0 ∧ m'.paddrAlloc.bitmap = m.paddrAlloc.bitmap ∧
    ∀ p < 1048576, pageEntry m' dir p = pageEntry m dir p

/-- The range fits in as many pages as its size alone needs. -/
def FitsPages (vaddr size : Nat) : Prop := size = 0 ∨ vaddr % 4096 + size ≤ up2 size 4096

section Whole

variable {m m' : PhysMem} {dir vaddr size perm : Nat}

theorem up2_page (hs : size < 4294967296) :
    up2 size 4096 = (size + 4095) % 4294967296 / 4096 * 4096 :=
  up2_eq_mod (k := 12) (by decide) hs

/-- The pages of the loop, in order. -/
theorem map_allocPage (vaddr n : Nat) : (List.range n).map (allocPage vaddr) =
    (List.range n).map fun i => (vaddr / 4096 + i) % 1048576 := by
  refine List.map_congr_left fun i _ => ?_
  unfold allocPage
  omega

theorem nodup_rangePages {n : Nat} (v : Nat) (hn : n ≤ 1048576) :
    ((List.range n).map fun i => (v + i) % 1048576).Nodup := by
  refine List.nodup_range.map_on fun i hi j hj he => ?_
  rw [List.mem_range] at hi hj
  omega

/-- `memory_alloc_for_page_dir` on a range without a mapped page: the pages
the loop goes over are backed, or one of them is left out. It returns 0. -/
theorem memoryAllocForPageDir_cases (h : DirOk m dir) (vaddr : Nat) (hs : size < 4294967296)
    (hperm : perm < 4096)
    (hnew : ∀ i < up2 size 4096 / 4096, pageEntry m dir ((vaddr / 4096 + i) % 1048576) = none) :
    ∃ m', memoryAllocForPageDir dir vaddr size perm m = some (0, m') ∧
      let ps := (List.range (up2 size 4096 / 4096)).map fun i => (vaddr / 4096 + i) % 1048576
      (mapCost (hasTable m dir) ps ≤ m.freeCount ∧ Backed dir perm ps m m' ∨
        m.freeCount < mapCost (hasTable m dir) ps ∧ ∃ p ∈ ps, pageEntry m' dir p = none) := by
  have hcount : up2 size 4096 / 4096 ≤ 1048576 := by
    rw [up2_page hs]
    omega
  have hnodup := nodup_rangePages (vaddr / 4096) hcount
  rw [← map_allocPage] at hnodup
  have hloop := allocLoop_cases h hperm hnodup fun i hi => by
    rw [show allocPage vaddr i = (vaddr / 4096 + i) % 1048576 by unfold allocPage; omega]
    exact hnew i (List.mem_range.mp hi)
  rw [map_allocPage] at hloop
  rcases hloop with ⟨hcost, m', hrun, hback⟩ | ⟨hcost, m', hrun, hp⟩
  · refine ⟨m', ?_, .inl ⟨hcost, hback⟩⟩
    rw [memoryAllocForPageDir, seq_some hrun]
    rfl
  · refine ⟨m', ?_, .inr ⟨hcost, hp⟩⟩
    rw [memoryAllocForPageDir, seq_some hrun]
    rfl

/-- The call returns 0 always, so it is honest exactly when all is well. -/
theorem allocHonest_zero : AllocHonest dir vaddr size perm m 0 m' ↔
    AllBacked dir perm (rangePages vaddr size) m m' := by
  constructor
  · exact fun h => h.success.mp rfl
  · exact fun h => ⟨⟨fun _ => h, fun _ => rfl⟩, fun hne => absurd rfl hne⟩

/-- The pages of the loop are the first ones of the range, and all of them
where the range fits. -/
theorem mem_rangePages {i : Nat} (hs : size < 4294967296) (hi : i < up2 size 4096 / 4096) :
    (vaddr / 4096 + i) % 1048576 ∈ rangePages vaddr size := by
  rw [up2_page hs] at hi
  have hpos : size ≠ 0 := by
    rintro rfl
    omega
  rw [rangePages, if_neg hpos]
  exact List.mem_map.mpr ⟨i, List.mem_range.mpr (by omega), rfl⟩

theorem rangePages_fits (hs : size < 4294967296) (hfit : FitsPages vaddr size) :
    rangePages vaddr size =
      (List.range (up2 size 4096 / 4096)).map fun i => (vaddr / 4096 + i) % 1048576 := by
  unfold FitsPages at hfit
  rw [up2_page hs] at hfit ⊢
  unfold rangePages
  by_cases hsize : size = 0
  · rw [if_pos hsize, hsize]
    rfl
  · rw [if_neg hsize]
    congr 2
    omega

/-- Where it does not fit, the page behind those of the loop belongs to it. -/
theorem rangePages_over (hs : size < 4294967296) (hover : ¬FitsPages vaddr size) :
    ∃ p ∈ rangePages vaddr size, p < 1048576 ∧
      p ∉ (List.range (up2 size 4096 / 4096)).map fun i => (vaddr / 4096 + i) % 1048576 := by
  unfold FitsPages at hover
  rw [not_or] at hover
  rw [up2_page hs] at hover ⊢
  rw [rangePages, if_neg hover.1]
  refine ⟨(vaddr / 4096 + (size + 4095) % 4294967296 / 4096) % 1048576,
    List.mem_map.mpr ⟨_, List.mem_range.mpr ?_, rfl⟩, Nat.mod_lt _ (by decide), fun hmem => ?_⟩
  · omega
  · obtain ⟨i, hi, he⟩ := List.mem_map.mp hmem
    rw [List.mem_range] at hi
    omega

/-- `memory_alloc_for_page_dir` on a range without a mapped page is honest
and atomic exactly when the range fits in the pages its size needs and there
are frames for these pages and for the tables they miss. -/
theorem memoryAllocForPageDir_honest_iff (h : DirOk m dir) (hs : size < 4294967296)
    (hperm : perm < 4096) (hnew : ∀ p ∈ rangePages vaddr size, pageEntry m dir p = none) :
    ∃ r m', memoryAllocForPageDir dir vaddr size perm m = some (r, m') ∧
      (AllocHonest dir vaddr size perm m r m' ↔
        FitsPages vaddr size ∧
          framesNeeded (hasTable m dir) (rangePages vaddr size) ≤ m.freeCount) := by
  rw [← mapCost_eq]
  obtain ⟨m', hrun, hcases⟩ := memoryAllocForPageDir_cases h vaddr hs hperm fun i hi =>
    hnew _ (mem_rangePages hs hi)
  refine ⟨0, m', hrun, allocHonest_zero.trans ?_⟩
  by_cases hfit : FitsPages vaddr size
  · rw [rangePages_fits hs hfit]
    constructor
    · rintro ⟨hall, -⟩
      rcases hcases with ⟨hcost, -⟩ | ⟨-, p, hp, hnone⟩
      · exact ⟨hfit, hcost⟩
      · obtain ⟨k, -, -, hentry⟩ := hall p hp
        rw [hnone] at hentry
        cases hentry
    · rintro ⟨-, hcost⟩
      rcases hcases with ⟨-, hback⟩ | ⟨hless, -⟩
      · refine ⟨fun p hp => ?_, hback.apart⟩
        obtain ⟨k, hk, hfree, -, hentry⟩ := hback.fresh p hp
        exact ⟨k, hk, hfree, hentry⟩
      · exact absurd hcost (Nat.not_le_of_lt hless)
  · refine iff_of_false ?_ fun hc => hfit hc.1
    rintro ⟨hall, -⟩
    obtain ⟨p, hp, hlt, hnot⟩ := rangePages_over hs hfit
    rcases hcases with ⟨-, hback⟩ | ⟨-, q, hq, hnone⟩
    · obtain ⟨k, -, -, hentry⟩ := hall p hp
      rw [hback.others p hlt hnot, hnew p hp] at hentry
      cases hentry
    · obtain ⟨i, hi, rfl⟩ := List.mem_map.mp hq
      obtain ⟨k, -, -, hentry⟩ := hall _ (mem_rangePages hs (List.mem_range.mp hi))
      rw [hnone] at hentry
      cases hentry

/-- The rule for two pages on a machine with four frames. -/
theorem memoryAllocForPageDir_honest_two : ∃ r m',
    memoryAllocForPageDir 0x1000 0x80000000 8192 7 (emptyMem 16384) = some (r, m') ∧
      AllocHonest 0x1000 0x80000000 8192 7 (emptyMem 16384) r m' := by
  obtain ⟨r, m', hrun, hiff⟩ := memoryAllocForPageDir_honest_iff
    (emptyMem_dirOk (by decide)) (show 8192 < 4294967296 by decide) (show 7 < 4096 by decide)
    (fun p (_ : p ∈ rangePages 0x80000000 8192) => emptyMem_pageEntry 16384 p)
  exact ⟨r, m', hrun, hiff.mpr ⟨.inr (by decide), by decide +kernel⟩⟩

/-- With two frames the table and the first page take both: the call returns
0, and the second page is not mapped. -/
theorem alloc_success_without_frames :
    ¬ ∀ (m : PhysMem) (dir vaddr size perm : Nat) (r : Int) (m' : PhysMem), DirOk m dir →
      size < 4294967296 → perm < 4096 → (∀ p ∈ rangePages vaddr size, pageEntry m dir p = none) →
        memoryAllocForPageDir dir vaddr size perm m = some (r, m') →
          AllocHonest dir vaddr size perm m r m' := by
  intro h
  have hok : DirOk (emptyMem 8192) 0x1000 := emptyMem_dirOk (by decide)
  obtain ⟨m', hrun, -⟩ := memoryAllocForPageDir_cases hok 0x80000000
    (show 8192 < 4294967296 by decide) (show 7 < 4096 by decide)
      fun i _ => emptyMem_pageEntry 8192 _
  have hnone : (memoryAllocForPageDir 0x1000 0x80000000 8192 7 (emptyMem 8192)).map
      (fun r => pageEntry r.2 0x1000 0x80001) = some none := by decide +kernel
  rw [hrun, Option.map_some, Option.some.injEq] at hnone
  have hhonest := h _ 0x1000 0x80000000 8192 7 0 m' hok (by decide) (by decide)
    (fun p _ => emptyMem_pageEntry 8192 p) hrun
  obtain ⟨k, -, -, hentry⟩ := (hhonest.success.mp rfl).1 0x80001 (by decide)
  rw [hnone] at hentry
  cases hentry

end Whole

end Wjos
