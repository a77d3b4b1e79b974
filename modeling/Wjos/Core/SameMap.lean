/-
Wjos.Core.SameMap — two memories in which a directory maps the same pages to
the same frames.

Nobody clears the frames that `memory_alloc_for_page_dir` hands out, so two
kernels may differ in what the free ones hold. They take the same frames in the
same order all the same, if they agree on what the loop looks at: the map of
the allocator, the tables that are there and the entries. `SameMap` says that
they do. A pass keeps it, whether it maps its page, finds no frame or stops the
machine (`SameMap.pass`).

`MapGrown m₀ dir m` is about one of the two: since `m₀` stores have gone into
the directory and its tables only, so a page that was mapped in between holds
what its frame held in `m₀`. A pass keeps that too (`MapGrown.pass`), unless it
frees bits of the map that are in use; `memoryAllocForPageDir_pair` is the whole
call, from a directory that maps the frames where the kernel sees them.
-/
import Wjos.Core.SpaceGrowth

namespace Wjos

open Lib

/-- Two memories with the same page allocator, in which `dir` has the same
tables and maps the same pages to the same frames. -/
structure SameMap (dir : Nat) (m₁ m₂ : PhysMem) : Prop where
  paddrAlloc : m₁.paddrAlloc = m₂.paddrAlloc
  tables : ∀ i < 1024, hasTable m₁ dir i = hasTable m₂ dir i
  entries : ∀ p < 1048576, pageEntry m₁ dir p = pageEntry m₂ dir p

/-- Between `m₀` and `m` pages have been mapped in an address space, and stores
have gone nowhere but into the directory and its tables. -/
structure MapGrown (m₀ : PhysMem) (dir : Nat) (m : PhysMem) : Prop where
  space : SpaceOk m dir
  frames : m.frames = m₀.frames
  keep : ∀ p < 1048576, ∀ e, pageEntry m₀ dir p = some e → pageEntry m dir p = some e
  mem : ∀ a, ¬(dir ≤ a ∧ a < dir + 4096) → (∀ k, TableFrame m.mem dir k → ¬InFrame k a) →
    m.mem a = m₀.mem a

/-- The kernel sees the frames at their own addresses. -/
def FramesMapped (m : PhysMem) (dir : Nat) : Prop :=
  ∀ k < m.frames, pageEntry m dir (frameAddr k / 4096) ≠ none

/-- The allocator after a pass of the loop of `memory_alloc_for_page_dir` over
a page that is not mapped; `has` says whether the page has a table. -/
def passAlloc (alloc : AddrAlloc) (has : Bool) (vaddr i : Nat) : AddrAlloc :=
  let r := addrAllocPage alloc 1
  if r.2.toNat = 0 ∨ has = true then r.1
  else
    let r' := addrAllocPage r.1 1
    if r'.2.toNat = 0 then addrFreePage r'.1 (UInt32.ofNat vaddr) (i + 1) else r'.1

/-! ## One pass -/

section Pass

variable {m₀ m m' m₁ m₂ : PhysMem} {dir vaddr paddr perm i k v : Nat} {b : Bool} {r : Int}

theorem SameMap.freeCount (h : SameMap dir m₁ m₂) : m₁.freeCount = m₂.freeCount := by
  unfold PhysMem.freeCount PhysMem.freeFrames PhysMem.used PhysMem.frames
  rw [h.paddrAlloc]

theorem SameMap.translate (h : SameMap dir m₁ m₂) (hv : v < 4294967296) :
    translate m₁ dir v = translate m₂ dir v := by
  rw [translate_pageEntry, translate_pageEntry, h.entries _ (by omega)]

theorem MapGrown.refl (h : SpaceOk m dir) : MapGrown m dir m :=
  ⟨h, rfl, fun _ _ _ he => he, fun _ _ _ => rfl⟩

/-- A page that the program has holds what its frame held. -/
theorem MapGrown.byte (h : MapGrown m₀ dir m) (hlo : memoryTaskBase ≤ v) (hhi : v < 4294967296)
    {a : Nat} (ht : translate m dir v = some a) : m.mem a = m₀.mem a := by
  have huser : UserPage (v / 4096) := by
    unfold memoryTaskBase at hlo
    unfold UserPage
    omega
  obtain ⟨k, -, hin, -, htable, hdir⟩ := (translate_inPage ht).1.mem_frame h.space huser
  exact h.mem a (fun hc => h.space.dir_outside hdir hc.1 hc.2 hin)
    fun t hta hat => htable (hat.unique hin ▸ hta)

theorem MapGrown.framesMapped (h : MapGrown m₀ dir m) (hm : FramesMapped m₀ dir) :
    FramesMapped m dir := by
  intro k hk
  have hlt := frameAddr_lt h.space.phys hk
  rw [h.frames] at hk
  obtain ⟨e, he⟩ := Option.ne_none_iff_exists'.mp (hm k hk)
  rw [h.keep _ (by omega) e he]
  simp

/-- `find_pte` takes a frame where there is no table. -/
theorem findPte_paddrAlloc {o : Option Nat} (hrun : findPte dir vaddr true m = some (o, m')) :
    if hasTable m dir (pdeIndex vaddr) then o.isSome = true ∧ m'.paddrAlloc = m.paddrAlloc
    else m'.paddrAlloc = (addrAllocPage m.paddrAlloc 1).1 ∧
      (o = none ↔ (addrAllocPage m.paddrAlloc 1).2.toNat = 0) := by
  have hload : loadWord (dir + 4 * pdeIndex vaddr) m =
      some (uvmPde m.mem dir (pdeIndex vaddr), m) := rfl
  rw [findPte, seq_some hload] at hrun
  have halloc : paddrAllocPage m = some ((addrAllocPage m.paddrAlloc 1).2.toNat,
    { m with paddrAlloc := (addrAllocPage m.paddrAlloc 1).1 }) := rfl
  unfold hasTable
  split at hrun
  next hp =>
    cases hrun
    rw [if_pos hp]
    exact ⟨rfl, rfl⟩
  next hp =>
    rw [if_neg hp]
    rw [if_pos rfl, seq_some halloc] at hrun
    split at hrun
    next hzero =>
      cases hrun
      exact ⟨rfl, iff_of_true rfl hzero⟩
    next hfound =>
      cases hrun
      exact ⟨rfl, iff_of_false (by simp) hfound⟩

/-- `memory_create_map` of one page: what it takes, and when it fails. -/
theorem memoryCreateMap_paddrAlloc
    (hrun : memoryCreateMap dir vaddr paddr 1 perm m = some (r, m')) :
    if hasTable m dir (pdeIndex vaddr) then r = 0 ∧ m'.paddrAlloc = m.paddrAlloc
    else m'.paddrAlloc = (addrAllocPage m.paddrAlloc 1).1 ∧
      r = if (addrAllocPage m.paddrAlloc 1).2.toNat = 0 then -1 else 0 := by
  rw [memoryCreateMap] at hrun
  obtain ⟨⟨o, m₁⟩, hfind, hrun⟩ := Option.bind_eq_some_iff.mp hrun
  have hpte := findPte_paddrAlloc hfind
  cases o with
  | none =>
    cases hrun
    split at hpte
    next hp => exact absurd hpte.1 (by decide)
    next hp =>
      rw [if_neg hp, if_pos (hpte.2.mp rfl)]
      exact ⟨hpte.1, rfl⟩
  | some pte =>
    dsimp only at hrun
    have hload : loadWord pte m₁ = some (le32 m₁.mem pte, m₁) := rfl
    rw [seq_some hload] at hrun
    cases hpres : !entryPresent (le32 m₁.mem pte) with
    | false =>
      rw [hpres, seq_none rfl] at hrun
      cases hrun
    | true =>
      have hcheck : check true m₁ = some ((), m₁) := rfl
      rw [hpres, seq_some hcheck] at hrun
      cases hrun
      split at hpte
      next hp =>
        rw [if_pos hp]
        exact ⟨rfl, hpte.2⟩
      next hp =>
        rw [if_neg hp, if_neg fun hzero => absurd (hpte.2.mpr hzero) (by simp)]
        exact ⟨hpte.1, rfl⟩

/-- What a pass does to the allocator, if it does not stop the machine. -/
theorem allocForPageDir_paddrAlloc
    (hrun : allocForPageDir dir vaddr perm i m = some (b, m')) : m'.paddrAlloc =
      passAlloc m.paddrAlloc (hasTable m dir (allocPage vaddr i / 1024)) vaddr i := by
  have halloc : paddrAllocPage m = some ((addrAllocPage m.paddrAlloc 1).2.toNat,
    { m with paddrAlloc := (addrAllocPage m.paddrAlloc 1).1 }) := rfl
  rw [allocForPageDir, seq_some halloc] at hrun
  unfold passAlloc
  dsimp only
  split at hrun
  next hzero =>
    cases hrun
    rw [if_pos (.inl hzero)]
  next hfound =>
    obtain ⟨⟨err, m₁⟩, hmap, hrun⟩ := Option.bind_eq_some_iff.mp hrun
    have htake := memoryCreateMap_paddrAlloc hmap
    rw [pdeIndex_eq] at htake
    change if hasTable m dir (allocPage vaddr i / 1024) = true then _ else _ at htake
    split at htake
    next hp =>
      obtain ⟨rfl, hsame⟩ := htake
      cases hrun
      rw [if_pos (.inr hp)]
      exact hsame
    next hp =>
      obtain ⟨hsame, rfl⟩ := htake
      rw [if_neg (not_or.mpr ⟨hfound, hp⟩)]
      dsimp only at hrun hsame ⊢
      split at hrun
      next hnone =>
        cases hrun
        rw [if_pos hnone, ← hsame]
      next hsome =>
        cases hrun
        rw [if_neg hsome]
        exact hsame

/-- A pass over a page that is mapped finds no frame or stops the machine. -/
theorem allocForPageDir_taken (h : DirOk m dir)
    (hmap : pageEntry m dir (allocPage vaddr i) ≠ none) :
    allocForPageDir dir vaddr perm i m = if m.freeCount = 0 then some (false, m) else none := by
  rcases paddrAllocPage_cases h.phys with ⟨hfull, he⟩ | ⟨k, hk, hfree, he, -⟩
  · rw [allocForPageDir, seq_some he, if_pos hfull]
    rfl
  · have hcount := freeCount_take hk hfree
    have hpres : pagePresent m.mem dir (allocPage vaddr i / 1024) (allocPage vaddr i % 1024) =
        true := by
      by_contra hc
      exact hmap (pageEntry_eq_none.mpr (Bool.eq_false_of_not_eq_true hc))
    simp only [pagePresent, Bool.and_eq_true] at hpres
    have hlt := allocPage_lt vaddr i
    obtain ⟨t, -, ht, -⟩ := h.table _ (by omega) hpres.1
    have hfind : findPte dir ((vaddr + 4096 * i) % 4294967296) true (m.mark k (~~~0)) =
        some (some (frameAddr t + 4 * (allocPage vaddr i % 1024)), m.mark k (~~~0)) := by
      refine findPte_present (m := m.mark k (~~~0)) ?_ ?_
      · rw [pdeIndex_eq]
        exact hpres.1
      · rw [pdeIndex_eq]
        exact ht
    have hload : loadWord (frameAddr t + 4 * (allocPage vaddr i % 1024)) (m.mark k (~~~0)) =
        some (uvmPte m.mem dir (allocPage vaddr i / 1024) (allocPage vaddr i % 1024),
          m.mark k (~~~0)) := by
      rw [uvmPte, ht]
      rfl
    rw [allocForPageDir, seq_some he, if_neg (frameAddr_pos k), if_neg (by omega)]
    refine seq_none ?_
    rw [memoryCreateMap, seq_some hfind]
    dsimp only
    rw [seq_some hload, hpres.2]
    exact seq_none rfl

theorem SpaceOk.take (h : SpaceOk m dir) (hk : k < m.frames) (hfree : m.used k = false) :
    SpaceOk (m.mark k (~~~0)) dir := by
  obtain ⟨hok, htook⟩ := h.toDirOk.take hk hfree
  refine ⟨hok, fun p hp e he => ?_, h.apart⟩
  obtain ⟨t, ht, ha, hused, htable, hdir⟩ := h.frame p hp e he
  exact ⟨t, by rwa [mark_frames], ha, htook.used t hused, htable, hdir⟩

/-- A pass maps its page or leaves the map alone, from an address that is in no frame. -/
theorem MapGrown.pass (h : MapGrown m₀ dir m) (hperm : perm < 4096) (hv : vaddr < 4294967296)
    (hout : ∀ k < m.frames, ¬InFrame k vaddr)
    (hrun : allocForPageDir dir vaddr perm i m = some (b, m')) : MapGrown m₀ dir m' := by
  by_cases hnew : pageEntry m dir (allocPage vaddr i) = none
  · rcases allocForPageDir_mapped h.space.toDirOk hperm hnew with
      ⟨-, k, m₁, hstep, hk, hfree, honly, hmap, -⟩ | ⟨-, m₁, hstep, hfail⟩
    · rw [hstep] at hrun
      cases hrun
      have hlt := allocPage_lt vaddr i
      have hkeep : ∀ q < 1048576, pageEntry m dir q ≠ none →
          pageEntry m' dir q = pageEntry m dir q := by
        intro q hq hold
        refine (hmap.entries q hq).trans (if_neg fun hc => ?_)
        exact hold (hc ▸ hnew)
      refine ⟨h.space.mapped hk hfree (Nat.or_lt_two_pow (n := 12) hperm (by decide)) hmap,
        hmap.took.frames.trans (mark_frames.trans h.frames), fun q hq e he => ?_,
        fun a ha hout => ?_⟩
      · have hold := h.keep q hq e he
        rw [hkeep q hq (by simp [hold]), hold]
      · refine (honly.mem a ha fun t hat => hout t (hat.frame (by omega))).trans
          (h.mem a ha fun t hta => hout t (honly.tableFrame hta))
    · rw [hstep] at hrun
      cases hrun
      rcases hfail with rfl | ⟨k, hk, hfree, rfl⟩
      · exact h
      · have hok : PhysOk (m.mark k (~~~0)) := h.space.phys.mark
        have hsame := addrFreePage_outside hok hv
          (fun j hj => hout j (by rwa [mark_frames] at hj)) (i + 1)
        rw [hsame]
        exact ⟨h.space.take hk hfree, mark_frames.trans h.frames, h.keep, h.mem⟩
  · rw [allocForPageDir_taken h.space.toDirOk hnew] at hrun
    split at hrun
    · cases hrun
      exact h
    · cases hrun

/-- The same pass in both memories. -/
theorem SameMap.pass (h : SameMap dir m₁ m₂) (h₁ : DirOk m₁ dir) (h₂ : DirOk m₂ dir)
    (hperm : perm < 4096) :
    (allocForPageDir dir vaddr perm i m₁ = none ∧ allocForPageDir dir vaddr perm i m₂ = none) ∨
      ∃ b m₁' m₂', allocForPageDir dir vaddr perm i m₁ = some (b, m₁') ∧
        allocForPageDir dir vaddr perm i m₂ = some (b, m₂') ∧ SameMap dir m₁' m₂' := by
  have hlt := allocPage_lt vaddr i
  have hsame : ∀ {b b' m₁' m₂'}, allocForPageDir dir vaddr perm i m₁ = some (b, m₁') →
      allocForPageDir dir vaddr perm i m₂ = some (b', m₂') → m₁'.paddrAlloc = m₂'.paddrAlloc := by
    intro b b' m₁' m₂' hrun₁ hrun₂
    rw [allocForPageDir_paddrAlloc hrun₁, allocForPageDir_paddrAlloc hrun₂, h.paddrAlloc,
      h.tables _ (by omega)]
  have hcost : mapCost (hasTable m₁ dir) [allocPage vaddr i] =
      mapCost (hasTable m₂ dir) [allocPage vaddr i] :=
    mapCost_congr (by simpa using hlt) h.tables
  have hcount := h.freeCount
  by_cases hnew : pageEntry m₁ dir (allocPage vaddr i) = none
  · have hnew₂ : pageEntry m₂ dir (allocPage vaddr i) = none := h.entries _ hlt ▸ hnew
    rcases allocForPageDir_mapped h₁ hperm hnew with
        ⟨hcost₁, k₁, m₁', hrun₁, -, -, -, hmap₁, hk₁⟩ | ⟨hless₁, m₁', hrun₁, hfail₁⟩ <;>
      rcases allocForPageDir_mapped h₂ hperm hnew₂ with
        ⟨hcost₂, k₂, m₂', hrun₂, -, -, -, hmap₂, hk₂⟩ | ⟨hless₂, m₂', hrun₂, hfail₂⟩
    · have hk : k₁ = k₂ := by
        rw [h.paddrAlloc] at hk₁
        exact frameAddr_inj (hk₁.symm.trans hk₂)
      refine .inr ⟨true, m₁', m₂', hrun₁, hrun₂, hsame hrun₁ hrun₂, fun j hj => ?_,
        fun q hq => ?_⟩
      · have ht₁ : hasTable m₁' dir j = (hasTable m₁ dir j || _) := hmap₁.tables j hj
        have ht₂ : hasTable m₂' dir j = (hasTable m₂ dir j || _) := hmap₂.tables j hj
        rw [ht₁, ht₂, h.tables j hj]
      · have he₁ : pageEntry m₁' dir q = if _ then _ else pageEntry m₁ dir q := hmap₁.entries q hq
        have he₂ : pageEntry m₂' dir q = if _ then _ else pageEntry m₂ dir q := hmap₂.entries q hq
        rw [he₁, he₂, h.entries q hq, hk]
    · omega
    · omega
    · refine .inr ⟨false, m₁', m₂', hrun₁, hrun₂, hsame hrun₁ hrun₂, fun j hj => ?_,
        fun q hq => ?_⟩
      · rw [hasTable, hasTable, hfail₁.mem, hfail₂.mem]
        exact h.tables j hj
      · rw [pageEntry, pageEntry, hfail₁.mem, hfail₂.mem]
        exact h.entries q hq
  · have hnew₂ : pageEntry m₂ dir (allocPage vaddr i) ≠ none := h.entries _ hlt ▸ hnew
    rw [allocForPageDir_taken h₁ hnew, allocForPageDir_taken h₂ hnew₂, hcount]
    split
    · exact .inr ⟨false, m₁, m₂, rfl, rfl, h⟩
    · exact .inl ⟨rfl, rfl⟩

/-- The loop in both memories, where it stops in neither. -/
theorem SameMap.loop {is : List Nat} {b' : Bool} (h : SameMap dir m₁ m₂) (h₁ : DirOk m₁ dir)
    (h₂ : DirOk m₂ dir) (hperm : perm < 4096)
    (hrun₁ : forEach (allocForPageDir dir vaddr perm) is m₁ = some (b, m))
    (hrun₂ : forEach (allocForPageDir dir vaddr perm) is m₂ = some (b', m')) :
    SameMap dir m m' := by
  induction is generalizing m₁ m₂ with
  | nil =>
    cases hrun₁
    cases hrun₂
    exact h
  | cons i is ih =>
    -- a pass that goes on has mapped its page
    have hnext : ∀ {u u'}, DirOk u dir → allocForPageDir dir vaddr perm i u = some (true, u') →
        DirOk u' dir := by
      intro u u' hu hpass
      by_cases hnew : pageEntry u dir (allocPage vaddr i) = none
      · rcases allocForPageDir_mapped hu hperm hnew with
          ⟨-, k, u₁, hstep, -, -, -, hmap, -⟩ | ⟨-, u₁, hstep, -⟩
        · rw [hstep] at hpass
          cases hpass
          exact hmap.ok
        · rw [hstep] at hpass
          cases hpass
      · rw [allocForPageDir_taken hu hnew] at hpass
        split at hpass
        · cases hpass
        · cases hpass
    rw [forEach] at hrun₁ hrun₂
    rcases h.pass h₁ h₂ hperm with ⟨hnone, -⟩ | ⟨go, u₁, u₂, hpass₁, hpass₂, hsame⟩
    · rw [seq_none hnone] at hrun₁
      cases hrun₁
    · rw [seq_some hpass₁] at hrun₁
      rw [seq_some hpass₂] at hrun₂
      cases go with
      | false =>
        cases hrun₁
        cases hrun₂
        exact hsame
      | true => exact ih hsame (hnext h₁ hpass₁) (hnext h₂ hpass₂) hrun₁ hrun₂

theorem SameMap.alloc {size : Nat} {r' : Int} (h : SameMap dir m₁ m₂) (h₁ : DirOk m₁ dir)
    (h₂ : DirOk m₂ dir) (hperm : perm < 4096)
    (hrun₁ : memoryAllocForPageDir dir vaddr size perm m₁ = some (r, m))
    (hrun₂ : memoryAllocForPageDir dir vaddr size perm m₂ = some (r', m')) : SameMap dir m m' := by
  obtain ⟨⟨b, u⟩, hloop₁, hret₁⟩ := Option.bind_eq_some_iff.mp hrun₁
  obtain ⟨⟨b', u'⟩, hloop₂, hret₂⟩ := Option.bind_eq_some_iff.mp hrun₂
  cases hret₁
  cases hret₂
  exact h.loop h₁ h₂ hperm hloop₁ hloop₂

/-- Stores into the pages of a program leave the map alone. -/
theorem SameMap.touched {R : Nat → Prop} (h : SameMap dir m₁ m₂) (hs₁ : SpaceOk m₁ dir)
    (hs₂ : SpaceOk m₂ dir) (hR : ∀ u, R u → memoryTaskBase ≤ u ∧ u < 4294967296)
    (ht₁ : Touched dir R m₁ m) (ht₂ : Touched dir R m₂ m') : SameMap dir m m' := by
  refine ⟨?_, fun i hi => ?_, fun p hp => ?_⟩
  · rw [ht₁.paddrAlloc, ht₂.paddrAlloc, h.paddrAlloc]
  · rw [hasTable, hasTable, ht₁.pde hs₁ hR hi, ht₂.pde hs₂ hR hi]
    exact h.tables i hi
  · rw [ht₁.entries p hp, ht₂.entries p hp, h.entries p hp]

end Pass

/-! ## Free frames -/

section Free

variable {m m' : PhysMem} {dir : Nat}

/-- An address space, where stores have gone into free frames only. -/
theorem PhysGrown.spaceOk (h : PhysGrown m m') (hs : SpaceOk m dir) : SpaceOk m' dir := by
  obtain ⟨hok, -, hent⟩ := h.dirOk hs.toDirOk
  refine ⟨hok, fun p hp e he => ?_, fun p q hp hq e e' he he' => ?_⟩
  · rw [hent p hp.2] at he
    obtain ⟨k, hk, ha, hused, hno, hdir⟩ := hs.frame p hp e he
    refine ⟨k, h.frames ▸ hk, ha, h.used k hused, ?_, hdir⟩
    rintro ⟨i, hi, hpres, hta⟩
    rw [h.dirWord hs.toDirOk hi] at hpres hta
    exact hno ⟨i, hi, hpres, hta⟩
  · rw [hent p hp.2] at he
    rw [hent q hq.2] at he'
    exact hs.apart p q hp hq e e' he he'

/-- What free frames hold does not matter to the map. -/
theorem PhysGrown.sameMap (h : PhysGrown m m') (hd : DirOk m dir)
    (halloc : m'.paddrAlloc = m.paddrAlloc) : SameMap dir m m' := by
  obtain ⟨-, htables, hent⟩ := h.dirOk hd
  exact ⟨halloc.symm, fun i hi => (htables i hi).symm, fun p hp => (hent p hp).symm⟩

end Free

/-! ## The whole call -/

/-- Two runs, one from `m₁`, one from `m₂`, have come to memories with the same map. -/
structure GrownAlike (m₁ m₂ : PhysMem) (dir : Nat) (m₁' m₂' : PhysMem) : Prop where
  same : SameMap dir m₁' m₂'
  left : MapGrown m₁ dir m₁'
  right : MapGrown m₂ dir m₂'

section Call

variable {m₁ m₂ : PhysMem} {dir vaddr size perm i : Nat}

theorem allocForPageDir_pair (hperm : perm < 4096) (hv : vaddr < 4294967296)
    (hout : ∀ k < m₁.frames, ¬InFrame k vaddr) :
    Pair (GrownAlike m₁ m₂ dir) (allocForPageDir dir vaddr perm i)
      fun _ => GrownAlike m₁ m₂ dir := by
  intro m m' h
  have hsize : m'.frames = m.frames := by
    rw [PhysMem.frames, ← h.same.paddrAlloc, PhysMem.frames]
  refine (h.same.pass h.left.space.toDirOk h.right.space.toDirOk hperm).imp_right ?_
  rintro ⟨b, u, u', hrun, hrun', hsame⟩
  refine ⟨b, u, u', hrun, hrun', hsame, h.left.pass hperm hv ?_ hrun,
    h.right.pass hperm hv ?_ hrun'⟩
  · rw [h.left.frames]
    exact hout
  · rw [hsize, h.left.frames]
    exact hout

/-- In a frame the first page is mapped: the loop ends there. -/
theorem allocLoop_pair_taken (hm : FramesMapped m₁ dir) {k : Nat} (hk : k < m₁.frames)
    (hin : InFrame k vaddr) (is : List Nat) :
    Pair (GrownAlike m₁ m₂ dir) (forEach (allocForPageDir dir vaddr perm) (0 :: is))
      fun _ => GrownAlike m₁ m₂ dir := by
  intro m m' h
  have hlt := frameAddr_lt h.left.space.phys (h.left.frames ▸ hk)
  have hpage : allocPage vaddr 0 = frameAddr k / 4096 := by
    unfold InFrame frameAddr at hin
    unfold allocPage
    unfold frameAddr at hlt ⊢
    omega
  have hmap : pageEntry m dir (allocPage vaddr 0) ≠ none := by
    rw [hpage]
    exact h.left.framesMapped hm k (h.left.frames ▸ hk)
  have hmap' : pageEntry m' dir (allocPage vaddr 0) ≠ none := by
    rwa [← h.same.entries _ (allocPage_lt ..)]
  have hrun : allocForPageDir dir vaddr perm 0 m = _ :=
    allocForPageDir_taken h.left.space.toDirOk hmap
  have hrun' : allocForPageDir dir vaddr perm 0 m' = _ :=
    allocForPageDir_taken h.right.space.toDirOk hmap'
  rw [← h.same.freeCount] at hrun'
  rw [forEach]
  split at hrun
  next hfull =>
    rw [if_pos hfull] at hrun'
    rw [seq_some hrun, seq_some hrun']
    exact .inr ⟨false, m, m', rfl, rfl, h⟩
  next hfree =>
    rw [if_neg hfree] at hrun'
    exact .inl ⟨seq_none hrun, seq_none hrun'⟩

/-- `memory_alloc_for_page_dir` stops both machines or neither, and then it has
taken the same frames for the same pages. -/
theorem memoryAllocForPageDir_pair (hm : FramesMapped m₁ dir) (hperm : perm < 4096)
    (hv : vaddr < 4294967296) :
    Pair (GrownAlike m₁ m₂ dir) (memoryAllocForPageDir dir vaddr size perm)
      fun _ => GrownAlike m₁ m₂ dir := by
  refine Pair.seq (Q := fun _ => GrownAlike m₁ m₂ dir) ?_ fun _ => .ret fun _ _ h => h
  by_cases hin : ∃ k < m₁.frames, InFrame k vaddr
  · obtain ⟨k, hk, hin⟩ := hin
    cases up2 size 4096 / 4096 with
    | zero => exact .ret fun _ _ h => h
    | succ n =>
      rw [List.range_succ_eq_map]
      exact allocLoop_pair_taken hm hk hin _
  · refine .each fun i _ => allocForPageDir_pair hperm hv fun k hk hc => hin ⟨k, hk, hc⟩

end Call

end Wjos
