/-
Wjos.Core.CopyUvmTheorems — what `memory_copy_uvm` returns, and what is left
when it fails.

The copy returns a directory when there are as many free frames as
`uvmAllocs` is long, and what it returns is a clone (`ClonedUvm`). Otherwise
the allocation that fails is the one the list has at the number of free
frames. `memory_destroy_uvm` walks the tables of what was built, so it gives
back all frames but a spare one (`Copied.destroy`).
-/
import Wjos.Core.CopyUvm

namespace Wjos

open Lib

/-! ## The frames of the copy -/

section Frames

variable {m₀ m : PhysMem} {pageDir d i j k t : Nat} {use : Nat → Option FrameUse}
  {S : Nat → Nat → Prop}

theorem UvmLinked.pde (h : UvmLinked m₀ pageDir use m) (hd : use d = some .dir)
    (hi : i ∈ userPdes) (ht : use t = some (.table i)) :
    uvmPde m.mem (frameAddr d) i = frameAddr t + 7 :=
  ((h.holds d .dir hd).2 i (mem_userPdes.mp hi).1 (mem_userPdes.mp hi).2).1 t ht

theorem UvmLinked.pde_present (h : UvmLinked m₀ pageDir use m) (hd : use d = some .dir)
    (hi : i ∈ userPdes) :
    entryPresent (uvmPde m.mem (frameAddr d) i) = true ↔ ∃ t, use t = some (.table i) := by
  constructor
  · intro hp
    by_contra hn
    have hzero := ((h.holds d .dir hd).2 i (mem_userPdes.mp hi).1 (mem_userPdes.mp hi).2).2
      (not_exists.mp hn)
    rw [hzero] at hp
    exact absurd hp (by decide)
  · rintro ⟨t, ht⟩
    rw [h.pde hd hi ht, entryPresent_frame]
    rfl

theorem UvmLinked.pte (h : UvmLinked m₀ pageDir use m) (hd : use d = some .dir)
    (hi : i ∈ userPdes) (ht : use t = some (.table i)) :
    uvmPte m.mem (frameAddr d) i j = le32 m.mem (frameAddr t + 4 * j) := by
  rw [uvmPte, h.pde hd hi ht, entryPaddr_frame (by omega)]

/-- The entry of a page of the copy. -/
theorem UvmLinked.pte_page (h : UvmLinked m₀ pageDir use m) (hset : Settled use d S)
    (hi : i ∈ userPdes) (hj : j < 1024) (hk : use k = some (.page i j)) :
    uvmPte m.mem (frameAddr d) i j = frameAddr k + getPtePerm (uvmPte m₀.mem pageDir i j) := by
  obtain ⟨t, ht⟩ := (hset.tables i).mpr ⟨j, (hset.pages i j).mp ⟨k, hk⟩⟩
  rw [h.pte hset.dir hi ht]
  exact (h.holds t _ ht j hj).1 k hk

/-- The pages of the copy are those copied. -/
theorem UvmLinked.page_present (h : UvmLinked m₀ pageDir use m) (hset : Settled use d S)
    (hS : InSource m₀ pageDir S) (hi : i ∈ userPdes) (hj : j < 1024) :
    pagePresent m.mem (frameAddr d) i j = true ↔ S i j := by
  simp only [pagePresent, Bool.and_eq_true]
  constructor
  · rintro ⟨hpde, hpte⟩
    obtain ⟨t, ht⟩ := (h.pde_present hset.dir hi).mp hpde
    refine (hset.pages i j).mp ?_
    by_contra hn
    rw [h.pte hset.dir hi ht, (h.holds t _ ht j hj).2 (not_exists.mp hn)] at hpte
    exact absurd hpte (by decide)
  · intro hij
    obtain ⟨k, hk⟩ := (hset.pages i j).mpr hij
    have hsource := (mem_tablePages.mp (hS i j hij).2).2
    simp only [pagePresent, Bool.and_eq_true] at hsource
    refine ⟨(h.pde_present hset.dir hi).mpr ((hset.tables i).mpr ⟨j, hij⟩), ?_⟩
    rw [h.pte_page hset hi hj hk, entryPresent_frame]
    have hodd : uvmPte m₀.mem pageDir i j % 2 = 1 := by simpa [entryPresent] using hsource.2
    have hperm : getPtePerm (uvmPte m₀.mem pageDir i j) % 2 = 1 := by
      unfold getPtePerm
      omega
    simpa [entryPresent] using hperm

/-- The frames of a table of the copy. -/
theorem UvmLinked.mem_tableFrames (h : UvmLinked m₀ pageDir use m) (hset : Settled use d S)
    (hS : InSource m₀ pageDir S) (hi : i ∈ userPdes) {a : Nat} :
    a ∈ tableFrames m.mem (frameAddr d) i ↔ ∃ k, a = frameAddr k ∧
      (use k = some (.table i) ∨ ∃ j < 1024, use k = some (.page i j)) := by
  have hpaddr : ∀ {j k}, j < 1024 → use k = some (.page i j) →
      entryPaddr (uvmPte m.mem (frameAddr d) i j) = frameAddr k := by
    intro j k hj hk
    rw [h.pte_page hset hi hj hk]
    exact entryPaddr_frame ((getPtePerm_lt _).trans (by omega))
  unfold tableFrames
  constructor
  · intro ha
    split at ha
    next hp =>
      obtain ⟨t, ht⟩ := (h.pde_present hset.dir hi).mp hp
      rcases List.mem_append.mp ha with ha | ha
      · obtain ⟨j, hj, rfl⟩ := List.mem_map.mp ha
        obtain ⟨hj, hpage⟩ := mem_tablePages.mp hj
        obtain ⟨k, hk⟩ := (hset.pages i j).mpr ((h.page_present hset hS hi hj).mp hpage)
        exact ⟨k, hpaddr hj hk, .inr ⟨j, hj, hk⟩⟩
      · rw [List.mem_singleton, h.pde hset.dir hi ht, entryPaddr_frame (by omega)] at ha
        exact ⟨t, ha, .inl ht⟩
    · cases ha
  · rintro ⟨k, rfl, ht | ⟨j, hj, hk⟩⟩
    · rw [if_pos ((h.pde_present hset.dir hi).mpr ⟨k, ht⟩), h.pde hset.dir hi ht,
        entryPaddr_frame (by omega)]
      simp
    · have hij := (hset.pages i j).mp ⟨k, hk⟩
      rw [if_pos ((h.pde_present hset.dir hi).mpr ((hset.tables i).mpr ⟨j, hij⟩))]
      refine List.mem_append_left _ (List.mem_map.mpr ⟨j, ?_, hpaddr hj hk⟩)
      exact mem_tablePages.mpr ⟨hj, (h.page_present hset hS hi hj).mpr hij⟩

/-- The frames of the copy are those in use, a spare one apart. -/
theorem UvmLinked.mem_uvmFrames (h : UvmLinked m₀ pageDir use m) (hset : Settled use d S)
    (hS : InSource m₀ pageDir S) {a : Nat} :
    a ∈ uvmFrames m.mem (frameAddr d) ↔ ∃ k u, a = frameAddr k ∧ use k = some u ∧ u ≠ .spare := by
  unfold uvmFrames
  rw [List.mem_append, List.mem_flatMap, List.mem_singleton]
  constructor
  · rintro (⟨i, hi, ha⟩ | rfl)
    · obtain ⟨k, rfl, ht | ⟨j, -, hk⟩⟩ := (h.mem_tableFrames hset hS hi).mp ha
      · exact ⟨k, _, rfl, ht, by simp⟩
      · exact ⟨k, _, rfl, hk, by simp⟩
    · exact ⟨d, _, rfl, hset.dir, by simp⟩
  · rintro ⟨k, u, rfl, hk, hu⟩
    cases u with
    | spare => exact absurd rfl hu
    | dir => exact .inr (congrArg frameAddr (h.unique k d _ hk hset.dir hu))
    | table i =>
      obtain ⟨j, hij⟩ := (hset.tables i).mp ⟨k, hk⟩
      have hi := (hS i j hij).1
      exact .inl ⟨i, hi, (h.mem_tableFrames hset hS hi).mpr ⟨k, rfl, .inl hk⟩⟩
    | page i j =>
      have hij := (hset.pages i j).mp ⟨k, hk⟩
      have hi := (hS i j hij).1
      have hj := (mem_tablePages.mp (hS i j hij).2).1
      exact .inl ⟨i, hi, (h.mem_tableFrames hset hS hi).mpr ⟨k, rfl, .inr ⟨j, hj, hk⟩⟩⟩

/-- No frame serves twice. -/
theorem UvmLinked.nodup (h : UvmLinked m₀ pageDir use m) (hset : Settled use d S)
    (hS : InSource m₀ pageDir S) : (uvmFrames m.mem (frameAddr d)).Nodup := by
  have htable : ∀ i ∈ userPdes, (tableFrames m.mem (frameAddr d) i).Nodup := by
    intro i hi
    unfold tableFrames
    split
    next hp =>
      obtain ⟨t, ht⟩ := (h.pde_present hset.dir hi).mp hp
      have hpage : ∀ j ∈ tablePages m.mem (frameAddr d) i, ∃ k, use k = some (.page i j) ∧
          entryPaddr (uvmPte m.mem (frameAddr d) i j) = frameAddr k := by
        intro j hj
        obtain ⟨hj, hpage⟩ := mem_tablePages.mp hj
        obtain ⟨k, hk⟩ := (hset.pages i j).mpr ((h.page_present hset hS hi hj).mp hpage)
        refine ⟨k, hk, ?_⟩
        rw [h.pte_page hset hi hj hk]
        exact entryPaddr_frame ((getPtePerm_lt _).trans (by omega))
      refine List.nodup_append.mpr ⟨?_, List.nodup_singleton _, ?_⟩
      · refine List.Nodup.map_on (fun j hj j' hj' he => ?_) (List.nodup_range.filter _)
        obtain ⟨k, hk, ha⟩ := hpage j hj
        obtain ⟨k', hk', ha'⟩ := hpage j' hj'
        obtain rfl := frameAddr_inj (ha.symm.trans (he.trans ha'))
        simpa [hk] using hk'
      · intro a ha b hb hab
        obtain ⟨j, hj, rfl⟩ := List.mem_map.mp ha
        obtain ⟨k, hk, ha'⟩ := hpage j hj
        rw [List.mem_singleton, h.pde hset.dir hi ht, entryPaddr_frame (by omega)] at hb
        obtain rfl := frameAddr_inj (ha'.symm.trans (hab.trans hb))
        simp [hk] at ht
    · exact List.nodup_nil
  refine List.nodup_append.mpr ⟨List.nodup_flatMap.mpr ⟨htable, ?_⟩, List.nodup_singleton _, ?_⟩
  · refine List.Pairwise.imp_of_mem ?_ (List.nodup_range' (s := 512) (n := 512))
    intro i i' hi hi' hne a ha ha'
    obtain ⟨k, rfl, hk⟩ := (h.mem_tableFrames hset hS hi).mp ha
    obtain ⟨k', he, hk'⟩ := (h.mem_tableFrames hset hS hi').mp ha'
    obtain rfl := frameAddr_inj he
    rcases hk with hk | ⟨j, -, hk⟩ <;> rcases hk' with hk' | ⟨j', -, hk'⟩ <;> simp_all
  · intro a ha b hb hab
    obtain ⟨i, hi, ha⟩ := List.mem_flatMap.mp ha
    obtain ⟨k, rfl, hk⟩ := (h.mem_tableFrames hset hS hi).mp ha
    rw [List.mem_singleton] at hb
    obtain rfl := frameAddr_inj (hab.trans hb)
    rcases hk with hk | ⟨j, -, hk⟩ <;> simp [hset.dir] at hk

/-- A copy given back: what is left is the spare frame, where there is one. -/
theorem Copied.destroy {leak : Prop} (h : Copied m₀ pageDir d S leak m)
    (hS : InSource m₀ pageDir S) : ∃ m', memoryDestroyUvm (frameAddr d) m = some ((), m') ∧
      (m'.paddrAlloc.bitmap = m₀.paddrAlloc.bitmap ↔ ¬leak) := by
  obtain ⟨use, hl, hset, hspare⟩ := h
  have hframes : ∀ a ∈ uvmFrames m.mem (frameAddr d), ∃ k < m.frames, a = frameAddr k := by
    intro a ha
    obtain ⟨k, u, rfl, hk, -⟩ := (hl.mem_uvmFrames hset hS).mp ha
    exact ⟨k, hl.frames ▸ (hl.fresh k u hk).1, rfl⟩
  obtain ⟨⟨⟨⟩, m'⟩, hrun, hfreed⟩ := memoryDestroyUvm_frees hframes m (.start hl.ok)
  have hin : ∀ k, frameAddr k ∈ uvmFrames m.mem (frameAddr d) ↔
      ∃ u, use k = some u ∧ u ≠ .spare := by
    intro k
    rw [hl.mem_uvmFrames hset hS]
    constructor
    · rintro ⟨k', u, he, hu⟩
      obtain rfl := frameAddr_inj he
      exact ⟨u, hu⟩
    · exact fun ⟨u, hu⟩ => ⟨k, u, rfl, hu⟩
  have hused : ∀ k, m'.used k = (m₀.used k || decide (use k = some .spare)) := by
    intro k
    have hk : m'.used k = (m.used k && decide (frameAddr k ∉ uvmFrames m.mem (frameAddr d))) :=
      hfreed.used k
    rw [hk, hl.used k]
    cases hu : use k with
    | none => simp [hin, hu]
    | some u =>
      rw [(hl.fresh k u hu).2]
      cases u <;> simp [hin, hu]
  refine ⟨m', hrun, ?_⟩
  rw [← hspare]
  constructor
  · rintro he ⟨k, hk⟩
    have hold : m'.used k = m₀.used k := by rw [PhysMem.used, he, PhysMem.used]
    rw [hused k, (hl.fresh k _ hk).2] at hold
    simp [hk] at hold
  · intro hn
    refine bitmap_ext (hfreed.frames.trans hl.frames) fun k => ?_
    have hk : use k ≠ some .spare := fun hk => hn ⟨k, hk⟩
    have hsame : m'.used k = m₀.used k := by simp [hused k, hk]
    exact hsame

end Frames

/-! ## The whole copy -/

section Whole

variable {m : PhysMem} {pageDir : Nat}

/-- The directory of a copy of all pages, or the kind of frame that was missing. -/
theorem memoryCopyUvm_cases (hm : PhysOk m) (hs : UvmOk m pageDir) :
    ((uvmAllocs m.mem pageDir).length ≤ m.freeCount ∧
      ∃ d m', memoryCopyUvm pageDir pageDir m = some (frameAddr d, m') ∧
        Copied m pageDir d (fun i j => i ∈ userPdes ∧ j ∈ tablePages m.mem pageDir i) False m') ∨
      ∃ x m', (uvmAllocs m.mem pageDir)[m.freeCount]? = some x ∧
        memoryCopyUvm pageDir pageDir m = some (0, m') ∧
        (m'.paddrAlloc.bitmap = m.paddrAlloc.bitmap ↔ x ≠ .table) := by
  rw [memoryCopyUvm]
  rcases @memoryCreateUvm_step m pageDir hm with
    ⟨hfull, he⟩ | ⟨d, m₁, he, hcount, hcopied⟩
  · refine .inr ⟨.dir, m, by simp [uvmAllocs, hfull], ?_, by simp⟩
    rw [seq_some he]
    rfl
  · obtain ⟨⟨go, m₂⟩, hrun, hq⟩ := copyUvmTable_loop (F := m₁.freeCount) hs m₁ ⟨hcopied, rfl⟩
    rw [seq_some he, if_neg (frameAddr_pos d), seq_some hrun]
    cases go with
    | true =>
      refine .inl ⟨?_, d, m₂, rfl, hq.1⟩
      have hlen := hq.2
      rw [uvmAllocs, List.length_cons]
      omega
    | false =>
      obtain ⟨q, x, S, ⟨r, hq⟩, hlen, hS, hstuck⟩ := hq
      obtain ⟨m₃, hdestroy, hmap⟩ := hstuck.destroy hS
      refine .inr ⟨x, m₃, ?_, ?_, hmap⟩
      · rw [uvmAllocs, ← hcount, ← hlen, ← hq]
        simp
      · rw [if_neg (by simp), seq_some hdestroy]
        rfl

/-- The copy `d` in `m'` of the address space `pageDir` of `m`. -/
structure ClonedUvm (m : PhysMem) (pageDir : Nat) (m' : PhysMem) (d : Nat) : Prop where
  mapped : ∀ vaddr, memoryTaskBase ≤ vaddr → vaddr < 4294967296 →
    ((translate m' d vaddr).isSome ↔ (translate m pageDir vaddr).isSome)
  perm : ∀ vaddr, memoryTaskBase ≤ vaddr → vaddr < 4294967296 →
    (translate m pageDir vaddr).isSome →
    getPtePerm (uvmPte m'.mem d (pdeIndex vaddr) (pteIndex vaddr)) =
      getPtePerm (uvmPte m.mem pageDir (pdeIndex vaddr) (pteIndex vaddr))
  contents : ∀ vaddr a a', memoryTaskBase ≤ vaddr → vaddr < 4294967296 →
    translate m pageDir vaddr = some a → translate m' d vaddr = some a' → m'.mem a' = m.mem a
  fresh : ∀ a ∈ uvmFrames m'.mem d, ∃ k < m.frames, a = frameAddr k ∧ m.used k = false
  distinct : (uvmFrames m'.mem d).Nodup
  kernel : ∀ i < pdeIndex memoryTaskBase, uvmPde m'.mem d i = uvmPde m.mem m.kernelPageDir i
  source : ∀ a ∈ uvmFrames m.mem pageDir, ∀ o < 4096, m'.mem (a + o) = m.mem (a + o)

theorem translate_eq {vaddr : Nat} : translate m pageDir vaddr =
    if pagePresent m.mem pageDir (pdeIndex vaddr) (pteIndex vaddr) then
      some (entryPaddr (uvmPte m.mem pageDir (pdeIndex vaddr) (pteIndex vaddr)) + vaddr % 4096)
    else none := rfl

theorem userIndex {vaddr : Nat} (hlo : memoryTaskBase ≤ vaddr) (hhi : vaddr < 4294967296) :
    pdeIndex vaddr ∈ userPdes ∧ pteIndex vaddr < 1024 := by
  rw [mem_userPdes]
  unfold memoryTaskBase at hlo
  unfold pdeIndex pteIndex
  omega

/-- Where all pages are copied, the copy is a clone. -/
theorem Copied.cloned {m' : PhysMem} {d : Nat} (hs : UvmOk m pageDir)
    (h : Copied m pageDir d (fun i j => i ∈ userPdes ∧ j ∈ tablePages m.mem pageDir i) False m') :
    ClonedUvm m pageDir m' (frameAddr d) := by
  obtain ⟨use, hl, hset, -⟩ := h
  have hS : InSource m pageDir fun i j => i ∈ userPdes ∧ j ∈ tablePages m.mem pageDir i :=
    fun i j hij => hij
  have hpresent : ∀ i j, i ∈ userPdes → j < 1024 →
      (pagePresent m'.mem (frameAddr d) i j = true ↔ pagePresent m.mem pageDir i j = true) := by
    intro i j hi hj
    rw [hl.page_present hset hS hi hj, mem_tablePages]
    simp [hi, hj]
  have hpage : ∀ i j, i ∈ userPdes → j < 1024 → pagePresent m.mem pageDir i j = true →
      ∃ k, use k = some (.page i j) ∧ uvmPte m'.mem (frameAddr d) i j =
        frameAddr k + getPtePerm (uvmPte m.mem pageDir i j) := by
    intro i j hi hj hp
    obtain ⟨k, hk⟩ := (hset.pages i j).mpr ⟨hi, mem_tablePages.mpr ⟨hj, hp⟩⟩
    exact ⟨k, hk, hl.pte_page hset hi hj hk⟩
  refine ⟨?_, ?_, ?_, ?_, hl.nodup hset hS, (hl.holds d _ hset.dir).1, ?_⟩
  · intro vaddr hlo hhi
    obtain ⟨hi, hj⟩ := userIndex hlo hhi
    rw [translate_eq, translate_eq]
    simp [hpresent _ _ hi hj]
  · intro vaddr hlo hhi hsome
    obtain ⟨hi, hj⟩ := userIndex hlo hhi
    rw [translate_eq] at hsome
    obtain ⟨k, hk, hpte⟩ := hpage _ _ hi hj (by simpa using hsome)
    rw [hpte, getPtePerm_frame (getPtePerm_lt _)]
  · intro vaddr a a' hlo hhi ha ha'
    obtain ⟨hi, hj⟩ := userIndex hlo hhi
    rw [translate_eq] at ha ha'
    obtain ⟨hp, ha⟩ := Option.ite_none_right_eq_some.mp ha
    obtain ⟨-, ha'⟩ := Option.ite_none_right_eq_some.mp ha'
    obtain ⟨k, hk, hpte⟩ := hpage _ _ hi hj hp
    rw [← Option.some.inj ha, ← Option.some.inj ha', hpte,
      entryPaddr_frame ((getPtePerm_lt _).trans (by omega))]
    exact hl.holds k _ hk _ (Nat.mod_lt _ (by omega))
  · intro a ha
    obtain ⟨k, u, rfl, hk, -⟩ := (hl.mem_uvmFrames hset hS).mp ha
    exact ⟨k, (hl.fresh k u hk).1, rfl, (hl.fresh k u hk).2⟩
  · intro a ha o ho
    obtain ⟨k, -, rfl, hk⟩ := hs.taken a ha
    exact hl.source hl.old hk ho

/-- With enough free frames `memory_copy_uvm` returns a clone, and
`memory_destroy_uvm` of it restores the map. -/
theorem copy_uvm_clones (hm : PhysOk m) (hs : UvmOk m pageDir)
    (hfree : (uvmAllocs m.mem pageDir).length ≤ m.freeCount) :
    ∃ d m', memoryCopyUvm pageDir pageDir m = some (d, m') ∧ d ≠ 0 ∧ ClonedUvm m pageDir m' d ∧
      ∃ m'', memoryDestroyUvm d m' = some ((), m'') ∧
        m''.paddrAlloc.bitmap = m.paddrAlloc.bitmap := by
  rcases memoryCopyUvm_cases hm hs with ⟨-, d, m', hrun, hcopied⟩ | ⟨x, m', hx, -, -⟩
  · obtain ⟨m'', hdestroy, hmap⟩ := hcopied.destroy fun i j hij => hij
    exact ⟨_, m', hrun, frameAddr_pos d, hcopied.cloned hs, m'', hdestroy, hmap.mpr id⟩
  · rw [List.getElem?_eq_none hfree] at hx
    cases hx

/-- `n` frames, the first four taken. The first three of these hold a directory,
a table and a page. -/
def smallMem (n : Nat) : PhysMem where
  paddrAlloc :=
    { bitmap := { bitCount := n, bits := fun i => if i = 0 then 0x0F else 0 }
      start := memExtStart
      size := UInt32.ofNat (4096 * n)
      pageSize := memPageSize }
  kernelPageDir := 0x50000
  mem := put32 (put32 (fun _ => 0) (0x100000 + 4 * 512) 0x101007) 0x101000 0x102007

theorem smallMem_ok {n : Nat} (hn : n ≤ 16) : PhysOk (smallMem n) where
  start := rfl
  pageSize := rfl
  fits := by
    show frameAddr n < 4294967296
    unfold frameAddr
    omega
  kernelDir := by
    show 0x50000 + 4096 ≤ frameAddr 0
    decide

theorem smallMem_uvmOk {n : Nat} (hn : 4 ≤ n) : UvmOk (smallMem n) 0x100000 := by
  have hframes : uvmFrames (smallMem n).mem 0x100000 = [0x102000, 0x101000, 0x100000] := by
    show uvmFrames (smallMem 0).mem 0x100000 = _
    decide +kernel
  refine ⟨fun a ha => ?_, ?_⟩
  · rw [hframes] at ha
    simp only [List.mem_cons, List.not_mem_nil, or_false] at ha
    have hk : ∀ k < 3, k < (smallMem n).frames ∧ (smallMem n).used k = true := by
      intro k hk
      refine ⟨Nat.lt_of_lt_of_le hk (by omega : 3 ≤ n), ?_⟩
      have hused : ∀ k < 3, (smallMem 0).used k = true := by decide
      exact hused k hk
    rcases ha with rfl | rfl | rfl
    · exact ⟨2, (hk 2 (by decide)).1, by decide, (hk 2 (by decide)).2⟩
    · exact ⟨1, (hk 1 (by decide)).1, by decide, (hk 1 (by decide)).2⟩
    · exact ⟨0, (hk 0 (by decide)).1, by decide, (hk 0 (by decide)).2⟩
  · rw [hframes]
    decide

theorem smallMem_allocs (n : Nat) :
    uvmAllocs (smallMem n).mem 0x100000 = [.dir, .page, .table] := by
  rw [uvmAllocs, flatMap_tableAllocs]
  show FrameKind.dir :: (userPdes.filter fun i =>
    entryPresent (uvmPde (smallMem 0).mem 0x100000 i)).flatMap (fun i =>
      tableAllocs (tablePages (smallMem 0).mem 0x100000 i).length) = _
  decide +kernel

theorem copy_uvm_clones_small : ∃ d m',
    memoryCopyUvm 0x100000 0x100000 (smallMem 16) = some (d, m') ∧ d ≠ 0 ∧
      ClonedUvm (smallMem 16) 0x100000 m' d ∧ ∃ m'', memoryDestroyUvm d m' = some ((), m'') ∧
        m''.paddrAlloc.bitmap = (smallMem 16).paddrAlloc.bitmap :=
  copy_uvm_clones (smallMem_ok (by decide)) (smallMem_uvmOk (by decide))
    (by rw [smallMem_allocs]; decide)

/-- `memory_copy_uvm` fails without a trace exactly where the frame that is
missing is not one for a table. -/
theorem copy_uvm_failed_iff (hm : PhysOk m) (hs : UvmOk m pageDir) :
    ∃ d m', memoryCopyUvm pageDir pageDir m = some (d, m') ∧
      ((d = 0 → m'.paddrAlloc.bitmap = m.paddrAlloc.bitmap) ↔
        (uvmAllocs m.mem pageDir)[m.freeCount]? ≠ some .table) := by
  rcases memoryCopyUvm_cases hm hs with ⟨hlen, d, m', hrun, -⟩ | ⟨x, m', hx, hrun, hmap⟩
  · refine ⟨_, m', hrun, ?_⟩
    rw [List.getElem?_eq_none hlen]
    simp [frameAddr_pos d]
  · refine ⟨0, m', hrun, ?_⟩
    rw [hx, forall_prop_of_true rfl, hmap]
    simp

theorem copy_uvm_failed_iff_small : ∃ d m',
    memoryCopyUvm 0x100000 0x100000 (smallMem 6) = some (d, m') ∧
      ((d = 0 → m'.paddrAlloc.bitmap = (smallMem 6).paddrAlloc.bitmap) ↔
        (uvmAllocs (smallMem 6).mem 0x100000)[(smallMem 6).freeCount]? ≠ some .table) :=
  copy_uvm_failed_iff (smallMem_ok (by decide)) (smallMem_uvmOk (by decide))

/-- Two free frames: they become the directory and the page, and none is left
for the table. The page stays taken. -/
theorem copy_uvm_leaks_page : PhysOk (smallMem 6) ∧ UvmOk (smallMem 6) 0x100000 ∧
    ∃ m', memoryCopyUvm 0x100000 0x100000 (smallMem 6) = some (0, m') ∧
      m'.paddrAlloc.bitmap ≠ (smallMem 6).paddrAlloc.bitmap := by
  refine ⟨smallMem_ok (by decide), smallMem_uvmOk (by decide), ?_⟩
  have hcount : (smallMem 6).freeCount = 2 := by decide
  have hm : PhysOk (smallMem 6) := smallMem_ok (by decide)
  rcases memoryCopyUvm_cases hm (smallMem_uvmOk (by decide)) with
    ⟨hlen, -⟩ | ⟨x, m', hx, hrun, hmap⟩
  · rw [smallMem_allocs, hcount] at hlen
    simp at hlen
  · rw [smallMem_allocs, hcount] at hx
    exact ⟨m', hrun, fun hsame => hmap.mp hsame (Option.some.inj hx).symm⟩

end Whole

/-! ## Allocations before the copy -/

/-- Free frames of `m` have been taken and stored to, and nothing else has changed. -/
structure PhysGrown (m m' : PhysMem) : Prop where
  ok : PhysOk m'
  frames : m'.frames = m.frames
  kernelPageDir : m'.kernelPageDir = m.kernelPageDir
  used : ∀ k, m.used k = true → m'.used k = true
  mem : ∀ a, (∀ k, m.used k = false → ¬InFrame k a) → m'.mem a = m.mem a

section Grown

variable {m m₁ m' : PhysMem} {pageDir d i j k : Nat} {use : Nat → Option FrameUse}

theorem PhysGrown.trans (h : PhysGrown m m₁) (h' : PhysGrown m₁ m') : PhysGrown m m' where
  ok := h'.ok
  frames := h'.frames.trans h.frames
  kernelPageDir := h'.kernelPageDir.trans h.kernelPageDir
  used k hk := h'.used k (h.used k hk)
  mem a ha := by
    refine (h'.mem a fun k hk => ha k ?_).trans (h.mem a ha)
    cases hm : m.used k with
    | true => exact absurd (h.used k hm) (by simp [hk])
    | false => rfl

theorem UvmLinked.grown (h : UvmLinked m pageDir use m') : PhysGrown m m' where
  ok := h.ok
  frames := h.frames
  kernelPageDir := h.kernelPageDir
  used k hk := by simp [h.used k, hk]
  mem a ha := by
    refine h.old a fun k hk => ?_
    obtain ⟨u, hu⟩ := Option.isSome_iff_exists.mp hk
    exact ha k (h.fresh k u hu).2

theorem PhysGrown.take (hm : PhysOk m) (hk : k < m.frames) (hfree : m.used k = false) :
    PhysGrown m (m.mark k (~~~0)) :=
  ((@UvmLinked.start m 0 hm).take hk hfree).grown

/-- What a frame in use holds. -/
theorem PhysGrown.held (h : PhysGrown m m') (hk : m.used k = true) {o : Nat} (ho : o < 4096) :
    m'.mem (frameAddr k + o) = m.mem (frameAddr k + o) := by
  refine h.mem _ fun j hj => not_inFrame ?_ ho
  rintro rfl
  simp [hj] at hk

theorem PhysGrown.word (h : PhysGrown m m') (hk : m.used k = true) (hj : j < 1024) :
    le32 m'.mem (frameAddr k + 4 * j) = le32 m.mem (frameAddr k + 4 * j) := by
  refine le32_congr fun o ho => ?_
  rw [Nat.add_assoc]
  exact h.held hk (by omega)

theorem PhysGrown.pde (h : PhysGrown m m') (hs : UvmOk m pageDir) (hi : i ∈ userPdes) :
    uvmPde m'.mem pageDir i = uvmPde m.mem pageDir i := by
  obtain ⟨k, rfl, hk⟩ := hs.dir
  exact h.word hk (mem_userPdes.mp hi).2

theorem PhysGrown.pte (h : PhysGrown m m') (hs : UvmOk m pageDir) (hi : i ∈ userPdes)
    (hp : entryPresent (uvmPde m.mem pageDir i) = true) (hj : j < 1024) :
    uvmPte m'.mem pageDir i j = uvmPte m.mem pageDir i j := by
  obtain ⟨k, ha, hk⟩ := hs.table hi hp
  rw [uvmPte, uvmPte, h.pde hs hi, ha]
  exact h.word hk hj

theorem PhysGrown.present (h : PhysGrown m m') (hs : UvmOk m pageDir) (hi : i ∈ userPdes)
    (hj : j < 1024) : pagePresent m'.mem pageDir i j = pagePresent m.mem pageDir i j := by
  unfold pagePresent
  rw [h.pde hs hi]
  cases hp : entryPresent (uvmPde m.mem pageDir i) with
  | true => rw [h.pte hs hi hp hj]
  | false => rfl

theorem PhysGrown.pages (h : PhysGrown m m') (hs : UvmOk m pageDir) (hi : i ∈ userPdes) :
    tablePages m'.mem pageDir i = tablePages m.mem pageDir i :=
  List.filter_congr fun _ hj => h.present hs hi (List.mem_range.mp hj)

/-- The address space is what it was. -/
theorem PhysGrown.uvmFrames (h : PhysGrown m m') (hs : UvmOk m pageDir) :
    uvmFrames m'.mem pageDir = uvmFrames m.mem pageDir := by
  have htable : ∀ i ∈ userPdes, tableFrames m'.mem pageDir i = tableFrames m.mem pageDir i := by
    intro i hi
    unfold tableFrames
    rw [h.pde hs hi, h.pages hs hi]
    split
    next hp =>
      rw [List.map_congr_left fun j hj => by rw [h.pte hs hi hp (mem_tablePages.mp hj).1]]
    · rfl
  unfold Wjos.uvmFrames
  rw [List.flatMap_congr htable]

theorem PhysGrown.uvmAllocs (h : PhysGrown m m') (hs : UvmOk m pageDir) :
    uvmAllocs m'.mem pageDir = uvmAllocs m.mem pageDir := by
  unfold Wjos.uvmAllocs
  rw [List.flatMap_congr fun i hi => by rw [h.pages hs hi]]

theorem PhysGrown.uvmOk (h : PhysGrown m m') (hs : UvmOk m pageDir) : UvmOk m' pageDir := by
  refine ⟨fun a ha => ?_, ?_⟩
  · rw [h.uvmFrames hs] at ha
    obtain ⟨k, hk, rfl, hused⟩ := hs.taken a ha
    exact ⟨k, h.frames ▸ hk, rfl, h.used k hused⟩
  · rw [h.uvmFrames hs]
    exact hs.distinct

theorem PhysGrown.translate (h : PhysGrown m m') (hs : UvmOk m pageDir) {vaddr : Nat}
    (hlo : memoryTaskBase ≤ vaddr) (hhi : vaddr < 4294967296) :
    translate m' pageDir vaddr = translate m pageDir vaddr := by
  obtain ⟨hi, hj⟩ := userIndex hlo hhi
  rw [translate_eq, translate_eq, h.present hs hi hj]
  cases hp : pagePresent m.mem pageDir (pdeIndex vaddr) (pteIndex vaddr) with
  | true =>
    simp only [pagePresent, Bool.and_eq_true] at hp
    rw [if_pos rfl, if_pos rfl, h.pte hs hi hp.1 hj]
  | false => rw [if_neg Bool.false_ne_true, if_neg Bool.false_ne_true]

/-- A clone of an address space that other allocations have left alone. -/
theorem ClonedUvm.before (hg : PhysGrown m m₁) (hm : PhysOk m) (hs : UvmOk m pageDir)
    (h : ClonedUvm m₁ pageDir m' d) : ClonedUvm m pageDir m' d := by
  refine ⟨?_, ?_, ?_, ?_, h.distinct, ?_, ?_⟩
  · intro vaddr hlo hhi
    rw [h.mapped vaddr hlo hhi, hg.translate hs hlo hhi]
  · intro vaddr hlo hhi hsome
    obtain ⟨hi, hj⟩ := userIndex hlo hhi
    rw [h.perm vaddr hlo hhi (by rwa [hg.translate hs hlo hhi])]
    rw [translate_eq] at hsome
    have hp : pagePresent m.mem pageDir (pdeIndex vaddr) (pteIndex vaddr) = true := by
      simpa using hsome
    simp only [pagePresent, Bool.and_eq_true] at hp
    rw [hg.pte hs hi hp.1 hj]
  · intro vaddr a a' hlo hhi ha ha'
    rw [h.contents vaddr a a' hlo hhi (by rwa [hg.translate hs hlo hhi]) ha']
    obtain ⟨hi, hj⟩ := userIndex hlo hhi
    rw [translate_eq] at ha
    obtain ⟨hp, ha⟩ := Option.ite_none_right_eq_some.mp ha
    obtain ⟨k, hk, hused⟩ := hs.page hi hj hp
    rw [← Option.some.inj ha, hk]
    exact hg.held hused (Nat.mod_lt _ (by omega))
  · intro a ha
    obtain ⟨k, hk, rfl, hfree⟩ := h.fresh a ha
    refine ⟨k, hg.frames ▸ hk, rfl, ?_⟩
    cases hu : m.used k with
    | true => exact absurd (hg.used k hu) (by simp [hfree])
    | false => rfl
  · intro i hi
    rw [h.kernel i hi, hg.kernelPageDir]
    refine le32_congr fun o ho => hg.mem _ fun k _ hin => ?_
    have hbelow := hm.kernelDir
    have hi' : i < 512 := hi
    unfold InFrame frameAddr at *
    omega
  · intro a ha o ho
    rw [h.source a (by rwa [hg.uvmFrames hs]) o ho]
    obtain ⟨k, -, rfl, hused⟩ := hs.taken a ha
    exact hg.held hused ho

end Grown

end Wjos
