/-
Wjos.Core.SpaceGrowth — new pages in the memory of a program.

`memory_alloc_for_page_dir` takes free frames for pages that had none. What the
program had before it has still, byte for byte (`NewPages.byte`), the new pages
have frames of their own (`NewPages.ok`), and stores have gone nowhere but into
the directory and its user tables (`NewPages.mem`). A directory that
`memory_create_uvm` has just made is the start of it (`memoryCreateUvm_spaceOk`).
-/
import Wjos.Core.AllocPages
import Wjos.Core.UserMemory

namespace Wjos

open Lib

/-- Between `m` and `m'` the pages `ps` have got frames that were free. -/
structure NewPages (dir : Nat) (ps : List Nat) (m m' : PhysMem) : Prop where
  ok : SpaceOk m' dir
  tables : ∀ i < 1024, hasTable m dir i = true → uvmPde m'.mem dir i = uvmPde m.mem dir i
  mem : ∀ a, ¬(dir ≤ a ∧ a < dir + 4096) →
    (∀ i, 512 ≤ i → i < 1024 → ∀ k, TableAt m'.mem dir i k → ¬InFrame k a) → m'.mem a = m.mem a
  frames : m'.frames = m.frames
  used : ∀ k, m.used k = true → m'.used k = true
  mapped : ∀ p ∈ ps, pageEntry m' dir p ≠ none
  others : ∀ q < 1048576, q ∉ ps → pageEntry m' dir q = pageEntry m dir q

section Growth

variable {m m' : PhysMem} {dir vaddr size perm k p v e : Nat} {is ps : List Nat}
    {bytes : List UInt8}

theorem NewPages.nil (h : SpaceOk m dir) : NewPages dir [] m m :=
  ⟨h, fun _ _ _ => rfl, fun _ _ _ => rfl, rfl, fun _ hk => hk, by simp, fun _ _ _ => rfl⟩

theorem NewPages.tableAt (h : NewPages dir ps m m') {i : Nat} (hi : i < 1024)
    (hk : TableAt m.mem dir i k) : TableAt m'.mem dir i k := by
  rw [TableAt, h.tables i hi hk.1]
  exact hk

theorem NewPages.tableFrame (h : NewPages dir ps m m') (hk : TableFrame m.mem dir k) :
    TableFrame m'.mem dir k := by
  obtain ⟨i, hi, hat⟩ := hk
  exact ⟨i, hi, h.tableAt hi hat⟩

theorem NewPages.append {m'' : PhysMem} {ps' : List Nat} (h : NewPages dir ps m m')
    (h' : NewPages dir ps' m' m'') (hps : ∀ p ∈ ps, p < 1048576) :
    NewPages dir (ps ++ ps') m m'' where
  ok := h'.ok
  tables i hi hp := by
    have hp' : hasTable m' dir i = true := by
      rw [hasTable, h.tables i hi hp]
      exact hp
    rw [h'.tables i hi hp', h.tables i hi hp]
  mem a ha hout := by
    refine (h'.mem a ha hout).trans (h.mem a ha fun i hlo hhi k hk => ?_)
    exact hout i hlo hhi k (h'.tableAt hhi hk)
  frames := h'.frames.trans h.frames
  used k hk := h'.used k (h.used k hk)
  mapped p hp := by
    by_cases hlater : p ∈ ps'
    · exact h'.mapped p hlater
    · have hfirst := (List.mem_append.mp hp).resolve_right hlater
      rw [h'.others p (hps p hfirst) hlater]
      exact h.mapped p hfirst
  others q hq hno := by
    rw [List.mem_append, not_or] at hno
    rw [h'.others q hq hno.2, h.others q hq hno.1]

/-- What the program found before it finds still. -/
theorem NewPages.byte {b : UInt8} (h : NewPages dir ps m m')
    (hnew : ∀ p ∈ ps, pageEntry m dir p = none)
    (hlo : memoryTaskBase ≤ v) (hhi : v < 4294967296) (hb : userByte m dir v = some b) :
    userByte m' dir v = some b := by
  rw [userByte_eq] at hb ⊢
  obtain ⟨e, he, hbyte⟩ := Option.map_eq_some_iff.mp hb
  have hno : v / 4096 ∉ ps := fun hp => by
    rw [hnew _ hp] at he
    cases he
  have he' : pageEntry m' dir (v / 4096) = some e := (h.others _ (by omega) hno).trans he
  have huser : UserPage (v / 4096) := by
    unfold memoryTaskBase at hlo
    unfold UserPage
    omega
  obtain ⟨k, hk, hka, hused, htable, hdir⟩ := h.ok.frame _ huser e he'
  have hin : InFrame k (entryPaddr e + v % 4096) := ⟨by omega, by omega⟩
  rw [he', Option.map_some, h.mem, hbyte]
  · exact fun hc => h.ok.dir_outside hdir hc.1 hc.2 hin
  · intro i _ hi t ht hta
    exact htable (hta.unique hin ▸ ht.frame hi)

/-- A page more, of either half: the frame that was free is apart from the others. -/
theorem SpaceOk.mapped (h : SpaceOk m dir) (hk : k < m.frames) (hfree : m.used k = false)
    (he : e < 4096) (hmap : Mapped dir p (frameAddr k + e) (m.mark k (~~~0)) m') :
    SpaceOk m' dir := by
  obtain ⟨hok, htook⟩ := h.take hk hfree
  have hmark : (m.mark k (~~~0)).used k = true := by
    simp [mark_used hk, show ¬ ~~~(0 : Int) = 0 by decide]
  have hframes : m'.frames = m.frames := hmap.took.frames.trans htook.frames
  have hused : ∀ j, m.used j = true → m'.used j = true := fun j hj =>
    hmap.took.used j (htook.used j hj)
  have hentry : ∀ q < 1048576, pageEntry m' dir q =
      if q = p then some (frameAddr k + e) else pageEntry m dir q := hmap.entries
  have hdir : dir ≠ frameAddr k := h.dir_ne_free hfree
  -- the new frame is no table: the tables of before are used, and it was free
  have hself : ¬TableFrame m'.mem dir k := by
    intro ht
    obtain ⟨i, hi, hpres, ha⟩ := hmap.took.tables k hmark ht
    obtain ⟨t, -, hta, htused, -⟩ := h.table i hi hpres
    have htk : t = k := frameAddr_inj (hta.symm.trans ha)
    rw [htk, hfree] at htused
    cases htused
  have hold : ∀ q, UserPage q → ∀ e', pageEntry m dir q = some e' →
      entryPaddr e' ≠ frameAddr k := by
    intro q hq e' he' hkk
    obtain ⟨t, -, hta, htused, -⟩ := h.frame q hq e' he'
    have htk : t = k := frameAddr_inj (hta.symm.trans hkk)
    rw [htk, hfree] at htused
    cases htused
  refine ⟨hmap.ok, fun q hq e' he' => ?_, fun q q' hq hq' e₁ e₂ h₁ h₂ hsame => ?_⟩
  · rw [hentry q hq.2] at he'
    split at he'
    next hqp =>
      cases he'
      exact ⟨k, hframes ▸ hk, entryPaddr_frame he, hmap.took.used k hmark, hself, hdir⟩
    next hqp =>
      obtain ⟨t, ht, hta, htused, hno, htdir⟩ := h.frame q hq e' he'
      exact ⟨t, hframes ▸ ht, hta, hused t htused,
        fun hc => hno (hmap.took.tables t (htook.used t htused) hc), htdir⟩
  · rw [hentry q hq.2] at h₁
    rw [hentry q' hq'.2] at h₂
    split at h₁ <;> split at h₂
    next hqp hqp' => exact hqp.trans hqp'.symm
    next hqp hqp' =>
      cases h₁
      rw [entryPaddr_frame he] at hsame
      exact absurd hsame.symm (hold q' hq' e₂ h₂)
    next hqp hqp' =>
      cases h₂
      rw [entryPaddr_frame he] at hsame
      exact absurd hsame (hold q hq e₁ h₁)
    next hqp hqp' => exact h.apart q q' hq hq' e₁ e₂ h₁ h₂ hsame

/-- One user page more. -/
theorem SpaceOk.mapPage (h : SpaceOk m dir) (hk : k < m.frames) (hfree : m.used k = false)
    (hp : UserPage p) (he : e < 4096)
    (honly : TableOnly dir (p / 1024) (m.mark k (~~~0)) m')
    (hmap : Mapped dir p (frameAddr k + e) (m.mark k (~~~0)) m') : NewPages dir [p] m m' := by
  have htook := (h.take hk hfree).2
  refine ⟨h.mapped hk hfree he hmap, honly.tables, fun a ha hout => honly.mem a ha (hout _
    (by unfold UserPage at hp; omega) (by unfold UserPage at hp; omega)),
    hmap.took.frames.trans htook.frames, fun j hj => hmap.took.used j (htook.used j hj),
    fun q hq => ?_, fun q hq hno => ?_⟩
  · rw [List.mem_singleton.mp hq, hmap.entries p hp.2, if_pos rfl]
    simp
  · exact (hmap.entries q hq).trans (if_neg (by simpa using hno))

/-- The loop that has run to its end. -/
theorem SpaceOk.allocLoop (h : SpaceOk m dir) (hperm : perm < 4096)
    (huser : ∀ i ∈ is, UserPage (allocPage vaddr i)) (hnodup : (is.map (allocPage vaddr)).Nodup)
    (hnew : ∀ i ∈ is, pageEntry m dir (allocPage vaddr i) = none)
    (hrun : forEach (allocForPageDir dir vaddr perm) is m = some (true, m')) :
    NewPages dir (is.map (allocPage vaddr)) m m' := by
  induction is generalizing m with
  | nil =>
    cases hrun
    exact .nil h
  | cons i is ih =>
    rw [List.map_cons, List.nodup_cons] at hnodup
    rw [forEach] at hrun
    rcases allocForPageDir_mapped h.toDirOk hperm (hnew i List.mem_cons_self) with
      ⟨-, k, m₁, hstep, hk, hfree, honly, hmap, -⟩ | ⟨-, m₁, hstep, -⟩
    · rw [seq_some hstep, if_pos rfl] at hrun
      have hgrown := h.mapPage hk hfree (huser i List.mem_cons_self)
        (Nat.or_lt_two_pow (n := 12) hperm (by decide)) honly hmap
      have hrest := ih hgrown.ok (fun j hj => huser j (List.mem_cons_of_mem i hj)) hnodup.2
        (fun j hj => ?_) hrun
      · exact hgrown.append hrest (by simpa using allocPage_lt vaddr i)
      · have hne : allocPage vaddr j ∉ [allocPage vaddr i] := fun hc =>
          hnodup.1 (List.mem_singleton.mp hc ▸ List.mem_map_of_mem hj)
        rw [hgrown.others _ (allocPage_lt ..) hne]
        exact hnew j (List.mem_cons_of_mem i hj)
    · rw [seq_some hstep] at hrun
      cases hrun

/-- The frames for more pages, when some have been mapped. -/
theorem mapCost_append (has : Nat → Bool) (ps qs : List Nat) : mapCost has (ps ++ qs) =
    mapCost has ps + mapCost (fun i => has i || decide (∃ p ∈ ps, i = p / 1024)) qs := by
  induction ps generalizing has with
  | nil => simp [mapCost]
  | cons p ps ih =>
    rw [List.cons_append, mapCost, mapCost, ih, Nat.add_assoc]
    simp [Bool.or_assoc, beq_eq_decide]

theorem Backed.frames {qs : List Nat} (h : Backed dir perm ps m m') (hqs : ∀ q ∈ qs, q < 1048576)
    (hle : mapCost (hasTable m dir) (ps ++ qs) ≤ m.freeCount) :
    mapCost (hasTable m' dir) qs ≤ m'.freeCount := by
  have hcount := h.took.count
  rw [mapCost_append] at hle
  rw [mapCost_congr hqs h.tables]
  omega

/-- The pages that `memory_alloc_for_page_dir` goes over. -/
def loopPages (vaddr size : Nat) : List Nat :=
  (List.range (up2 size 4096 / 4096)).map fun i => (vaddr / 4096 + i) % 1048576

/-- `memory_alloc_for_page_dir` on user pages that are not mapped, with enough
frames. -/
theorem memoryAllocForPageDir_grown (h : SpaceOk m dir) (vaddr size perm : Nat)
    (hs : size < 4294967296) (hperm : perm < 4096)
    (huser : ∀ p ∈ loopPages vaddr size, UserPage p)
    (hnew : ∀ p ∈ loopPages vaddr size, pageEntry m dir p = none)
    (hfree : mapCost (hasTable m dir) (loopPages vaddr size) ≤ m.freeCount) :
    ∃ m', memoryAllocForPageDir dir vaddr size perm m = some (0, m') ∧
      NewPages dir (loopPages vaddr size) m m' ∧ Backed dir perm (loopPages vaddr size) m m' := by
  have hmem : ∀ i ∈ List.range (up2 size 4096 / 4096),
      allocPage vaddr i ∈ loopPages vaddr size := by
    intro i hi
    rw [loopPages, ← map_allocPage]
    exact List.mem_map_of_mem hi
  have hcount : up2 size 4096 / 4096 ≤ 1048576 := by
    rw [up2_page hs]
    omega
  have hnodup := nodup_rangePages (vaddr / 4096) hcount
  rw [← map_allocPage] at hnodup
  rcases allocLoop_cases h.toDirOk hperm hnodup fun i hi => hnew _ (hmem i hi) with
    ⟨-, m', hrun, hback⟩ | ⟨hless, -⟩
  · have hgrown := h.allocLoop hperm (fun i hi => huser _ (hmem i hi)) hnodup
      (fun i hi => hnew _ (hmem i hi)) hrun
    rw [map_allocPage] at hback hgrown
    refine ⟨m', ?_, hgrown, hback⟩
    rw [memoryAllocForPageDir, seq_some hrun]
    rfl
  · rw [map_allocPage] at hless
    exact absurd hfree (Nat.not_le_of_lt hless)

/-- A directory that has just been made. -/
theorem memoryCreateUvm_spaceOk (h : DirOk m m.kernelPageDir) (hfree : 0 < m.freeCount) :
    ∃ d m', memoryCreateUvm m = some (frameAddr d, m') ∧ SpaceOk m' (frameAddr d) ∧
      (∀ p, UserPage p → pageEntry m' (frameAddr d) p = none) ∧ m.used d = false ∧
      d < m.frames ∧ m'.freeCount + 1 = m.freeCount ∧ PhysGrown m m' ∧
      ∀ i < 1024,
        hasTable m' (frameAddr d) i = (decide (i < 512) && hasTable m m.kernelPageDir i) := by
  rcases memoryCreateUvm_dirOk h with ⟨hzero, -⟩ |
    ⟨d, m', hrun, hd, hunused, -, hcount, hgrown, hok, htables, hentries⟩
  · omega
  · have hempty : ∀ p, UserPage p → pageEntry m' (frameAddr d) p = none := by
      intro p hp
      rw [hentries p hp.2, if_neg (Nat.not_lt.mpr hp.1)]
    refine ⟨d, m', hrun, ⟨hok, fun p hp e he => ?_, fun p q hp _ e _ he => ?_⟩, hempty, hunused, hd,
      hcount, hgrown, htables⟩
    · rw [hempty p hp] at he
      cases he
    · rw [hempty p hp] at he
      cases he

end Growth

end Wjos
