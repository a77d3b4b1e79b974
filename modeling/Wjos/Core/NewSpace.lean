/-
Wjos.Core.NewSpace — an address space that is being built, and what is left of
it when it is given back.

`NewSpace m₀ d ps m` is the memory in which frame `d` is the directory of a new
address space with the user pages `ps`: all frames taken since `m₀` belong to
that space, and none of the frames of `m₀` has been written. `memory_create_uvm`
starts it (`NewSpace.start`), the loop of `memory_alloc_for_page_dir` adds pages
as long as there are frames (`NewSpace.alloc`), a store into one of the
pages keeps it (`NewSpace.wrote`), and `memory_destroy_uvm` leaves the bitmap of
`m₀` behind (`NewSpace.destroy`).

What a call does to the pages is said without the memory: `backedPages` are the
pages that get a frame, `AllocClean` leaves out the calls in which a frame is
lost because none is left for its table.
-/
import Wjos.Core.SpaceGrowth

namespace Wjos

open Lib

/-- Frame `k` belongs to the address space: it is the directory, a table or a
page of the user half. -/
def SpaceFrame (m : PhysMem) (dir k : Nat) : Prop :=
  dir = frameAddr k ∨ (∃ i, 512 ≤ i ∧ i < 1024 ∧ TableAt m.mem dir i k) ∨
    ∃ p e, UserPage p ∧ pageEntry m dir p = some e ∧ entryPaddr e = frameAddr k

/-- Frame `d` is the directory of an address space with the user pages `ps`,
made of frames that were free in `m₀`. -/
structure NewSpace (m₀ : PhysMem) (d : Nat) (ps : List Nat) (m : PhysMem) : Prop where
  space : SpaceOk m (frameAddr d)
  grown : PhysGrown m₀ m
  used : ∀ k, m.used k = true ↔ m₀.used k = true ∨ SpaceFrame m (frameAddr d) k
  fresh : ∀ k, SpaceFrame m (frameAddr d) k → m₀.used k = false
  user : ∀ p ∈ ps, UserPage p
  pages : ∀ p, UserPage p → (pageEntry m (frameAddr d) p ≠ none ↔ p ∈ ps)
  tables : ∀ i, 512 ≤ i → i < 1024 →
    (hasTable m (frameAddr d) i = true ↔ ∃ p ∈ ps, i = p / 1024)
  count : m.freeCount + mapCost (fun _ => false) ps + 1 = m₀.freeCount

/-- The user pages with a frame after a loop over `qs` that began with `ps`,
when `free` frames were there for all of them and their tables. -/
def backedPages (free : Nat) : (ps qs : List Nat) → List Nat
  | ps, [] => ps
  | ps, q :: qs =>
    if mapCost (fun _ => false) (ps ++ [q]) ≤ free then backedPages free (ps ++ [q]) qs else ps

/-- The loop goes over new user pages, to its end or until no frame is left; it
does not stop with one frame left where it needs two. -/
def AllocClean (free : Nat) : (ps qs : List Nat) → Prop
  | _, [] => True
  | ps, q :: qs => mapCost (fun _ => false) ps = free ∨
      UserPage q ∧ q ∉ ps ∧ mapCost (fun _ => false) (ps ++ [q]) ≤ free ∧
        AllocClean free (ps ++ [q]) qs

section SpaceFrame

variable {m m' : PhysMem} {dir i j k p e : Nat}

/-- `memory_destroy_uvm` gives these frames back. -/
theorem mem_uvmFrames_iff : frameAddr k ∈ uvmFrames m.mem dir ↔ SpaceFrame m dir k := by
  rw [mem_uvmFrames, SpaceFrame]
  refine or_congr ⟨Eq.symm, Eq.symm⟩ (or_congr ⟨?_, ?_⟩ ⟨?_, ?_⟩)
  · rintro ⟨i, hi, hpres, ha⟩
    obtain ⟨hlo, hhi⟩ := mem_userPdes.mp hi
    exact ⟨i, hlo, hhi, hpres, ha.symm⟩
  · rintro ⟨i, hlo, hhi, hpres, ha⟩
    exact ⟨i, mem_userPdes.mpr ⟨hlo, hhi⟩, hpres, ha.symm⟩
  · rintro ⟨i, hi, j, hj, hpres, ha⟩
    obtain ⟨hlo, hhi⟩ := mem_userPdes.mp hi
    refine ⟨i * 1024 + j, uvmPte m.mem dir i j, ⟨by omega, by omega⟩, ?_, ha.symm⟩
    rw [pageEntry, show (i * 1024 + j) / 1024 = i by omega,
      show (i * 1024 + j) % 1024 = j by omega, if_pos hpres]
  · rintro ⟨p, e, ⟨hlo, hhi⟩, he, ha⟩
    rw [pageEntry] at he
    split at he
    next hpres =>
      obtain rfl := Option.some.inj he
      exact ⟨p / 1024, mem_userPdes.mpr ⟨by omega, by omega⟩, p % 1024,
        Nat.mod_lt _ (by decide), hpres, ha.symm⟩
    · cases he

/-- The frames that `memory_destroy_uvm` gives back are frames of the allocator. -/
theorem SpaceOk.uvmFrames {d a : Nat} (h : SpaceOk m (frameAddr d))
    (ha : a ∈ uvmFrames m.mem (frameAddr d)) : ∃ k < m.frames, a = frameAddr k := by
  rcases mem_uvmFrames.mp ha with rfl | ⟨i, hi, hpres, rfl⟩ | ⟨i, hi, j, hj, hpres, rfl⟩
  · rcases h.dirAt with hlow | ⟨k, hk, he, -⟩
    · unfold frameAddr at hlow
      omega
    · exact ⟨k, hk, he⟩
  · obtain ⟨k, hk, he, -⟩ := h.table i (mem_userPdes.mp hi).2 hpres
    exact ⟨k, hk, he⟩
  · have hbounds := mem_userPdes.mp hi
    have hentry : pageEntry m (frameAddr d) (i * 1024 + j) =
        some (uvmPte m.mem (frameAddr d) i j) := by
      rw [pageEntry, show (i * 1024 + j) / 1024 = i by omega,
        show (i * 1024 + j) % 1024 = j by omega, if_pos hpres]
    obtain ⟨k, hk, he, -⟩ := h.frame (i * 1024 + j) ⟨by omega, by omega⟩ _ hentry
    exact ⟨k, hk, he⟩

theorem SpaceFrame.congr (hpde : ∀ i < 1024, uvmPde m'.mem dir i = uvmPde m.mem dir i)
    (hent : ∀ p < 1048576, pageEntry m' dir p = pageEntry m dir p) :
    SpaceFrame m' dir k ↔ SpaceFrame m dir k := by
  refine or_congr_right (or_congr ?_ ?_)
  · refine exists_congr fun i => and_congr_right fun _ => and_congr_right fun hi => ?_
    rw [TableAt, TableAt, hpde i hi]
  · refine exists_congr fun p => exists_congr fun e => and_congr_right fun hp => ?_
    rw [hent p hp.2]

/-- A page more: its frame belongs to the space, and its table where it is new. -/
theorem spaceFrame_mapped (hp : UserPage p) (he : e < 4096) (hnew : pageEntry m dir p = none)
    (honly : TableOnly dir (p / 1024) (m.mark k (~~~0)) m')
    (hmap : Mapped dir p (frameAddr k + e) (m.mark k (~~~0)) m') (j : Nat) :
    SpaceFrame m' dir j ↔ SpaceFrame m dir j ∨ j = k ∨
      hasTable m dir (p / 1024) = false ∧ TableAt m'.mem dir (p / 1024) j := by
  have hi : 512 ≤ p / 1024 ∧ p / 1024 < 1024 := by
    unfold UserPage at hp
    omega
  have hentry : ∀ q < 1048576, pageEntry m' dir q =
      if q = p then some (frameAddr k + e) else pageEntry m dir q := hmap.entries
  have hold : ∀ i < 1024, hasTable m dir i = true →
      (TableAt m'.mem dir i j ↔ TableAt m.mem dir i j) := fun i hi' hpres =>
    honly.tableAt hi' hpres j
  constructor
  · rintro (hdir | ⟨i, hlo, hhi, hat⟩ | ⟨q, e', hq, he', ha⟩)
    · exact .inl (.inl hdir)
    · cases hpres : hasTable m dir i with
      | true => exact .inl (.inr (.inl ⟨i, hlo, hhi, (hold i hhi hpres).mp hat⟩))
      | false =>
        have htab : hasTable m' dir i = (hasTable m dir i || decide (i = p / 1024)) :=
          hmap.tables i hhi
        have hpres' : hasTable m' dir i = true := hat.1
        rw [htab, hpres, Bool.false_or, decide_eq_true_eq] at hpres'
        subst hpres'
        exact .inr (.inr ⟨hpres, hat⟩)
    · rw [hentry q hq.2] at he'
      split at he'
      next =>
        cases he'
        rw [entryPaddr_frame he] at ha
        exact .inr (.inl (frameAddr_inj ha.symm))
      next => exact .inl (.inr (.inr ⟨q, e', hq, he', ha⟩))
  · rintro ((hdir | ⟨i, hlo, hhi, hat⟩ | ⟨q, e', hq, he', ha⟩) | rfl | ⟨-, hat⟩)
    · exact .inl hdir
    · exact .inr (.inl ⟨i, hlo, hhi, (hold i hhi hat.1).mpr hat⟩)
    · refine .inr (.inr ⟨q, e', hq, ?_, ha⟩)
      rw [hentry q hq.2, if_neg]
      · exact he'
      · rintro rfl
        rw [hnew] at he'
        cases he'
    · exact .inr (.inr ⟨p, _, hp, by rw [hentry p hp.2, if_pos rfl], entryPaddr_frame he⟩)
    · exact .inr (.inl ⟨_, hi.1, hi.2, hat⟩)

end SpaceFrame

section NewSpace

variable {m₀ m m' : PhysMem} {d k p e v : Nat} {ps : List Nat} {bytes : List UInt8}

theorem NewSpace.noFree (h : NewSpace m₀ d ps m) (hk : m.used k = false) : m₀.used k = false := by
  by_contra hc
  rw [h.grown.used k (Bool.eq_true_of_not_eq_false hc)] at hk
  cases hk

/-- What one page more costs. -/
theorem NewSpace.cost (h : NewSpace m₀ d ps m) (hp : UserPage p) :
    mapCost (fun _ => false) (ps ++ [p]) =
      mapCost (fun _ => false) ps + mapCost (hasTable m (frameAddr d)) [p] := by
  have hi : 512 ≤ p / 1024 ∧ p / 1024 < 1024 := by
    unfold UserPage at hp
    omega
  have hiff := h.tables (p / 1024) hi.1 hi.2
  rw [mapCost_append, mapCost, mapCost, mapCost, Bool.false_or]
  by_cases ht : hasTable m (frameAddr d) (p / 1024) = true
  · rw [if_pos ht, if_pos (decide_eq_true (hiff.mp ht)), mapCost]
  · rw [if_neg ht, if_neg fun hc => ht (hiff.mpr (of_decide_eq_true hc)), mapCost]

/-- A free frame mapped at a page of the user half. -/
theorem NewSpace.mapPage (h : NewSpace m₀ d ps m) (hk : k < m.frames) (hfree : m.used k = false)
    (hp : UserPage p) (hno : p ∉ ps) (he : e < 4096)
    (honly : TableOnly (frameAddr d) (p / 1024) (m.mark k (~~~0)) m')
    (hmap : Mapped (frameAddr d) p (frameAddr k + e) (m.mark k (~~~0)) m') :
    NewSpace m₀ d (ps ++ [p]) m' := by
  have hnew : pageEntry m (frameAddr d) p = none := by
    by_contra hc
    exact hno ((h.pages p hp).mp hc)
  have hframe := spaceFrame_mapped hp he hnew honly hmap
  have hpages := h.space.mapPage hk hfree hp he honly hmap
  have hmark : ∀ j, (m.mark k (~~~0)).used j = true ↔ j = k ∨ m.used j = true := by
    intro j
    rw [mark_used hk]
    by_cases hj : j = k <;> simp [hj, show ¬ ~~~(0 : Int) = 0 by decide]
  have htable : ∀ j, hasTable m (frameAddr d) (p / 1024) = false →
      TableAt m'.mem (frameAddr d) (p / 1024) j → m.used j = false := fun j hno' hat => by
    have hmarked := honly.free j hno' hat
    by_contra hc
    rw [(hmark j).mpr (.inr (Bool.eq_true_of_not_eq_false hc))] at hmarked
    cases hmarked
  have hfresh : ∀ j, SpaceFrame m' (frameAddr d) j → m₀.used j = false := by
    intro j hj
    rcases (hframe j).mp hj with hold | rfl | ⟨hno', hat⟩
    · exact h.fresh j hold
    · exact h.noFree hfree
    · exact h.noFree (htable j hno' hat)
  refine ⟨hpages.ok, ⟨hpages.ok.phys, hpages.frames.trans h.grown.frames,
    hmap.took.kernelPageDir.trans h.grown.kernelPageDir,
    fun j hj => hpages.used j (h.grown.used j hj), fun a ha => ?_⟩, fun j => ?_, hfresh,
    fun q hq => ?_, fun q hq => ?_, fun i hlo hhi => ?_, ?_⟩
  · refine (hpages.mem a (fun hin => ha d (h.fresh d (.inl rfl)) hin)
      fun i hlo hhi t hat hin => ?_).trans (h.grown.mem a ha)
    exact ha t (hfresh t (.inr (.inl ⟨i, hlo, hhi, hat⟩))) hin
  · rw [honly.used j, hmark j, h.used j, hframe j]
    change ((j = k ∨ _) ∨ hasTable m (frameAddr d) (p / 1024) = false ∧ _) ↔ _
    tauto
  · rcases List.mem_append.mp hq with hq | hq
    · exact h.user q hq
    · exact List.mem_singleton.mp hq ▸ hp
  · rw [List.mem_append, List.mem_singleton, ← h.pages q hq]
    by_cases hqp : q = p
    · rw [hqp]
      exact iff_of_true (hpages.mapped p (List.mem_singleton_self p)) (.inr rfl)
    · rw [hpages.others q hq.2 (by simpa using hqp)]
      exact ⟨.inl, fun hc => hc.resolve_right hqp⟩
  · have htab : hasTable m' (frameAddr d) i =
        (hasTable m (frameAddr d) i || decide (i = p / 1024)) := hmap.tables i hhi
    rw [htab, Bool.or_eq_true, h.tables i hlo hhi, decide_eq_true_eq]
    simp [or_and_right, exists_or]
  · have hcount := h.count
    have htook := hmap.took.count
    have htake := freeCount_take hk hfree
    change m'.freeCount + (if hasTable m (frameAddr d) (p / 1024) then 0 else 1) = _ at htook
    rw [h.cost hp, mapCost, mapCost]
    split at htook <;> split <;> simp_all <;> omega

/-- Stores into the pages leave the rest as it is. -/
theorem NewSpace.touched {R : Nat → Prop} (h : NewSpace m₀ d ps m)
    (ht : Touched (frameAddr d) R m m')
    (hR : ∀ u, R u → memoryTaskBase ≤ u ∧ u < 4294967296) : NewSpace m₀ d ps m' := by
  have hused : ∀ k, m'.used k = m.used k := fun k => by
    rw [PhysMem.used, ht.paddrAlloc, PhysMem.used]
  have hframe : ∀ k, SpaceFrame m' (frameAddr d) k ↔ SpaceFrame m (frameAddr d) k := fun k =>
    SpaceFrame.congr (fun i hi => ht.pde h.space hR hi) ht.entries
  refine ⟨ht.ok, ⟨ht.ok.phys, ?_, ht.kernelPageDir.trans h.grown.kernelPageDir, fun k hk => ?_,
    fun a ha => ?_⟩, fun k => ?_, fun k hk => h.fresh k ((hframe k).mp hk), h.user,
    fun p hp => ?_, fun i hlo hhi => ?_, ?_⟩
  · rw [PhysMem.frames, ht.paddrAlloc]
    exact h.grown.frames
  · rw [hused]
    exact h.grown.used k hk
  · refine (ht.outside a fun u hu hin => ?_).trans (h.grown.mem a ha)
    obtain ⟨hlo, hhi⟩ := hR u hu
    have huser : UserPage (u / 4096) := by
      unfold memoryTaskBase at hlo
      unfold UserPage
      omega
    obtain ⟨e, he, helo, hehi⟩ := hin
    obtain ⟨k, -, hk, -⟩ := h.space.frame _ huser e he
    exact ha k (h.fresh k (.inr (.inr ⟨_, e, huser, he, hk⟩))) ⟨hk ▸ helo, hk ▸ hehi⟩
  · rw [hused, h.used k, hframe k]
  · rw [ht.entries p hp.2]
    exact h.pages p hp
  · rw [hasTable, ht.pde h.space hR hhi]
    exact h.tables i hlo hhi
  · have hfree : m'.freeCount = m.freeCount := by
      rw [PhysMem.freeCount, PhysMem.freeFrames, PhysMem.frames, PhysMem.freeCount,
        PhysMem.freeFrames, PhysMem.frames, ht.paddrAlloc]
      simp only [hused]
    rw [hfree]
    exact h.count

theorem NewSpace.wrote (h : NewSpace m₀ d ps m) (hw : Wrote (frameAddr d) v bytes m m')
    (hlo : memoryTaskBase ≤ v) (hend : v + bytes.length ≤ 4294967296) :
    NewSpace m₀ d ps m' :=
  h.touched hw.touched fun _ hu => ⟨by omega, by omega⟩

/-- What happens elsewhere than in its frames does not matter to the program. -/
theorem NewSpace.elsewhere (h : NewSpace m₀ d ps m)
    (hmem : ∀ j, SpaceFrame m (frameAddr d) j → ∀ b, InFrame j b → m'.mem b = m.mem b)
    (hlo : memoryTaskBase ≤ v) (hhi : v < 4294967296) :
    translate m' (frameAddr d) v = translate m (frameAddr d) v ∧
      ∀ a, translate m (frameAddr d) v = some a → m'.mem a = m.mem a := by
  have huser : UserPage (v / 4096) := by
    unfold memoryTaskBase at hlo
    unfold UserPage
    omega
  have hi : 512 ≤ v / 4096 / 1024 ∧ v / 4096 / 1024 < 1024 := by
    unfold UserPage at huser
    omega
  have hpde : uvmPde m'.mem (frameAddr d) (v / 4096 / 1024) =
      uvmPde m.mem (frameAddr d) (v / 4096 / 1024) :=
    le32_congr fun o ho => hmem d (.inl rfl) _ ⟨by omega, by omega⟩
  have hent : pageEntry m' (frameAddr d) (v / 4096) = pageEntry m (frameAddr d) (v / 4096) := by
    unfold pageEntry pagePresent
    rw [hpde]
    cases hpres : entryPresent (uvmPde m.mem (frameAddr d) (v / 4096 / 1024)) with
    | false => rfl
    | true =>
      obtain ⟨t, -, ht, -⟩ := h.space.table _ hi.2 hpres
      have hpte : uvmPte m'.mem (frameAddr d) (v / 4096 / 1024) (v / 4096 % 1024) =
          uvmPte m.mem (frameAddr d) (v / 4096 / 1024) (v / 4096 % 1024) := by
        rw [uvmPte, uvmPte, hpde, ht]
        exact le32_congr fun o ho =>
          hmem t (.inr (.inl ⟨_, hi.1, hi.2, hpres, ht⟩)) _ ⟨by omega, by omega⟩
      rw [hpte]
  refine ⟨by rw [translate_pageEntry, translate_pageEntry, hent], fun a ha => ?_⟩
  obtain ⟨⟨e, he, helo, hehi⟩, -⟩ := translate_inPage ha
  obtain ⟨j, -, hj, -⟩ := h.space.frame _ huser e he
  exact hmem j (.inr (.inr ⟨_, e, huser, he, hj⟩)) a ⟨hj ▸ helo, hj ▸ hehi⟩

/-- `memory_get_paddr` finds no address in a page that is not there, when its
table is not there either or the address is the first of the page. -/
theorem NewSpace.getPaddr_absent (h : NewSpace m₀ d ps m) (hlo : memoryTaskBase ≤ v)
    (hhi : v < 4294967296) (hno : v / 4096 ∉ ps)
    (hoff : v % 4096 = 0 ∨ ∀ p ∈ ps, v / 4096 / 1024 ≠ p / 1024) :
    memoryGetPaddr (frameAddr d) v m = some (0, m) := by
  have huser : UserPage (v / 4096) := by
    unfold memoryTaskBase at hlo
    unfold UserPage
    omega
  have hnone : translate m (frameAddr d) v = none := by
    rw [translate_pageEntry, Option.map_eq_none_iff]
    by_contra hc
    exact hno ((h.pages _ huser).mp hc)
  have hget := h.space.toDirOk.getPaddr hhi
  rw [hnone, pdeIndex_eq] at hget
  dsimp only at hget
  rw [hget]
  split
  next htable =>
    obtain ⟨p, hp, hsame⟩ := (h.tables _ (by unfold UserPage at huser; omega)
      (by unfold UserPage at huser; omega)).mp htable
    rw [hoff.resolve_right fun hc => hc p hp hsame]
  next => rfl

/-- With frames for all of the pages the loop goes to its end. -/
theorem allocClean_of_le {free : Nat} {qs : List Nat} (huser : ∀ q ∈ qs, UserPage q)
    (hnodup : (ps ++ qs).Nodup) (hle : mapCost (fun _ => false) (ps ++ qs) ≤ free) :
    AllocClean free ps qs ∧ backedPages free ps qs = ps ++ qs := by
  induction qs generalizing ps with
  | nil => exact ⟨trivial, (List.append_nil ps).symm⟩
  | cons q qs ih =>
    have hno : q ∉ ps := fun hq =>
      (List.nodup_append.mp hnodup).2.2 q hq q List.mem_cons_self rfl
    rw [List.append_cons] at hnodup hle ⊢
    have hcost : mapCost (fun _ => false) (ps ++ [q]) ≤ free := by
      rw [mapCost_append] at hle
      omega
    obtain ⟨hclean, hback⟩ := ih (fun q' hq => huser q' (List.mem_cons_of_mem q hq)) hnodup hle
    refine ⟨.inr ⟨huser q List.mem_cons_self, hno, hcost, hclean⟩, ?_⟩
    rw [backedPages, if_pos hcost, hback]

/-! ## The calls -/

/-- A directory that has just been made. -/
theorem NewSpace.start (h : DirOk m m.kernelPageDir) (hfree : 0 < m.freeCount) :
    ∃ d m', memoryCreateUvm m = some (frameAddr d, m') ∧ NewSpace m d [] m' := by
  obtain ⟨d, m', hrun, hok, hempty, hunused, -, hcount, hgrown, htables⟩ :=
    memoryCreateUvm_spaceOk h hfree
  have hused : ∀ k, m'.used k = (m.used k || decide (k = d)) := by
    rcases @memoryCreateUvm_step m 0 h.phys with ⟨hfull, -⟩ | ⟨d', m'', hrun', -, hcopied⟩
    · omega
    · rw [hrun, Option.some.injEq, Prod.mk.injEq] at hrun'
      obtain ⟨hd, rfl⟩ := hrun'
      rw [frameAddr_inj hd]
      exact hcopied.used_dir
  have hno : ∀ i, 512 ≤ i → i < 1024 → hasTable m' (frameAddr d) i = false := by
    intro i hlo hhi
    rw [htables i hhi, decide_eq_false (Nat.not_lt.mpr hlo)]
    rfl
  have hframe : ∀ k, SpaceFrame m' (frameAddr d) k ↔ k = d := by
    intro k
    constructor
    · rintro (hdir | ⟨i, hlo, hhi, hat⟩ | ⟨p, e, hp, he, -⟩)
      · exact (frameAddr_inj hdir).symm
      · have hpres : hasTable m' (frameAddr d) i = true := hat.1
        rw [hno i hlo hhi] at hpres
        cases hpres
      · rw [hempty p hp] at he
        cases he
    · rintro rfl
      exact .inl rfl
  refine ⟨d, m', hrun, hok, hgrown, fun k => ?_, fun k hk => ?_, by simp, fun p hp => ?_,
    fun i hlo hhi => ?_, ?_⟩
  · rw [hused k, hframe k, Bool.or_eq_true, decide_eq_true_eq]
  · rw [(hframe k).mp hk]
    exact hunused
  · simp [hempty p hp]
  · simp [hno i hlo hhi]
  · rw [mapCost]
    exact hcount

theorem allocForPageDir_full {dir vaddr perm i : Nat} (hm : PhysOk m) (hfull : m.freeCount = 0) :
    allocForPageDir dir vaddr perm i m = some (false, m) := by
  rcases paddrAllocPage_cases hm with ⟨-, he⟩ | ⟨k, hk, hfree, -⟩
  · rw [allocForPageDir, seq_some he]
    rfl
  · rw [freeCount_eq_zero.mp hfull k hk] at hfree
    cases hfree

/-- The loop of `memory_alloc_for_page_dir`. -/
theorem NewSpace.allocLoop {free vaddr perm : Nat} {is : List Nat} (h : NewSpace m₀ d ps m)
    (hfree : m₀.freeCount = free + 1) (hperm : perm < 4096)
    (hclean : AllocClean free ps (is.map (allocPage vaddr))) :
    ∃ b m' qs, forEach (allocForPageDir (frameAddr d) vaddr perm) is m = some (b, m') ∧
      NewSpace m₀ d (backedPages free ps (is.map (allocPage vaddr))) m' ∧
      NewPages (frameAddr d) qs m m' ∧
      ∀ q ∈ qs, UserPage q ∧ pageEntry m (frameAddr d) q = none := by
  induction is generalizing m ps with
  | nil => exact ⟨true, m, [], rfl, h, .nil h.space, by simp⟩
  | cons i is ih =>
    have hcount := h.count
    rw [List.map_cons] at hclean ⊢
    rcases hclean with hnone | ⟨hq, hnot, hcost, hclean⟩
    · -- no frame is left: the loop ends here
      have hmore : ¬mapCost (fun _ => false) (ps ++ [allocPage vaddr i]) ≤ free := by
        rw [mapCost_append, mapCost, mapCost]
        split <;> omega
      refine ⟨false, m, [], ?_, ?_, .nil h.space, by simp⟩
      · rw [forEach, seq_some (allocForPageDir_full h.space.phys (by omega))]
        rfl
      · rwa [backedPages, if_neg hmore]
    · have hnew : pageEntry m (frameAddr d) (allocPage vaddr i) = none := by
        by_contra hc
        exact hnot ((h.pages _ hq).mp hc)
      have hadd := h.cost hq
      rcases allocForPageDir_mapped h.space.toDirOk hperm hnew with
        ⟨-, k, m₁, hstep, hk, hunused, honly, hmap, -⟩ | ⟨hless, -⟩
      · have hflags := Nat.or_lt_two_pow (n := 12) hperm (show 1 < 2 ^ 12 by decide)
        have hpage := h.space.mapPage hk hunused hq hflags honly hmap
        obtain ⟨b, m', qs, hrun, hrest, hpages, hqs⟩ :=
          ih (h.mapPage hk hunused hq hnot hflags honly hmap) hclean
        refine ⟨b, m', [allocPage vaddr i] ++ qs, ?_, ?_, ?_, fun q hmem => ?_⟩
        · rw [forEach, seq_some hstep, if_pos rfl]
          exact hrun
        · rwa [backedPages, if_pos hcost]
        · exact hpage.append hpages (by simpa using hq.2)
        · rcases List.mem_append.mp hmem with hfirst | hlater
          · rw [List.mem_singleton.mp hfirst]
            exact ⟨hq, hnew⟩
          · obtain ⟨huser, hnone⟩ := hqs q hlater
            by_cases hsame : q ∈ [allocPage vaddr i]
            · exact absurd hnone (hpage.mapped q hsame)
            · exact ⟨huser, hpage.others q huser.2 hsame ▸ hnone⟩
      · omega

/-- `memory_alloc_for_page_dir`. -/
theorem NewSpace.alloc {free vaddr size perm : Nat} {qs : List Nat} (h : NewSpace m₀ d ps m)
    (hfree : m₀.freeCount = free + 1) (hqs : loopPages vaddr size = qs) (hperm : perm < 4096)
    (hclean : AllocClean free ps qs) :
    ∃ m' new, memoryAllocForPageDir (frameAddr d) vaddr size perm m = some (0, m') ∧
      NewSpace m₀ d (backedPages free ps qs) m' ∧ NewPages (frameAddr d) new m m' ∧
      ∀ q ∈ new, UserPage q ∧ pageEntry m (frameAddr d) q = none := by
  rw [← hqs, loopPages, ← map_allocPage] at hclean ⊢
  obtain ⟨b, m', new, hrun, hbuilt⟩ := h.allocLoop hfree hperm hclean
  refine ⟨m', new, ?_, hbuilt⟩
  rw [memoryAllocForPageDir, seq_some hrun]
  rfl

/-- `memory_destroy_uvm` gives back what has been taken: the bitmap of before,
and the directories of before map what they mapped. -/
theorem NewSpace.destroy (h : NewSpace m₀ d ps m) :
    ∃ m', memoryDestroyUvm (frameAddr d) m = some ((), m') ∧
      m'.paddrAlloc.bitmap = m₀.paddrAlloc.bitmap ∧
      ∀ dir, DirOk m₀ dir → ∀ p < 1048576, pageEntry m' dir p = pageEntry m₀ dir p := by
  have hframes : ∀ a ∈ uvmFrames m.mem (frameAddr d), ∃ k < m.frames, a = frameAddr k :=
    fun _ => h.space.uvmFrames
  obtain ⟨⟨⟨⟩, m'⟩, hrun, hfreed⟩ := memoryDestroyUvm_frees hframes m (.start h.space.phys)
  refine ⟨m', hrun, bitmap_ext (hfreed.frames.trans h.grown.frames) fun k => ?_,
    fun dir hdir p hp => ?_⟩
  · show m'.used k = m₀.used k
    rw [hfreed.used k, Bool.eq_iff_iff, Bool.and_eq_true, decide_eq_true_eq, mem_uvmFrames_iff,
      h.used k]
    constructor
    · exact fun hk => hk.1.resolve_right hk.2
    · refine fun hk => ⟨.inl hk, fun hc => ?_⟩
      rw [h.fresh k hc] at hk
      cases hk
  · obtain ⟨-, -, hent⟩ := h.grown.dirOk hdir
    rw [← hent p hp, pageEntry, hfreed.mem]
    rfl

end NewSpace

end Wjos
