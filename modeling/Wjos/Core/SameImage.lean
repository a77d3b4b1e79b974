/-
Wjos.Core.SameImage — two address spaces that are built alike.

`SpaceFilled m₀ d ps W m` is the space `NewSpace m₀ d ps m` with an account of the
stores that have been made since `m₀`: into the directory, its tables and the
user addresses `W`. So the program finds at any other address what its frame
held in `m₀` (`SpaceFilled.byte`). `ImagesAlike` is about two such spaces, with the
same pages on the same frames. `memory_create_uvm` starts them
(`ImagesAlike.start`), and both `memory_alloc_for_page_dir` and stores at the
same user addresses keep them alike.
-/
import Wjos.Core.SameMap
import Wjos.Core.NewSpace

namespace Wjos

open Lib

/-- A new address space with the user pages `ps`: since `m₀` stores have gone
nowhere but into its directory, its tables and the user addresses `W`. -/
structure SpaceFilled (m₀ : PhysMem) (d : Nat) (ps : List Nat) (W : Nat → Prop)
    (m : PhysMem) : Prop extends NewSpace m₀ d ps m where
  within : ∀ v, W v → memoryTaskBase ≤ v ∧ v < 4294967296
  mem : ∀ a, ¬(frameAddr d ≤ a ∧ a < frameAddr d + 4096) →
    (∀ k, TableFrame m.mem (frameAddr d) k → ¬InFrame k a) →
    (∀ v, W v → translate m (frameAddr d) v ≠ some a) → m.mem a = m₀.mem a

/-- Two of them, one since `m₁`, one since `m₂`, with the same pages on the same
frames. -/
structure ImagesAlike (m₁ m₂ : PhysMem) (d : Nat) (ps : List Nat) (W : Nat → Prop)
    (m₁' m₂' : PhysMem) : Prop where
  same : SameMap (frameAddr d) m₁' m₂'
  left : SpaceFilled m₁ d ps W m₁'
  right : SpaceFilled m₂ d ps W m₂'

/-! ## One space -/

section SpaceFilled

variable {m₀ m m' : PhysMem} {d v a : Nat} {ps ps' new : List Nat} {W R : Nat → Prop}

/-- What the program finds where nobody has stored. -/
theorem SpaceFilled.byte (h : SpaceFilled m₀ d ps W m) (hlo : memoryTaskBase ≤ v)
    (hhi : v < 4294967296) (hout : ¬W v) (ht : translate m (frameAddr d) v = some a) :
    m.mem a = m₀.mem a := by
  have huser : ∀ {u}, memoryTaskBase ≤ u → u < 4294967296 → UserPage (u / 4096) := by
    intro u hulo huhi
    unfold memoryTaskBase at hulo
    unfold UserPage
    omega
  obtain ⟨hin, hoff⟩ := translate_inPage ht
  obtain ⟨k, -, hka, -, htable, hdir⟩ := hin.mem_frame h.space (huser hlo hhi)
  refine h.mem a (fun hc => h.space.dir_outside hdir hc.1 hc.2 hka)
    (fun t hta hat => htable (hat.unique hka ▸ hta)) fun u hu htu => hout ?_
  obtain ⟨hulo, huhi⟩ := h.within u hu
  obtain ⟨hin', hoff'⟩ := translate_inPage htu
  have hpage := InPage.unique h.space (huser hulo huhi) (huser hlo hhi) hin' hin
  rwa [show v = u by omega]

/-- Pages that have been added. -/
theorem SpaceFilled.grow (h : SpaceFilled m₀ d ps W m) (hspace : NewSpace m₀ d ps' m')
    (hpages : NewPages (frameAddr d) new m m')
    (hnew : ∀ q ∈ new, UserPage q ∧ pageEntry m (frameAddr d) q = none) :
    SpaceFilled m₀ d ps' W m' := by
  refine ⟨hspace, h.within, fun a hdir htables hW => ?_⟩
  refine (hpages.mem a hdir fun i _ hi k hk => htables k (hk.frame hi)).trans
    (h.mem a hdir (fun k hk => htables k (hpages.tableFrame hk)) fun v hv ht => hW v hv ?_)
  obtain ⟨hlo, hhi⟩ := h.within v hv
  rw [translate_pageEntry] at ht ⊢
  rw [hpages.others _ (by omega) fun hc => ?_]
  · exact ht
  · rw [(hnew _ hc).2] at ht
    cases ht

/-- Stores into its pages. -/
theorem SpaceFilled.touched (h : SpaceFilled m₀ d ps W m) (ht : Touched (frameAddr d) R m m')
    (hR : ∀ u, R u → memoryTaskBase ≤ u ∧ u < 4294967296) :
    SpaceFilled m₀ d ps (fun v => W v ∨ R v) m' := by
  refine ⟨h.toNewSpace.touched ht hR, fun v hv => hv.elim (h.within v) (hR v),
    fun a hdir htables hW => ?_⟩
  have hsame : ∀ v, v < 4294967296 →
      translate m' (frameAddr d) v = translate m (frameAddr d) v := fun v hv =>
    translate_congr ht.entries hv
  refine (ht.mem hR fun v hv hat => hW v (.inr hv) ((hsame v (hR v hv).2).trans hat)).trans
    (h.mem a hdir (fun k hk => htables k ((ht.tableFrame h.space hR k).mpr hk)) fun v hv hat => ?_)
  exact hW v (.inl hv) ((hsame v (h.within v hv).2).trans hat)

end SpaceFilled

/-! ## Two spaces -/

section Images

variable {m₁ m₂ m₁' m₂' m₁'' m₂'' : PhysMem} {d vaddr size perm free : Nat} {ps qs : List Nat}
  {W R : Nat → Prop}

/-- A directory that has just been made, with the map of the kernel. -/
theorem SpaceFilled.start {m : PhysMem} (h : DirOk m m.kernelPageDir) (hfree : 0 < m.freeCount) :
    ∃ d m', memoryCreateUvm m = some (frameAddr d, m') ∧ SpaceFilled m d [] (fun _ => False) m' ∧
      (∀ i < 1024,
        hasTable m' (frameAddr d) i = (decide (i < 512) && hasTable m m.kernelPageDir i)) ∧
      ∀ p < 1048576, pageEntry m' (frameAddr d) p =
        if p < 524288 then pageEntry m m.kernelPageDir p else none := by
  obtain ⟨d, m', hrun, hspace⟩ := NewSpace.start h hfree
  rcases memoryCreateUvm_dirOk h with
    ⟨hfull, -⟩ | ⟨d₁, m₁, hrun₁, -, -, -, -, -, -, htables, hentries⟩
  · omega
  rcases @memoryCreateUvm_step m 0 h.phys with ⟨hfull, -⟩ | ⟨d₂, m₂, hrun₂, -, hcopied⟩
  · omega
  rw [hrun, Option.some.injEq, Prod.mk.injEq] at hrun₁ hrun₂
  obtain ⟨hd₁, rfl⟩ := hrun₁
  obtain ⟨hd₂, rfl⟩ := hrun₂
  rw [← hd₁] at htables hentries
  refine ⟨d, m', hrun, ⟨hspace, fun _ hv => hv.elim, fun a hdir _ _ => ?_⟩, htables, hentries⟩
  rw [frameAddr_inj hd₂] at hdir
  exact hcopied.mem_outside hdir

/-- What `memory_create_uvm` takes. -/
theorem memoryCreateUvm_paddrAlloc {m m' : PhysMem} {a : Nat}
    (hrun : memoryCreateUvm m = some (a, m')) :
    a = (addrAllocPage m.paddrAlloc 1).2.toNat ∧
      m'.paddrAlloc = (addrAllocPage m.paddrAlloc 1).1 := by
  have halloc : paddrAllocPage m = some ((addrAllocPage m.paddrAlloc 1).2.toNat,
    { m with paddrAlloc := (addrAllocPage m.paddrAlloc 1).1 }) := rfl
  rw [memoryCreateUvm, seq_some halloc] at hrun
  split at hrun
  next hzero =>
    cases hrun
    exact ⟨hzero.symm, rfl⟩
  next =>
    cases hrun
    exact ⟨rfl, rfl⟩

/-- `memory_create_uvm` in two memories that differ in free frames. -/
theorem ImagesAlike.start (h : DirOk m₁ m₁.kernelPageDir) (hgrown : PhysGrown m₁ m₂)
    (halloc : m₂.paddrAlloc = m₁.paddrAlloc) (hfree : 0 < m₁.freeCount) :
    ∃ d m₁' m₂', memoryCreateUvm m₁ = some (frameAddr d, m₁') ∧
      memoryCreateUvm m₂ = some (frameAddr d, m₂') ∧
        ImagesAlike m₁ m₂ d [] (fun _ => False) m₁' m₂' := by
  have hkernel := hgrown.sameMap h halloc
  have h₂ : DirOk m₂ m₂.kernelPageDir := hgrown.kernelPageDir ▸ (hgrown.dirOk h).1
  obtain ⟨d, m₁', hrun₁, hleft, htables₁, hentries₁⟩ := SpaceFilled.start h hfree
  obtain ⟨d', m₂', hrun₂, hright, htables₂, hentries₂⟩ :=
    SpaceFilled.start h₂ (hkernel.freeCount ▸ hfree)
  obtain ⟨ha₁, halloc₁⟩ := memoryCreateUvm_paddrAlloc hrun₁
  obtain ⟨ha₂, halloc₂⟩ := memoryCreateUvm_paddrAlloc hrun₂
  have hd : d' = d := frameAddr_inj (by rw [ha₁, ha₂, halloc])
  subst hd
  refine ⟨d', m₁', m₂', hrun₁, hrun₂, ⟨?_, fun i hi => ?_, fun p hp => ?_⟩, hleft, hright⟩
  · rw [halloc₁, halloc₂, halloc]
  · rw [htables₁ i hi, htables₂ i hi, hgrown.kernelPageDir, hkernel.tables i hi]
  · rw [hentries₁ p hp, hentries₂ p hp, hgrown.kernelPageDir, hkernel.entries p hp]

/-- `memory_alloc_for_page_dir`. -/
theorem ImagesAlike.alloc (h : ImagesAlike m₁ m₂ d ps W m₁' m₂') (hfree₁ : m₁.freeCount = free + 1)
    (hfree₂ : m₂.freeCount = free + 1) (hqs : loopPages vaddr size = qs) (hperm : perm < 4096)
    (hclean : AllocClean free ps qs) :
    ∃ m₁'' m₂'', memoryAllocForPageDir (frameAddr d) vaddr size perm m₁' = some (0, m₁'') ∧
      memoryAllocForPageDir (frameAddr d) vaddr size perm m₂' = some (0, m₂'') ∧
        ImagesAlike m₁ m₂ d (backedPages free ps qs) W m₁'' m₂'' := by
  obtain ⟨m₁'', new₁, hrun₁, hspace₁, hpages₁, hnew₁⟩ := h.left.alloc hfree₁ hqs hperm hclean
  obtain ⟨m₂'', new₂, hrun₂, hspace₂, hpages₂, hnew₂⟩ := h.right.alloc hfree₂ hqs hperm hclean
  exact ⟨m₁'', m₂'', hrun₁, hrun₂, h.same.alloc h.left.space.toDirOk h.right.space.toDirOk hperm
    hrun₁ hrun₂, h.left.grow hspace₁ hpages₁ hnew₁, h.right.grow hspace₂ hpages₂ hnew₂⟩

/-- Stores at the same user addresses. -/
theorem ImagesAlike.touched (h : ImagesAlike m₁ m₂ d ps W m₁' m₂')
    (hR : ∀ u, R u → memoryTaskBase ≤ u ∧ u < 4294967296)
    (ht₁ : Touched (frameAddr d) R m₁' m₁'') (ht₂ : Touched (frameAddr d) R m₂' m₂'') :
    ImagesAlike m₁ m₂ d ps (fun v => W v ∨ R v) m₁'' m₂'' :=
  ⟨h.same.touched h.left.space h.right.space hR ht₁ ht₂, h.left.touched ht₁ hR,
    h.right.touched ht₂ hR⟩

end Images

end Wjos
