/-
Wjos.Core.PageTableRuns — runs of `memory_create_map` and `memory_free_page`
on one directory, and what `memory_get_paddr` says after them.

`dirStep` is one call. A range may be mapped where none of its pages is, and a
user page may be freed where it is mapped. `DirEffect` is what the call then
does to the translation of every address: the range that is mapped, up to
where the tables run out, or the page that is freed, and no other address.

`memory_get_paddr` does not look at the bit `present` of the entry it finds.
`lookupOk_iff` says where its answer is right all the same: an address that is
not mapped needs a table that is not there, or an offset of zero.
-/
import Wjos.Core.CopyUvmTheorems
import Wjos.Core.PageTables
import Wjos.Lib.Run

namespace Wjos

open Lib

/-! ## Mapping a range -/

/-- The entry of page `i` of a range. -/
def mapEntry (paddr perm i : Nat) : Nat := (paddr + 4096 * i) % 4294967296 ||| perm ||| 1

section Range

variable {m : PhysMem} {dir vaddr paddr perm count : Nat}

theorem mapEntry_lt (hperm : perm < 4294967296) (i : Nat) : mapEntry paddr perm i < 4294967296 := by
  have h₁ : (paddr + 4096 * i) % 4294967296 < 2 ^ 32 := Nat.mod_lt _ (by decide)
  exact Nat.or_lt_two_pow (Nat.or_lt_two_pow h₁ hperm) (by decide)

theorem mapEntry_succ (paddr perm i : Nat) :
    mapEntry ((paddr + 4096) % 4294967296) perm i = mapEntry paddr perm (i + 1) := by
  unfold mapEntry
  rw [show ((paddr + 4096) % 4294967296 + 4096 * i) % 4294967296 =
    (paddr + 4096 * (i + 1)) % 4294967296 by omega]

/-- `memory_create_map` on a range without a mapped page: it maps the first
`n` pages, and all of them unless it fails. -/
theorem DirOk.createMap (h : DirOk m dir) (hv : vaddr < 4294967296) (hp : paddr < 4294967296)
    (hperm : perm < 4294967296) (hfit : vaddr / 4096 + count ≤ 1048576)
    (hnew : ∀ i < count, pageEntry m dir (vaddr / 4096 + i) = none) :
    ∃ r m' n, memoryCreateMap dir vaddr paddr count perm m = some (r, m') ∧ n ≤ count ∧
      (r = 0 ∧ n = count ∨ r = -1 ∧ n < count) ∧ DirOk m' dir ∧ (∃ t, Took dir m t m') ∧
      ∀ q < 1048576, pageEntry m' dir q =
        if vaddr / 4096 ≤ q ∧ q < vaddr / 4096 + n then
          some (mapEntry paddr perm (q - vaddr / 4096))
        else pageEntry m dir q := by
  induction count generalizing m vaddr paddr with
  | zero =>
    refine ⟨0, m, 0, rfl, Nat.le_refl 0, .inl ⟨rfl, rfl⟩, h, ⟨0, Took.refl dir m⟩, ?_⟩
    intro q _
    rw [if_neg (by omega)]
  | succ count ih =>
    have hself : paddr ||| perm ||| 1 = mapEntry paddr perm 0 := by
      rw [mapEntry, Nat.mul_zero, Nat.add_zero, Nat.mod_eq_of_lt hp]
    have hfirst : pageEntry m dir (vaddr / 4096) = none := hnew 0 (by omega)
    rcases h.createMap_step count hv hfirst (hself ▸ mapEntry_lt hperm 0) with
      ⟨-, -, he⟩ | ⟨m₁, hmap, -, he⟩
    · refine ⟨-1, m, 0, he, by omega, .inr ⟨rfl, by omega⟩, h, ⟨0, Took.refl dir m⟩, ?_⟩
      intro q _
      rw [if_neg (by omega)]
    · rw [hself] at hmap
      rcases Nat.eq_zero_or_pos count with rfl | hpos
      · refine ⟨0, m₁, 1, he, Nat.le_refl 1, .inl ⟨rfl, rfl⟩, hmap.ok, ⟨_, hmap.took⟩, ?_⟩
        intro q hq
        rw [hmap.entries q hq]
        by_cases hqp : q = vaddr / 4096
        · rw [if_pos hqp, if_pos (by omega), hqp, Nat.sub_self]
        · rw [if_neg hqp, if_neg (by omega)]
      · have hnext : (vaddr + 4096) % 4294967296 / 4096 = vaddr / 4096 + 1 := by omega
        have hnew' : ∀ i < count,
            pageEntry m₁ dir ((vaddr + 4096) % 4294967296 / 4096 + i) = none := by
          intro i hi
          rw [hnext, hmap.entries _ (by omega), if_neg (by omega), Nat.add_assoc, Nat.add_comm 1 i]
          exact hnew (i + 1) (by omega)
        have hp' : (paddr + 4096) % 4294967296 < 4294967296 := Nat.mod_lt _ (by decide)
        obtain ⟨r, m', n, he', hn, hr, hok, ⟨t, htook⟩, hent⟩ :=
          ih hmap.ok (Nat.mod_lt _ (by omega)) hp' (by omega) hnew'
        refine ⟨r, m', n + 1, he.trans he', by omega, by omega, hok, ⟨_, hmap.took.trans htook⟩, ?_⟩
        intro q hq
        rw [hent q hq, hnext, hmap.entries q hq]
        by_cases hqp : q = vaddr / 4096
        · rw [if_neg (by omega), if_pos hqp, if_pos (by omega), hqp, Nat.sub_self]
        · rw [if_neg hqp]
          by_cases hin : vaddr / 4096 + 1 ≤ q ∧ q < vaddr / 4096 + 1 + n
          · rw [if_pos hin, if_pos (by omega), mapEntry_succ,
              show q - (vaddr / 4096 + 1) + 1 = q - vaddr / 4096 by omega]
          · rw [if_neg hin, if_neg (by omega)]

end Range

/-! ## Freeing a page -/

section Free

variable {m : PhysMem} {dir addr a e k vaddr : Nat}

/-- A frame that is neither the directory nor a table may be given back. -/
theorem DirOk.unmark (h : DirOk m dir) (hk : k < m.frames) (hdir : dir ≠ frameAddr k)
    (htable : ¬TableFrame m.mem dir k) : DirOk (m.mark k 0) dir where
  phys := h.phys.mark
  dirAt := by
    rcases h.dirAt with hlow | ⟨d, hd, he, hused⟩
    · exact .inl hlow
    · have hdk : d ≠ k := fun hdk => hdir (hdk ▸ he)
      exact .inr ⟨d, by rwa [mark_frames], he, by rw [mark_used hk, if_neg hdk, hused]⟩
  table i hi hp := by
    obtain ⟨t, ht, ha, hused, hd⟩ := h.table i hi hp
    have htk : t ≠ k := fun htk => htable ⟨i, hi, hp, htk ▸ ha⟩
    exact ⟨t, by rwa [mark_frames], ha, by rw [mark_used hk, if_neg htk, hused], hd⟩
  distinct := h.distinct
  empty := h.empty

theorem entryPaddr_lt (he : e < 4294967296) : entryPaddr e < 4294967296 := by
  unfold entryPaddr
  omega

/-- `memory_free_page` on a user page that is mapped to a frame apart from
the directory and its tables. -/
theorem DirOk.freePage (h : DirOk m dir) (hlo : memoryTaskBase ≤ addr) (hhi : addr < 4294967296)
    (hmap : pageEntry m dir (addr / 4096) = some e)
    (hdir : dir ≠ entryPaddr e)
    (htable : ∀ k, TableFrame m.mem dir k → entryPaddr e ≠ frameAddr k) :
    ∃ m', memoryFreePage dir addr m = some ((), m') ∧ DirOk m' dir ∧
      ∀ q < 1048576, pageEntry m' dir q = if q = addr / 4096 then none else pageEntry m dir q := by
  have hi : pdeIndex addr < 1024 := by
    unfold pdeIndex
    omega
  have hj : pteIndex addr < 1024 := by
    unfold pteIndex
    omega
  have hpage : addr / 4096 = pdeIndex addr * 1024 + pteIndex addr := by
    rw [pdeIndex_eq, pteIndex_eq]
    omega
  rw [pageEntry, ← pdeIndex_eq, ← pteIndex_eq] at hmap
  obtain ⟨hpres, he⟩ := Option.ite_none_right_eq_some.mp hmap
  simp only [pagePresent, Bool.and_eq_true] at hpres
  rw [Option.some.injEq] at he
  obtain ⟨k, hk, hka, hused, -⟩ := h.table _ hi hpres.1
  have hword : le32 m.mem (frameAddr k + 4 * pteIndex addr) = e := by
    rw [← he, uvmPte, hka]
  have hload : loadWord (frameAddr k + 4 * pteIndex addr) m = some (e, m) := by
    rw [← hword]
    rfl
  have hcheck : check (entryPresent e) m = some ((), m) := by
    rw [← he, hpres.2]
    rfl
  obtain ⟨m₁, hfree, hok, hmem⟩ : ∃ m₁, paddrFreePage (entryPaddr e) 1 m = some ((), m₁) ∧
      DirOk m₁ dir ∧ m₁.mem = m.mem := by
    have haligned : entryPaddr e % 4096 = 0 := by
      unfold entryPaddr
      omega
    rcases paddrFreePage_cases h.phys (entryPaddr_lt (hword ▸ le32_lt _ _)) with
      ⟨f, hf, hin, hrun⟩ | ⟨-, hrun⟩
    · have hfe : entryPaddr e = frameAddr f := by
        unfold InFrame frameAddr at hin
        unfold frameAddr
        omega
      exact ⟨_, hrun, h.unmark hf (hfe ▸ hdir) fun ht => htable f ht hfe, rfl⟩
    · exact ⟨m, hrun, h, rfl⟩
  obtain ⟨hok', -, hent⟩ := hok.setEntry (e := 0) hi hj (by rw [hmem]; exact hpres.1)
    (by rw [hmem]; exact hka) (by decide) (fun _ => rfl)
  refine ⟨_, ?_, hok', fun q hq => ?_⟩
  · rw [memoryFreePage, if_neg (by omega), seq_some (findPte_present hpres.1 hka)]
    dsimp only
    rw [seq_some hload, seq_some hcheck, seq_some hfree]
    rfl
  · rw [hent q hq, ← hpage]
    have hold : pageEntry m₁ dir q = pageEntry m dir q := by
      unfold pageEntry
      rw [hmem]
    rw [hold]
    rfl

end Free

/-! ## Looking up an address -/

/-- `memory_get_paddr` is right about `vaddr`, and `memory_copy_uvm_data` to
an address that is not mapped fails and writes nothing. -/
structure LookupOk (m : PhysMem) (dir vaddr : Nat) : Prop where
  mapped : ∀ a, translate m dir vaddr = some a → memoryGetPaddr dir vaddr m = some (a, m)
  absent : translate m dir vaddr = none → memoryGetPaddr dir vaddr m = some (0, m)
  copy : translate m dir vaddr = none → ∀ bytes, bytes ≠ [] →
    memoryCopyUvmData vaddr dir bytes m = some (-1, m)

section Lookup

variable {m : PhysMem} {dir vaddr : Nat}

/-- What `memory_get_paddr` returns. -/
theorem DirOk.getPaddr (h : DirOk m dir) (hv : vaddr < 4294967296) :
    memoryGetPaddr dir vaddr m = some (match translate m dir vaddr with
      | some a => a
      | none => if hasTable m dir (pdeIndex vaddr) then vaddr % 4096 else 0, m) := by
  have hi : pdeIndex vaddr < 1024 := by
    unfold pdeIndex
    omega
  have hj : pteIndex vaddr < 1024 := by
    unfold pteIndex
    omega
  rw [translate_pageEntry, pageEntry, ← pdeIndex_eq, ← pteIndex_eq, pagePresent]
  cases hp : hasTable m dir (pdeIndex vaddr) with
  | false =>
    rw [memoryGetPaddr, seq_some (findPte_absent hp),
      show entryPresent (uvmPde m.mem dir (pdeIndex vaddr)) = false from hp, Bool.false_and,
      if_neg Bool.false_ne_true]
    rfl
  | true =>
    obtain ⟨k, -, hk, -⟩ := h.table _ hi hp
    have hload : loadWord (frameAddr k + 4 * pteIndex vaddr) m =
        some (uvmPte m.mem dir (pdeIndex vaddr) (pteIndex vaddr), m) := by
      rw [uvmPte, hk]
      rfl
    have hrun : memoryGetPaddr dir vaddr m =
        some
          (entryPaddr (uvmPte m.mem dir (pdeIndex vaddr) (pteIndex vaddr)) + vaddr % 4096, m) := by
      rw [memoryGetPaddr, seq_some (findPte_present hp hk)]
      dsimp only
      rw [seq_some hload]
      rfl
    rw [hrun, show entryPresent (uvmPde m.mem dir (pdeIndex vaddr)) = true from hp, Bool.true_and]
    cases hpres : entryPresent (uvmPte m.mem dir (pdeIndex vaddr) (pteIndex vaddr)) with
    | true => rfl
    | false =>
      rw [h.empty _ hi _ hj hp hpres]
      simp [entryPaddr]

/-- The answer is right exactly where the address is mapped, its table is
not there, or it is the first address of a page. -/
theorem lookupOk_iff (h : DirOk m dir) (hv : vaddr < 4294967296) : LookupOk m dir vaddr ↔
    (translate m dir vaddr = none → hasTable m dir (pdeIndex vaddr) = true →
      vaddr % 4096 = 0) := by
  have hget := h.getPaddr hv
  constructor
  · intro hok hnone htable
    rw [hok.absent hnone, hnone] at hget
    simpa [htable] using hget.symm
  · intro hcond
    have habsent : translate m dir vaddr = none → memoryGetPaddr dir vaddr m = some (0, m) := by
      intro hnone
      rw [hget, hnone]
      by_cases htable : hasTable m dir (pdeIndex vaddr) = true
      · simp [htable, hcond hnone htable]
      · simp [htable]
    refine ⟨fun a ha => by rw [hget, ha], habsent, fun hnone bytes hne => ?_⟩
    obtain ⟨b, bytes, rfl⟩ := List.exists_cons_of_ne_nil hne
    rw [memoryCopyUvmData, List.length_cons, copyUvmData, if_neg hne, seq_some (habsent hnone)]
    rfl

end Lookup

/-! ## New directories -/

section New

variable {m m' : PhysMem} {dir i : Nat}

/-- The words of a directory that other allocations have left alone. -/
theorem PhysGrown.dirWord (h : PhysGrown m m') (hd : DirOk m dir) (hi : i < 1024) :
    uvmPde m'.mem dir i = uvmPde m.mem dir i := by
  rcases hd.dirAt with hlow | ⟨k, -, rfl, hused⟩
  · refine le32_congr fun o ho => h.mem _ fun k _ hin => ?_
    unfold InFrame frameAddr at *
    omega
  · exact h.word hused hi

/-- Such a directory is the map it was. -/
theorem PhysGrown.dirOk (h : PhysGrown m m') (hd : DirOk m dir) : DirOk m' dir ∧
    (∀ i < 1024, hasTable m' dir i = hasTable m dir i) ∧
    ∀ p < 1048576, pageEntry m' dir p = pageEntry m dir p := by
  have hpte : ∀ i < 1024, entryPresent (uvmPde m.mem dir i) = true → ∀ j < 1024,
      uvmPte m'.mem dir i j = uvmPte m.mem dir i j := by
    intro i hi hp j hj
    obtain ⟨k, -, hk, hused, -⟩ := hd.table i hi hp
    rw [uvmPte, uvmPte, h.dirWord hd hi, hk]
    exact h.word hused hj
  exact hd.congr h.ok h.frames h.used (fun i hi => h.dirWord hd hi) hpte

/-- A directory made by `memory_create_uvm` maps the pages of the kernel and
no others, when that of the kernel is well formed. -/
theorem memoryCreateUvm_dirOk (h : DirOk m m.kernelPageDir) :
    (m.freeCount = 0 ∧ memoryCreateUvm m = some (0, m)) ∨
      ∃ d m', memoryCreateUvm m = some (frameAddr d, m') ∧ d < m.frames ∧ m.used d = false ∧
        m'.used d = true ∧ m'.freeCount + 1 = m.freeCount ∧ PhysGrown m m' ∧
        DirOk m' (frameAddr d) ∧
        (∀ i < 1024, hasTable m' (frameAddr d) i =
          (decide (i < 512) && hasTable m m.kernelPageDir i)) ∧
        ∀ p < 1048576, pageEntry m' (frameAddr d) p =
          if p < 524288 then pageEntry m m.kernelPageDir p else none := by
  rcases @memoryCreateUvm_step m 0 h.phys with hfull | ⟨d, m', hrun, hcount, use, hl, hset, -⟩
  · exact .inl hfull
  · have hgrown := hl.grown
    obtain ⟨hd, hfree⟩ := hl.fresh d _ hset.dir
    have hlow : ∀ i < 512, uvmPde m'.mem (frameAddr d) i = uvmPde m.mem m.kernelPageDir i :=
      (hl.holds d _ hset.dir).1
    have hhigh : ∀ i, 512 ≤ i → i < 1024 → uvmPde m'.mem (frameAddr d) i = 0 := by
      intro i hlo hhi
      refine ((hl.holds d _ hset.dir).2 i hlo hhi).2 fun t ht => ?_
      obtain ⟨j, hj⟩ := (hset.tables i).mp ⟨t, ht⟩
      exact hj
    have hpres : ∀ i < 1024, entryPresent (uvmPde m'.mem (frameAddr d) i) = true → i < 512 := by
      intro i hi hp
      by_contra hge
      rw [hhigh i (by omega) hi] at hp
      exact absurd hp (by decide)
    have hpte : ∀ i < 512, entryPresent (uvmPde m.mem m.kernelPageDir i) = true → ∀ j < 1024,
        uvmPte m'.mem (frameAddr d) i j = uvmPte m.mem m.kernelPageDir i j := by
      intro i hi hp j hj
      obtain ⟨k, -, hk, hused, -⟩ := h.table i (by omega) hp
      rw [uvmPte, uvmPte, hlow i hi, hk]
      exact hgrown.word hused hj
    have hused : m'.used d = true := by simp [hl.used d, hset.dir]
    refine .inr ⟨d, m', hrun, hd, hfree, hused, hcount, hgrown,
      ⟨hgrown.ok, .inr ⟨d, hgrown.frames.symm ▸ hd, rfl, hused⟩, ?_, ?_, ?_⟩, ?_, ?_⟩
    · intro i hi hp
      have hi' := hpres i hi hp
      rw [hlow i hi'] at hp ⊢
      obtain ⟨k, hk, ha, hkused, -⟩ := h.table i hi hp
      refine ⟨k, hgrown.frames.symm ▸ hk, ha, hgrown.used k hkused, fun he => ?_⟩
      rw [← frameAddr_inj he, hfree] at hkused
      exact absurd hkused (by decide)
    · intro i hi j hj hpi hpj hij
      have hi' := hpres i hi hpi
      have hj' := hpres j hj hpj
      rw [hlow i hi'] at hpi hij
      rw [hlow j hj'] at hpj hij
      exact h.distinct i hi j hj hpi hpj hij
    · intro i hi j hj hp habs
      have hi' := hpres i hi hp
      rw [hlow i hi'] at hp
      rw [hpte i hi' hp j hj] at habs ⊢
      exact h.empty i hi j hj hp habs
    · intro i hi
      by_cases hi' : i < 512
      · simp [hasTable, hlow i hi', hi']
      · simp [hasTable, hhigh i (by omega) hi, hi', entryPresent]
    · intro p hp
      unfold pageEntry pagePresent
      by_cases hp' : p < 524288
      · rw [if_pos hp', hlow _ (by omega)]
        cases hpk : entryPresent (uvmPde m.mem m.kernelPageDir (p / 1024)) with
        | true => rw [hpte _ (by omega) hpk _ (by omega)]
        | false => rfl
      · rw [if_neg hp', hhigh _ (by omega) (by omega)]
        rfl

end New

/-! ## Runs -/

/-- A call on the directory. -/
inductive DirEvent where
  | map (vaddr paddr count perm : Nat)
  | free (addr : Nat)
  deriving DecidableEq, Repr

/-- The call that is made. -/
def dirCall (dir : Nat) : DirEvent → Prog PhysMem Int
  | .map vaddr paddr count perm => memoryCreateMap dir vaddr paddr count perm
  | .free addr => do
    memoryFreePage dir addr
    pure 0

/-- A range of whole pages none of which is mapped; a user page that is. -/
def DirAllowed (m : PhysMem) (dir : Nat) : DirEvent → Prop
  | .map vaddr paddr count perm => vaddr % 4096 = 0 ∧ paddr % 4096 = 0 ∧ vaddr < 4294967296 ∧
      paddr < 4294967296 ∧ perm < 4096 ∧ vaddr + 4096 * count ≤ 4294967296 ∧
      ∀ i < count, pageEntry m dir (vaddr / 4096 + i) = none
  | .free addr => memoryTaskBase ≤ addr ∧ addr < 4294967296 ∧
      (pageEntry m dir (addr / 4096)).isSome

instance (m : PhysMem) (dir : Nat) : ∀ e, Decidable (DirAllowed m dir e)
  | .map .. => inferInstanceAs (Decidable (_ ∧ _ ∧ _ ∧ _ ∧ _ ∧ _ ∧ _))
  | .free _ => inferInstanceAs (Decidable (_ ∧ _ ∧ _))

/-- One call. -/
def dirStep (dir : Nat) (m : PhysMem) (e : DirEvent) : Option PhysMem :=
  if DirAllowed m dir e then (dirCall dir e m).map Prod.snd else none

/-- The frame that `memory_free_page` gives back is no part of the page
tables: not the directory, and none of its tables. -/
def FreesPage (dir : Nat) (m : PhysMem) : DirEvent → Prop
  | .map .. => True
  | .free addr => ∀ e, pageEntry m dir (addr / 4096) = some e →
      dir ≠ entryPaddr e ∧ ∀ k, TableFrame m.mem dir k → entryPaddr e ≠ frameAddr k

/-- What a call that returns `r` does to the translation of every address. -/
def DirEffect (dir : Nat) (m : PhysMem) (e : DirEvent) (r : Int) (m' : PhysMem) : Prop :=
  match e with
  | .map vaddr paddr count _ => ∃ n ≤ count, (r = 0 ∧ n = count ∨ r = -1 ∧ n < count) ∧
      ∀ v < 4294967296, translate m' dir v =
        if vaddr ≤ v ∧ v < vaddr + 4096 * n then some ((paddr + (v - vaddr)) % 4294967296)
        else translate m dir v
  | .free addr => ∀ v < 4294967296, translate m' dir v =
      if v / 4096 = addr / 4096 then none else translate m dir v

section Runs

variable {m m' : PhysMem} {dir : Nat} {e : DirEvent}

/-- An entry with flags leads to its frame. -/
theorem entryPaddr_mapEntry {paddr perm : Nat} (hp : paddr % 4096 = 0) (hperm : perm < 4096)
    (i : Nat) : entryPaddr (mapEntry paddr perm i) = (paddr + 4096 * i) % 4294967296 := by
  have hflags : perm ||| 1 < 4096 := Nat.or_lt_two_pow (n := 12) hperm (by decide)
  have hmul :
      (paddr + 4096 * i) % 4294967296 = 2 ^ 12 * ((paddr + 4096 * i) % 4294967296 / 4096) := by
    omega
  unfold mapEntry entryPaddr
  rw [Nat.or_assoc, hmul, ← Nat.two_pow_add_eq_or_of_lt hflags]
  omega

/-- Every call that may be made returns, has its effect and keeps the directory well formed. -/
theorem dirCall_spec (h : DirOk m dir) (hallow : DirAllowed m dir e) (hfree : FreesPage dir m e) :
    ∃ r m', dirCall dir e m = some (r, m') ∧ DirOk m' dir ∧ DirEffect dir m e r m' := by
  cases e with
  | map vaddr paddr count perm =>
    obtain ⟨hva, hpa, hv, hp, hperm, hfit, hnew⟩ := hallow
    obtain ⟨r, m', n, hrun, hn, hr, hok, -, hent⟩ :=
      h.createMap hv hp (show perm < 4294967296 by omega) (by omega) hnew
    refine ⟨r, m', hrun, hok, n, hn, hr, fun v hvlt => ?_⟩
    rw [translate_pageEntry, translate_pageEntry, hent _ (by omega)]
    by_cases hin : vaddr ≤ v ∧ v < vaddr + 4096 * n
    · rw [if_pos hin, if_pos (by omega), Option.map_some, entryPaddr_mapEntry hpa hperm]
      congr 1
      omega
    · rw [if_neg hin, if_neg (by omega)]
  | free addr =>
    obtain ⟨hlo, hhi, hsome⟩ := hallow
    obtain ⟨e, he⟩ := Option.isSome_iff_exists.mp hsome
    obtain ⟨hdir, htable⟩ := hfree e he
    obtain ⟨m', hrun, hok, hent⟩ := h.freePage hlo hhi he hdir htable
    refine ⟨0, m', ?_, hok, fun v hv => ?_⟩
    · rw [dirCall, seq_some hrun]
      rfl
    · rw [translate_pageEntry, translate_pageEntry, hent _ (by omega)]
      split <;> rfl

theorem dirStep_ok (h : DirOk m dir) (hfree : FreesPage dir m e) (hs : dirStep dir m e = some m') :
    DirOk m' dir := by
  unfold dirStep at hs
  split at hs
  next hallow =>
    obtain ⟨r, m₁, hrun, hok, -⟩ := dirCall_spec h hallow hfree
    rw [hrun, Option.map_some, Option.some.injEq] at hs
    exact hs ▸ hok
  · cases hs

/-- After every run of maps of ranges that are not mapped and of frees of
user pages that are, as long as no free gives back a frame of the page
tables: the answer of `memory_get_paddr` is right exactly where the address is
mapped, its table is not there or its offset is zero; and the next call
returns, and changes the translation of its own range only. -/
theorem pageTable_run (m m' : PhysMem) (dir : Nat) (es : List DirEvent) (hstart : DirOk m dir)
    (hrun : run (dirStep dir) m es = some m') (hfrees : Along (dirStep dir) (FreesPage dir) m es) :
    (∀ vaddr < 4294967296, LookupOk m' dir vaddr ↔
      (translate m' dir vaddr = none → hasTable m' dir (pdeIndex vaddr) = true →
        vaddr % 4096 = 0)) ∧
    ∀ e, DirAllowed m' dir e → FreesPage dir m' e →
      ∃ r m'', dirCall dir e m' = some (r, m'') ∧ DirEffect dir m' e r m'' := by
  have hok : DirOk m' dir :=
    run_invariant_along (fun _ _ _ h hfree hs => dirStep_ok h hfree hs) hstart hfrees hrun
  refine ⟨fun vaddr hv => lookupOk_iff hok hv, fun e hallow hfree => ?_⟩
  obtain ⟨r, m'', hcall, -, heffect⟩ := dirCall_spec hok hallow hfree
  exact ⟨r, m'', hcall, heffect⟩

end Runs

/-! ## On a small machine -/

section SmallMem

variable {n : Nat}

theorem smallMem_pde {i : Nat} (hi : i < 1024) :
    uvmPde (smallMem n).mem 0x100000 i = if i = 512 then 0x101007 else 0 := by
  have hmem : (smallMem n).mem =
      put32 (put32 (fun _ => 0) (0x100000 + 4 * 512) 0x101007) 0x101000 0x102007 := rfl
  rw [uvmPde, hmem, le32_put32_of_ne (by omega)]
  split
  next he => rw [he, le32_put32]
  next he =>
    rw [le32_put32_of_ne (by omega)]
    rfl

theorem smallMem_pte {j : Nat} (hj : j < 1024) :
    uvmPte (smallMem n).mem 0x100000 512 j = if j = 0 then 0x102007 else 0 := by
  have hmem : (smallMem n).mem =
      put32 (put32 (fun _ => 0) (0x100000 + 4 * 512) 0x101007) 0x101000 0x102007 := rfl
  have hpaddr : entryPaddr 0x101007 = 0x101000 := rfl
  rw [uvmPte, smallMem_pde (by decide), if_pos rfl, hpaddr, hmem]
  split
  next he => rw [he, Nat.mul_zero, Nat.add_zero, le32_put32]
  next he =>
    rw [le32_put32_of_ne (by omega), le32_put32_of_ne (by omega)]
    rfl

theorem smallMem_hasTable {i : Nat} (hi : i < 1024) :
    hasTable (smallMem n) 0x100000 i = decide (i = 512) := by
  rw [hasTable, smallMem_pde hi]
  by_cases h : i = 512
  · rw [if_pos h, h]
    rfl
  · rw [if_neg h, decide_eq_false h]
    rfl

theorem smallMem_dirOk (hn : 4 ≤ n) (hn' : n ≤ 16) : DirOk (smallMem n) 0x100000 := by
  have hused : ∀ k < 2, k < (smallMem n).frames ∧ (smallMem n).used k = true := by
    intro k hk
    have hall : ∀ k < 2, (smallMem 0).used k = true := by decide
    exact ⟨Nat.lt_of_lt_of_le hk (by omega : 2 ≤ n), hall k hk⟩
  have honly : ∀ i < 1024, entryPresent (uvmPde (smallMem n).mem 0x100000 i) = true → i = 512 := by
    intro i hi hp
    have htable : hasTable (smallMem n) 0x100000 i = true := hp
    rw [smallMem_hasTable hi] at htable
    exact of_decide_eq_true htable
  refine ⟨smallMem_ok hn', .inr ⟨0, (hused 0 (by decide)).1, rfl, (hused 0 (by decide)).2⟩,
    ?_, ?_, ?_⟩
  · intro i hi hp
    rw [smallMem_pde hi, if_pos (honly i hi hp)]
    exact ⟨1, (hused 1 (by decide)).1, rfl, (hused 1 (by decide)).2, by decide⟩
  · intro i hi j hj hpi hpj _
    exact (honly i hi hpi).trans (honly j hj hpj).symm
  · intro i hi j hj hp habs
    obtain rfl := honly i hi hp
    rw [smallMem_pte hj] at habs ⊢
    split at habs
    · exact absurd habs (by decide)
    · next h => rw [if_neg h]

end SmallMem

/-- Two pages mapped and the second one freed: the rule at the first address
of a page that is not mapped. -/
theorem pageTable_run_two : ∃ m', run (dirStep 0x1000) (emptyMem 16384)
    [.map 0x80000000 0x5000 2 7, .free 0x80001000] = some m' ∧ LookupOk m' 0x1000 0x80001000 := by
  obtain ⟨m', hrun⟩ := Option.isSome_iff_exists.mp
    (show (run (dirStep 0x1000) (emptyMem 16384)
      [.map 0x80000000 0x5000 2 7, .free 0x80001000]).isSome = true by decide +kernel)
  have hentry : (dirStep 0x1000 (emptyMem 16384) (.map 0x80000000 0x5000 2 7)).map
      (fun m => pageEntry m 0x1000 0x80001) = some (some 0x6007) := by decide +kernel
  have halong : Along (dirStep 0x1000) (FreesPage 0x1000) (emptyMem 16384)
      [.map 0x80000000 0x5000 2 7, .free 0x80001000] := by
    refine ⟨trivial, fun s hs => ⟨fun e he => ?_, fun _ _ => trivial⟩⟩
    rw [hs, Option.map_some, Option.some.injEq] at hentry
    obtain rfl : 0x6007 = e := Option.some.inj (hentry.symm.trans he)
    refine ⟨by decide, fun k _ hk => ?_⟩
    unfold entryPaddr frameAddr at hk
    omega
  exact ⟨m', hrun, ((pageTable_run _ m' 0x1000 _ (emptyMem_dirOk (by decide)) hrun halong).1
    0x80001000 (by decide)).mpr fun _ _ => rfl⟩

/-- One page is mapped, and `memory_get_paddr` finds the next one too: at
the physical address 4. -/
theorem unmapped_page_found : ¬ ∀ (m m' : PhysMem) (dir : Nat) (es : List DirEvent), DirOk m dir →
    run (dirStep dir) m es = some m' → ∀ vaddr < 4294967296, LookupOk m' dir vaddr := by
  intro h
  obtain ⟨m', hrun⟩ := Option.isSome_iff_exists.mp
    (show (run (dirStep 0x1000) (emptyMem 16384) [.map 0x80000000 0x5000 1 7]).isSome = true by
      decide +kernel)
  have hnone : (run (dirStep 0x1000) (emptyMem 16384) [.map 0x80000000 0x5000 1 7]).map
      (fun m => translate m 0x1000 0x80001004) = some none := by decide +kernel
  have hfound : (run (dirStep 0x1000) (emptyMem 16384) [.map 0x80000000 0x5000 1 7]).bind
      (fun m => (memoryGetPaddr 0x1000 0x80001004 m).map Prod.fst) = some 4 := by decide +kernel
  have hok := h _ m' 0x1000 _ (emptyMem_dirOk (by decide)) hrun 0x80001004 (by decide)
  rw [hrun] at hnone hfound
  rw [Option.map_some, Option.some.injEq] at hnone
  rw [Option.bind_some, hok.absent hnone] at hfound
  cases hfound

end Wjos
