/-
Wjos.Core.PageTables — a page directory as a map from pages to entries.

`pageEntry m dir p` is the entry of page `p` (of 4096 bytes) where it is
present. `DirOk` is what the two levels have to be for that map to be all
there is: each entry of the directory that is present leads to a table in a
frame of its own, that frame is allocated, and an entry of a table that is
not present is zero. The kernel entries of a directory are included.

Over it, `find_pte`, `memory_create_map` and `memory_free_page` are updates of
the map: `DirOk.findPte_alloc` makes a table where there is none and changes
no entry, `DirOk.setEntry` is the store that follows. `Took` says what else a
call may do to memory: take frames that were free, and store into these, the
directory and its tables.
-/
import Mathlib.Data.List.Nodup
import Wjos.Core.Uvm

namespace Wjos

open Lib

/-! ## The map -/

/-- The entry of page `p`, where it is present. -/
def pageEntry (m : PhysMem) (dir p : Nat) : Option Nat :=
  if pagePresent m.mem dir (p / 1024) (p % 1024) then some (uvmPte m.mem dir (p / 1024) (p % 1024))
  else none

/-- Frame `k` is a table of the directory. -/
def TableFrame (mem : Nat → UInt8) (dir k : Nat) : Prop :=
  ∃ i < 1024, entryPresent (uvmPde mem dir i) = true ∧ entryPaddr (uvmPde mem dir i) = frameAddr k

/-- Table `i` is there. -/
def hasTable (m : PhysMem) (dir i : Nat) : Bool := entryPresent (uvmPde m.mem dir i)

/-- A well-formed directory. -/
structure DirOk (m : PhysMem) (dir : Nat) : Prop where
  phys : PhysOk m
  dirAt : dir + 4096 ≤ frameAddr 0 ∨ ∃ k < m.frames, dir = frameAddr k ∧ m.used k = true
  table : ∀ i < 1024, entryPresent (uvmPde m.mem dir i) = true →
    ∃ k < m.frames, entryPaddr (uvmPde m.mem dir i) = frameAddr k ∧ m.used k = true ∧
      dir ≠ frameAddr k
  distinct : ∀ i < 1024, ∀ j < 1024, entryPresent (uvmPde m.mem dir i) = true →
    entryPresent (uvmPde m.mem dir j) = true →
      entryPaddr (uvmPde m.mem dir i) = entryPaddr (uvmPde m.mem dir j) → i = j
  empty : ∀ i < 1024, ∀ j < 1024, entryPresent (uvmPde m.mem dir i) = true →
    entryPresent (uvmPte m.mem dir i j) = false → uvmPte m.mem dir i j = 0

/-- `n` free frames have been taken between `m` and `m'`; stores went into
them, the directory and its tables. -/
structure Took (dir : Nat) (m : PhysMem) (n : Nat) (m' : PhysMem) : Prop where
  frames : m'.frames = m.frames
  kernelPageDir : m'.kernelPageDir = m.kernelPageDir
  used : ∀ k, m.used k = true → m'.used k = true
  count : m'.freeCount + n = m.freeCount
  tables : ∀ k, m.used k = true → TableFrame m'.mem dir k → TableFrame m.mem dir k
  mem : ∀ a, ¬(dir ≤ a ∧ a < dir + 4096) →
    (∀ k < m.frames, InFrame k a → m.used k = true ∧ ¬TableFrame m.mem dir k) →
      m'.mem a = m.mem a

/-- Table `i` of the directory is frame `k`. -/
def TableAt (mem : Nat → UInt8) (dir i k : Nat) : Prop :=
  entryPresent (uvmPde mem dir i) = true ∧ entryPaddr (uvmPde mem dir i) = frameAddr k

/-- Between `m` and `m'` stores went into the directory and its table `i` only,
what was a table is one still, and a frame has been taken where it is that table. -/
structure TableOnly (dir i : Nat) (m m' : PhysMem) : Prop where
  tables : ∀ j < 1024, hasTable m dir j = true → uvmPde m'.mem dir j = uvmPde m.mem dir j
  mem : ∀ a, ¬(dir ≤ a ∧ a < dir + 4096) → (∀ k, TableAt m'.mem dir i k → ¬InFrame k a) →
    m'.mem a = m.mem a
  used : ∀ k, m'.used k = true ↔
    m.used k = true ∨ hasTable m dir i = false ∧ TableAt m'.mem dir i k
  free : ∀ k, hasTable m dir i = false → TableAt m'.mem dir i k → m.used k = false

section Pages

variable {m m' : PhysMem} {dir i j k p : Nat}

theorem pageEntry_eq_none : pageEntry m dir p = none ↔
    pagePresent m.mem dir (p / 1024) (p % 1024) = false := by
  simp [pageEntry]

/-- Where the processor finds an address, in terms of the map. -/
theorem translate_pageEntry (m : PhysMem) (dir vaddr : Nat) : translate m dir vaddr =
    (pageEntry m dir (vaddr / 4096)).map fun e => entryPaddr e + vaddr % 4096 := by
  have hpde : pdeIndex vaddr = vaddr / 4096 / 1024 := by
    unfold pdeIndex
    omega
  unfold translate pageEntry pagePresent uvmPte uvmPde pteIndex
  rw [hpde]
  dsimp only
  split <;> rfl

theorem Took.refl (dir : Nat) (m : PhysMem) : Took dir m 0 m :=
  ⟨rfl, rfl, fun _ h => h, rfl, fun _ _ h => h, fun _ _ _ => rfl⟩

theorem Took.trans {m'' : PhysMem} {n n' : Nat} (h : Took dir m n m') (h' : Took dir m' n' m'') :
    Took dir m (n + n') m'' where
  frames := h'.frames.trans h.frames
  kernelPageDir := h'.kernelPageDir.trans h.kernelPageDir
  used k hk := h'.used k (h.used k hk)
  count := by
    have h₁ := h.count
    have h₂ := h'.count
    omega
  tables k hk ht := h.tables k hk (h'.tables k (h.used k hk) ht)
  mem a ha hout := by
    refine (h'.mem a ha fun k hk hin => ?_).trans (h.mem a ha hout)
    obtain ⟨hused, hno⟩ := hout k (h.frames ▸ hk) hin
    exact ⟨h.used k hused, fun ht => hno (h.tables k hused ht)⟩

theorem TableAt.frame (h : TableAt m.mem dir i k) (hi : i < 1024) : TableFrame m.mem dir k :=
  ⟨i, hi, h⟩

theorem TableOnly.refl (dir i : Nat) (m : PhysMem) : TableOnly dir i m m := by
  have hno : hasTable m dir i = false → ∀ k, ¬TableAt m.mem dir i k := fun h k hk => by
    have hpres : hasTable m dir i = true := hk.1
    rw [h] at hpres
    cases hpres
  exact ⟨fun _ _ _ => rfl, fun _ _ _ => rfl, fun k => ⟨.inl, fun h => h.resolve_right fun hc =>
    hno hc.1 k hc.2⟩, fun k hi hk => absurd hk (hno hi k)⟩

theorem TableOnly.hasTable (h : TableOnly dir i m m') {j : Nat} (hj : j < 1024)
    (hp : hasTable m dir j = true) : hasTable m' dir j = true := by
  rw [Wjos.hasTable, h.tables j hj hp]
  exact hp

theorem TableOnly.tableAt (h : TableOnly dir i m m') {j : Nat} (hj : j < 1024)
    (hp : Wjos.hasTable m dir j = true) (k : Nat) :
    TableAt m'.mem dir j k ↔ TableAt m.mem dir j k := by
  rw [TableAt, TableAt, h.tables j hj hp]

theorem TableOnly.tableFrame (h : TableOnly dir i m m') (hk : TableFrame m.mem dir k) :
    TableFrame m'.mem dir k := by
  obtain ⟨j, hj, hat⟩ := hk
  exact ⟨j, hj, (h.tableAt hj hat.1 k).mpr hat⟩

theorem TableOnly.trans {m'' : PhysMem} (h : TableOnly dir i m m') (h' : TableOnly dir i m' m'')
    (hi : i < 1024) : TableOnly dir i m m'' where
  tables j hj hp := (h'.tables j hj (h.hasTable hj hp)).trans (h.tables j hj hp)
  mem a ha hout := by
    refine (h'.mem a ha hout).trans (h.mem a ha fun k hk => hout k ?_)
    exact (h'.tableAt hi hk.1 k).mpr hk
  used k := by
    rw [h'.used k, h.used k, or_assoc]
    refine or_congr_right ⟨?_, ?_⟩
    · rintro (⟨hno, hk⟩ | ⟨hno, hk⟩)
      · exact ⟨hno, (h'.tableAt hi hk.1 k).mpr hk⟩
      · refine ⟨?_, hk⟩
        by_contra hp
        rw [h.hasTable hi (Bool.eq_true_of_not_eq_false hp)] at hno
        cases hno
    · rintro ⟨hno, hk⟩
      cases hp : Wjos.hasTable m' dir i with
      | true => exact .inl ⟨hno, (h'.tableAt hi hp k).mp hk⟩
      | false => exact .inr ⟨rfl, hk⟩
  free k hno hk := by
    cases hp : Wjos.hasTable m' dir i with
    | true => exact h.free k hno ((h'.tableAt hi hp k).mp hk)
    | false =>
      have hfree := h'.free k hp hk
      by_contra hu
      rw [(h.used k).mpr (.inl (Bool.eq_true_of_not_eq_false hu))] at hfree
      cases hfree

end Pages

/-! ## Stores and the two levels -/

section Stores

variable {m : PhysMem} {mem' : Nat → UInt8} {dir i j k p e : Nat}

/-- The directory has no address in common with another frame. -/
theorem DirOk.dir_outside (h : DirOk m dir) (hd : dir ≠ frameAddr k) {a : Nat} (ha : dir ≤ a)
    (ha' : a < dir + 4096) : ¬InFrame k a := by
  rcases h.dirAt with hlow | ⟨d, -, rfl, -⟩
  · unfold InFrame frameAddr at *
    omega
  · exact fun hin => hd (congrArg frameAddr (InFrame.unique ⟨ha, ha'⟩ hin))

/-- A word of the directory after a store into another frame. -/
theorem DirOk.pde_other (h : DirOk m dir) (hmem : ∀ a, ¬InFrame k a → mem' a = m.mem a)
    (hd : dir ≠ frameAddr k) (hi : i < 1024) : uvmPde mem' dir i = uvmPde m.mem dir i :=
  le32_congr fun _ _ => hmem _ (h.dir_outside hd (by omega) (by omega))

/-- An entry of a table after a store into another frame. -/
theorem DirOk.pte_other (h : DirOk m dir) (hmem : ∀ a, ¬InFrame k a → mem' a = m.mem a)
    (hpde : uvmPde mem' dir i = uvmPde m.mem dir i) (hi : i < 1024)
    (hp : entryPresent (uvmPde m.mem dir i) = true)
    (hk : entryPaddr (uvmPde m.mem dir i) ≠ frameAddr k) (hj : j < 1024) :
    uvmPte mem' dir i j = uvmPte m.mem dir i j := by
  obtain ⟨t, -, ht, -⟩ := h.table i hi hp
  have htk : t ≠ k := fun htk => hk (ht.trans (congrArg frameAddr htk))
  rw [uvmPte, uvmPte, hpde, ht]
  exact le32_other hmem htk hj

/-- The map depends on the words of both levels only. -/
theorem pageEntry_congr {m' : PhysMem} (hp : p < 1048576)
    (hpde : ∀ i < 1024, entryPresent (uvmPde m'.mem dir i) = entryPresent (uvmPde m.mem dir i))
    (hpte : entryPresent (uvmPde m.mem dir (p / 1024)) = true →
      uvmPte m'.mem dir (p / 1024) (p % 1024) = uvmPte m.mem dir (p / 1024) (p % 1024)) :
    pageEntry m' dir p = pageEntry m dir p := by
  unfold pageEntry pagePresent
  rw [hpde (p / 1024) (by omega)]
  cases hpres : entryPresent (uvmPde m.mem dir (p / 1024)) with
  | true => rw [hpte hpres]
  | false => rfl

/-- A directory whose words are those of another memory is the map it was. -/
theorem DirOk.congr {m' : PhysMem} (h : DirOk m dir) (hok : PhysOk m')
    (hframes : m'.frames = m.frames) (hused : ∀ k, m.used k = true → m'.used k = true)
    (hpde : ∀ i < 1024, uvmPde m'.mem dir i = uvmPde m.mem dir i)
    (hpte : ∀ i < 1024, entryPresent (uvmPde m.mem dir i) = true → ∀ j < 1024,
      uvmPte m'.mem dir i j = uvmPte m.mem dir i j) :
    DirOk m' dir ∧ (∀ i < 1024, hasTable m' dir i = hasTable m dir i) ∧
      ∀ p < 1048576, pageEntry m' dir p = pageEntry m dir p := by
  refine ⟨⟨hok, ?_, ?_, ?_, ?_⟩, fun i hi => ?_, fun p hp => ?_⟩
  · rcases h.dirAt with hlow | ⟨k, hk, he, hku⟩
    · exact .inl hlow
    · exact .inr ⟨k, hframes ▸ hk, he, hused k hku⟩
  · intro i hi hp
    rw [hpde i hi] at hp ⊢
    obtain ⟨k, hk, ha, hku, hne⟩ := h.table i hi hp
    exact ⟨k, hframes ▸ hk, ha, hused k hku, hne⟩
  · intro i hi j hj hpi hpj hij
    rw [hpde i hi] at hpi hij
    rw [hpde j hj] at hpj hij
    exact h.distinct i hi j hj hpi hpj hij
  · intro i hi j hj hp habs
    rw [hpde i hi] at hp
    rw [hpte i hi hp j hj] at habs ⊢
    exact h.empty i hi j hj hp habs
  · rw [hasTable, hpde i hi, hasTable]
  · exact pageEntry_congr hp (fun i hi => by rw [hpde i hi])
      fun hpres => hpte _ (by omega) hpres _ (by omega)

/-- The store of an entry: the page it belongs to, and no other. -/
theorem DirOk.setEntry (h : DirOk m dir) (hi : i < 1024) (hj : j < 1024)
    (hp : entryPresent (uvmPde m.mem dir i) = true)
    (hk : entryPaddr (uvmPde m.mem dir i) = frameAddr k) (he : e < 4294967296)
    (hzero : entryPresent e = false → e = 0) :
    DirOk { m with mem := put32 m.mem (frameAddr k + 4 * j) e } dir ∧
      Took dir m 0 { m with mem := put32 m.mem (frameAddr k + 4 * j) e } ∧
      ∀ p < 1048576, pageEntry { m with mem := put32 m.mem (frameAddr k + 4 * j) e } dir p =
        if p = i * 1024 + j then (if entryPresent e then some e else none)
        else pageEntry m dir p := by
  obtain ⟨t, htlt, ht, htused, htdir⟩ := h.table i hi hp
  obtain rfl : t = k := frameAddr_inj (ht.symm.trans hk)
  have hmem : ∀ a, ¬InFrame t a → put32 m.mem (frameAddr t + 4 * j) e a = m.mem a :=
    fun a ha => put32_outside hj ha
  have hpde : ∀ i < 1024, uvmPde (put32 m.mem (frameAddr t + 4 * j) e) dir i = uvmPde m.mem dir i :=
    fun i hi => h.pde_other hmem htdir hi
  have hpte : ∀ i' < 1024, entryPresent (uvmPde m.mem dir i') = true → ∀ j' < 1024,
      uvmPte (put32 m.mem (frameAddr t + 4 * j) e) dir i' j' =
        if i' = i ∧ j' = j then e else uvmPte m.mem dir i' j' := by
    intro i' hi' hp' j' hj'
    by_cases hii : i' = i
    · subst hii
      rw [uvmPte, uvmPte, hpde i' hi', ht]
      by_cases hjj : j' = j
      · rw [if_pos ⟨rfl, hjj⟩, hjj, le32_put32, Nat.mod_eq_of_lt he]
      · rw [if_neg (fun hc => hjj hc.2), le32_put32_of_ne (by omega)]
    · rw [if_neg (fun hc => hii hc.1)]
      refine h.pte_other hmem (hpde i' hi') hi' hp' (fun hsame => hii ?_) hj'
      exact h.distinct i' hi' i hi hp' hp (hsame.trans ht.symm)
  refine ⟨⟨h.phys.setMem _, h.dirAt, ?_, ?_, ?_⟩, ⟨rfl, rfl, fun _ hu => hu, rfl, ?_, ?_⟩, ?_⟩
  · intro i' hi' hp'
    rw [hpde i' hi'] at hp' ⊢
    exact h.table i' hi' hp'
  · intro a ha b hb hpa hpb hab
    rw [hpde a ha] at hpa hab
    rw [hpde b hb] at hpb hab
    exact h.distinct a ha b hb hpa hpb hab
  · intro i' hi' j' hj' hp' habs
    rw [hpde i' hi'] at hp'
    rw [hpte i' hi' hp' j' hj'] at habs ⊢
    split at habs
    next hc =>
      rw [if_pos hc]
      exact hzero habs
    next hc =>
      rw [if_neg hc]
      exact h.empty i' hi' j' hj' hp' habs
  · rintro k' - ⟨i', hi', hp', hk'⟩
    rw [hpde i' hi'] at hp' hk'
    exact ⟨i', hi', hp', hk'⟩
  · intro a _ hout
    exact hmem a fun hin => (hout t htlt hin).2 ⟨i, hi, hp, ht⟩
  · intro p hplt
    by_cases hpij : p = i * 1024 + j
    · have h1 : p / 1024 = i := by omega
      have h2 : p % 1024 = j := by omega
      have hnew : uvmPte (put32 m.mem (frameAddr t + 4 * j) e) dir i j = e := by
        simp [hpte i hi hp j hj]
      rw [if_pos hpij, pageEntry, pagePresent, h1, h2]
      rw [hnew, hpde i hi, hp, Bool.true_and]
    · rw [if_neg hpij]
      refine pageEntry_congr hplt (fun i' hi' => by rw [hpde i' hi']) fun hp' => ?_
      rw [hpte _ (by omega) hp' _ (by omega), if_neg (by omega)]

/-- The store of an entry goes into its table. -/
theorem DirOk.setEntry_tableOnly (h : DirOk m dir) (hi : i < 1024) (hj : j < 1024)
    (hp : entryPresent (uvmPde m.mem dir i) = true)
    (hk : entryPaddr (uvmPde m.mem dir i) = frameAddr k) :
    TableOnly dir i m { m with mem := put32 m.mem (frameAddr k + 4 * j) e } := by
  obtain ⟨t, -, ht, -, htdir⟩ := h.table i hi hp
  obtain rfl : t = k := frameAddr_inj (ht.symm.trans hk)
  have hmem : ∀ a, ¬InFrame t a → put32 m.mem (frameAddr t + 4 * j) e a = m.mem a :=
    fun a ha => put32_outside hj ha
  have hpde : ∀ i < 1024, uvmPde (put32 m.mem (frameAddr t + 4 * j) e) dir i = uvmPde m.mem dir i :=
    fun i hi => h.pde_other hmem htdir hi
  have hno : ¬hasTable m dir i = false := by
    rw [hasTable, hp]
    decide
  refine ⟨fun i' hi' _ => hpde i' hi', fun a _ hout => hmem a (hout t ?_), fun k => ?_, fun k hc =>
    absurd hc hno⟩
  · show entryPresent (uvmPde (put32 m.mem (frameAddr t + 4 * j) e) dir i) = true ∧ _
    rw [hpde i hi]
    exact ⟨hp, ht⟩
  · exact ⟨.inl, fun hc => hc.resolve_right fun hc => hno hc.1⟩

end Stores

/-! ## A new table -/

/-- A free frame made table `i`. -/
def linkTable (m : PhysMem) (dir i k : Nat) : PhysMem :=
  { m.mark k (~~~0) with
    mem := copyTo (put32 m.mem (dir + 4 * i) (frameAddr k ||| 7)) (frameAddr k) 4096 fun _ => 0 }

section LinkTable

variable {m : PhysMem} {dir i j k o a : Nat}

theorem linkTable_eq : (linkTable m dir i k).mem =
    copyTo (put32 m.mem (dir + 4 * i) (frameAddr k ||| 7)) (frameAddr k) 4096 fun _ => 0 := rfl

theorem linkTable_zero (ho : o < 4096) : (linkTable m dir i k).mem (frameAddr k + o) = 0 := by
  rw [linkTable_eq]
  exact copyTo_add ho

theorem linkTable_mem (ha : ¬InFrame k a) :
    (linkTable m dir i k).mem a = put32 m.mem (dir + 4 * i) (frameAddr k ||| 7) a := by
  rw [linkTable_eq]
  exact copyTo_outside ha

theorem linkTable_used (hk : k < m.frames) :
    (linkTable m dir i k).used j = (m.used j || decide (j = k)) := by
  have hmark : (linkTable m dir i k).used j = (m.mark k (~~~0)).used j := rfl
  rw [hmark, mark_used hk]
  by_cases hj : j = k
  · simp [hj, show ¬ ~~~(0 : Int) = 0 by decide]
  · simp [hj]

theorem linkTable_frames : (linkTable m dir i k).frames = m.frames :=
  @mark_frames m k (~~~0)

theorem DirOk.dir_ne_free (h : DirOk m dir) (hfree : m.used k = false) : dir ≠ frameAddr k := by
  rcases h.dirAt with hlow | ⟨d, -, rfl, hd⟩
  · unfold frameAddr at hlow ⊢
    omega
  · intro he
    rw [frameAddr_inj he, hfree] at hd
    exact absurd hd (by decide)

/-- The entry of the new table, and the others beside it. -/
theorem DirOk.linkTable_pde (h : DirOk m dir) (hk : k < m.frames) (hfree : m.used k = false)
    (hj : j < 1024) : uvmPde (linkTable m dir i k).mem dir j =
      if j = i then frameAddr k + 7 else uvmPde m.mem dir j := by
  have hlt : frameAddr k + 7 < 4294967296 := by
    have := frameAddr_lt h.phys hk
    omega
  have hcopy : uvmPde (linkTable m dir i k).mem dir j =
      le32 (put32 m.mem (dir + 4 * i) (frameAddr k ||| 7)) (dir + 4 * j) :=
    le32_congr fun o ho => linkTable_mem (h.dir_outside (h.dir_ne_free hfree) (by omega) (by omega))
  rw [hcopy, frameAddr_or (by decide)]
  split
  next he => rw [he, le32_put32, Nat.mod_eq_of_lt hlt]
  next he => exact le32_put32_of_ne (by omega)

theorem DirOk.linkTable_pte_self (h : DirOk m dir) (hk : k < m.frames) (hfree : m.used k = false)
    (hi : i < 1024) (hj : j < 1024) : uvmPte (linkTable m dir i k).mem dir i j = 0 := by
  have hzero : uvmPte (linkTable m dir i k).mem dir i j = le32 (fun _ => 0) 0 := by
    rw [uvmPte, h.linkTable_pde hk hfree hi, if_pos rfl, entryPaddr_frame (by decide)]
    refine le32_congr fun o ho => ?_
    rw [Nat.add_assoc]
    exact linkTable_zero (by omega)
  exact hzero

/-- The other tables. -/
theorem DirOk.linkTable_pte (h : DirOk m dir) (hk : k < m.frames) (hfree : m.used k = false)
    (hi : i < 1024) {i' : Nat} (hi' : i' < 1024) (hne : i' ≠ i)
    (hp : entryPresent (uvmPde m.mem dir i') = true) (hj : j < 1024) :
    uvmPte (linkTable m dir i k).mem dir i' j = uvmPte m.mem dir i' j := by
  obtain ⟨t, -, ht, htused, htdir⟩ := h.table i' hi' hp
  have htk : t ≠ k := by
    rintro rfl
    exact absurd htused (by simp [hfree])
  rw [uvmPte, uvmPte, h.linkTable_pde hk hfree hi', if_neg hne, ht]
  refine le32_congr fun o ho => ?_
  have hin : InFrame t (frameAddr t + 4 * j + o) := ⟨by omega, by omega⟩
  have hdir : ¬(dir ≤ frameAddr t + 4 * j + o ∧ frameAddr t + 4 * j + o < dir + 4096) :=
    fun hc => h.dir_outside htdir hc.1 hc.2 hin
  rw [linkTable_mem fun hc => htk (hin.unique hc)]
  exact put32_of_not_mem (by omega)

/-- A new table is empty: the map is what it was. -/
theorem DirOk.newTable (h : DirOk m dir) (hi : i < 1024)
    (hp : entryPresent (uvmPde m.mem dir i) = false) (hk : k < m.frames)
    (hfree : m.used k = false) :
    DirOk (linkTable m dir i k) dir ∧ Took dir m 1 (linkTable m dir i k) ∧
      uvmPde (linkTable m dir i k).mem dir i = frameAddr k + 7 ∧
      ∀ p < 1048576, pageEntry (linkTable m dir i k) dir p = pageEntry m dir p := by
  have hself : uvmPde (linkTable m dir i k).mem dir i = frameAddr k + 7 := by
    rw [h.linkTable_pde hk hfree hi, if_pos rfl]
  have hcases : ∀ i' < 1024, entryPresent (uvmPde (linkTable m dir i k).mem dir i') = true →
      i' = i ∧ entryPaddr (uvmPde (linkTable m dir i k).mem dir i') = frameAddr k ∨
      i' ≠ i ∧ entryPresent (uvmPde m.mem dir i') = true ∧
        uvmPde (linkTable m dir i k).mem dir i' = uvmPde m.mem dir i' := by
    intro i' hi' hp'
    by_cases hii : i' = i
    · refine .inl ⟨hii, ?_⟩
      rw [hii, hself, entryPaddr_frame (by decide)]
    · rw [h.linkTable_pde hk hfree hi', if_neg hii] at hp' ⊢
      exact .inr ⟨hii, hp', rfl⟩
  have hnot : ∀ i' < 1024, entryPresent (uvmPde m.mem dir i') = true →
      entryPaddr (uvmPde m.mem dir i') ≠ frameAddr k := by
    intro i' hi' hp' he
    obtain ⟨t, -, ht, htused, -⟩ := h.table i' hi' hp'
    rw [frameAddr_inj (ht.symm.trans he), hfree] at htused
    exact absurd htused (by decide)
  have hframes : (linkTable m dir i k).frames = m.frames := linkTable_frames
  refine ⟨⟨h.phys.mark.setMem _, ?_, ?_, ?_, ?_⟩, ⟨hframes, rfl, ?_, ?_, ?_, ?_⟩, hself, ?_⟩
  · rcases h.dirAt with hlow | ⟨d, hd, he, hused⟩
    · exact .inl hlow
    · exact .inr ⟨d, hframes.symm ▸ hd, he, by simp [linkTable_used hk, hused]⟩
  · intro i' hi' hp'
    rcases hcases i' hi' hp' with ⟨-, ha⟩ | ⟨-, hold, ha⟩
    · exact ⟨k, hframes.symm ▸ hk, ha, by simp [linkTable_used hk], h.dir_ne_free hfree⟩
    · obtain ⟨t, ht, hta, hused, hdir⟩ := h.table i' hi' hold
      exact ⟨t, hframes.symm ▸ ht, ha ▸ hta, by simp [linkTable_used hk, hused], hdir⟩
  · intro a ha b hb hpa hpb hab
    rcases hcases a ha hpa with ⟨rfl, hka⟩ | ⟨-, hpa', hea⟩ <;>
      rcases hcases b hb hpb with ⟨rfl, hkb⟩ | ⟨-, hpb', heb⟩
    · rfl
    · exact absurd (heb ▸ hab.symm.trans hka) (hnot b hb hpb')
    · exact absurd (hea ▸ hab.trans hkb) (hnot a ha hpa')
    · exact h.distinct a ha b hb hpa' hpb' (by rwa [hea, heb] at hab)
  · intro i' hi' j hj hp' habs
    rcases hcases i' hi' hp' with ⟨rfl, -⟩ | ⟨hne, hold, -⟩
    · exact h.linkTable_pte_self hk hfree hi' hj
    · rw [h.linkTable_pte hk hfree hi hi' hne hold hj] at habs ⊢
      exact h.empty i' hi' j hj hold habs
  · intro j hj
    simp [linkTable_used hk, hj]
  · exact freeCount_take hk hfree
  · rintro t ht ⟨i', hi', hp', ha⟩
    rcases hcases i' hi' hp' with ⟨-, hka⟩ | ⟨-, hold, he⟩
    · rw [frameAddr_inj (ha.symm.trans hka), hfree] at ht
      exact absurd ht (by decide)
    · exact ⟨i', hi', hold, he ▸ ha⟩
  · intro a ha hout
    rw [linkTable_mem fun hin => by simpa [hfree] using (hout k hk hin).1]
    exact put32_of_not_mem (by omega)
  · intro p hplt
    unfold pageEntry pagePresent
    by_cases hpi : p / 1024 = i
    · rw [hpi, hp, h.linkTable_pte_self hk hfree hi (by omega),
        show entryPresent 0 = false from rfl,
        Bool.and_false, Bool.false_and, if_neg Bool.false_ne_true, if_neg Bool.false_ne_true]
    · rw [h.linkTable_pde hk hfree (by omega), if_neg hpi]
      cases hpres : entryPresent (uvmPde m.mem dir (p / 1024)) with
      | true => rw [h.linkTable_pte hk hfree hi (by omega) hpi hpres (by omega)]
      | false => rfl

theorem DirOk.newTable_hasTable (h : DirOk m dir) (hk : k < m.frames) (hfree : m.used k = false)
    (hj : j < 1024) :
    hasTable (linkTable m dir i k) dir j = (hasTable m dir j || decide (j = i)) := by
  unfold hasTable
  rw [h.linkTable_pde hk hfree hj]
  by_cases hji : j = i
  · rw [if_pos hji, entryPresent_frame, hji]
    simp [entryPresent]
  · simp [hji]

/-- The stores of a new table go into the directory and the table. -/
theorem DirOk.newTable_tableOnly (h : DirOk m dir) (hi : i < 1024)
    (hp : entryPresent (uvmPde m.mem dir i) = false) (hk : k < m.frames)
    (hfree : m.used k = false) : TableOnly dir i m (linkTable m dir i k) := by
  have hat : ∀ j, TableAt (linkTable m dir i k).mem dir i j ↔ j = k := by
    intro j
    rw [TableAt, h.linkTable_pde hk hfree hi, if_pos rfl, entryPresent_frame,
      entryPaddr_frame (by decide)]
    exact ⟨fun hc => (frameAddr_inj hc.2).symm, fun hc => ⟨rfl, congrArg frameAddr hc.symm⟩⟩
  refine ⟨fun j hj hpj => ?_, fun a ha hout => ?_, fun j => ?_, fun j _ hj => ?_⟩
  · have hne : j ≠ i := by
      rintro rfl
      rw [hasTable, hp] at hpj
      cases hpj
    rw [h.linkTable_pde hk hfree hj, if_neg hne]
  · rw [linkTable_mem (hout k ((hat k).mpr rfl))]
    exact put32_of_not_mem (by omega)
  · rw [linkTable_used hk, hat j]
    simp [hasTable, hp]
  · exact (hat j).mp hj ▸ hfree

end LinkTable

/-! ## Mapping a page -/

/-- Between `m` and `m'`, page `p` got the entry `e`, and a table where it
had none. -/
structure Mapped (dir p e : Nat) (m m' : PhysMem) : Prop where
  ok : DirOk m' dir
  took : Took dir m (if hasTable m dir (p / 1024) then 0 else 1) m'
  entries : ∀ q < 1048576, pageEntry m' dir q = if q = p then some e else pageEntry m dir q
  tables : ∀ i < 1024, hasTable m' dir i = (hasTable m dir i || decide (i = p / 1024))

section Map

variable {m : PhysMem} {dir vaddr paddr perm : Nat}

theorem pdeIndex_eq (vaddr : Nat) : pdeIndex vaddr = vaddr / 4096 / 1024 := by
  unfold pdeIndex
  omega

theorem pteIndex_eq (vaddr : Nat) : pteIndex vaddr = vaddr / 4096 % 1024 := rfl

/-- `find_pte` where the table is there. -/
theorem findPte_present {alloc : Bool} {k : Nat} (hp : hasTable m dir (pdeIndex vaddr) = true)
    (hk : entryPaddr (uvmPde m.mem dir (pdeIndex vaddr)) = frameAddr k) :
    findPte dir vaddr alloc m = some (some (frameAddr k + 4 * pteIndex vaddr), m) := by
  have hload : loadWord (dir + 4 * pdeIndex vaddr) m =
      some (uvmPde m.mem dir (pdeIndex vaddr), m) := rfl
  have hpres : entryPresent (uvmPde m.mem dir (pdeIndex vaddr)) = true := hp
  rw [findPte, seq_some hload, if_pos hpres, hk]
  rfl

/-- `find_pte` where it is not, and none is to be made. -/
theorem findPte_absent (hp : hasTable m dir (pdeIndex vaddr) = false) :
    findPte dir vaddr false m = some (none, m) := by
  have hload : loadWord (dir + 4 * pdeIndex vaddr) m =
      some (uvmPde m.mem dir (pdeIndex vaddr), m) := rfl
  have hpres : ¬entryPresent (uvmPde m.mem dir (pdeIndex vaddr)) = true := by
    simpa [hasTable] using hp
  rw [findPte, seq_some hload, if_neg hpres, if_neg Bool.false_ne_true]
  rfl

/-- `find_pte` makes a table where there is none, unless no frame is left. -/
theorem DirOk.findPte_alloc (h : DirOk m dir) (hv : vaddr < 4294967296) :
    (hasTable m dir (pdeIndex vaddr) = false ∧ m.freeCount = 0 ∧
        findPte dir vaddr true m = some (none, m)) ∨
      ∃ k m', findPte dir vaddr true m = some (some (frameAddr k + 4 * pteIndex vaddr), m') ∧
        DirOk m' dir ∧ Took dir m (if hasTable m dir (pdeIndex vaddr) then 0 else 1) m' ∧
        hasTable m' dir (pdeIndex vaddr) = true ∧
        entryPaddr (uvmPde m'.mem dir (pdeIndex vaddr)) = frameAddr k ∧
        (∀ q < 1048576, pageEntry m' dir q = pageEntry m dir q) ∧
        (∀ i < 1024, hasTable m' dir i = (hasTable m dir i || decide (i = pdeIndex vaddr))) ∧
        TableOnly dir (pdeIndex vaddr) m m' := by
  have hi : pdeIndex vaddr < 1024 := by
    unfold pdeIndex
    omega
  cases hp : hasTable m dir (pdeIndex vaddr) with
  | true =>
    obtain ⟨k, -, hk, -⟩ := h.table _ hi hp
    refine .inr ⟨k, m, findPte_present hp hk, h, Took.refl dir m, hp, hk, fun _ _ => rfl, ?_,
      TableOnly.refl dir _ m⟩
    intro i _
    by_cases hii : i = pdeIndex vaddr
    · simp [hii, hp]
    · simp [hii]
  | false =>
    have hload : loadWord (dir + 4 * pdeIndex vaddr) m =
        some (uvmPde m.mem dir (pdeIndex vaddr), m) := rfl
    have hpres : ¬entryPresent (uvmPde m.mem dir (pdeIndex vaddr)) = true := by
      simpa [hasTable] using hp
    rw [findPte, seq_some hload, if_neg hpres, if_pos rfl]
    rcases paddrAllocPage_cases h.phys with ⟨hfull, he⟩ | ⟨k, hk, hfree, he, -⟩
    · refine .inl ⟨rfl, hfull, ?_⟩
      rw [seq_some he]
      rfl
    · obtain ⟨hok, htook, hself, hentries⟩ := h.newTable hi hp hk hfree
      refine .inr ⟨k, linkTable m dir (pdeIndex vaddr) k, ?_, hok, htook, ?_, ?_, hentries,
        fun i hi' => h.newTable_hasTable hk hfree hi', h.newTable_tableOnly hi hp hk hfree⟩
      · rw [seq_some he, if_neg (frameAddr_pos k)]
        rfl
      · rw [h.newTable_hasTable hk hfree hi]
        simp
      · rw [hself, entryPaddr_frame (by decide)]

/-- An entry that is stored has the bit `PTE_P`. -/
theorem entryPresent_or_one (e : Nat) : entryPresent (e ||| 1) = true := by
  simp [entryPresent, Nat.or_mod_two_eq_one]

/-- One pass of the loop of `memory_create_map` over a page that is not mapped. -/
theorem DirOk.createMap_step (h : DirOk m dir) (count : Nat) (hv : vaddr < 4294967296)
    (hnew : pageEntry m dir (vaddr / 4096) = none) (he : paddr ||| perm ||| 1 < 4294967296) :
    (hasTable m dir (pdeIndex vaddr) = false ∧ m.freeCount = 0 ∧
        memoryCreateMap dir vaddr paddr (count + 1) perm m = some (-1, m)) ∨
      ∃ m', Mapped dir (vaddr / 4096) (paddr ||| perm ||| 1) m m' ∧
        TableOnly dir (vaddr / 4096 / 1024) m m' ∧
        memoryCreateMap dir vaddr paddr (count + 1) perm m =
          memoryCreateMap dir ((vaddr + 4096) % 4294967296) ((paddr + 4096) % 4294967296)
            count perm m' := by
  have hi : pdeIndex vaddr < 1024 := by
    unfold pdeIndex
    omega
  have hj : pteIndex vaddr < 1024 := by
    unfold pteIndex
    omega
  rcases h.findPte_alloc hv with ⟨hno, hfull, hf⟩ |
    ⟨k, m₁, hf, hok, htook, hp, hk, hent, htab, honly⟩
  · refine .inl ⟨hno, hfull, ?_⟩
    rw [memoryCreateMap, seq_some hf]
    rfl
  · obtain ⟨hok', htook', hent'⟩ := hok.setEntry hi hj hp hk he
      (fun hc => absurd (entryPresent_or_one (paddr ||| perm)) (by simp [hc]))
    have hpage : vaddr / 4096 = pdeIndex vaddr * 1024 + pteIndex vaddr := by
      rw [pdeIndex_eq, pteIndex_eq]
      omega
    have hempty : entryPresent (le32 m₁.mem (frameAddr k + 4 * pteIndex vaddr)) = false := by
      have hnone := hent (vaddr / 4096) (by omega)
      rw [hnew, pageEntry_eq_none, ← pdeIndex_eq, ← pteIndex_eq, pagePresent,
        show entryPresent (uvmPde m₁.mem dir (pdeIndex vaddr)) = true from hp,
        Bool.true_and, uvmPte,
        hk] at hnone
      exact hnone
    refine .inr ⟨_, ⟨hok', ?_, ?_, ?_⟩,
      pdeIndex_eq vaddr ▸ honly.trans (hok.setEntry_tableOnly hi hj hp hk) hi, ?_⟩
    · rw [← pdeIndex_eq]
      exact htook.trans htook'
    · intro q hq
      rw [hent' q hq, ← hpage, entryPresent_or_one, if_pos rfl, hent q hq]
    · intro i hi'
      have hsame :=
        hok.pde_other (k := k) (fun a ha => put32_outside (x := paddr ||| perm ||| 1) hj ha)
        (by
          obtain ⟨t, -, ht, -, hd⟩ := hok.table _ hi hp
          rw [← hk, ht]
          exact hd) hi'
      rw [← pdeIndex_eq, ← htab i hi', hasTable, hasTable]
      exact congrArg entryPresent hsame
    · have hload : loadWord (frameAddr k + 4 * pteIndex vaddr) m₁ =
          some (le32 m₁.mem (frameAddr k + 4 * pteIndex vaddr), m₁) := rfl
      have hcheck : check (!entryPresent (le32 m₁.mem (frameAddr k + 4 * pteIndex vaddr))) m₁ =
          some ((), m₁) := by
        rw [hempty]
        rfl
      rw [memoryCreateMap, seq_some hf]
      dsimp only
      rw [seq_some hload, seq_some hcheck]
      rfl

end Map

/-! ## An empty directory -/

/-- A directory without entries. -/
theorem DirOk.zeroed {m : PhysMem} {dir : Nat} (hm : PhysOk m)
    (hdir : dir + 4096 ≤ frameAddr 0 ∨ ∃ k < m.frames, dir = frameAddr k ∧ m.used k = true)
    (hzero : ∀ i < 1024, uvmPde m.mem dir i = 0) : DirOk m dir := by
  have hno : ∀ i < 1024, ¬entryPresent (uvmPde m.mem dir i) = true := by
    intro i hi hp
    rw [hzero i hi] at hp
    exact absurd hp (by decide)
  exact ⟨hm, hdir, fun i hi hp => absurd hp (hno i hi), fun i hi _ _ hp => absurd hp (hno i hi),
    fun i hi _ _ hp => absurd hp (hno i hi)⟩

/-- Memory with the given number of bytes for frames, all of them free, and
an empty directory at `0x1000`. -/
def emptyMem (size : UInt32) : PhysMem where
  paddrAlloc := addrAllocInit (fun _ => 0) memExtStart size memPageSize
  kernelPageDir := 0x1000
  mem := fun _ => 0

theorem emptyMem_dirOk {size : UInt32} (h : 1048576 + size.toNat < 4294967296) :
    DirOk (emptyMem size) 0x1000 := by
  have hdir : 0x1000 + 4096 ≤ frameAddr 0 := by decide
  refine .zeroed ⟨rfl, rfl, ?_, hdir⟩ (.inl hdir) fun i _ => rfl
  have hframes : (emptyMem size).frames = size.toNat / 4096 := UInt32.toNat_div size memPageSize
  unfold frameAddr
  omega

theorem emptyMem_pageEntry (size : UInt32) (p : Nat) : pageEntry (emptyMem size) 0x1000 p = none :=
  rfl

end Wjos
