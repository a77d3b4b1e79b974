/-
Wjos.Core.UserMemory — the memory of a program as the program sees it, and
stores that the kernel makes into it by physical addresses.

`SpaceOk` is what an address space has that `memory_create_uvm` has made and
`memory_alloc_for_page_dir` has filled: each user page has a frame of its own,
apart from the directory and its tables. In such a space a store into the frame
of a page is a store at user addresses (`Wrote`), it leaves the map alone, and
stores one behind the other join up (`Wrote.append`). So
`memory_copy_uvm_data`, which goes from page to page, writes the bytes it is
given (`memoryCopyUvmData_wrote`).
-/
import Wjos.Core.PageTableRuns

namespace Wjos

open Lib

/-! ## Address spaces -/

/-- A page of the user half. -/
def UserPage (p : Nat) : Prop := 524288 ≤ p ∧ p < 1048576

/-- A directory whose user pages have frames of their own. -/
structure SpaceOk (m : PhysMem) (dir : Nat) : Prop extends DirOk m dir where
  frame : ∀ p, UserPage p → ∀ e, pageEntry m dir p = some e →
    ∃ k < m.frames, entryPaddr e = frameAddr k ∧ m.used k = true ∧
      ¬TableFrame m.mem dir k ∧ dir ≠ frameAddr k
  apart : ∀ p q, UserPage p → UserPage q → ∀ e e', pageEntry m dir p = some e →
    pageEntry m dir q = some e' → entryPaddr e = entryPaddr e' → p = q

/-- The address `a` lies in the frame of page `p`. -/
def InPage (m : PhysMem) (dir p a : Nat) : Prop :=
  ∃ e, pageEntry m dir p = some e ∧ entryPaddr e ≤ a ∧ a < entryPaddr e + 4096

/-- The byte that the program finds at `v`. -/
def userByte (m : PhysMem) (dir v : Nat) : Option UInt8 := (translate m dir v).map m.mem

/-- The program finds `bytes` from `v` on. -/
def UserHolds (m : PhysMem) (dir v : Nat) (bytes : List UInt8) : Prop :=
  ∀ i < bytes.length, userByte m dir (v + i) = bytes[i]?

section Space

variable {m m' : PhysMem} {dir p v a k : Nat} {mem' : Nat → UInt8} {bytes : List UInt8}

theorem userByte_eq (m : PhysMem) (dir v : Nat) : userByte m dir v =
    (pageEntry m dir (v / 4096)).map fun e => m.mem (entryPaddr e + v % 4096) := by
  rw [userByte, translate_pageEntry, Option.map_map]
  rfl

theorem InPage.mem_frame (h : SpaceOk m dir) (hp : UserPage p) (hin : InPage m dir p a) :
    ∃ k < m.frames, InFrame k a ∧ m.used k = true ∧ ¬TableFrame m.mem dir k ∧
      dir ≠ frameAddr k := by
  obtain ⟨e, he, hlo, hhi⟩ := hin
  obtain ⟨k, hk, hka, hused, htable, hdir⟩ := h.frame p hp e he
  exact ⟨k, hk, ⟨hka ▸ hlo, hka ▸ hhi⟩, hused, htable, hdir⟩

/-- Two pages have no address in common. -/
theorem InPage.unique {q : Nat} (h : SpaceOk m dir) (hp : UserPage p) (hq : UserPage q)
    (hin : InPage m dir p a) (hin' : InPage m dir q a) : p = q := by
  obtain ⟨e, he, hlo, hhi⟩ := hin
  obtain ⟨e', he', hlo', hhi'⟩ := hin'
  refine h.apart p q hp hq e e' he he' ?_
  unfold entryPaddr at *
  omega

/-- Stores elsewhere than in the directory and its tables leave the map alone. -/
theorem SpaceOk.edit (h : SpaceOk m dir)
    (hdir : ∀ a, dir ≤ a → a < dir + 4096 → mem' a = m.mem a)
    (htable : ∀ k, TableFrame m.mem dir k → ∀ a, InFrame k a → mem' a = m.mem a) :
    SpaceOk { m with mem := mem' } dir ∧
      (∀ p < 1048576, pageEntry { m with mem := mem' } dir p = pageEntry m dir p) ∧
      ∀ i < 1024, hasTable { m with mem := mem' } dir i = hasTable m dir i := by
  have hpde : ∀ i < 1024, uvmPde mem' dir i = uvmPde m.mem dir i := fun i hi =>
    le32_congr fun o ho => hdir _ (by omega) (by omega)
  have hpte : ∀ i < 1024, entryPresent (uvmPde m.mem dir i) = true → ∀ j < 1024,
      uvmPte mem' dir i j = uvmPte m.mem dir i j := by
    intro i hi hpres j hj
    obtain ⟨t, -, ht, -, -⟩ := h.table i hi hpres
    rw [uvmPte, uvmPte, hpde i hi, ht]
    exact le32_congr fun o ho => htable t ⟨i, hi, hpres, ht⟩ _ ⟨by omega, by omega⟩
  obtain ⟨hok, htables, hent⟩ := h.congr (h.phys.setMem mem') rfl (fun _ hk => hk) hpde hpte
  refine ⟨⟨hok, fun p hp e he => ?_, fun p q hp hq e e' he he' => ?_⟩, hent, htables⟩
  · rw [hent p hp.2] at he
    obtain ⟨k, hk, hka, hused, hno, hdir⟩ := h.frame p hp e he
    refine ⟨k, hk, hka, hused, ?_, hdir⟩
    rintro ⟨i, hi, hpres, ha⟩
    change entryPresent (uvmPde mem' dir i) = true at hpres
    change entryPaddr (uvmPde mem' dir i) = frameAddr k at ha
    rw [hpde i hi] at hpres ha
    exact hno ⟨i, hi, hpres, ha⟩
  · rw [hent p hp.2] at he
    rw [hent q hq.2] at he'
    exact h.apart p q hp hq e e' he he'

/-- The frames of user pages are elsewhere. -/
theorem SpaceOk.editPages (h : SpaceOk m dir)
    (hmem : ∀ a, (∀ p, UserPage p → ¬InPage m dir p a) → mem' a = m.mem a) :
    SpaceOk { m with mem := mem' } dir ∧
      (∀ p < 1048576, pageEntry { m with mem := mem' } dir p = pageEntry m dir p) ∧
      ∀ i < 1024, hasTable { m with mem := mem' } dir i = hasTable m dir i := by
  refine h.edit (fun a hlo hhi => hmem a fun p hp hin => ?_)
    fun t ht a hta => hmem a fun p hp hin => ?_
  · obtain ⟨k, -, hka, -, -, hdir⟩ := hin.mem_frame h hp
    exact h.dir_outside hdir hlo hhi hka
  · obtain ⟨k, -, hka, -, htable, -⟩ := hin.mem_frame h hp
    exact htable (hta.unique hka ▸ ht)

/-- Where the program's address `v` lies. -/
theorem translate_inPage (ht : translate m dir v = some a) :
    InPage m dir (v / 4096) a ∧ a % 4096 = v % 4096 := by
  rw [translate_pageEntry] at ht
  obtain ⟨e, he, rfl⟩ := Option.map_eq_some_iff.mp ht
  refine ⟨⟨e, he, by omega, by omega⟩, ?_⟩
  unfold entryPaddr
  omega

/-- A page that has a frame has it where nothing was stored into the tables. -/
theorem translate_congr (hent : ∀ p < 1048576, pageEntry m' dir p = pageEntry m dir p)
    (hv : v < 4294967296) : translate m' dir v = translate m dir v := by
  rw [translate_pageEntry, translate_pageEntry, hent _ (by omega)]

theorem UserHolds.drop {bytes' : List UInt8} (h : UserHolds m dir v (bytes ++ bytes')) :
    UserHolds m dir (v + bytes.length) bytes' := by
  intro i hi
  have hat := h (bytes.length + i) (by rw [List.length_append]; omega)
  rwa [← Nat.add_assoc, List.getElem?_append_right (by omega), Nat.add_sub_cancel_left] at hat

theorem UserHolds.unique {bytes' : List UInt8} (h : UserHolds m dir v bytes)
    (h' : UserHolds m dir v bytes') (hlen : bytes.length = bytes'.length) : bytes = bytes' := by
  refine List.ext_getElem? fun i => ?_
  rcases Nat.lt_or_ge i bytes.length with hi | hi
  · rw [← h i hi, h' i (hlen ▸ hi)]
  · rw [List.getElem?_eq_none hi, List.getElem?_eq_none (hlen ▸ hi)]

end Space

/-! ## Stores at user addresses -/

/-- Between `m` and `m'` the bytes have been stored from the user address `v`
on, and nothing else has. -/
structure Wrote (dir v : Nat) (bytes : List UInt8) (m m' : PhysMem) : Prop where
  ok : SpaceOk m' dir
  paddrAlloc : m'.paddrAlloc = m.paddrAlloc
  kernelPageDir : m'.kernelPageDir = m.kernelPageDir
  entries : ∀ p < 1048576, pageEntry m' dir p = pageEntry m dir p
  tables : ∀ i < 1024, hasTable m' dir i = hasTable m dir i
  byte : ∀ u, memoryTaskBase ≤ u → u < 4294967296 → userByte m' dir u =
    if v ≤ u ∧ u < v + bytes.length then bytes[u - v]? else userByte m dir u
  outside : ∀ a, (∀ u, v ≤ u → u < v + bytes.length → ¬InPage m dir (u / 4096) a) →
    m'.mem a = m.mem a

section Wrote

variable {m m' m'' : PhysMem} {dir v a u : Nat} {bytes bytes' : List UInt8}

theorem Wrote.nil (h : SpaceOk m dir) (v : Nat) : Wrote dir v [] m m where
  ok := h
  paddrAlloc := rfl
  kernelPageDir := rfl
  entries _ _ := rfl
  tables _ _ := rfl
  byte u _ _ := by
    rw [if_neg]
    simp
  outside _ _ := rfl

/-- Stores one behind the other. -/
theorem Wrote.append (h : Wrote dir v bytes m m') (h' : Wrote dir (v + bytes.length) bytes' m' m'')
    (hend : v + bytes.length + bytes'.length ≤ 4294967296) :
    Wrote dir v (bytes ++ bytes') m m'' where
  ok := h'.ok
  paddrAlloc := h'.paddrAlloc.trans h.paddrAlloc
  kernelPageDir := h'.kernelPageDir.trans h.kernelPageDir
  entries p hp := (h'.entries p hp).trans (h.entries p hp)
  tables i hi := (h'.tables i hi).trans (h.tables i hi)
  byte u hlo hhi := by
    rw [h'.byte u hlo hhi, h.byte u hlo hhi, List.length_append]
    by_cases hfirst : v ≤ u ∧ u < v + bytes.length
    · rw [if_neg (by omega), if_pos hfirst, if_pos (by omega), List.getElem?_append_left (by omega)]
    · by_cases hsecond : v + bytes.length ≤ u ∧ u < v + bytes.length + bytes'.length
      · rw [if_pos hsecond, if_pos (by omega), List.getElem?_append_right (by omega)]
        congr 1
        omega
      · rw [if_neg hsecond, if_neg hfirst, if_neg (by omega)]
  outside a ha := by
    rw [List.length_append] at ha
    have hfirst : m'.mem a = m.mem a := h.outside a fun u hlo hhi => ha u hlo (by omega)
    refine (h'.outside a fun u hlo hhi hin => ?_).trans hfirst
    obtain ⟨e, he, hin⟩ := hin
    rw [h.entries _ (by omega)] at he
    exact ha u (by omega) (by omega) ⟨e, he, hin⟩

/-- A store within one page. -/
theorem SpaceOk.wrote (h : SpaceOk m dir) (bytes : List UInt8) (hlo : memoryTaskBase ≤ v)
    (hhi : v < 4294967296)
    (ht : translate m dir v = some a) (hpage : v % 4096 + bytes.length ≤ 4096) :
    ∃ m', storeBytes a bytes m = some ((), m') ∧ Wrote dir v bytes m m' := by
  have huser : UserPage (v / 4096) := by
    unfold memoryTaskBase at hlo
    unfold UserPage
    omega
  obtain ⟨hin, hoff⟩ := translate_inPage ht
  obtain ⟨e, he, hea, hea'⟩ := hin
  have hstart : a = entryPaddr e + v % 4096 := by
    unfold entryPaddr at *
    omega
  let mem' := copyTo m.mem a bytes.length fun i => bytes.getD i 0
  have houtside : ∀ b, ¬InPage m dir (v / 4096) b → mem' b = m.mem b := by
    intro b hb
    rcases Nat.lt_or_ge b a with hlt | hge
    · exact copyTo_of_lt hlt
    · refine copyTo_of_ge ?_
      by_contra hc
      exact hb ⟨e, he, by omega, by omega⟩
  obtain ⟨hok, hent, htab⟩ := h.editPages fun b hb => houtside b (hb _ huser)
  refine ⟨{ m with mem := mem' }, rfl, hok, rfl, rfl, hent, htab, fun u hulo huhi => ?_, ?_⟩
  · have hu : UserPage (u / 4096) := by
      unfold memoryTaskBase at hulo
      unfold UserPage
      omega
    rw [userByte_eq, userByte_eq, hent _ (by omega)]
    by_cases hup : u / 4096 = v / 4096
    · rw [hup, he, Option.map_some, Option.map_some]
      show some (mem' (entryPaddr e + u % 4096)) = _
      split
      next hin =>
        have hsrc : mem' (entryPaddr e + u % 4096) = bytes.getD (u - v) 0 := by
          rw [show entryPaddr e + u % 4096 = a + (u - v) by omega]
          exact copyTo_add (by omega)
        rw [hsrc, List.getElem?_eq_getElem (show u - v < bytes.length by omega)]
        simp [show u - v < bytes.length by omega]
      next hout =>
        refine congrArg some ?_
        rcases Nat.lt_or_ge u v with hlt | hge
        · exact copyTo_of_lt (by omega)
        · exact copyTo_of_ge (by omega)
    · rw [if_neg (by omega)]
      cases hue : pageEntry m dir (u / 4096) with
      | none => rfl
      | some e' =>
        refine congrArg some (houtside _ fun hin => hup ?_)
        exact InPage.unique h hu huser ⟨e', hue, by omega, by omega⟩ hin
  · intro b hb
    rcases Nat.eq_zero_or_pos bytes.length with hzero | hpos
    · exact if_neg (by omega)
    · exact houtside b (hb v le_rfl (by omega))

theorem Wrote.holds (h : Wrote dir v bytes m m') (hlo : memoryTaskBase ≤ v)
    (hend : v + bytes.length ≤ 4294967296) : UserHolds m' dir v bytes := by
  intro i hi
  rw [h.byte _ (by omega) (by omega), if_pos (by omega), Nat.add_sub_cancel_left]

/-- What the program finds elsewhere. -/
theorem Wrote.holds_of_disjoint (h : Wrote dir v bytes m m') (hu : UserHolds m dir u bytes')
    (hlo : memoryTaskBase ≤ u) (hend : u + bytes'.length ≤ 4294967296)
    (hdisj : u + bytes'.length ≤ v ∨ v + bytes.length ≤ u) : UserHolds m' dir u bytes' := by
  intro i hi
  rw [h.byte _ (by omega) (by omega), if_neg (by omega), hu i hi]

/-- Between `m` and `m'` the map is the same, and only bytes at the user
addresses `R`, and in their pages, may have changed. -/
structure Touched (dir : Nat) (R : Nat → Prop) (m m' : PhysMem) : Prop where
  ok : SpaceOk m' dir
  paddrAlloc : m'.paddrAlloc = m.paddrAlloc
  kernelPageDir : m'.kernelPageDir = m.kernelPageDir
  entries : ∀ p < 1048576, pageEntry m' dir p = pageEntry m dir p
  byte : ∀ u, memoryTaskBase ≤ u → u < 4294967296 → ¬R u → userByte m' dir u = userByte m dir u
  outside : ∀ a, (∀ u, R u → ¬InPage m dir (u / 4096) a) → m'.mem a = m.mem a

theorem Touched.refl (h : SpaceOk m dir) (R : Nat → Prop) : Touched dir R m m :=
  ⟨h, rfl, rfl, fun _ _ => rfl, fun _ _ _ _ => rfl, fun _ _ => rfl⟩

theorem Touched.trans {R : Nat → Prop} (hR : ∀ u, R u → u < 4294967296) (h : Touched dir R m m')
    (h' : Touched dir R m' m'') : Touched dir R m m'' where
  ok := h'.ok
  paddrAlloc := h'.paddrAlloc.trans h.paddrAlloc
  kernelPageDir := h'.kernelPageDir.trans h.kernelPageDir
  entries p hp := (h'.entries p hp).trans (h.entries p hp)
  byte u hlo hhi hu := (h'.byte u hlo hhi hu).trans (h.byte u hlo hhi hu)
  outside a ha := by
    refine (h'.outside a fun u hu hin => ?_).trans (h.outside a ha)
    obtain ⟨e, he, hin⟩ := hin
    have hlt := hR u hu
    rw [h.entries _ (by omega)] at he
    exact ha u hu ⟨e, he, hin⟩

theorem Touched.mono {R R' : Nat → Prop} (h : Touched dir R m m') (hR : ∀ u, R u → R' u) :
    Touched dir R' m m' :=
  ⟨h.ok, h.paddrAlloc, h.kernelPageDir, h.entries,
    fun u hlo hhi hu => h.byte u hlo hhi (mt (hR u) hu),
    fun a ha => h.outside a fun u hu => ha u (hR u hu)⟩

/-- What the program finds where nothing was touched. -/
theorem Touched.holds {R : Nat → Prop} (h : Touched dir R m m') (hu : UserHolds m dir u bytes)
    (hlo : memoryTaskBase ≤ u) (hend : u + bytes.length ≤ 4294967296)
    (hout : ∀ x, u ≤ x → x < u + bytes.length → ¬R x) : UserHolds m' dir u bytes := by
  intro i hi
  rw [h.byte _ (by omega) (by omega) (hout _ (by omega) (by omega)), hu i hi]

theorem Wrote.touched (h : Wrote dir v bytes m m') :
    Touched dir (fun u => v ≤ u ∧ u < v + bytes.length) m m' where
  ok := h.ok
  paddrAlloc := h.paddrAlloc
  kernelPageDir := h.kernelPageDir
  entries := h.entries
  byte u hlo hhi hu := by rw [h.byte u hlo hhi, if_neg hu]
  outside a ha := h.outside a fun u hlo hhi => ha u ⟨hlo, hhi⟩

/-- The words of the directory are what they were. -/
theorem Touched.pde {R : Nat → Prop} {i : Nat} (h : Touched dir R m m') (hs : SpaceOk m dir)
    (hR : ∀ u, R u → memoryTaskBase ≤ u ∧ u < 4294967296) (hi : i < 1024) :
    uvmPde m'.mem dir i = uvmPde m.mem dir i := by
  refine le32_congr fun o ho => h.outside _ fun u hu hin => ?_
  obtain ⟨hlo, hhi⟩ := hR u hu
  have huser : UserPage (u / 4096) := by
    unfold memoryTaskBase at hlo
    unfold UserPage
    omega
  obtain ⟨t, -, hta, -, -, hdir⟩ := hin.mem_frame hs huser
  exact hs.dir_outside hdir (by omega) (by omega) hta

/-- The tables are where they were. -/
theorem Touched.tableFrame {R : Nat → Prop} (h : Touched dir R m m') (hs : SpaceOk m dir)
    (hR : ∀ u, R u → memoryTaskBase ≤ u ∧ u < 4294967296) (k : Nat) :
    TableFrame m'.mem dir k ↔ TableFrame m.mem dir k := by
  unfold TableFrame
  refine exists_congr fun i => and_congr_right fun hi => ?_
  rw [h.pde hs hR hi]

/-- No other byte has changed. -/
theorem Touched.mem {R : Nat → Prop} (h : Touched dir R m m')
    (hR : ∀ u, R u → memoryTaskBase ≤ u ∧ u < 4294967296)
    (ha : ∀ u, R u → translate m dir u ≠ some a) : m'.mem a = m.mem a := by
  by_cases hin : ∃ u, R u ∧ InPage m dir (u / 4096) a
  · obtain ⟨u, hu, e, he, hea, hea'⟩ := hin
    obtain ⟨hlo, hhi⟩ := hR u hu
    -- the address at which the program finds this byte
    obtain ⟨v, hv⟩ : ∃ v, v = u / 4096 * 4096 + a % 4096 := ⟨_, rfl⟩
    have ht : translate m dir v = some a := by
      rw [translate_pageEntry, show v / 4096 = u / 4096 by omega, he, Option.map_some]
      unfold entryPaddr at *
      exact congrArg some (by omega)
    have ht' : translate m' dir v = some a := (translate_congr h.entries (by omega)).trans ht
    have hbyte := h.byte v (by unfold memoryTaskBase at *; omega) (by omega) fun hc => ha v hc ht
    rw [userByte, userByte, ht, ht', Option.map_some, Option.map_some] at hbyte
    exact Option.some.inj hbyte
  · exact h.outside a fun u hu hc => hin ⟨u, hu, hc⟩

theorem Wrote.tableFrame (h : SpaceOk m dir) (hw : Wrote dir v bytes m m')
    (hlo : memoryTaskBase ≤ v)
    (hend : v + bytes.length ≤ 4294967296) (k : Nat) :
    TableFrame m'.mem dir k ↔ TableFrame m.mem dir k :=
  hw.touched.tableFrame h (fun _ hu => ⟨by omega, by omega⟩) k

/-! ## `memory_copy_uvm_data` -/

theorem copyUvmData_nil (fuel v : Nat) : copyUvmData dir fuel v [] m = some (0, m) := by
  cases fuel with
  | zero => rfl
  | succ fuel => rfl

/-- The address of a mapped page is found, and is not 0. -/
theorem SpaceOk.getPaddr (h : SpaceOk m dir) (hlo : memoryTaskBase ≤ v) (hhi : v < 4294967296)
    (hmap : pageEntry m dir (v / 4096) ≠ none) : ∃ a, translate m dir v = some a ∧ a ≠ 0 ∧
      a % 4096 = v % 4096 ∧ memoryGetPaddr dir v m = some (a, m) := by
  obtain ⟨e, he⟩ := Option.ne_none_iff_exists'.mp hmap
  have ht : translate m dir v = some (entryPaddr e + v % 4096) := by
    rw [translate_pageEntry, he]
    rfl
  have hget := h.toDirOk.getPaddr hhi
  rw [ht] at hget
  obtain ⟨hin, hoff⟩ := translate_inPage ht
  have huser : UserPage (v / 4096) := by
    unfold memoryTaskBase at hlo
    unfold UserPage
    omega
  obtain ⟨k, -, hk, -⟩ := hin.mem_frame h huser
  refine ⟨_, ht, ?_, hoff, hget⟩
  have hframe := hk.1
  unfold frameAddr at hframe
  omega

theorem copyUvmData_wrote {fuel : Nat} (h : SpaceOk m dir) (hfuel : bytes.length ≤ fuel)
    (hlo : memoryTaskBase ≤ v) (hend : v + bytes.length ≤ 4294967296)
    (hmap : ∀ p, v / 4096 ≤ p → 4096 * p < v + bytes.length → pageEntry m dir p ≠ none) :
    ∃ m', copyUvmData dir fuel v bytes m = some (0, m') ∧ Wrote dir v bytes m m' := by
  induction fuel generalizing m v bytes with
  | zero =>
    obtain rfl := List.length_eq_zero_iff.mp (Nat.le_zero.mp hfuel)
    exact ⟨m, rfl, .nil h v⟩
  | succ fuel ih =>
    by_cases hempty : bytes = []
    · subst hempty
      exact ⟨m, rfl, .nil h v⟩
    · have hpos := List.length_pos_iff.mpr hempty
      obtain ⟨a, ht, hne, hoff, hget⟩ := h.getPaddr hlo (by omega) (hmap _ le_rfl (by omega))
      let n := min (4096 - a % 4096) bytes.length
      have hn : (bytes.take n).length = n := by
        rw [List.length_take]
        omega
      obtain ⟨m₁, hstore, hwrote⟩ := h.wrote (bytes.take n) hlo (by omega) ht
        (show v % 4096 + (bytes.take n).length ≤ 4096 by omega)
      have hrest : ∃ m', copyUvmData dir fuel ((v + n) % 4294967296) (bytes.drop n) m₁ =
          some (0, m') ∧ Wrote dir (v + n) (bytes.drop n) m₁ m' := by
        by_cases hdone : bytes.drop n = []
        · rw [hdone]
          exact ⟨m₁, copyUvmData_nil .., .nil hwrote.ok _⟩
        · have hleft := List.length_pos_iff.mpr hdone
          rw [List.length_drop] at hleft
          rw [Nat.mod_eq_of_lt (show v + n < 4294967296 by omega)]
          refine ih hwrote.ok ?_ (by omega) ?_ fun p hplo hphi => ?_
          · rw [List.length_drop]
            omega
          · rw [List.length_drop]
            omega
          · rw [List.length_drop] at hphi
            rw [hwrote.entries p (by omega)]
            exact hmap p (by omega) (by omega)
      obtain ⟨m', hrun, hwrote'⟩ := hrest
      refine ⟨m', ?_, ?_⟩
      · rw [copyUvmData, if_neg hempty, seq_some hget, if_neg hne]
        rw [seq_some hstore]
        exact hrun
      · rw [← List.take_append_drop n bytes]
        refine hwrote.append (hn.symm ▸ hwrote') ?_
        rw [hn, List.length_drop]
        omega

/-- `memory_copy_uvm_data` into mapped pages. -/
theorem memoryCopyUvmData_wrote (h : SpaceOk m dir) (v : Nat) (bytes : List UInt8)
    (hlo : memoryTaskBase ≤ v) (hend : v + bytes.length ≤ 4294967296)
    (hmap : ∀ p, v / 4096 ≤ p → 4096 * p < v + bytes.length → pageEntry m dir p ≠ none) :
    ∃ m', memoryCopyUvmData v dir bytes m = some (0, m') ∧ Wrote dir v bytes m m' :=
  copyUvmData_wrote h le_rfl hlo hend hmap

end Wrote

end Wjos
