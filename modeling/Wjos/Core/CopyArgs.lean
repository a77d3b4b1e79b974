/-
Wjos.Core.CopyArgs — what `copy_args` puts on the stack of a new program.

`sys_execve` has `MEM_TASK_ARG_SIZE` bytes below the top of the stack for the
arguments: `task_args_t`, then the pointers with a null pointer behind them,
then the strings. The strings and `task_args_t` go through
`memory_copy_uvm_data`, page by page. The pointers go through one physical
address, the one of the first of them, and the frames of the pages need not be
neighbours; the null pointer is left out when there are no arguments; nobody
adds the lengths up. So the arguments arrive, wherever the frames of the area
are and whatever is in them, if there is at least one, the pointers lie in the
first page and all of it fits the area, and not otherwise
(`copyArgs_right_iff`).
-/
import Wjos.Core.UserMemory
import Wjos.Core.Life
import Mathlib.Tactic.IntervalCases

namespace Wjos.Os

open Lib

/-! ## What the new program is to find -/

/-- `n` bytes at `v` lie in the argument area. -/
def InArea (v n : Nat) : Prop := stackTop ≤ v ∧ v + n ≤ memTaskStackTop

/-- A page of the argument area. -/
def AreaPage (p : Nat) : Prop := stackTop / 4096 ≤ p ∧ p < memTaskStackTop / 4096

/-- An address space whose argument area has frames. -/
structure ArgArea (m : PhysMem) (dir : Nat) : Prop extends SpaceOk m dir where
  mapped : ∀ p, AreaPage p → pageEntry m dir p ≠ none

/-- `argc` and `argv` of `task_args_t` describe the strings: each has its
pointer in the table at `argv`, the table ends with a null pointer, and all of
it is in the argument area. -/
def ArgsDelivered (m : PhysMem) (dir : Nat) (argv : List (List UInt8)) : Prop :=
  ∃ tb, UserHolds m dir (stackTop + 4) (wordBytes argv.length ++ wordBytes tb) ∧
    InArea tb (4 * (argv.length + 1)) ∧
    UserHolds m dir (tb + 4 * argv.length) (wordBytes 0) ∧
    ∀ i arg, argv[i]? = some arg → ∃ p, UserHolds m dir (tb + 4 * i) (wordBytes p) ∧
      InArea p (arg.length + 1) ∧ UserHolds m dir p (arg ++ [0])

/-- `copy_args` does not stop the machine, fails or delivers the arguments, and
writes to no frame but those of the argument area. -/
def CopyArgsRight (m : PhysMem) (dir : Nat) (argv : List (List UInt8)) (retAddr : Nat) : Prop :=
  ∃ r m', copyArgs stackTop dir argv retAddr m = some (r, m') ∧
    (r < 0 ∨ ArgsDelivered m' dir argv) ∧ m'.paddrAlloc = m.paddrAlloc ∧
    ∀ a, (∀ p, AreaPage p → ¬InPage m dir p a) → m'.mem a = m.mem a

/-- The bytes of the strings with their NULs. -/
def argBytes : List (List UInt8) → Nat
  | [] => 0
  | arg :: args => arg.length + 1 + argBytes args

/-- There is an argument, the pointers lie in the first page of the area, and
the strings end in it. -/
def ArgsFit (argv : List (List UInt8)) : Prop :=
  argv ≠ [] ∧ 12 + 4 * (argv.length + 1) ≤ 4096 ∧
    12 + 4 * (argv.length + 1) + argBytes argv ≤ memTaskArgSize

/-! ## The loop over the strings -/

section Strings

variable {m m' : PhysMem} {dir tb u v a i d : Nat} {bytes : List UInt8} {args : List (List UInt8)}

@[simp] theorem wordBytes_length (v : Nat) : (wordBytes v).length = 4 := rfl

/-- A word is stored as its bytes. -/
theorem storeWord_eq (a v : Nat) : storeWord a v = storeBytes a (wordBytes v) := by
  funext m
  refine congrArg (fun mem => some ((), { m with mem := mem })) (funext fun b => ?_)
  rcases Nat.lt_or_ge b a with hlt | hge
  · rw [put32_of_not_mem (.inl hlt), copyTo_of_lt hlt]
  · obtain ⟨o, rfl⟩ := Nat.exists_eq_add_of_le hge
    by_cases ho : o < 4
    · refine .trans ?_ (copyTo_add ho).symm
      interval_cases o <;> simp [put32, put16, wordBytes, Nat.div_div_eq_div_mul, Nat.add_assoc]
    · rw [put32_of_not_mem (.inr (by omega)), copyTo_of_ge (by rw [wordBytes_length]; omega)]

theorem stackTop_eq : stackTop = 3758080000 := rfl

theorem memTaskStackTop_eq : memTaskStackTop = 3758096384 := rfl

/-- The next address in the same page. -/
theorem translate_add (ht : translate m dir v = some a) {o : Nat} (ho : v % 4096 + o < 4096) :
    translate m dir (v + o) = some (a + o) := by
  rw [translate_pageEntry] at ht ⊢
  obtain ⟨e, he, rfl⟩ := Option.map_eq_some_iff.mp ht
  rw [show (v + o) / 4096 = v / 4096 by omega, he]
  have hoff : (v + o) % 4096 = v % 4096 + o := by omega
  rw [Option.map_some, hoff, Nat.add_assoc]

/-- A string goes to `d`, its pointer to entry `i` of the table. -/
theorem copyArgStrings_cons {arg : List UInt8} {m₁ m₂ : PhysMem}
    (hcopy : memoryCopyUvmData d dir (arg ++ [0]) m = some (0, m₁))
    (hstore : storeWord (tb + 4 * i) d m₁ = some ((), m₂)) :
    copyArgStrings dir tb i d (arg :: args) m =
      copyArgStrings dir tb (i + 1) ((d + arg.length + 1) % 4294967296) args m₂ := by
  rw [copyArgStrings, seq_some hcopy]
  exact (seq_some rfl).trans (seq_some hstore)

/-- The addresses that the loop stores to. -/
def StringsAt (v i d : Nat) (args : List (List UInt8)) (u : Nat) : Prop :=
  (v + 4 * i ≤ u ∧ u < v + 4 * (i + args.length)) ∨ (d ≤ u ∧ u < d + argBytes args)

/-- The loop with its table at the user address `v`, in one page, and the
strings behind it. -/
theorem copyArgStrings_delivers (h : SpaceOk m dir) (args : List (List UInt8))
    (hlo : memoryTaskBase ≤ v)
    (ht : translate m dir v = some tb) (halign : v % 4 = 0)
    (htable : v % 4096 + 4 * (i + args.length) ≤ 4096) (hbehind : v + 4 * (i + args.length) ≤ d)
    (hend : d + argBytes args ≤ 4294967295)
    (hmap : ∀ p, d / 4096 ≤ p → 4096 * p < d + argBytes args → pageEntry m dir p ≠ none) :
    ∃ m', copyArgStrings dir tb i d args m = some ((), m') ∧
      Touched dir (StringsAt v i d args) m m' ∧
      ∀ j arg, args[j]? = some arg → ∃ p, UserHolds m' dir (v + 4 * (i + j)) (wordBytes p) ∧
        d ≤ p ∧ p + arg.length + 1 ≤ d + argBytes args ∧ UserHolds m' dir p (arg ++ [0]) := by
  induction args generalizing m i d with
  | nil => exact ⟨m, rfl, .refl h _, fun j arg hj => by simp at hj⟩
  | cons arg args ih =>
    rw [List.length_cons] at htable hbehind
    rw [argBytes] at hend hmap
    have hlen : (arg ++ [(0 : UInt8)]).length = arg.length + 1 := List.length_append
    -- the string
    obtain ⟨m₁, hcopy, hwrote⟩ := memoryCopyUvmData_wrote h d (arg ++ [0]) (by omega)
      (by omega) fun p hplo hphi => hmap p hplo (by omega)
    -- its pointer
    have ht₁ : translate m₁ dir (v + 4 * i) = some (tb + 4 * i) := by
      rw [translate_congr hwrote.entries (by omega)]
      exact translate_add ht (by omega)
    obtain ⟨m₂, hstore, hwrote₂⟩ := hwrote.ok.wrote (wordBytes d) (by omega) (by omega) ht₁
      (by rw [wordBytes_length]; omega)
    rw [← storeWord_eq] at hstore
    -- the rest
    have hent : ∀ p < 1048576, pageEntry m₂ dir p = pageEntry m dir p := fun p hp =>
      (hwrote₂.entries p hp).trans (hwrote.entries p hp)
    obtain ⟨m', hrun, htouched, hall⟩ := ih (i := i + 1) (d := d + arg.length + 1) hwrote₂.ok
      (by rw [translate_congr hent (by omega)]; exact ht) (by omega) (by omega) (by omega)
      fun p hplo hphi => by rw [hent p (by omega)]; exact hmap p (by omega) (by omega)
    refine ⟨m', ?_, ?_, fun j a hj => ?_⟩
    · rw [copyArgStrings_cons hcopy hstore, Nat.mod_eq_of_lt (by omega)]
      exact hrun
    · have hR : ∀ u, StringsAt v i d (arg :: args) u → u < 4294967296 := fun u hu => by
        rw [StringsAt, List.length_cons, argBytes] at hu
        omega
      refine (hwrote.touched.mono fun u hu => ?_).trans hR
        ((hwrote₂.touched.mono fun u hu => ?_).trans hR (htouched.mono fun u hu => ?_))
      · rw [StringsAt, List.length_cons, argBytes]
        omega
      · rw [wordBytes_length] at hu
        rw [StringsAt, List.length_cons, argBytes]
        omega
      · rw [StringsAt] at hu
        rw [StringsAt, List.length_cons, argBytes]
        omega
    · cases j with
      | zero =>
        obtain rfl : arg = a := by simpa using hj
        have hstr : UserHolds m₂ dir d (arg ++ [0]) := hwrote₂.holds_of_disjoint
          (hwrote.holds (by omega) (by omega)) (by omega) (by omega)
          (.inr (by rw [wordBytes_length]; omega))
        have hptr : UserHolds m₂ dir (v + 4 * i) (wordBytes d) :=
          hwrote₂.holds (by omega) (by rw [wordBytes_length]; omega)
        refine ⟨d, ?_, le_rfl, by rw [argBytes]; omega, ?_⟩
        · refine htouched.holds hptr (by omega) (by rw [wordBytes_length]; omega)
            fun x hlo hhi => ?_
          rw [wordBytes_length] at hhi
          rw [StringsAt]
          omega
        · refine htouched.holds hstr (by omega) (by omega) fun x hlo hhi => ?_
          rw [StringsAt]
          omega
      | succ j =>
        obtain ⟨p, hptr, hplo, hphi, hstr⟩ := hall j a (by simpa using hj)
        refine ⟨p, ?_, by omega, by rw [argBytes]; omega, hstr⟩
        rwa [Nat.add_right_comm, Nat.add_assoc] at hptr

end Strings

/-! ## The arguments arrive -/

section Arrive

variable {m : PhysMem} {dir retAddr v n : Nat} {argv : List (List UInt8)}

/-- Addresses of the area are in pages of the area. -/
theorem InArea.page (h : InArea v n) (hn : n ≠ 0) : AreaPage (v / 4096) := by
  have hlo := h.1
  have hhi := h.2
  rw [stackTop_eq] at hlo
  rw [memTaskStackTop_eq] at hhi
  rw [AreaPage, stackTop_eq, memTaskStackTop_eq]
  omega

/-- The addresses that `copy_args` stores to; the place of the null pointer is
one of them, also when it is left out. -/
def ArgBytes (argv : List (List UInt8)) (u : Nat) : Prop :=
  stackTop ≤ u ∧ u < stackTop + 12 + 4 * (argv.length + 1) + argBytes argv

/-- `copy_args`, where all of it fits: with an argument or more they arrive. -/
theorem copyArgs_touched (h : ArgArea m dir) (hpage : 12 + 4 * (argv.length + 1) ≤ 4096)
    (hsize : 12 + 4 * (argv.length + 1) + argBytes argv ≤ memTaskArgSize) (retAddr : Nat) :
    ∃ m', copyArgs stackTop dir argv retAddr m = some (0, m') ∧ Touched dir (ArgBytes argv) m m' ∧
      (argv ≠ [] → ArgsDelivered m' dir argv) := by
  have hst := stackTop_eq
  have htop := memTaskStackTop_eq
  have harea : memTaskArgSize = 16384 := rfl
  have hbase : memoryTaskBase = 2147483648 := rfl
  have hpageOf : ∀ p, 917500 ≤ p → p < 917504 → pageEntry m dir p ≠ none := fun p hlo hhi =>
    h.mapped p (by rw [AreaPage, hst, htop]; omega)
  have hR : ∀ u, ArgBytes argv u → u < 4294967296 := fun u hu => by
    have hhi := hu.2
    omega
  -- the table
  obtain ⟨tb, ht, -, -, hget⟩ := h.getPaddr (v := stackTop + 12) (by omega) (by omega)
    (hpageOf _ (by omega) (by omega))
  -- the strings and their pointers
  let d := stackTop + 12 + 4 * (argv.length + 1)
  obtain ⟨m₁, hloop, htouched, hall⟩ := copyArgStrings_delivers (i := 0) (d := d)
    h.toSpaceOk argv (by omega) ht (by omega) (by omega) (by omega) (by omega)
    fun p hlo hhi => hpageOf p (by omega) (by omega)
  -- the null pointer, which is left out when there are no arguments
  let null := fun u => stackTop + 12 + 4 * argv.length ≤ u ∧ u < stackTop + 16 + 4 * argv.length
  obtain ⟨m₂, hstore, hnull, hends⟩ : ∃ m₂,
      onlyIf (argv.length ≠ 0) (storeWord (tb + 4 * argv.length) 0) m₁ = some ((), m₂) ∧
        Touched dir null m₁ m₂ ∧
        (argv ≠ [] → UserHolds m₂ dir (stackTop + 12 + 4 * argv.length) (wordBytes 0)) := by
    by_cases hnone : argv = []
    · refine ⟨m₁, ?_, .refl htouched.ok _, fun hsome => absurd hnone hsome⟩
      rw [onlyIf, if_neg (by simp [hnone])]
      rfl
    · have hpos := List.length_pos_iff.mpr hnone
      have ht₁ : translate m₁ dir (stackTop + 12 + 4 * argv.length) =
          some (tb + 4 * argv.length) := by
        rw [translate_congr htouched.entries (by omega)]
        exact translate_add ht (by omega)
      obtain ⟨m₂, hstore, hwrote⟩ := htouched.ok.wrote (wordBytes 0) (by omega) (by omega) ht₁
        (by rw [wordBytes_length]; omega)
      rw [← storeWord_eq] at hstore
      refine ⟨m₂, ?_, hwrote.touched.mono fun u hu => ?_,
        fun _ => hwrote.holds (by omega) (by rw [wordBytes_length]; omega)⟩
      · rw [onlyIf, if_pos (by omega)]
        exact hstore
      · rw [wordBytes_length] at hu
        exact ⟨hu.1, by omega⟩
  -- `task_args_t`
  let taskArgs := wordBytes retAddr ++ wordBytes argv.length ++ wordBytes (stackTop + 12)
  have hlen : taskArgs.length = 12 := rfl
  have hent : ∀ p < 1048576, pageEntry m₂ dir p = pageEntry m dir p := fun p hp =>
    (hnull.entries p hp).trans (htouched.entries p hp)
  obtain ⟨m', hcopy, hwrote⟩ := memoryCopyUvmData_wrote hnull.ok stackTop taskArgs
    (by omega) (by omega) fun p hlo hhi => by
      rw [hent p (by omega)]
      exact hpageOf p (by omega) (by omega)
  refine ⟨m', ?_, ?_, fun hsome => ?_⟩
  · rw [copyArgs, seq_some hget, Nat.mod_eq_of_lt (by omega), seq_some hloop, seq_some hstore]
    exact hcopy
  · refine (htouched.mono fun u hu => ?_).trans hR
      ((hnull.mono fun u hu => ?_).trans hR (hwrote.touched.mono fun u hu => ?_))
    · rw [StringsAt] at hu
      exact ⟨by omega, by omega⟩
    · exact ⟨by omega, by omega⟩
    · exact ⟨by omega, by omega⟩
  · refine ⟨stackTop + 12, ?_, ⟨by omega, by omega⟩, ?_, fun i arg hi => ?_⟩
    · have hholds := hwrote.holds (by omega) (by omega)
      rw [show taskArgs = wordBytes retAddr ++ (wordBytes argv.length ++ wordBytes (stackTop + 12))
        from List.append_assoc ..] at hholds
      exact hholds.drop
    · exact hwrote.holds_of_disjoint (hends hsome) (by omega) (by rw [wordBytes_length]; omega)
        (.inr (by omega))
    · obtain ⟨p, hptr, hplo, hphi, hstr⟩ := hall i arg hi
      have hilt : i < argv.length := (List.getElem?_eq_some_iff.mp hi).1
      have hslen : (arg ++ [(0 : UInt8)]).length = arg.length + 1 := List.length_append
      rw [Nat.zero_add] at hptr
      have hptr₂ := hnull.holds hptr (by omega) (by rw [wordBytes_length]; omega)
        fun x hlo hhi hx => by
          rw [wordBytes_length] at hhi
          exact absurd hx.1 (by omega)
      have hstr₂ := hnull.holds hstr (by omega) (by omega) fun x hlo hhi hx =>
        absurd hx.2 (by omega)
      exact ⟨p, hwrote.holds_of_disjoint hptr₂ (by omega) (by rw [wordBytes_length]; omega)
        (.inr (by omega)), ⟨by omega, by omega⟩,
        hwrote.holds_of_disjoint hstr₂ (by omega) (by omega) (.inr (by omega))⟩

theorem copyArgs_delivers (h : ArgArea m dir) (hfit : ArgsFit argv) (retAddr : Nat) :
    CopyArgsRight m dir argv retAddr := by
  obtain ⟨hsome, hpage, hsize⟩ := hfit
  obtain ⟨m', hrun, htouched, harrive⟩ := copyArgs_touched h hpage hsize retAddr
  have hst := stackTop_eq
  have htop := memTaskStackTop_eq
  have harea : memTaskArgSize = 16384 := rfl
  refine ⟨0, m', hrun, .inr (harrive hsome), htouched.paddrAlloc,
    fun a ha => htouched.outside a fun u hu => ha _ (InArea.page (n := 1) ?_ (by decide))⟩
  exact ⟨hu.1, by have hhi := hu.2; omega⟩

end Arrive

/-! ## Where they do not -/

/-- An argument area whose first page has the last of the frames: behind that
frame is memory of somebody else, in front of it the frames of the other pages. -/
def apartMem : PhysMem where
  paddrAlloc :=
    { bitmap := { bitCount := 5, bits := fun _ => 0xFF }
      start := memExtStart
      size := 4096 * 5
      pageSize := memPageSize }
  kernelPageDir := 0x50000
  mem :=
    put32 (put32 (put32 (put32 (put32 (fun a => if a < 0x101000 then 0 else 0xFF)
      (0x1000 + 4 * 895) 0x100007) (0x100000 + 4 * 1020) 0x104007) (0x100000 + 4 * 1021) 0x101007)
      (0x100000 + 4 * 1022) 0x102007) (0x100000 + 4 * 1023) 0x103007

/-- The frame of a page of its argument area. -/
def apartFrame (p : Nat) : Nat := if p = 917500 then 4 else p - 917500

theorem apart_zero {b : Nat} (hb : b + 4 ≤ 0x101000) :
    le32 (fun a => if a < 0x101000 then (0 : UInt8) else 0xFF) b = 0 := by
  rw [le32, le16, le16, if_pos (by omega), if_pos (by omega), if_pos (by omega), if_pos (by omega)]
  rfl

theorem apart_pde (i : Nat) (hi : i < 1024) :
    uvmPde apartMem.mem 0x1000 i = if i = 895 then 0x100007 else 0 := by
  show le32 (put32 _ _ _) _ = _
  rw [le32_put32_of_ne (.inl (by omega)), le32_put32_of_ne (.inl (by omega)),
    le32_put32_of_ne (.inl (by omega)), le32_put32_of_ne (.inl (by omega))]
  split
  next h =>
    subst h
    rw [le32_put32]
  next h => rw [le32_put32_of_ne (by omega), apart_zero (by omega)]

theorem apart_pte (j : Nat) (hj : j < 1024) : le32 apartMem.mem (0x100000 + 4 * j) =
    if 1020 ≤ j then frameAddr (apartFrame (916480 + j)) + 7 else 0 := by
  show le32 (put32 _ _ _) _ = _
  split
  next h =>
    obtain rfl | rfl | rfl | rfl : j = 1020 ∨ j = 1021 ∨ j = 1022 ∨ j = 1023 := by omega
    · rw [le32_put32_of_ne (.inl (by omega)), le32_put32_of_ne (.inl (by omega)),
        le32_put32_of_ne (.inl (by omega)), le32_put32]
      rfl
    · rw [le32_put32_of_ne (.inl (by omega)), le32_put32_of_ne (.inl (by omega)), le32_put32]
      rfl
    · rw [le32_put32_of_ne (.inl (by omega)), le32_put32]
      rfl
    · rw [le32_put32]
      rfl
  next h =>
    rw [le32_put32_of_ne (.inl (by omega)), le32_put32_of_ne (.inl (by omega)),
      le32_put32_of_ne (.inl (by omega)), le32_put32_of_ne (.inl (by omega)),
      le32_put32_of_ne (.inr (by omega)), apart_zero (by omega)]

theorem apart_hasTable {i : Nat} (hi : i < 1024) :
    hasTable apartMem 0x1000 i = decide (i = 895) := by
  rw [hasTable, apart_pde i hi]
  split
  next h => simp [h, entryPresent]
  next h => simp [h, entryPresent]

theorem areaPage_iff (p : Nat) : AreaPage p ↔ 917500 ≤ p ∧ p < 917504 := Iff.rfl

theorem apart_entry {p : Nat} (hp : p < 1048576) : pageEntry apartMem 0x1000 p =
    if 917500 ≤ p ∧ p < 917504 then some (frameAddr (apartFrame p) + 7) else none := by
  rw [pageEntry, pagePresent]
  by_cases htable : p / 1024 = 895
  · have hpde : uvmPde apartMem.mem 0x1000 (p / 1024) = 0x100007 :=
      (apart_pde _ (by omega)).trans (if_pos htable)
    have hpte : uvmPte apartMem.mem 0x1000 (p / 1024) (p % 1024) =
        if 1020 ≤ p % 1024 then frameAddr (apartFrame p) + 7 else 0 := by
      rw [uvmPte, hpde, show p = 916480 + p % 1024 by omega]
      refine (apart_pte _ (by omega)).trans ?_
      rw [show (916480 + p % 1024) % 1024 = p % 1024 by omega]
    rw [hpde, hpte]
    by_cases hpage : 1020 ≤ p % 1024
    · have harea : 917500 ≤ p ∧ p < 917504 := ⟨by omega, by omega⟩
      rw [if_pos hpage, if_pos harea, entryPresent_frame]
      rfl
    · have harea : ¬(917500 ≤ p ∧ p < 917504) := by omega
      rw [if_neg hpage, if_neg harea]
      rfl
  · have harea : ¬(917500 ≤ p ∧ p < 917504) := by omega
    rw [(apart_pde _ (by omega)).trans (if_neg htable), if_neg harea]
    rfl

theorem apartFrame_spec {p : Nat} (hp : 917500 ≤ p ∧ p < 917504) :
    1 ≤ apartFrame p ∧ apartFrame p ≤ 4 ∧ (apartFrame p = 4 ↔ p = 917500) := by
  unfold apartFrame
  split <;> omega

theorem apartMem_dirOk : DirOk apartMem 0x1000 := by
  have honly : ∀ i < 1024, entryPresent (uvmPde apartMem.mem 0x1000 i) = true → i = 895 := by
    intro i hi hpres
    rw [apart_pde i hi] at hpres
    by_contra hne
    rw [if_neg hne] at hpres
    exact absurd hpres (by decide)
  refine ⟨⟨rfl, rfl, by decide, by decide⟩, .inl (by decide), fun i hi hpres => ?_,
    fun i hi j hj hpres hpres' _ => (honly i hi hpres).trans (honly j hj hpres').symm,
    fun i hi j hj hpres hno => ?_⟩
  · obtain rfl := honly i hi hpres
    exact ⟨0, by decide, by decide, by decide, by decide⟩
  · obtain rfl := honly i hi hpres
    rw [uvmPte, apart_pde _ hi, if_pos rfl, show entryPaddr 0x100007 = 0x100000 from rfl,
      apart_pte j hj] at hno ⊢
    by_cases hj' : 1020 ≤ j
    · rw [if_pos hj', entryPresent_frame] at hno
      exact absurd hno (by decide)
    · rw [if_neg hj']

theorem apartMem_tableFrame {k : Nat} (h : TableFrame apartMem.mem 0x1000 k) : k = 0 := by
  obtain ⟨i, hi, hpres, ha⟩ := h
  rw [apart_pde i hi] at hpres ha
  by_cases hne : i = 895
  · rw [if_pos hne] at ha
    exact (frameAddr_inj (show frameAddr 0 = frameAddr k from ha)).symm
  · rw [if_neg hne] at hpres
    exact absurd hpres (by decide)

theorem apartMem_space : SpaceOk apartMem 0x1000 := by
  refine ⟨apartMem_dirOk, fun p hp e he => ?_, fun p q hp hq e e' he he' hee => ?_⟩
  · rw [apart_entry hp.2] at he
    obtain ⟨harea, he⟩ := Option.ite_none_right_eq_some.mp he
    obtain ⟨hlo, hhi, -⟩ := apartFrame_spec harea
    cases he
    have hused : ∀ k < 5, apartMem.used k = true := by decide
    refine ⟨apartFrame p, Nat.lt_succ_of_le hhi, entryPaddr_frame (by omega), hused _ (by omega),
      fun htable => ?_, ?_⟩
    · have hzero := apartMem_tableFrame htable
      omega
    · unfold frameAddr
      omega
  · rw [apart_entry hp.2] at he
    rw [apart_entry hq.2] at he'
    obtain ⟨harea, he⟩ := Option.ite_none_right_eq_some.mp he
    obtain ⟨harea', he'⟩ := Option.ite_none_right_eq_some.mp he'
    cases he
    cases he'
    rw [entryPaddr_frame (by omega), entryPaddr_frame (by omega)] at hee
    have hframe := frameAddr_inj hee
    unfold apartFrame at hframe
    split at hframe <;> split at hframe <;> omega

/-- Memory like `apartMem` below the frames of the area. -/
structure AreaAt (m : PhysMem) : Prop where
  paddrAlloc : m.paddrAlloc = apartMem.paddrAlloc
  kernelPageDir : m.kernelPageDir = apartMem.kernelPageDir
  low : ∀ a < 0x101000, m.mem a = apartMem.mem a

section Apart

variable {m m' : PhysMem} {v a i d : Nat} {bytes : List UInt8} {args argv : List (List UInt8)}

theorem apartMem_areaAt : AreaAt apartMem := ⟨rfl, rfl, fun _ _ => rfl⟩

/-- The map is that of `apartMem`. -/
theorem AreaAt.map (h : AreaAt m) : SpaceOk m 0x1000 ∧
    (∀ p < 1048576, pageEntry m 0x1000 p = pageEntry apartMem 0x1000 p) ∧
    ∀ i < 1024, hasTable m 0x1000 i = hasTable apartMem 0x1000 i := by
  have hm : m = { apartMem with mem := m.mem } := by
    cases m
    simp [← h.paddrAlloc, ← h.kernelPageDir]
  rw [hm]
  refine apartMem_space.edit (fun a hlo hhi => h.low a (by omega)) fun k hk a ha => ?_
  obtain rfl := apartMem_tableFrame hk
  exact h.low a ha.2

theorem AreaAt.argArea (h : AreaAt m) : ArgArea m 0x1000 := by
  refine ⟨h.map.1, fun p hp => ?_⟩
  rw [areaPage_iff] at hp
  rw [h.map.2.1 p (by omega), apart_entry (by omega), if_pos hp]
  simp

theorem AreaAt.inPage {p : Nat} (h : AreaAt m) (hp : p < 1048576) (hin : InPage m 0x1000 p a) :
    AreaPage p ∧ InFrame (apartFrame p) a := by
  obtain ⟨e, he, hlo, hhi⟩ := hin
  rw [h.map.2.1 p hp, apart_entry hp] at he
  obtain ⟨harea, he⟩ := Option.ite_none_right_eq_some.mp he
  cases he
  rw [entryPaddr_frame (by omega)] at hlo hhi
  exact ⟨harea, hlo, hhi⟩

/-- Stores into the frames of the area. -/
theorem AreaAt.wrote (h : AreaAt m) (hw : Wrote 0x1000 v bytes m m')
    (hend : v + bytes.length ≤ 4294967296) : AreaAt m' := by
  refine ⟨hw.paddrAlloc.trans h.paddrAlloc, hw.kernelPageDir.trans h.kernelPageDir, fun a ha => ?_⟩
  refine (hw.outside a fun u hlo hhi hin => ?_).trans (h.low a ha)
  obtain ⟨hpage, hframe⟩ := h.inPage (by omega) hin
  obtain ⟨hpos, -⟩ := apartFrame_spec hpage
  have hlow := hframe.1
  unfold frameAddr at hlow
  omega

/-- A word stored behind the table frame. -/
theorem AreaAt.word (h : AreaAt m) (ha : 0x101000 ≤ a) (v : Nat) :
    AreaAt { m with mem := put32 m.mem a v } :=
  ⟨h.paddrAlloc, h.kernelPageDir, fun b hb =>
    (put32_of_not_mem (.inl (by omega))).trans (h.low b hb)⟩

/-- There is no table but the one of the area, so the address of a string
elsewhere is not found. -/
theorem AreaAt.copy_absent (h : AreaAt m) (hv : v < 4294967296) (htable : pdeIndex v ≠ 895)
    (hne : bytes ≠ []) (fuel : Nat) : copyUvmData 0x1000 (fuel + 1) v bytes m = some (-1, m) := by
  have hi : pdeIndex v < 1024 := by
    unfold pdeIndex
    omega
  have hno : hasTable m 0x1000 (pdeIndex v) = false := by
    rw [h.map.2.2 _ hi, apart_hasTable hi]
    simpa using htable
  have hget : memoryGetPaddr 0x1000 v m = some (0, m) := by
    rw [memoryGetPaddr, seq_some (findPte_absent hno)]
    rfl
  rw [copyUvmData, if_neg hne, seq_some hget]
  rfl

/-- A string that reaches over the top of the area is not copied. -/
theorem AreaAt.copy_past {fuel : Nat} (h : AreaAt m) (hfuel : bytes.length ≤ fuel)
    (hlo : stackTop ≤ v) (hhi : v ≤ memTaskStackTop) (hend : memTaskStackTop < v + bytes.length) :
    ∃ m', copyUvmData 0x1000 fuel v bytes m = some (-1, m') := by
  rw [stackTop_eq] at hlo
  rw [memTaskStackTop_eq] at hhi hend
  have hbase : memoryTaskBase = 2147483648 := rfl
  induction fuel generalizing m v bytes with
  | zero => omega
  | succ fuel ih =>
    have hne : bytes ≠ [] := List.length_pos_iff.mp (by omega)
    rcases Nat.lt_or_ge v 3758096384 with hlt | hge
    · obtain ⟨a, ht, hne₀, hoff, hget⟩ := h.map.1.getPaddr (v := v) (by omega) (by omega)
        (h.argArea.mapped _ ⟨by rw [stackTop_eq]; omega, by rw [memTaskStackTop_eq]; omega⟩)
      let n := min (4096 - a % 4096) bytes.length
      have hn : (bytes.take n).length = n := by
        rw [List.length_take]
        omega
      obtain ⟨m₁, hstore, hwrote⟩ :=
        h.map.1.wrote (bytes.take n) (by omega) (by omega) ht (by omega)
      obtain ⟨m', hrun⟩ : ∃ m', copyUvmData 0x1000 fuel (v + n) (bytes.drop n) m₁ = some (-1, m') :=
        ih (h.wrote hwrote (by omega)) (by rw [List.length_drop]; omega) (by omega) (by omega)
          (by rw [List.length_drop]; omega)
      refine ⟨m', ?_⟩
      rw [copyUvmData, if_neg hne, seq_some hget, if_neg hne₀, seq_some hstore,
        Nat.mod_eq_of_lt (show v + n < 4294967296 by omega)]
      exact hrun
    · exact ⟨m, h.copy_absent (by omega) (by unfold pdeIndex; omega) hne fuel⟩

/-- A string that is not copied stops the machine. -/
theorem copyArgStrings_stops {tb dir : Nat} {arg : List UInt8}
    (hcopy : memoryCopyUvmData d dir (arg ++ [0]) m = some (-1, m')) :
    copyArgStrings dir tb i d (arg :: args) m = none := by
  rw [copyArgStrings, seq_some hcopy]
  rfl

/-- The loop, wherever in memory the table ends. -/
theorem AreaAt.strings (h : AreaAt m) (hlo : stackTop ≤ d) (hhi : d ≤ memTaskStackTop) :
    (d + argBytes args ≤ memTaskStackTop →
      ∃ m', copyArgStrings 0x1000 0x10400C i d args m = some ((), m') ∧ AreaAt m') ∧
    (memTaskStackTop < d + argBytes args →
      copyArgStrings 0x1000 0x10400C i d args m = none) := by
  have hst := stackTop_eq
  have htop := memTaskStackTop_eq
  have hbase : memoryTaskBase = 2147483648 := rfl
  induction args generalizing m i d with
  | nil => exact ⟨fun _ => ⟨m, rfl, h⟩, fun hover => by rw [argBytes] at hover; omega⟩
  | cons arg args ih =>
    rw [argBytes]
    have hlen : (arg ++ [(0 : UInt8)]).length = arg.length + 1 := List.length_append
    by_cases hfit : d + arg.length + 1 ≤ memTaskStackTop
    · obtain ⟨m₁, hcopy, hwrote⟩ := memoryCopyUvmData_wrote h.map.1 d (arg ++ [0]) (by omega)
        (by omega) fun p hplo hphi => h.argArea.mapped p ⟨by omega, by omega⟩
      have hcons : copyArgStrings 0x1000 0x10400C i d (arg :: args) m = _ :=
        copyArgStrings_cons hcopy (show storeWord (0x10400C + 4 * i) d m₁ = some ((), _) from rfl)
      rw [Nat.mod_eq_of_lt (by omega)] at hcons
      obtain ⟨hok, hstop⟩ := ih (i := i + 1) (d := d + arg.length + 1)
        ((h.wrote hwrote (by omega)).word (a := 0x10400C + 4 * i) (by omega) d) (by omega) hfit
      rw [hcons]
      exact ⟨fun hle => hok (by omega), fun hover => hstop (by omega)⟩
    · obtain ⟨m', hcopy⟩ : ∃ m', memoryCopyUvmData d 0x1000 (arg ++ [0]) m = some (-1, m') :=
        h.copy_past le_rfl hlo hhi (by omega)
      exact ⟨fun hle => by omega, fun _ => copyArgStrings_stops hcopy⟩

/-- Words below 2^32 are told apart by their bytes. -/
theorem wordBytes_inj {x y : Nat} (hx : x < 4294967296) (hy : y < 4294967296)
    (h : wordBytes x = wordBytes y) : x = y := by
  simp only [wordBytes, List.cons.injEq, ← UInt8.toNat_inj, UInt8.toNat_ofNat'] at h
  omega

/-- The bytes of the area's frames and behind them. -/
theorem apartMem_high (ha : 0x101000 ≤ a) : apartMem.mem a = 0xFF := by
  show put32 _ _ _ a = 0xFF
  rw [put32_of_not_mem (.inr (by omega)), put32_of_not_mem (.inr (by omega)),
    put32_of_not_mem (.inr (by omega)), put32_of_not_mem (.inr (by omega)),
    put32_of_not_mem (.inr (by omega)), if_neg (by omega)]

/-- `task_args_t` goes to the first page. -/
theorem AreaAt.taskArgs (h : AreaAt m) (bytes : List UInt8) (hlen : bytes.length = 12) :
    ∃ m', memoryCopyUvmData stackTop 0x1000 bytes m = some (0, m') ∧
      Wrote 0x1000 stackTop bytes m m' := by
  have hst := stackTop_eq
  have hbase : memoryTaskBase = 2147483648 := rfl
  refine memoryCopyUvmData_wrote h.map.1 stackTop bytes (by omega) (by omega) fun p hlo hhi => ?_
  refine h.argArea.mapped p ?_
  rw [areaPage_iff]
  omega

/-- Without arguments the table stays as it is. -/
theorem not_delivered_nil (hw : Wrote 0x1000 stackTop
    (wordBytes a ++ wordBytes 0 ++ wordBytes (stackTop + 12)) apartMem m') :
    ¬ArgsDelivered m' 0x1000 [] := by
  rintro ⟨tb, htaskArgs, htb, hnull, -⟩
  have hst := stackTop_eq
  have htop := memTaskStackTop_eq
  have hbase : memoryTaskBase = 2147483648 := rfl
  have hread := htaskArgs.drop
  have hstored := (hw.holds (by omega) (by simp; omega)).drop
  rw [wordBytes_length, Nat.add_assoc] at hread
  rw [List.length_append, wordBytes_length, wordBytes_length] at hstored
  have htb : tb = stackTop + 12 :=
    wordBytes_inj (by have := htb.2; omega) (by omega) (hread.unique hstored (by simp))
  have hword : userByte m' 0x1000 (stackTop + 12) = some 0 := by
    rw [← htb]
    exact hnull 0 (by simp)
  rw [hw.byte _ (by omega) (by omega), if_neg (by simp), userByte_eq, apart_entry (by omega),
    if_pos (by omega), Option.map_some, apartMem_high] at hword
  · cases hword
  · obtain ⟨hpos, -⟩ := apartFrame_spec (p := (stackTop + 12) / 4096) ⟨by omega, by omega⟩
    rw [entryPaddr_frame (by omega)]
    unfold frameAddr
    omega

/-- In `apartMem` arguments that do not fit do not arrive. -/
theorem not_right_of_not_fit (hlen : argv.length < 536870912) (hfit : ¬ArgsFit argv)
    (retAddr : Nat) :
    ¬CopyArgsRight apartMem 0x1000 argv retAddr := by
  rintro ⟨r, m', hrun, hres, -, hout⟩
  have hst := stackTop_eq
  have htop := memTaskStackTop_eq
  have hbase : memoryTaskBase = 2147483648 := rfl
  have harg : memTaskArgSize = 16384 := rfl
  have harea := apartMem_areaAt
  have hget : memoryGetPaddr 0x1000 (stackTop + 12) apartMem = some (0x10400C, apartMem) := by
    rw [harea.map.1.toDirOk.getPaddr (by omega), translate_pageEntry, apart_entry (by omega),
      if_pos (by omega)]
    rfl
  rw [copyArgs, seq_some hget] at hrun
  cases hargv : argv with
  | nil =>
    subst hargv
    obtain ⟨m'', hcopy, hw⟩ := harea.taskArgs (wordBytes retAddr ++ wordBytes 0 ++
      wordBytes (stackTop + 12)) rfl
    rw [copyArgStrings, seq_some (show (pure () : Prog PhysMem Unit) apartMem = _ from rfl), onlyIf,
      if_neg (by simp), seq_some (show (pure () : Prog PhysMem Unit) apartMem = _ from rfl)] at hrun
    obtain ⟨rfl, rfl⟩ := Prod.mk.inj (Option.some.inj (hcopy.symm.trans hrun))
    exact not_delivered_nil hw (hres.resolve_left (by decide))
  | cons arg args =>
    have hpos : 0 < argv.length := by simp [hargv]
    by_cases htable : 12 + 4 * (argv.length + 1) ≤ 16384
    · rw [Nat.mod_eq_of_lt (by omega)] at hrun
      obtain ⟨hok, hstop⟩ : _ ∧ (_ → copyArgStrings 0x1000 0x10400C 0 _ argv apartMem = none) :=
        harea.strings (d := stackTop + 12 + 4 * (argv.length + 1)) (by omega) (by omega)
      by_cases hsize : stackTop + 12 + 4 * (argv.length + 1) + argBytes argv ≤ memTaskStackTop
      · -- the null pointer goes behind the frame of the first page
        have hcross : 4096 < 12 + 4 * (argv.length + 1) := by
          by_contra hle
          exact hfit ⟨by simp [hargv], by omega, by omega⟩
        obtain ⟨m₁, hloop, h₁⟩ := hok hsize
        rw [seq_some hloop, onlyIf, if_pos (by omega)] at hrun
        have h₂ := h₁.word (a := 0x10400C + 4 * argv.length) (by omega) 0
        obtain ⟨m'', hcopy, hw⟩ := h₂.taskArgs (wordBytes retAddr ++
          wordBytes argv.length ++ wordBytes (stackTop + 12)) rfl
        have hrun' := (seq_some (show storeWord _ 0 m₁ = some ((), _) from rfl)).symm.trans hrun
        obtain ⟨-, rfl⟩ := Prod.mk.inj (Option.some.inj (hcopy.symm.trans hrun'))
        have hframe : ∀ p, AreaPage p → ¬InFrame (apartFrame p) (0x10400C + 4 * argv.length) := by
          intro p hp hin
          obtain ⟨-, hle, -⟩ := apartFrame_spec hp
          have hhi := hin.2
          unfold frameAddr at hhi
          omega
        have hzero : m''.mem (0x10400C + 4 * argv.length) = 0 := by
          refine (hw.outside _ fun u hlo hhi hin => ?_).trans ?_
          · simp only [List.length_append, wordBytes_length] at hhi
            obtain ⟨hp, hin⟩ := h₂.inPage (by omega) hin
            exact hframe _ hp hin
          show put32 _ _ _ _ = 0
          rw [put32, put16_of_ne (by omega) (by omega), put16, if_pos rfl]
          rfl
        have hsame := hout (0x10400C + 4 * argv.length) fun p hp hin =>
          hframe p hp (harea.inPage (by rw [areaPage_iff] at hp; omega) hin).2
        rw [hzero, apartMem_high (by omega)] at hsame
        cases hsame
      · rw [seq_none (hstop (by omega))] at hrun
        cases hrun
    · rw [seq_none] at hrun
      · cases hrun
      · have hcopy : memoryCopyUvmData ((stackTop + 12 + 4 * (argv.length + 1)) % 4294967296) 0x1000
            (arg ++ [0]) apartMem = some (-1, apartMem) := by
          rw [memoryCopyUvmData, List.length_append]
          exact harea.copy_absent (by omega) (by unfold pdeIndex; omega) (by simp) _
        rw [hargv] at hcopy ⊢
        exact copyArgStrings_stops hcopy

end Apart

/-- `copy_args` is right in every new address space whose argument area has
frames if and only if the arguments fit. The array `argv` lies in the user half,
so it has less than 2^29 entries. -/
theorem copyArgs_right_iff (argv : List (List UInt8)) (hlen : argv.length < 536870912) :
    (∀ m dir retAddr, ArgArea m dir → CopyArgsRight m dir argv retAddr) ↔ ArgsFit argv := by
  constructor
  · intro hright
    by_contra hfit
    exact not_right_of_not_fit hlen hfit 0 (hright apartMem 0x1000 0 apartMem_areaAt.argArea)
  · intro hfit m dir retAddr h
    exact copyArgs_delivers h hfit retAddr

/-- The arguments `ls` and `-l` fit, and they arrive. -/
theorem copyArgs_right_iff_ls : ArgsFit [[0x6C, 0x73], [0x2D, 0x6C]] ∧
    CopyArgsRight apartMem 0x1000 [[0x6C, 0x73], [0x2D, 0x6C]] 0 := by
  have hfit : ArgsFit [[0x6C, 0x73], [0x2D, 0x6C]] := ⟨by decide, by decide, by decide⟩
  exact ⟨hfit, (copyArgs_right_iff [[0x6C, 0x73], [0x2D, 0x6C]] (by decide)).mpr hfit _ _ _
    apartMem_areaAt.argArea⟩

/-- The null pointer behind 1021 empty arguments goes to a frame of somebody
else. -/
theorem copyArgs_writes_outside : ArgArea apartMem 0x1000 ∧
    ¬CopyArgsRight apartMem 0x1000 (List.replicate 1021 []) 0 := by
  refine ⟨apartMem_areaAt.argArea, not_right_of_not_fit ?_ (fun hfit => ?_) 0⟩
  · rw [List.length_replicate]
    omega
  · have hpage := hfit.2.1
    rw [List.length_replicate] at hpage
    omega

end Wjos.Os
