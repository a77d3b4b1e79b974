/-
Wjos.Tools.BitmapRuns — `bitmap_alloc_nbits` and runs of more than one bit.

The inner loop starts at `i = 1` but tests the position of the outer loop
once more, so it looks at `count - 1` positions (`scanLen`), not at
`count`. `bitmapSearch_spec` says what the search finds: the leftmost run
of `scanLen count` positions whose MASKED byte equals `bit`. For `bit = 0`
these are the clear bits; for `bit = 1` the masked byte is 1 only at an
index divisible by 8, and the `~bit` that is written is not zero either.

`bitmapAllocNbits_ok_iff` gives the bitmaps on which the call does what
its name promises. The loops are also run step by step (`allocStep`), and
`allocStep_done` says that they end, with the same result.
-/
import Wjos.Lib.Stretch
import Wjos.Tools.Bitmap

namespace Wjos

open Lib

/-- `bit` as the `int` the callers pass. -/
def bitInt (b : Bool) : Int := if b then 1 else 0

/-- The positions of the map that the search takes for a match. -/
def Matches (bm : Bitmap) (bit : Int) (index : Nat) : Prop := (bitmapGetBit bm index : Int) = bit

/-- How many positions the two loops test before they accept. -/
def scanLen (count : Nat) : Nat := max 1 (count - 1)

/-! ## The inner loop -/

/-- The inner loop accepts when the positions that are left all match. -/
theorem bitmapMatchRun_accepts {bm : Bitmap} {bit : Int} {count i search : Nat} (fuel : Nat)
    (ok : Int) (hi : i ≤ count) (hf : count ≤ i + fuel)
    (hs : Stretch (Matches bm bit) bm.bitCount (count - i) search) :
    bitmapMatchRun bm bit count fuel i search ok = (count, search + (count - i), ok) := by
  induction fuel generalizing i search with
  | zero =>
    have hic : i = count := by omega
    subst hic
    simp [bitmapMatchRun]
  | succ fuel ih =>
    rw [bitmapMatchRun]
    rcases Nat.lt_or_eq_of_le hi with hlt | rfl
    · have hn := hs.1
      have hm : (bitmapGetBit bm search : Int) = bit := hs.2 search (Nat.le_refl _) (by omega)
      have hrest : Stretch (Matches bm bit) bm.bitCount (count - (i + 1)) (search + 1) :=
        ⟨by omega, fun j h₁ h₂ => hs.2 j (by omega) (by omega)⟩
      rw [if_pos ⟨hlt, by omega⟩, if_neg (not_not.mpr hm), ih (by omega) (by omega) hrest,
        show search + 1 + (count - (i + 1)) = search + (count - i) by omega]
    · simp

/-- The inner loop goes right. -/
theorem le_bitmapMatchRun (bm : Bitmap) (bit : Int) (count fuel i search : Nat) (ok : Int) :
    search ≤ (bitmapMatchRun bm bit count fuel i search ok).2.1 := by
  induction fuel generalizing i search with
  | zero => exact Nat.le_refl _
  | succ fuel ih =>
    rw [bitmapMatchRun]
    split
    · split
      · exact Nat.le_succ _
      · exact (Nat.le_succ _).trans (ih ..)
    · exact Nat.le_refl _

/-- Otherwise it stops short of `count` and further right, and it has passed
no run of `count - 1` positions that starts where it started. -/
theorem bitmapMatchRun_rejects {bm : Bitmap} {bit : Int} {count i search : Nat} (fuel : Nat)
    (ok : Int) (hi : i < count) (hf : count ≤ i + fuel)
    (hs : ¬ Stretch (Matches bm bit) bm.bitCount (count - i) search) :
    (bitmapMatchRun bm bit count fuel i search ok).1 < count ∧
      (search < bm.bitCount → search < (bitmapMatchRun bm bit count fuel i search ok).2.1) ∧
      ∀ k, search < k + i → k < (bitmapMatchRun bm bit count fuel i search ok).2.1 →
        ¬ Stretch (Matches bm bit) bm.bitCount (count - 1) k := by
  induction fuel generalizing i search with
  | zero => omega
  | succ fuel ih =>
    rw [bitmapMatchRun]
    by_cases hn : search < bm.bitCount
    · rw [if_pos ⟨hi, hn⟩]
      by_cases hm : (bitmapGetBit bm search : Int) = bit
      · rw [if_neg (not_not.mpr hm)]
        have hrest : ¬ Stretch (Matches bm bit) bm.bitCount (count - (i + 1)) (search + 1) := by
          intro h
          have hle := h.1
          refine hs ⟨by omega, fun j h₁ h₂ => ?_⟩
          rcases Nat.eq_or_lt_of_le h₁ with rfl | h₃
          · exact hm
          · exact h.2 j h₃ (by omega)
        have hi' : i + 1 < count := by
          rcases Nat.lt_or_eq_of_le (show i + 1 ≤ count by omega) with h | h
          · exact h
          · refine absurd ?_ hs
            rw [show count - i = 1 by omega, stretch_one]
            exact ⟨hn, hm⟩
        obtain ⟨h₁, h₂, h₃⟩ := ih hi' (by omega) hrest
        refine ⟨h₁, fun _ => ?_, fun k hk hlt => h₃ k (by omega) hlt⟩
        by_cases hn' : search + 1 < bm.bitCount
        · have := h₂ hn'
          omega
        · have hle : search + 1 ≤ (bitmapMatchRun bm bit count fuel (i + 1) (search + 1) ok).2.1 :=
            le_bitmapMatchRun ..
          omega
      · rw [if_pos hm]
        refine ⟨hi, fun _ => Nat.lt_succ_self _, fun k hk hlt => ?_⟩
        exact not_stretch_of_not hm (by dsimp only at hlt; omega) (by omega)
    · rw [if_neg (fun h => hn h.2)]
      refine ⟨hi, fun h => absurd h hn, fun k hk hlt h => ?_⟩
      have hle := h.1
      omega

/-! ## The outer loop -/

/-- What the search finds from `search` on, when no run starts before it. -/
theorem bitmapSearch_spec {bm : Bitmap} {bit : Int} {count fuel search : Nat} (hc : 1 ≤ count)
    (hf : bm.bitCount ≤ search + fuel)
    (hbefore : ∀ k < search, ¬ Stretch (Matches bm bit) bm.bitCount (scanLen count) k) :
    (∃ k, FirstStretch (Matches bm bit) bm.bitCount (scanLen count) k ∧
        bitmapSearch bm bit count fuel search = (bitmapSetBit bm k count (~~~bit), (k : Int))) ∨
      ((∀ k, ¬ Stretch (Matches bm bit) bm.bitCount (scanLen count) k) ∧
        bitmapSearch bm bit count fuel search = (bm, -1)) := by
  have hpast : ∀ s, bm.bitCount ≤ s →
      (∀ k < s, ¬ Stretch (Matches bm bit) bm.bitCount (scanLen count) k) →
      ∀ k, ¬ Stretch (Matches bm bit) bm.bitCount (scanLen count) k := by
    intro s hn hs k h
    have hle := h.1
    have hpos : 1 ≤ scanLen count := Nat.le_max_left ..
    exact hs k (by omega) h
  induction fuel generalizing search with
  | zero => exact Or.inr ⟨hpast search hf hbefore, rfl⟩
  | succ fuel ih =>
    rw [bitmapSearch]
    by_cases hn : search < bm.bitCount
    · rw [if_pos hn]
      by_cases hm : (bitmapGetBit bm search : Int) = bit
      · rw [if_neg (not_not.mpr hm)]
        by_cases hrun : Stretch (Matches bm bit) bm.bitCount (scanLen count) search
        · have hacc := bitmapMatchRun_accepts count search hc (by omega)
            (hrun.shorten (Nat.le_max_right 1 (count - 1)))
          refine Or.inl ⟨search, ⟨hrun, hbefore⟩, ?_⟩
          simp [hacc]
        · have hlen : scanLen count = count - 1 ∧ 1 < count := by
            unfold scanLen at hrun ⊢
            rcases Nat.lt_or_ge 1 count with h | h
            · omega
            · rw [show max 1 (count - 1) = 1 by omega, stretch_one] at hrun
              exact absurd ⟨hn, hm⟩ hrun
          rw [hlen.1] at hrun hbefore
          obtain ⟨h₁, h₂, h₃⟩ := bitmapMatchRun_rejects count search hlen.2 (by omega)
            hrun
          have hright := h₂ hn
          have hbefore' : ∀ k < (bitmapMatchRun bm bit count count 1 search search).2.1,
              ¬ Stretch (Matches bm bit) bm.bitCount (scanLen count) k := by
            intro k hk
            rw [hlen.1]
            rcases Nat.lt_or_ge k search with hlt | hge
            · exact hbefore k hlt
            · exact h₃ k (by omega) hk
          have hrec := ih (by omega) hbefore'
          rw [if_neg (Nat.not_le_of_lt h₁)]
          exact hrec
      · rw [if_pos hm]
        have hbefore' : ∀ k < search + 1,
            ¬ Stretch (Matches bm bit) bm.bitCount (scanLen count) k := by
          intro k hk
          rcases Nat.lt_or_eq_of_le (Nat.le_of_lt_succ hk) with hlt | rfl
          · exact hbefore k hlt
          · exact not_stretch_of_not hm (Nat.le_refl _) (by unfold scanLen; omega)
        exact ih (by omega) hbefore'
    · rw [if_neg hn]
      exact Or.inr ⟨hpast search (by omega) hbefore, rfl⟩

/-- `bitmap_alloc_nbits` claims the leftmost run of `scanLen count` matches. -/
theorem bitmapAllocNbits_spec (bm : Bitmap) (bit : Int) {count : Nat} (hc : 1 ≤ count) :
    (∃ k, FirstStretch (Matches bm bit) bm.bitCount (scanLen count) k ∧
        bitmapAllocNbits bm bit count = (bitmapSetBit bm k count (~~~bit), (k : Int))) ∨
      ((∀ k, ¬ Stretch (Matches bm bit) bm.bitCount (scanLen count) k) ∧
        bitmapAllocNbits bm bit count = (bm, -1)) :=
  bitmapSearch_spec hc (by omega) fun k hk => absurd hk (Nat.not_lt_zero k)

/-! ## The loops end

`allocStep` is one test of a loop condition with what follows it, up to the
next test. -/

/-- Where `bitmap_alloc_nbits` stands. -/
inductive AllocState where
  | outer (searchIndex : Nat)
  | inner (okIndex i searchIndex : Nat)
  | done (result : Bitmap × Int)

/-- From one test of a loop condition to the next. -/
def allocStep (bm : Bitmap) (bit : Int) (count : Nat) : AllocState → AllocState
  | .outer search =>
    if search < bm.bitCount then
      if (bitmapGetBit bm search : Int) ≠ bit then .outer (search + 1)
      else .inner search 1 search
    else .done (bm, -1)
  | .inner ok i search =>
    if i < count ∧ search < bm.bitCount then
      -- the mismatch leaves the loop with `i < count`, so nothing is claimed
      if (bitmapGetBit bm search : Int) ≠ bit then .outer (search + 1)
      else .inner ok (i + 1) (search + 1)
    else if i ≥ count then .done (bitmapSetBit bm ok count (~~~bit), ok)
    else .outer search
  | .done r => .done r

/-- The inner loop, run to its end, hands over to the outer one or returns. -/
theorem allocStep_inner (bm : Bitmap) (bit : Int) (count fuel ok i search : Nat)
    (hf : count ≤ i + fuel) :
    ∃ steps, (allocStep bm bit count)^[steps] (.inner ok i search) =
      let r := bitmapMatchRun bm bit count fuel i search ok
      if r.1 ≥ count then .done (bitmapSetBit bm ok count (~~~bit), ok) else .outer r.2.1 := by
  induction fuel generalizing i search with
  | zero =>
    have hic : ¬ i < count := by omega
    exact ⟨1, by simp [allocStep, bitmapMatchRun, hic]⟩
  | succ fuel ih =>
    rw [bitmapMatchRun]
    by_cases hgo : i < count ∧ search < bm.bitCount
    · by_cases hm : (bitmapGetBit bm search : Int) = bit
      · obtain ⟨steps, hsteps⟩ := ih (i + 1) (search + 1) (by omega)
        refine ⟨steps + 1, ?_⟩
        rw [Function.iterate_succ_apply, if_pos hgo, if_neg (not_not.mpr hm), ← hsteps]
        simp [allocStep, hgo, hm]
      · refine ⟨1, ?_⟩
        have hic : ¬ count ≤ i := by omega
        simp [allocStep, hgo, hm, hic]
    · refine ⟨1, ?_⟩
      simp [allocStep, hgo]

/-- An accepted run starts where the inner loop was entered. -/
theorem bitmapMatchRun_ok {bm : Bitmap} {bit : Int} {count fuel i search : Nat} {ok : Int}
    (h : count ≤ (bitmapMatchRun bm bit count fuel i search ok).1) :
    (bitmapMatchRun bm bit count fuel i search ok).2.2 = ok := by
  induction fuel generalizing i search with
  | zero => rfl
  | succ fuel ih =>
    rw [bitmapMatchRun] at h ⊢
    by_cases hgo : i < count ∧ search < bm.bitCount
    · rw [if_pos hgo] at h ⊢
      by_cases hm : (bitmapGetBit bm search : Int) = bit
      · rw [if_neg (not_not.mpr hm)] at h ⊢
        exact ih h
      · rw [if_pos hm] at h
        dsimp only at h
        omega
    · rw [if_neg hgo]

/-- A rejected run moves the search on. -/
theorem lt_bitmapMatchRun {bm : Bitmap} {bit : Int} {count search : Nat} {ok : Int}
    (hn : search < bm.bitCount) (hm : (bitmapGetBit bm search : Int) = bit)
    (h : ¬ (bitmapMatchRun bm bit count count 1 search ok).1 ≥ count) :
    search < (bitmapMatchRun bm bit count count 1 search ok).2.1 := by
  have hc : 1 < count := by
    rcases Nat.lt_or_ge 1 count with hc | hc
    · exact hc
    · refine absurd ?_ h
      cases count with
      | zero => exact Nat.zero_le _
      | succ n =>
        have hn0 : n = 0 := by omega
        simp [bitmapMatchRun, hn0]
  obtain ⟨n, rfl⟩ := Nat.exists_eq_add_of_lt hc
  rw [bitmapMatchRun, if_pos ⟨hc, hn⟩, if_neg (not_not.mpr hm)]
  exact le_bitmapMatchRun ..

/-- The outer loop, run to its end. -/
theorem allocStep_outer (bm : Bitmap) (bit : Int) (count fuel search : Nat)
    (hf : bm.bitCount ≤ search + fuel) :
    ∃ steps, (allocStep bm bit count)^[steps] (.outer search) =
      .done (bitmapSearch bm bit count fuel search) := by
  induction fuel generalizing search with
  | zero =>
    have hn : ¬ search < bm.bitCount := by omega
    exact ⟨1, by simp [allocStep, bitmapSearch, hn]⟩
  | succ fuel ih =>
    rw [bitmapSearch]
    by_cases hn : search < bm.bitCount
    · rw [if_pos hn]
      by_cases hm : (bitmapGetBit bm search : Int) = bit
      · rw [if_neg (not_not.mpr hm)]
        have hfirst : allocStep bm bit count (.outer search) = .inner search 1 search := by
          simp [allocStep, hn, hm]
        obtain ⟨steps, hsteps⟩ := allocStep_inner bm bit count count search 1 search (by omega)
        dsimp only at hsteps ⊢
        by_cases hacc : (bitmapMatchRun bm bit count count 1 search search).1 ≥ count
        · rw [if_pos hacc] at hsteps ⊢
          rw [bitmapMatchRun_ok hacc]
          exact ⟨steps + 1, by rw [Function.iterate_succ_apply, hfirst, hsteps]; rfl⟩
        · rw [if_neg hacc] at hsteps ⊢
          have hright := lt_bitmapMatchRun hn hm hacc
          obtain ⟨more, hmore⟩ :=
            ih (bitmapMatchRun bm bit count count 1 search search).2.1 (by omega)
          refine ⟨more + (steps + 1), ?_⟩
          rw [Function.iterate_add_apply, Function.iterate_succ_apply, hfirst, hsteps, hmore]
      · obtain ⟨steps, hsteps⟩ := ih (search + 1) (by omega)
        rw [if_pos hm]
        refine ⟨steps + 1, ?_⟩
        rw [Function.iterate_succ_apply, ← hsteps]
        simp [allocStep, hn, hm]
    · exact ⟨1, by simp [allocStep, hn]⟩

/-- `bitmap_alloc_nbits` returns, on every bitmap. -/
theorem allocStep_done (bm : Bitmap) (bit : Int) (count : Nat) :
    ∃ steps, (allocStep bm bit count)^[steps] (.outer 0) =
      .done (bitmapAllocNbits bm bit count) :=
  allocStep_outer bm bit count bm.bitCount 0 (by omega)

/-! ## What the call should do, and when it does -/

/-- The positions below `bit_count` that hold `b`. -/
def Holds (bm : Bitmap) (b : Bool) (index : Nat) : Prop := bitAt bm index = b

/-- `r` claims the leftmost run of `count` bits equal to `b`: it names the
first index and flips those bits alone. Without such a run it is `-1` and
the unchanged map. -/
structure ClaimsRun (bm : Bitmap) (b : Bool) (count : Nat) (r : Bitmap × Int) : Prop where
  found : ∀ k, FirstStretch (Holds bm b) bm.bitCount count k →
    r.2 = k ∧ r.1.bitCount = bm.bitCount ∧
      ∀ j, bitAt r.1 j = if k ≤ j ∧ j < k + count then !b else bitAt bm j
  absent : (∀ k, ¬ Stretch (Holds bm b) bm.bitCount count k) → r = (bm, -1)

/-- The maps on which the call does that. For clear bits: one bit is asked
for, or the leftmost run of `count - 1` of them is followed by one more.
For set bits: there is no run of them at all, and the search is not misled
by a set bit at an index divisible by 8. -/
def RunAllocatable (bm : Bitmap) (count : Nat) : (b : Bool) → Prop
  | false => count = 1 ∨ ∀ k, FirstStretch (Holds bm false) bm.bitCount (count - 1) k →
      Stretch (Holds bm false) bm.bitCount count k
  | true => (∀ k, ¬ Stretch (Holds bm true) bm.bitCount count k) ∧
      (count = 2 → ∀ j < bm.bitCount, j % 8 = 0 → bitAt bm j = false)

theorem matches_zero (bm : Bitmap) (j : Nat) : Matches bm 0 j ↔ Holds bm false j := by
  rw [Matches, Holds, ← bitmapGetBit_eq_zero, Int.natCast_eq_zero]

/-- The masked byte is 1 only in the first bit of a byte. -/
theorem matches_one (bm : Bitmap) (j : Nat) :
    Matches bm 1 j ↔ j % 8 = 0 ∧ Holds bm true j := by
  rw [Matches, Holds, bitmapGetBit, UInt8.toNat_and, toNat_bitMask, Nat.and_two_pow, bitAt]
  cases (bm.bits (j / 8)).toNat.testBit (j % 8) with
  | false => simp
  | true =>
    simp only [Bool.toNat_true, Nat.one_mul, and_true]
    constructor
    · intro h
      by_contra hne
      have h2 : 2 ∣ 2 ^ (j % 8) := dvd_pow_self 2 hne
      have h1 : (2 : Nat) ^ (j % 8) = 1 := by exact_mod_cast h
      omega
    · intro h
      rw [h]
      rfl

/-- What the search for clear bits takes for a run. -/
theorem firstStretch_matches_zero {bm : Bitmap} {len k : Nat} :
    FirstStretch (Matches bm 0) bm.bitCount len k ↔
      FirstStretch (Holds bm false) bm.bitCount len k :=
  firstStretch_congr fun j _ => matches_zero bm j

/-- The search for clear bits. -/
theorem claimsRun_false_iff (bm : Bitmap) {count : Nat} (hc : 1 ≤ count) :
    ClaimsRun bm false count (bitmapAllocNbits bm 0 count) ↔ RunAllocatable bm count false := by
  have hlen : scanLen count ≤ count := by
    unfold scanLen
    omega
  have hscan : count = 1 ∨ scanLen count = count - 1 := by
    unfold scanLen
    omega
  rcases bitmapAllocNbits_spec bm 0 hc with ⟨k, hfirst, hr⟩ | ⟨hnone, hr⟩
  · rw [firstStretch_matches_zero] at hfirst
    rw [hr]
    constructor
    · intro h
      rcases hscan with h1 | h1
      · exact Or.inl h1
      · refine Or.inr fun k' hk' => ?_
        rw [← h1] at hk'
        rw [hk'.unique hfirst]
        by_contra hshort
        by_cases hany : ∃ j, Stretch (Holds bm false) bm.bitCount count j
        · obtain ⟨j, hj⟩ := hany
          obtain ⟨j₀, hj₀⟩ := hj.exists_first
          have hkj : k = j₀ := Int.ofNat_inj.mp (h.found j₀ hj₀).1
          exact hshort (hkj ▸ hj₀.1)
        · have habs := congrArg Prod.snd (h.absent (not_exists.mp hany))
          simp at habs
    · intro h
      have hfull : Stretch (Holds bm false) bm.bitCount count k := by
        rcases h with h1 | h1
        · rw [h1] at hfirst ⊢
          exact hfirst.1
        · rcases hscan with h2 | h2
          · rw [h2] at hfirst ⊢
            exact hfirst.1
          · exact h1 k (h2 ▸ hfirst)
      have hk := hfirst.lengthen hlen hfull
      constructor
      · intro k' hk'
        rw [hk'.unique hk]
        refine ⟨rfl, bitCount_bitmapSetBit .., fun j => ?_⟩
        rw [bitAt_bitmapSetBit]
        have hn := hfull.1
        refine if_congr ?_ (by decide) rfl
        omega
      · exact fun hno => absurd hfull (hno k)
  · rw [hr]
    have hno : ∀ k, ¬ Stretch (Holds bm false) bm.bitCount (scanLen count) k := by
      intro k h
      exact hnone k ((stretch_congr fun j _ => matches_zero bm j).mpr h)
    constructor
    · intro _
      rcases hscan with h1 | h1
      · exact Or.inl h1
      · exact Or.inr fun k hk => absurd (h1 ▸ hk.1) (hno k)
    · intro _
      exact ⟨fun k hk => absurd (hk.1.shorten hlen) (hno k), fun _ => rfl⟩

/-- The search for set bits. -/
theorem claimsRun_true_iff (bm : Bitmap) {count : Nat} (hc : 1 ≤ count) :
    ClaimsRun bm true count (bitmapAllocNbits bm 1 count) ↔ RunAllocatable bm count true := by
  rcases bitmapAllocNbits_spec bm 1 hc with ⟨k, hfirst, hr⟩ | ⟨hnone, hr⟩
  · -- two matches in a row would both be first bits of a byte
    have hone : scanLen count = 1 := by
      by_contra hne
      have hpos : 1 ≤ scanLen count := Nat.le_max_left ..
      have h₀ := ((matches_one bm k).mp (hfirst.1.2 k (Nat.le_refl k) (by omega))).1
      have h₁ := ((matches_one bm (k + 1)).mp
        (hfirst.1.2 (k + 1) (Nat.le_succ k) (by omega))).1
      omega
    have hcount : count = 1 ∨ count = 2 := by
      unfold scanLen at hone
      omega
    rw [hone] at hfirst
    obtain ⟨hk, hm⟩ := stretch_one.mp hfirst.1
    obtain ⟨hk8, hset⟩ := (matches_one bm k).mp hm
    rw [hr]
    constructor
    · intro h
      by_cases hany : ∃ j, Stretch (Holds bm true) bm.bitCount count j
      · obtain ⟨j, hj⟩ := hany
        obtain ⟨j₀, hj₀⟩ := hj.exists_first
        obtain ⟨h₁, -, h₂⟩ := h.found j₀ hj₀
        have hkj : k = j₀ := Int.ofNat_inj.mp h₁
        have hflip := h₂ k
        rw [bitAt_bitmapSetBit, if_pos ⟨Nat.le_refl k, by omega, hk⟩, ← hkj,
          if_pos ⟨Nat.le_refl k, by omega⟩] at hflip
        exact absurd hflip (by decide)
      · have habs := congrArg Prod.snd (h.absent (not_exists.mp hany))
        simp at habs
    · rintro ⟨hno, htwo⟩
      rcases hcount with rfl | rfl
      · exact absurd (stretch_one.mpr ⟨hk, hset⟩) (hno k)
      · rw [Holds, htwo rfl k hk hk8] at hset
        exact absurd hset (by decide)
  · rw [hr]
    constructor
    · intro h
      have hno : ∀ k, ¬ Stretch (Holds bm true) bm.bitCount count k := by
        intro k hk
        obtain ⟨j, hj⟩ := hk.exists_first
        have hneg := (h.found j hj).1
        dsimp only at hneg
        omega
      refine ⟨hno, fun h2 j hj hj8 => ?_⟩
      by_contra hset
      refine hnone j ?_
      rw [h2, show scanLen 2 = 1 from rfl, stretch_one]
      exact ⟨hj, (matches_one bm j).mpr ⟨hj8, by simpa [Holds] using hset⟩⟩
    · rintro ⟨hno, -⟩
      exact ⟨fun k hk => absurd hk.1 (hno k), fun _ => rfl⟩

/-- `bitmap_alloc_nbits` always returns, and it claims the leftmost run of
`count` bits, or reports that there is none, exactly on the maps of
`RunAllocatable`. -/
theorem bitmapAllocNbits_ok_iff (bm : Bitmap) (b : Bool) (count : Nat) (hc : 1 ≤ count) :
    (∃ steps, (allocStep bm (bitInt b) count)^[steps] (.outer 0) =
        .done (bitmapAllocNbits bm (bitInt b) count)) ∧
      (ClaimsRun bm b count (bitmapAllocNbits bm (bitInt b) count) ↔
        RunAllocatable bm count b) := by
  refine ⟨allocStep_done bm (bitInt b) count, ?_⟩
  cases b with
  | false => exact claimsRun_false_iff bm hc
  | true => exact claimsRun_true_iff bm hc

/-- The rule on an empty map of 16 bits, asked for three. -/
theorem bitmapAllocNbits_ok_iff_three :
    ClaimsRun ⟨16, fun _ => 0⟩ false 3 (bitmapAllocNbits ⟨16, fun _ => 0⟩ 0 3) := by
  refine (bitmapAllocNbits_ok_iff ⟨16, fun _ => 0⟩ false 3 (by decide)).2.mpr (Or.inr ?_)
  intro k hk
  have h0 : Stretch (Holds ⟨16, fun _ => 0⟩ false) 16 3 0 :=
    ⟨by decide, fun j _ _ => by simp [Holds, bitAt]⟩
  have hk0 : k = 0 := hk.unique ⟨h0.shorten (by decide), fun j hj => absurd hj (Nat.not_lt_zero j)⟩
  exact hk0 ▸ h0

/-- Asked for two clear bits, the call claims a single one that has a set
bit behind it: it clears nothing and reports success on a map without a
free pair. -/
theorem single_bit_claimed_as_pair :
    ¬ ∀ (bm : Bitmap) (b : Bool) (count : Nat), 1 ≤ count →
      ClaimsRun bm b count (bitmapAllocNbits bm (bitInt b) count) := by
  intro h
  have habs := (h ⟨8, fun _ => 0xFB⟩ false 2 (by decide)).absent ?_
  · exact absurd (congrArg Prod.snd habs) (by decide)
  · intro k hk
    have hn : k + 2 ≤ 8 := hk.1
    have hall : ∀ k < 7, ¬ (bitAt ⟨8, fun _ => 0xFB⟩ k = false ∧
        bitAt ⟨8, fun _ => 0xFB⟩ (k + 1) = false) := by decide
    exact hall k (by omega) ⟨hk.2 k (by omega) (by omega), hk.2 (k + 1) (by omega) (by omega)⟩

end Wjos
