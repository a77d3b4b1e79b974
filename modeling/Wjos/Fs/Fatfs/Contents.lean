/-
Wjos.Fs.Fatfs.Contents — the bytes of a file that is only appended to.

`FileData` says that a chain of clusters holds a sequence of bytes. A
file that is written from its start has as many clusters as its bytes fill,
and one more: `expand_file` and `move_file_pos` allocate the next cluster as
soon as the last one is full (`clusterCnt`).

The proofs follow the calls. `expandFile_fills` is one allocation, linked
behind the chain; `fatfsWriteLoop_fills` keeps `Writing`, the state
between two transfers; `Kept` is the frame: a write changes the clusters of
its own file and free ones. `fatfsReadLoop_reads` reads back what is there.
-/
import Wjos.Fs.Fatfs.Cluster
import Wjos.Lib.Blocks

namespace Wjos

open Lib

/-! ## Numbers of clusters -/

section Counts

variable {g : Fat} {size n : Nat}

theorem Fat.Ok.clusterByteSize_pow (hg : g.Ok) : ∃ k ≤ 12, g.clusterByteSize = 2 ^ k := by
  obtain ⟨k, hk, he⟩ := hg.secPerCluster
  exact ⟨k + 9, by omega, by rw [hg.clusterByteSize, he, Nat.pow_add]⟩

/-- The clusters that hold `n` bytes. -/
theorem up2_clusters (hg : g.Ok) (hn : n < 2147483648) :
    up2 n g.clusterByteSize / g.clusterByteSize =
      (n + g.clusterByteSize - 1) / g.clusterByteSize := by
  have hpos := hg.clusterByteSize_pos
  have hle := hg.clusterByteSize_le
  obtain ⟨k, hk, he⟩ := hg.clusterByteSize_pow
  rw [he] at hpos hle ⊢
  rw [up2_eq (by omega) (by omega), Nat.mul_div_cancel _ hpos]

/-- The clusters of a file of `size` bytes that was appended to from the
start. -/
def clusterCnt (g : Fat) (size : Nat) : Nat :=
  if size = 0 then 0 else size / g.clusterByteSize + 1

theorem clusterCnt_of_pos (hs : 0 < size) :
    clusterCnt g size = size / g.clusterByteSize + 1 := if_neg (Nat.ne_of_gt hs)

/-- The chain reaches beyond the last byte. -/
theorem lt_clusterCnt_mul (hg : g.Ok) (hs : 0 < size) :
    size < clusterCnt g size * g.clusterByteSize := by
  rw [clusterCnt_of_pos hs, Nat.add_mul, Nat.one_mul]
  exact Nat.lt_div_mul_add hg.clusterByteSize_pos

/-- `expand_file` allocates what the new bytes need beyond the chain, or one
cluster less. -/
theorem expandCnt_spec (hg : g.Ok) (size : Nat) (hn : 0 < n) (hlt : size + n < 2147483648) :
    expandCnt g size n = none ∧ 0 < size ∧ size + n < clusterCnt g size * g.clusterByteSize ∨
      ∃ cnt, expandCnt g size n = some cnt ∧ 0 < cnt ∧
        size + n ≤ (clusterCnt g size + cnt) * g.clusterByteSize ∧
        clusterCnt g size + cnt ≤ (size + n) / g.clusterByteSize + 1 := by
  have hq := hg.clusterByteSize_pos
  unfold expandCnt
  rcases Nat.eq_zero_or_pos size with rfl | hs
  · rw [if_pos ⟨rfl, Nat.zero_mod _⟩, u32_natCast (by omega), up2_clusters hg (by omega)]
    refine .inr ⟨_, rfl, Nat.div_pos (by omega) hq, ?_, ?_⟩
    · simpa [clusterCnt] using le_ceilDiv_mul hq n
    · simpa [clusterCnt] using ceilDiv_le hq n
  · rw [if_neg fun h => Nat.ne_of_gt hs h.1, clusterCnt_of_pos hs]
    dsimp only
    have hr := Nat.mod_lt size hq
    have hdiv := Nat.div_add_mod' size g.clusterByteSize
    have hup := fun d hd => up2_clusters (n := d) hg hd
    generalize g.clusterByteSize = q at *
    have hmul : (size / q + 1) * q = size + (q - size % q) := by
      rw [Nat.add_mul, Nat.one_mul]
      omega
    by_cases hfit : n < q - size % q
    · rw [if_pos (by omega)]
      exact .inl ⟨rfl, hs, by omega⟩
    · obtain ⟨d, rfl⟩ := Nat.exists_eq_add_of_le (Nat.le_of_not_lt hfit)
      have hd : u32 (((q - size % q + d : Nat) : Int) - ((q - size % q : Nat) : Int)) = d := by
        rw [u32_sub (Nat.le_add_right _ _) (by omega), Nat.add_sub_cancel_left]
      rw [if_neg (by omega), hd, hup d (by omega)]
      have hsum : size + (q - size % q + d) = (size / q + 1) * q + d := by omega
      have hquot : ((size / q + 1) * q + d) / q = size / q + 1 + d / q := by
        rw [Nat.add_comm, Nat.add_mul_div_right _ _ hq, Nat.add_comm]
      rw [hsum, hquot]
      have hge := le_ceilDiv_mul hq d
      have hle := ceilDiv_le hq d
      generalize (d + q - 1) / q = c at *
      generalize hm : d / q = m at *
      obtain ⟨cnt, hcnt, hpos, hc, hm'⟩ : ∃ cnt, (if c = 0 then 1 else c) = cnt ∧ 0 < cnt ∧
          c ≤ cnt ∧ cnt ≤ m + 1 := by
        refine ⟨_, rfl, ?_⟩
        split <;> omega
      refine .inr ⟨cnt, congrArg some hcnt, hpos, ?_, by omega⟩
      rw [Nat.add_mul _ cnt q]
      exact Nat.add_le_add_left (Nat.le_trans hge (Nat.mul_le_mul_right q hc)) _

/-- At the end of its last cluster a file asks for one more. -/
theorem expandCnt_full (hg : g.Ok) (hs : 0 < size) (hmod : size % g.clusterByteSize = 0) :
    expandCnt g size g.clusterByteSize = some 1 := by
  have hq := hg.clusterByteSize_pos
  have hle := hg.clusterByteSize_le
  have hz : up2 (u32 ((g.clusterByteSize : Int) - (g.clusterByteSize : Nat))) g.clusterByteSize /
      g.clusterByteSize = 0 := by
    rw [u32_sub (Nat.le_refl _) (by omega), Nat.sub_self, up2_clusters hg (by decide), Nat.zero_add]
    exact Nat.div_eq_of_lt (by omega)
  unfold expandCnt
  rw [if_neg fun h => Nat.ne_of_gt hs h.1, hmod, Nat.sub_zero]
  dsimp only
  rw [if_neg (by omega), hz, if_pos rfl]

end Counts

/-! ## One allocation -/

section Expand

variable {dev : Dev} {g : Fat} {fuel : Nat} {v : Volume} {im im' im'' : Image} {f : File}
  {l m : List Nat} {c start : Nat}

/-- Filling a chain leaves everything but its own clusters `l` alone; the
clusters `m` it adds were free. -/
structure Kept (im im' : Image) (l m : List Nat) : Prop where
  dir : im'.dir = im.dir
  free : ∀ c ∈ m, im.fat c = 0
  nodup : (l ++ m).Nodup
  fat : ∀ c, c ∉ l ++ m → im'.fat c = im.fat c
  data : ∀ c, c ∉ l ++ m → im'.data c = im.data c

theorem Kept.refl (hl : l.Nodup) (im : Image) : Kept im im l [] :=
  ⟨rfl, by simp, by simpa using hl, fun _ _ => rfl, fun _ _ => rfl⟩

theorem Kept.trans (h : Kept im im' l m) {m' : List Nat} (h' : Kept im' im'' (l ++ m) m') :
    Kept im im'' l (m ++ m') := by
  have hassoc : l ++ (m ++ m') = (l ++ m) ++ m' := (List.append_assoc ..).symm
  have hout : ∀ c, c ∉ (l ++ m) ++ m' → c ∉ l ++ m := fun c hc hm =>
    hc (List.mem_append_left _ hm)
  refine ⟨h'.dir.trans h.dir, fun c hc => ?_, hassoc ▸ h'.nodup, fun c hc => ?_, fun c hc => ?_⟩
  · rcases List.mem_append.mp hc with hc | hc
    · exact h.free c hc
    · have hnot : c ∉ l ++ m := fun hm => (List.nodup_append.mp h'.nodup).2.2 c hm c hc rfl
      rw [← h.fat c hnot, h'.free c hc]
  · rw [hassoc] at hc
    rw [h'.fat c hc, h.fat c (hout c hc)]
  · rw [hassoc] at hc
    rw [h'.data c hc, h.data c (hout c hc)]

/-- The cells of a path whose end mark is not 0 are in use. -/
theorem fat_ne_zero_of_path {e : Nat} (hp : Path im.fat start l e) (he : e ≠ 0)
    (hl : ∀ c ∈ l, InTable g c) : ∀ c ∈ l, im.fat c ≠ 0 := fun c hc hz => by
  obtain ⟨i, hi⟩ := List.mem_iff_getElem?.mp hc
  have hnext := hp.next_eq hi
  cases hj : l[i + 1]? with
  | none =>
    rw [hj, hz] at hnext
    exact he hnext.symm
  | some d =>
    rw [hj, hz] at hnext
    have hd := (hl d (List.mem_of_getElem? hj)).two_le
    rw [Option.getD_some] at hnext
    omega

theorem fat_ne_zero (hp : Path im.fat start l fatClusterInvalid) (hl : ∀ c ∈ l, InTable g c) :
    ∀ c ∈ l, im.fat c ≠ 0 := fat_ne_zero_of_path hp (by decide) hl

open Finset in
/-- Allocation takes its clusters from the free ones. -/
theorem Fresh.freeCount (hf : Fresh im im' start l) (hl : ∀ c ∈ l, InTable g c) :
    Wjos.freeCount g im' + l.length = Wjos.freeCount g im := by
  have hsplit : (range g.cTotal).filter (fun c => im.fat c = 0) =
      (range g.cTotal).filter (fun c => im'.fat c = 0) ∪ l.toFinset := by
    ext c
    rw [mem_union, mem_filter, mem_filter, List.mem_toFinset, mem_range]
    by_cases hc : c ∈ l
    · simp [hc, hf.free c hc, (hl c hc).2]
    · simp [hc, hf.other c hc]
  have hdisj : Disjoint ((range g.cTotal).filter fun c => im'.fat c = 0) l.toFinset := by
    refine disjoint_left.mpr fun c hc hm => ?_
    exact fat_ne_zero hf.path hl c (List.mem_toFinset.mp hm) (mem_filter.mp hc).2
  unfold Wjos.freeCount
  rw [Nat.count_eq_card_filter_range, Nat.count_eq_card_filter_range, hsplit,
    card_union_of_disjoint hdisj, List.toFinset_card_of_nodup hf.nodup]

/-- A cluster in use that is made to point elsewhere. -/
theorem freeCount_setNext (hc : im.fat c ≠ 0) {x : Nat} (hx : x ≠ 0) :
    freeCount g (im.setNext g c x) = freeCount g im := by
  have hsame : ∀ d, (im.setNext g c x).fat d = 0 ↔ im.fat d = 0 := fun d => by
    by_cases ht : InTable g c
    · rw [setNext_fat g im ht, Function.update_apply]
      split
      next hd => simp [hd, hc, hx]
      next => exact Iff.rfl
    · rw [setNext_fat_of_not im ht]
  unfold freeCount
  simp only [hsame]

/-- `expand_file` allocates `cnt` clusters and links them behind the chain. -/
structure Expanded (g : Fat) (im im' : Image) (f f' : File) (l m : List Nat) (cnt : Nat) :
    Prop where
  kept : Kept im im' l m
  data : im'.data = im.data
  length : m.length = cnt
  inTable : ∀ c ∈ m, InTable g c
  path : Path im'.fat f'.sblk (l ++ m) fatClusterInvalid
  free : freeCount g im' + cnt = freeCount g im
  file : f' = f ∧ l ≠ [] ∨ l = [] ∧ m[0]? = some f'.cblk ∧
    f' = { f with cblk := f'.cblk, sblk := f'.cblk }

/-- A new chain `m` of clusters that were free, behind the cluster `b`. -/
structure Linked (im im' : Image) (b : Nat) (m : List Nat) : Prop where
  dir : im'.dir = im.dir
  data : im'.data = im.data
  free : ∀ c ∈ m, im.fat c = 0
  nodup : (b :: m).Nodup
  other : ∀ c, c ∉ b :: m → im'.fat c = im.fat c
  path : Path im'.fat b (b :: m) fatClusterInvalid

theorem Fresh.inTable {g : Fat} {v : Volume} (hf : Fresh im im' start m) (h : Shows g v im) :
    ∀ c ∈ m, InTable g c := fun c hc => inTable_of_fat_zero h (hf.free c hc)

/-- The first clusters of a file. -/
theorem expandFile_first (hw : Works dev) (hg : g.Ok) (hfuel : 65536 < fuel) (h : Shows g v im)
    (hs : clusterIsValid (clusterT f.sblk) = false) {incr : Int} {cnt : Nat}
    (hcnt : expandCnt g f.size incr = some cnt) (hpos : 0 < cnt) (hfree : cnt ≤ freeCount g im) :
    ∃ v' s im' m, expandFile dev g fuel v f incr = some (v', { f with cblk := s, sblk := s }, 0) ∧
      Shows g v' im' ∧ Fresh im im' s m ∧ m.length = cnt ∧
      freeCount g im' + cnt = freeCount g im := by
  obtain ⟨v₁, s, im₁, m, halloc, h₁, hfresh, hlen⟩ :=
    clusterAllocFree_path hw hg h hfuel hpos hfree
  have hm := hfresh.inTable h
  have hst := hm s (hfresh.path.start_mem (List.ne_nil_of_length_pos (hlen ▸ hpos)))
  refine ⟨v₁, s, im₁, m, ?_, h₁, hfresh, hlen, hlen ▸ hfresh.freeCount hm⟩
  unfold expandFile
  rw [hcnt]
  dsimp only
  rw [halloc, Option.map_some]
  dsimp only
  rw [if_neg (by simp [hst.valid]), if_pos hs]

/-- More clusters, linked behind the current one. -/
theorem expandFile_links (hw : Works dev) (hg : g.Ok) (hfuel : 65536 < fuel) (h : Shows g v im)
    (hs : clusterIsValid (clusterT f.sblk) = true) (hb : InTable g f.cblk)
    (hused : im.fat f.cblk ≠ 0) {incr : Int} {cnt : Nat}
    (hcnt : expandCnt g f.size incr = some cnt) (hpos : 0 < cnt) (hfree : cnt ≤ freeCount g im) :
    ∃ v' im' m, expandFile dev g fuel v f incr = some (v', f, 0) ∧ Shows g v' im' ∧
      Linked im im' f.cblk m ∧ (∀ c ∈ m, InTable g c) ∧ m.length = cnt ∧
      freeCount g im' + cnt = freeCount g im := by
  obtain ⟨v₁, s, im₁, m, halloc, h₁, hfresh, hlen⟩ :=
    clusterAllocFree_path hw hg h hfuel hpos hfree
  have hm := hfresh.inTable h
  have hst := hm s (hfresh.path.start_mem (List.ne_nil_of_length_pos (hlen ▸ hpos)))
  have hbm : f.cblk ∉ m := fun hc => hused (hfresh.free _ hc)
  obtain ⟨v₂, err, hset, h₂, -, herr⟩ := clusterSetNext_shows hw hg h₁ f.cblk (x := s)
    (Nat.lt_trans hst.lt (by decide))
  obtain rfl := herr hb
  have hfat := setNext_fat g im₁ hb s
  refine ⟨v₂, _, m, ?_, h₂, ⟨hfresh.dir, hfresh.data, hfresh.free, ?_, fun c hc => ?_, rfl, ?_⟩,
    hm, hlen, ?_⟩
  · unfold expandFile
    rw [hcnt]
    dsimp only
    rw [halloc, Option.map_some]
    dsimp only
    rw [if_neg (by simp [hst.valid]), if_neg (by simp [hs]),
      clusterT_of_lt (Nat.lt_trans hb.lt (by decide)), hset]
    rfl
  · exact List.nodup_cons.mpr ⟨hbm, hfresh.nodup⟩
  · obtain ⟨hcb, hcm⟩ := not_or.mp (mt List.mem_cons.mpr hc)
    rw [hfat, Function.update_of_ne hcb, hfresh.other c hcm]
  · rw [hfat, Function.update_self]
    exact hfresh.path.congr fun c hc => Function.update_of_ne (ne_of_mem_of_not_mem hc hbm) _ _
  · have hb0 : im₁.fat f.cblk ≠ 0 := by rwa [hfresh.other _ hbm]
    have hs0 : s ≠ 0 := by have := hst.two_le; omega
    rw [freeCount_setNext hb0 hs0, ← hfresh.freeCount hm, hlen]

theorem expandFile_fills (hw : Works dev) (hg : g.Ok) (hfuel : 65536 < fuel) (h : Shows g v im)
    (hp : Path im.fat f.sblk l fatClusterInvalid) (hnd : l.Nodup) (hl : ∀ c ∈ l, InTable g c)
    (hlast : l.getLast? = some f.cblk ∨ l = []) {incr : Int} {cnt : Nat}
    (hcnt : expandCnt g f.size incr = some cnt) (hpos : 0 < cnt) (hfree : cnt ≤ freeCount g im) :
    ∃ v' f' im' m, expandFile dev g fuel v f incr = some (v', f', 0) ∧ Shows g v' im' ∧
      Expanded g im im' f f' l m cnt := by
  rcases List.eq_nil_or_concat' l with rfl | ⟨l', b, rfl⟩
  · have hsb : f.sblk = fatClusterInvalid := hp
    obtain ⟨v₁, s, im₁, m, hr, h₁, hfresh, hlen, hcount⟩ :=
      expandFile_first hw hg hfuel h (by rw [hsb]; decide) hcnt hpos hfree
    refine ⟨v₁, _, im₁, m, hr, h₁, ⟨⟨hfresh.dir, hfresh.free, hfresh.nodup, hfresh.other,
      fun c _ => by rw [hfresh.data]⟩, hfresh.data, hlen, hfresh.inTable h, hfresh.path, hcount,
      .inr ⟨rfl, ?_, rfl⟩⟩⟩
    rw [List.getElem?_eq_getElem (by omega), hfresh.path.getElem_zero (by omega)]
  · have hb : f.cblk = b := by
      rcases hlast with hlast | hlast
      · simpa using hlast.symm
      · simp at hlast
    subst hb
    have hbl : f.cblk ∈ l' ++ [f.cblk] := by simp
    have hsblk : InTable g f.sblk := hl _ (hp.start_mem (by simp))
    have hused := fat_ne_zero hp hl
    obtain ⟨v₁, im₁, m, hr, h₁, hlink, hm, hlen, hcount⟩ := expandFile_links hw hg hfuel h
      (by rw [clusterT_of_lt (Nat.lt_trans hsblk.lt (by decide))]; exact hsblk.valid)
      (hl _ hbl) (hused _ hbl) hcnt hpos hfree
    have hdisj : ∀ c ∈ l' ++ [f.cblk], c ∉ m := fun c hc hcm => hused c hc (hlink.free c hcm)
    have hsame : ∀ c ∈ l', im₁.fat c = im.fat c := fun c hc => by
      refine hlink.other c fun hcm => ?_
      rcases List.mem_cons.mp hcm with rfl | hcm
      · exact (List.nodup_append.mp hnd).2.2 _ hc _ (by simp) rfl
      · exact hdisj c (List.mem_append_left _ hc) hcm
    refine ⟨v₁, f, im₁, m, hr, h₁, ⟨⟨hlink.dir, hlink.free, ?_, fun c hc => ?_, fun c _ => ?_⟩,
      hlink.data, hlen, hm, ?_, hcount, .inl ⟨rfl, by simp⟩⟩⟩
    · rw [List.nodup_append]
      exact ⟨hnd, (List.nodup_cons.mp hlink.nodup).2, fun c hc d hd he => hdisj c hc (he ▸ hd)⟩
    · refine hlink.other c fun hcm => hc ?_
      simpa [or_assoc] using .inr (List.mem_cons.mp hcm)
    · rw [hlink.data]
    · rw [path_concat] at hp
      rw [List.append_assoc, path_append]
      exact ⟨f.cblk, hp.1.congr hsame, hlink.path⟩

end Expand

/-! ## Moving the position -/

section Move

variable {dev : Dev} {g : Fat} (fuel : Nat) {v : Volume} {im : Image} {f : File} {n : Nat}
  (expand : Bool)

/-- Inside the current cluster. -/
theorem moveFilePos_stay (hg : g.Ok) (hn : f.pos % g.clusterByteSize + n < g.clusterByteSize)
    (hlt : f.pos + n < 4294967296) :
    moveFilePos dev g fuel v f n expand = some (v, { f with pos := f.pos + n }, 0) := by
  have hq := hg.clusterByteSize_le
  unfold moveFilePos
  dsimp only
  rw [u32_add (by omega), if_neg (Nat.not_le_of_lt hn), u32_add hlt]

/-- On to the next cluster, which is there. -/
theorem moveFilePos_next (hw : Works dev) (hg : g.Ok) (h : Shows g v im)
    (hn : f.pos % g.clusterByteSize + n = g.clusterByteSize) (hlt : f.pos + n < 4294967296)
    (hc : f.cblk < 65536) (hnext : ¬(im.fat f.cblk = fatClusterInvalid ∧ expand = true)) :
    ∃ v', moveFilePos dev g fuel v f n expand =
        some (v', { f with cblk := im.fat f.cblk, pos := f.pos + n }, 0) ∧ Shows g v' im := by
  have hq := hg.clusterByteSize_le
  obtain ⟨v₁, hget, h₁⟩ := clusterGetNext_shows hw hg h f.cblk
  refine ⟨v₁, ?_, h₁⟩
  unfold moveFilePos
  dsimp only
  rw [u32_add (by omega), if_pos (Nat.le_of_eq hn.symm), u32_add hlt, clusterT_of_lt hc, hget]
  exact if_neg hnext

/-- On to a cluster that is allocated for it. -/
theorem moveFilePos_expand (hw : Works dev) (hg : g.Ok) (h : Shows g v im)
    (hn : f.pos % g.clusterByteSize + n = g.clusterByteSize) (hlt : f.pos + n < 4294967296)
    (hc : f.cblk < 65536) (hnext : im.fat f.cblk = fatClusterInvalid) :
    ∃ v₁, Shows g v₁ im ∧ ∀ v₂ im', Shows g v₂ im' →
      expandFile dev g fuel v₁ f g.clusterByteSize = some (v₂, f, 0) →
      ∃ v', moveFilePos dev g fuel v f n true =
        some (v', { f with cblk := im'.fat f.cblk, pos := f.pos + n }, 0) ∧ Shows g v' im' := by
  have hq := hg.clusterByteSize_le
  obtain ⟨v₁, hget, h₁⟩ := clusterGetNext_shows hw hg h f.cblk
  refine ⟨v₁, h₁, fun v₂ im' h₂ hr => ?_⟩
  obtain ⟨v₃, hget₃, h₃⟩ := clusterGetNext_shows hw hg h₂ f.cblk
  refine ⟨v₃, ?_, h₃⟩
  unfold moveFilePos
  dsimp only
  rw [u32_add (by omega), if_pos (Nat.le_of_eq hn.symm), u32_add hlt, clusterT_of_lt hc, hget]
  dsimp only
  rw [if_pos ⟨hnext, rfl⟩, hr, Option.map_some]
  dsimp only
  rw [if_neg (Int.lt_irrefl 0), clusterT_of_lt hc, hget₃]

end Move

/-! ## Writing -/

section Write

variable {dev : Dev} {g : Fat} {fuel : Nat} {v : Volume} {im : Image} {f : File} {l : List Nat}
  {content buf : Nat → UInt8} {total nbytes : Nat}

/-- Between two transfers of a write at the end of the file: the bytes of
`content` up to the position are in the chain `l`, and the current cluster
is the one of the position. -/
structure Writing (g : Fat) (im : Image) (f : File) (l : List Nat) (content : Nat → UInt8) :
    Prop where
  path : Path im.fat f.sblk l fatClusterInvalid
  cblk : l[f.pos / g.clusterByteSize]? = some f.cblk
  size : f.size = f.pos
  nodup : l.Nodup
  inTable : ∀ c ∈ l, InTable g c
  bytes : Spread g.clusterByteSize im.data l content f.pos

/-- The chain has the room for `nbytes` more bytes, and at most one cluster
more than they fill; that one can still be allocated. -/
structure Room (g : Fat) (im : Image) (pos nbytes : Nat) (l : List Nat) : Prop where
  fits : pos + nbytes ≤ l.length * g.clusterByteSize
  length : l.length ≤ (pos + nbytes) / g.clusterByteSize + 1
  free : (pos + nbytes) / g.clusterByteSize + 1 - l.length ≤ freeCount g im
  lt : pos + nbytes < 1073741824

/-- After a transfer of `n` bytes, before the position moves. -/
structure Stored (g : Fat) (im : Image) (f : File) (l : List Nat) (content : Nat → UInt8)
    (n : Nat) : Prop where
  path : Path im.fat f.sblk l fatClusterInvalid
  cblk : l[f.pos / g.clusterByteSize]? = some f.cblk
  size : f.size = f.pos + n
  nodup : l.Nodup
  inTable : ∀ c ∈ l, InTable g c
  bytes : Spread g.clusterByteSize im.data l content (f.pos + n)
  within : f.pos % g.clusterByteSize + n ≤ g.clusterByteSize

/-- The state after the move. -/
structure Moved (g : Fat) (im im' : Image) (f f' : File) (l m : List Nat)
    (content : Nat → UInt8) (n rest : Nat) : Prop where
  kept : Kept im im' l m
  writing : Writing g im' f' (l ++ m) content
  file : f' = { f with pos := f.pos + n, cblk := f'.cblk }
  room : Room g im' (f.pos + n) rest (l ++ m)

/-- The move into a cluster that is allocated for it: the chain was full. -/
theorem moveFilePos_grows (hw : Works dev) (hg : g.Ok) (hfuel : 65536 < fuel) (h : Shows g v im)
    {n rest : Nat} (hst : Stored g im f l content n)
    (hroom : Room g im (f.pos + n) rest l) (hpos : 0 < n)
    (hend : f.pos % g.clusterByteSize + n = g.clusterByteSize)
    (hcell : l[f.pos / g.clusterByteSize + 1]? = none) :
    ∃ v' f' im' m, moveFilePos dev g fuel v f n true = some (v', f', 0) ∧ Shows g v' im' ∧
      Moved g im im' f f' l m content n rest := by
  have hq := hg.clusterByteSize_pos
  have hcq := hg.clusterByteSize_le
  have hlt := hroom.lt
  have hdiv := add_div_of_eq hq hend
  have hct := hst.inTable _ (List.mem_of_getElem? hst.cblk)
  have hnext := hst.path.next_eq hst.cblk
  rw [hcell, Option.getD_none] at hnext
  have hlen : l.length = f.pos / g.clusterByteSize + 1 := by
    obtain ⟨hin, -⟩ := List.getElem?_eq_some_iff.mp hst.cblk
    have hout := List.getElem?_eq_none_iff.mp hcell
    omega
  have hfull : (f.pos / g.clusterByteSize + 1) * g.clusterByteSize = f.pos + n := by
    have hsplit := Nat.div_add_mod' f.pos g.clusterByteSize
    rw [Nat.add_mul, Nat.one_mul]
    omega
  have hrest : rest = 0 := by
    have hfits := hroom.fits
    rw [hlen, hfull] at hfits
    omega
  have hone : expandCnt g f.size g.clusterByteSize = some 1 := by
    rw [hst.size]
    exact expandCnt_full hg (by omega) (by rw [← hfull, Nat.mul_mod_left])
  have hfree : 1 ≤ freeCount g im := by
    have hfr := hroom.free
    rw [hrest, Nat.add_zero (f.pos + n), hdiv, hlen] at hfr
    omega
  have hlast : l.getLast? = some f.cblk ∨ l = [] := by
    rw [List.getLast?_eq_getElem?, hlen, Nat.add_sub_cancel]
    exact .inl hst.cblk
  obtain ⟨v₁, h₁, hmove⟩ := moveFilePos_expand fuel hw hg h hend (by omega)
    (Nat.lt_trans hct.lt (by decide)) hnext
  obtain ⟨v₂, f₂, im₂, m, hexp, h₂, hex⟩ := expandFile_fills hw hg hfuel h₁ hst.path
    hst.nodup hst.inTable hlast hone Nat.one_pos hfree
  obtain ⟨rfl, hl⟩ : f₂ = f ∧ l ≠ [] := by
    rcases hex.file with hsame | ⟨hnil, -⟩
    · exact hsame
    · simp [hnil] at hlen
  obtain ⟨v', hmv, h'⟩ := hmove v₂ im₂ h₂ hexp
  obtain ⟨c, rfl⟩ := List.length_eq_one_iff.mp hex.length
  have hin : f₂.pos / g.clusterByteSize < l.length := by omega
  have hcell₂ : (l ++ [c])[f₂.pos / g.clusterByteSize + 1]? = some c := by
    rw [← hlen]
    simp
  have hnext₂ : im₂.fat f₂.cblk = c := by
    rw [hex.path.next_eq (by rw [List.getElem?_append_left hin, hst.cblk]), hcell₂,
      Option.getD_some]
  refine ⟨v', _, im₂, [c], hmv, h', hex.kept, ?_, rfl, ?_⟩
  · refine ⟨hex.path, ?_, hst.size, hex.kept.nodup, fun d hd => ?_, ?_⟩
    · dsimp only
      rw [hdiv, hcell₂, hnext₂]
    · rcases List.mem_append.mp hd with hd | hd
      · exact hst.inTable d hd
      · exact hex.inTable d hd
    · rw [hex.data]
      exact hst.bytes.append [c]
  · refine ⟨?_, ?_, ?_, hlt⟩
    · exact Nat.le_trans hroom.fits (Nat.mul_le_mul_right _ (by simp))
    · rw [hrest, Nat.add_zero (f₂.pos + n), hdiv, List.length_append, hlen, List.length_singleton]
    · rw [hrest, Nat.add_zero (f₂.pos + n), hdiv, List.length_append, hlen, List.length_singleton]
      omega

/-- The move behind a transfer. -/
theorem moveFilePos_fills (hw : Works dev) (hg : g.Ok) (hfuel : 65536 < fuel) (h : Shows g v im)
    {n rest : Nat} (hst : Stored g im f l content n)
    (hroom : Room g im (f.pos + n) rest l) (hpos : 0 < n) :
    ∃ v' f' im' m, moveFilePos dev g fuel v f n true = some (v', f', 0) ∧ Shows g v' im' ∧
      Moved g im im' f f' l m content n rest := by
  have hlt := hroom.lt
  have hkept := Kept.refl hst.nodup im
  rcases Nat.lt_or_eq_of_le hst.within with hstay | hend
  · refine ⟨v, _, im, [], moveFilePos_stay fuel true hg hstay (by omega), h, hkept, ?_, rfl,
      by simpa using hroom⟩
    rw [List.append_nil]
    refine ⟨hst.path, ?_, hst.size, hst.nodup, hst.inTable, hst.bytes⟩
    dsimp only
    rw [add_div_of_lt hstay, hst.cblk]
  · cases hcell : l[f.pos / g.clusterByteSize + 1]? with
    | none => exact moveFilePos_grows hw hg hfuel h hst hroom hpos hend hcell
    | some c =>
      have hnext := hst.path.next_eq hst.cblk
      rw [hcell, Option.getD_some] at hnext
      have hcv := (hst.inTable c (List.mem_of_getElem? hcell)).lt
      have hct := hst.inTable _ (List.mem_of_getElem? hst.cblk)
      have hne : ¬(im.fat f.cblk = fatClusterInvalid ∧ true = true) := fun ⟨hi, _⟩ => by
        rw [hnext] at hi
        rw [hi] at hcv
        exact absurd hcv (by decide)
      obtain ⟨v', hmv, h'⟩ := moveFilePos_next fuel true hw hg h hend (by omega)
        (Nat.lt_trans hct.lt (by decide)) hne
      refine ⟨v', _, im, [], hmv, h', hkept, ?_, rfl, by simpa using hroom⟩
      rw [List.append_nil]
      refine ⟨hst.path, ?_, hst.size, hst.nodup, hst.inTable, hst.bytes⟩
      dsimp only
      rw [add_div_of_eq hg.clusterByteSize_pos hend, hcell, hnext]

/-- One transfer stores its part of the request. -/
theorem writeCluster_fills (hw : Works dev) (hg : g.Ok) (h : Shows g v im)
    (hwr : Writing g im f l content) (hbuf : ∀ i < nbytes, content (f.pos + i) = buf (total + i))
    (hroom : Room g im f.pos nbytes l) (hpos : 0 < nbytes) :
    ∃ v' e im' n, writeCluster dev g v f buf total nbytes = (v', e, n) ∧ 0 ≤ e ∧ 0 < n ∧
      n ≤ nbytes ∧ Shows g v' im' ∧ Kept im im' l [] ∧
      Stored g im' { f with size := u32 (f.size + n) } l content n ∧
      Room g im' (f.pos + n) (nbytes - n) l := by
  have hr := Nat.mod_lt f.pos hg.clusterByteSize_pos
  have hlt := hroom.lt
  have hmem : f.cblk ∈ l := List.mem_of_getElem? hwr.cblk
  have hct := hwr.inTable _ hmem
  obtain ⟨v₁, e, hwc, he, h₁⟩ := writeCluster_shows hw hg h hct.two_le
    (Nat.lt_trans hct.lt (by decide)) (by omega : nbytes < 2147483648) total buf
  generalize hn : min nbytes (g.clusterByteSize - f.pos % g.clusterByteSize) = n at hwc h₁
  have hnq : f.pos % g.clusterByteSize + n ≤ g.clusterByteSize := by omega
  have hsum : f.pos + n + (nbytes - n) = f.pos + nbytes := by omega
  refine ⟨v₁, e, _, n, hwc, he, by omega, by omega, h₁, ?_, ?_, ?_⟩
  · refine ⟨rfl, by simp, by simpa using hwr.nodup, fun _ _ => rfl, fun c hc => ?_⟩
    exact Function.update_of_ne (fun hcc => hc (by simp [hcc, hmem])) _ _
  · refine ⟨hwr.path, hwr.cblk, ?_, hwr.nodup, hwr.inTable,
      hwr.bytes.write hwr.nodup hwr.cblk hnq fun i hi => hbuf i (by omega), hnq⟩
    rw [hwr.size]
    exact u32_add (by omega)
  · exact ⟨hsum ▸ hroom.fits, hsum ▸ hroom.length, hsum ▸ hroom.free, hsum ▸ hroom.lt⟩

theorem fatfsWriteLoop_fills (hw : Works dev) (hg : g.Ok) (hfuel : 65536 < fuel)
    (buf : Nat → UInt8) (n : Nat) :
    ∀ {v : Volume} {im : Image} {f : File} {l : List Nat} {nbytes : Nat} (total : Nat),
      Shows g v im → Writing g im f l content →
      (∀ i < nbytes, content (f.pos + i) = buf (total + i)) → Room g im f.pos nbytes l →
      nbytes ≤ n →
      ∃ v' f' im' m, fatfsWriteLoop dev g fuel buf n v f total nbytes =
          some (v', f', total + nbytes) ∧
        Shows g v' im' ∧ Kept im im' l m ∧ Writing g im' f' (l ++ m) content ∧
        Room g im' (f.pos + nbytes) 0 (l ++ m) ∧
        f' = { f with size := f.pos + nbytes, pos := f.pos + nbytes, cblk := f'.cblk } := by
  have hdone : ∀ {v : Volume} {im : Image} {f : File} {l : List Nat} {total : Nat},
      Shows g v im → Writing g im f l content → Room g im f.pos 0 l →
      ∃ v' f' im' m, some (v, f, total) = some (v', f', total + 0) ∧
        Shows g v' im' ∧ Kept im im' l m ∧ Writing g im' f' (l ++ m) content ∧
        Room g im' (f.pos + 0) 0 (l ++ m) ∧
        f' = { f with size := f.pos + 0, pos := f.pos + 0, cblk := f'.cblk } :=
    fun {v im f l total} h hwr hroom =>
      ⟨v, f, im, [], rfl, h, Kept.refl hwr.nodup im, by simpa using hwr, by simpa using hroom, by
        rw [Nat.add_zero, show f.pos = f.size from hwr.size.symm]
        exact congrArg (fun p => { f with pos := p }) hwr.size.symm⟩
  induction n with
  | zero =>
    intro v im f l nbytes total h hwr _ hroom hle
    obtain rfl : nbytes = 0 := Nat.le_zero.mp hle
    rw [fatfsWriteLoop, if_neg (Nat.lt_irrefl 0)]
    exact hdone h hwr hroom
  | succ n ih =>
    intro v im f l nbytes total h hwr hbuf hroom hle
    rw [fatfsWriteLoop]
    rcases Nat.eq_zero_or_pos nbytes with rfl | hpos
    · rw [if_neg (Nat.lt_irrefl 0)]
      exact hdone h hwr hroom
    · obtain ⟨v₁, e, im₁, w, hwc, he, hw0, hwle, h₁, hkept₁, hst, hroom₁⟩ :=
        writeCluster_fills hw hg h hwr hbuf hroom hpos
      obtain ⟨v₂, f₂, im₂, m₂, hmv, h₂, hmoved⟩ :=
        moveFilePos_fills hw hg hfuel h₁ hst hroom₁ hw0
      have hp₂ : f₂.pos = f.pos + w := by rw [hmoved.file]
      have hroom₂ : Room g im₂ f₂.pos (nbytes - w) (l ++ m₂) := by
        rw [hp₂]
        exact hmoved.room
      obtain ⟨v', f', im', m', hloop, h', hkept', hwr', hroom', hf'⟩ :=
        ih (total + w) h₂ hmoved.writing
          (fun i hi => by rw [hp₂, Nat.add_assoc, hbuf (w + i) (by omega), Nat.add_assoc])
          hroom₂ (by omega)
      have hsum : f₂.pos + (nbytes - w) = f.pos + nbytes := by omega
      have htot : total + w + (nbytes - w) = total + nbytes := by omega
      rw [if_pos hpos, hwc]
      dsimp only
      rw [if_neg (Int.not_lt.mpr he), hmv, Option.bind_some]
      dsimp only
      rw [if_neg (Int.lt_irrefl 0), hloop, htot]
      rw [List.append_assoc] at hwr' hroom'
      rw [hsum] at hroom' hf'
      refine ⟨v', f', im', m₂ ++ m', rfl, h', ?_, hwr', hroom', ?_⟩
      · have hk : Kept im im₂ l m₂ := by
          have hmoved' : Kept im₁ im₂ (l ++ []) m₂ := by simpa using hmoved.kept
          simpa using hkept₁.trans hmoved'
        exact hk.trans hkept'
      · rw [hf', hmoved.file]

/-- The chain `l` from `sblk` holds the bytes of a file. -/
structure FileData (g : Fat) (im : Image) (sblk : Nat) (l : List Nat) (bytes : List UInt8) :
    Prop where
  path : Path im.fat sblk l fatClusterInvalid
  count : l.length = clusterCnt g bytes.length
  nodup : l.Nodup
  inTable : ∀ c ∈ l, InTable g c
  spread : Spread g.clusterByteSize im.data l (bufOf bytes) bytes.length

/-- A file that stands at its end. -/
structure AtEnd (g : Fat) (im : Image) (f : File) (l : List Nat) (bytes : List UInt8) :
    Prop where
  data : FileData g im f.sblk l bytes
  size : f.size = bytes.length
  pos : f.pos = bytes.length
  cblk : l.getLast? = some f.cblk ∨ l = []

/-- Changes that leave the clusters of the file alone. -/
theorem FileData.frame {im' : Image} {sblk : Nat} {bytes : List UInt8}
    (h : FileData g im sblk l bytes) (hfat : ∀ c ∈ l, im'.fat c = im.fat c)
    (hdata : ∀ c ∈ l, im'.data c = im.data c) : FileData g im' sblk l bytes :=
  ⟨h.path.congr hfat, h.count, h.nodup, h.inTable, h.spread.frame hdata⟩

theorem FileData.empty (g : Fat) (im : Image) : FileData g im fatClusterInvalid [] [] :=
  ⟨rfl, rfl, List.nodup_nil, by simp, Spread.zero _ _ _ _⟩

theorem clusterCnt_eq_zero {n : Nat} : clusterCnt g n = 0 ↔ n = 0 := by
  unfold clusterCnt
  split
  next hn => simp [hn]
  next hn => simp [hn]

/-- Only a file without bytes has no clusters. -/
theorem FileData.nil_iff {sblk : Nat} {bytes : List UInt8} (h : FileData g im sblk l bytes) :
    l = [] ↔ bytes = [] := by
  rw [← List.length_eq_zero_iff, h.count, clusterCnt_eq_zero, List.length_eq_zero_iff]

/-- A table has at most `c_total` clusters. -/
theorem length_le_cTotal (hnd : l.Nodup) (hl : ∀ c ∈ l, InTable g c) : l.length ≤ g.cTotal := by
  rw [← List.toFinset_card_of_nodup hnd, ← Finset.card_range g.cTotal]
  refine Finset.card_le_card fun c hc => ?_
  exact Finset.mem_range.mpr (hl c (List.mem_toFinset.mp hc)).2

/-- Files are small: they lie in the clusters of the table. -/
theorem size_lt_of_free (im : Image) (hg : g.Ok) (ht : g.cTotal < 65528) {n size : Nat}
    (hl : clusterCnt g size ≤ g.cTotal)
    (hfree : clusterCnt g n - clusterCnt g size ≤ freeCount g im) : n < 1073741824 := by
  have hcount : freeCount g im ≤ g.cTotal := Nat.count_le _
  rcases Nat.eq_zero_or_pos n with rfl | hn
  · decide
  · have hlt := lt_clusterCnt_mul hg hn
    have hle : clusterCnt g n * g.clusterByteSize ≤ 131056 * 4096 :=
      Nat.mul_le_mul (by omega) hg.clusterByteSize_le
    omega

/-- A byte of the old contents and a byte of the new ones. -/
theorem bufOf_append_left {a b : List UInt8} {i : Nat} (h : i < a.length) :
    bufOf (a ++ b) i = bufOf a i := by
  simp [bufOf, List.getElem?_append_left h]

theorem bufOf_append_right {a b : List UInt8} (i : Nat) :
    bufOf (a ++ b) (a.length + i) = bufOf b i := by
  simp [bufOf, List.getElem?_append_right]

/-- The clusters are there before the first transfer. -/
theorem expandFile_room (hw : Works dev) (hg : g.Ok) (ht : g.cTotal < 65528)
    (hfuel : 65536 < fuel) (h : Shows g v im) {bytes new : List UInt8}
    (hf : AtEnd g im f l bytes) (hne : new ≠ [])
    (hfree : clusterCnt g (bytes.length + new.length) - clusterCnt g bytes.length ≤
      freeCount g im) :
    ∃ v' f' im' m, expandFile dev g fuel v f new.length = some (v', f', 0) ∧ Shows g v' im' ∧
      Kept im im' l m ∧ Writing g im' f' (l ++ m) (bufOf (bytes ++ new)) ∧
      Room g im' bytes.length new.length (l ++ m) ∧
      f' = { f with cblk := f'.cblk, sblk := f'.sblk } := by
  have hnew : 0 < new.length := List.length_pos_of_ne_nil hne
  have hq := hg.clusterByteSize_pos
  have hlt := size_lt_of_free im hg ht
    (hf.data.count ▸ length_le_cTotal hf.data.nodup hf.data.inTable) hfree
  have hspread : Spread g.clusterByteSize im.data l (bufOf (bytes ++ new)) bytes.length :=
    hf.data.spread.congr fun k hk => bufOf_append_left hk
  have hcnt' := clusterCnt_of_pos (g := g) (show 0 < bytes.length + new.length by omega)
  rw [hcnt'] at hfree
  rcases expandCnt_spec hg bytes.length hnew (by omega) with
    ⟨hnone, hpos, hfits⟩ | ⟨cnt, hcnt, hc0, hfits, hle⟩
  · -- the current cluster has the room
    have hlen := hf.data.count.trans (clusterCnt_of_pos hpos)
    have hcell : l[f.pos / g.clusterByteSize]? = some f.cblk := by
      rcases hf.cblk with hlast | hnil
      · rwa [List.getLast?_eq_getElem?, hlen, Nat.add_sub_cancel, ← hf.pos] at hlast
      · simp [hnil] at hlen
    refine ⟨v, f, im, [], ?_, h, Kept.refl hf.data.nodup im, ?_, ?_, rfl⟩
    · unfold expandFile
      rw [hf.size, hnone]
    · rw [List.append_nil]
      exact ⟨hf.data.path, hcell, hf.size.trans hf.pos.symm, hf.data.nodup, hf.data.inTable,
        hf.pos ▸ hspread⟩
    · rw [List.append_nil]
      have hmono := Nat.div_le_div_right (c := g.clusterByteSize)
        (Nat.le_add_right bytes.length new.length)
      exact ⟨by rw [hf.data.count]; omega, by omega, by rw [hf.data.count]; exact hfree, by omega⟩
  · rw [← hf.size] at hcnt
    have hcount := hf.data.count
    obtain ⟨v', f', im', m, hr, h', hex⟩ := expandFile_fills hw hg hfuel h hf.data.path
      hf.data.nodup hf.data.inTable hf.cblk hcnt hc0 (by omega)
    have hlen : (l ++ m).length = clusterCnt g bytes.length + cnt := by
      rw [List.length_append, hcount, hex.length]
    have hpf : f'.pos = bytes.length ∧ f'.size = bytes.length ∧
        f' = { f with cblk := f'.cblk, sblk := f'.sblk } := by
      rcases hex.file with ⟨rfl, -⟩ | ⟨-, -, he⟩
      · exact ⟨hf.pos, hf.size, rfl⟩
      · rw [he]
        exact ⟨hf.pos, hf.size, rfl⟩
    have hcell : (l ++ m)[f'.pos / g.clusterByteSize]? = some f'.cblk := by
      rw [hpf.1]
      rcases hex.file with ⟨rfl, hl⟩ | ⟨rfl, hm, -⟩
      · have hpos : 0 < bytes.length :=
          List.length_pos_of_ne_nil fun hb => hl (hf.data.nil_iff.mpr hb)
        have hll := hcount.trans (clusterCnt_of_pos hpos)
        have hlast := hf.cblk.resolve_right hl
        rw [List.getLast?_eq_getElem?, hll, Nat.add_sub_cancel] at hlast
        rw [List.getElem?_append_left (by omega), hlast]
      · rw [hf.data.nil_iff.mp rfl, List.length_nil, Nat.zero_div, List.nil_append, hm]
    refine ⟨v', f', im', m, hr, h', hex.kept, ?_, ?_, hpf.2.2⟩
    · refine ⟨hex.path, hcell, hpf.2.1.trans hpf.1.symm, hex.kept.nodup, fun c hc => ?_, ?_⟩
      · rcases List.mem_append.mp hc with hc | hc
        · exact hf.data.inTable c hc
        · exact hex.inTable c hc
      · rw [hpf.1, hex.data]
        exact hspread.append m
    · have hfr := hex.free
      exact ⟨hlen ▸ hfits, hlen ▸ hle, by rw [hlen]; omega, by omega⟩

/-- `fatfs_write` at the end of a file appends the bytes. -/
theorem fatfsWrite_fills (hw : Works dev) (hg : g.Ok) (ht : g.cTotal < 65528)
    (hfuel : 65536 < fuel) (h : Shows g v im) {bytes new : List UInt8}
    (hf : AtEnd g im f l bytes) (hne : new ≠ [])
    (hfree : clusterCnt g (bytes.length + new.length) - clusterCnt g bytes.length ≤
      freeCount g im) :
    ∃ v' f' im' m, fatfsWrite dev g fuel v (bufOf new) new.length f =
        some (v', f', new.length) ∧ Shows g v' im' ∧ Kept im im' l m ∧
      AtEnd g im' f' (l ++ m) (bytes ++ new) ∧ f'.pIndex = f.pIndex ∧ f'.mode = f.mode := by
  have hnew : 0 < new.length := List.length_pos_of_ne_nil hne
  obtain ⟨v₁, f₁, im₁, m₁, hexp, h₁, hkept₁, hwr, hroom, hf₁⟩ :=
    expandFile_room hw hg ht hfuel h hf hne hfree
  have hlt := hroom.lt
  have hp₁ : f₁.pos = bytes.length := by rw [hf₁]; exact hf.pos
  obtain ⟨v', f', im', m', hloop, h', hkept', hwr', hroom', hf'⟩ :=
    fatfsWriteLoop_fills hw hg hfuel (bufOf new) new.length 0 h₁ hwr
      (fun i _ => by rw [hp₁, bufOf_append_right, Nat.zero_add]) (hp₁ ▸ hroom) (Nat.le_refl _)
  have hincr : cInt ((f.pos : Int) + (new.length : Nat) - f.size) = new.length := by
    rw [hf.pos, hf.size, cInt_eq (by omega) (by unfold intMax; omega)]
    omega
  have hgrow : u32 ((f.pos : Int) + (new.length : Nat)) > f.size := by
    rw [u32_add (by rw [hf.pos]; omega), hf.pos, hf.size]
    omega
  have hassoc : l ++ (m₁ ++ m') = (l ++ m₁) ++ m' := (List.append_assoc ..).symm
  refine ⟨v', f', im', m₁ ++ m', ?_, h', hkept₁.trans hkept', ?_, by rw [hf', hf₁],
    by rw [hf', hf₁]⟩
  · unfold fatfsWrite
    rw [if_pos hgrow, hincr, hexp, Option.bind_some]
    dsimp only
    rw [if_neg (Int.lt_irrefl 0), hloop, Nat.zero_add]
  · have hlen : f'.pos = (bytes ++ new).length := by
      rw [List.length_append, ← hp₁, hf']
    rw [hassoc]
    have hfits := hroom'.fits
    have hle := hroom'.length
    rw [hp₁, Nat.add_zero (bytes.length + new.length)] at hfits hle
    have hcell := hwr'.cblk
    obtain ⟨hin, -⟩ := List.getElem?_eq_some_iff.mp hcell
    rw [hlen] at hcell hin
    rw [← List.length_append] at hle
    have hcount : ((l ++ m₁) ++ m').length =
        (bytes ++ new).length / g.clusterByteSize + 1 := by omega
    refine ⟨⟨hwr'.path, ?_, hwr'.nodup, hwr'.inTable, hlen ▸ hwr'.bytes⟩,
      hwr'.size.trans hlen, hlen, .inl ?_⟩
    · rw [hcount, clusterCnt_of_pos (by rw [List.length_append]; omega)]
    · rw [List.getLast?_eq_getElem?, hcount, Nat.add_sub_cancel, hcell]

end Write

/-! ## Reading -/

section Read

variable {dev : Dev} {g : Fat} {fuel : Nat} {v : Volume} {im : Image} {f : File} {l : List Nat}
  {bytes : List UInt8}

/-- A file that is read: it stands within its bytes, in the cluster of its
position. -/
structure Reading (g : Fat) (im : Image) (f : File) (l : List Nat) (bytes : List UInt8) :
    Prop where
  data : FileData g im f.sblk l bytes
  size : f.size = bytes.length
  pos_le : f.pos ≤ bytes.length
  cblk : bytes ≠ [] → l[f.pos / g.clusterByteSize]? = some f.cblk

theorem FileData.length_lt (hg : g.Ok) (ht : g.cTotal < 65528) {sblk : Nat}
    (h : FileData g im sblk l bytes) : bytes.length < 1073741824 :=
  size_lt_of_free im hg ht (h.count ▸ length_le_cTotal h.nodup h.inTable)
    (by rw [Nat.sub_self]; exact Nat.zero_le _)

/-- The cluster of a position within the file is there. -/
theorem FileData.getElem?_isSome {sblk pos : Nat} (h : FileData g im sblk l bytes)
    (hne : bytes ≠ []) (hp : pos ≤ bytes.length) : ∃ c, l[pos / g.clusterByteSize]? = some c := by
  have hlen := h.count.trans (clusterCnt_of_pos (List.length_pos_of_ne_nil hne))
  have hmono := Nat.div_le_div_right (c := g.clusterByteSize) hp
  exact ⟨_, List.getElem?_eq_getElem (by omega)⟩

/-- The move behind a transfer that was read. -/
theorem moveFilePos_reads (hw : Works dev) (hg : g.Ok) (ht : g.cTotal < 65528) (fuel : Nat)
    (h : Shows g v im) (hr : Reading g im f l bytes) {n : Nat} (hpos : 0 < n)
    (hn : f.pos + n ≤ bytes.length) (hq : f.pos % g.clusterByteSize + n ≤ g.clusterByteSize) :
    ∃ v' f', moveFilePos dev g fuel v f n false = some (v', f', 0) ∧ Shows g v' im ∧
      Reading g im f' l bytes ∧ f'.pos = f.pos + n := by
  have hlt := hr.data.length_lt hg ht
  have hne : bytes ≠ [] := List.ne_nil_of_length_pos (by omega)
  have hcell := hr.cblk hne
  rcases Nat.lt_or_eq_of_le hq with hstay | hend
  · refine ⟨v, _, moveFilePos_stay fuel false hg hstay (by omega), h,
      ⟨hr.data, hr.size, hn, fun _ => ?_⟩, rfl⟩
    dsimp only
    rw [add_div_of_lt hstay, hcell]
  · have hct := hr.data.inTable _ (List.mem_of_getElem? hcell)
    obtain ⟨v', hmv, h'⟩ := moveFilePos_next fuel false hw hg h hend
      (by omega) (Nat.lt_trans hct.lt (by decide)) (by simp)
    refine ⟨v', _, hmv, h', ⟨hr.data, hr.size, hn, fun _ => ?_⟩, rfl⟩
    obtain ⟨c, hc⟩ := hr.data.getElem?_isSome hne hn
    have hdiv := add_div_of_eq hg.clusterByteSize_pos hend
    rw [hdiv] at hc
    have hnext := hr.data.path.next_eq hcell
    rw [hc, Option.getD_some] at hnext
    dsimp only
    rw [hdiv, hc, hnext]

theorem fatfsReadLoop_reads (hw : Works dev) (hg : g.Ok) (ht : g.cTotal < 65528) (fuel n : Nat) :
    ∀ {v : Volume} {f : File} (buf : Nat → UInt8) (total nbytes : Nat), Shows g v im →
      Reading g im f l bytes → f.pos + nbytes ≤ bytes.length → nbytes ≤ n →
      ∃ v' f' buf', fatfsReadLoop dev g fuel n v f buf total nbytes =
          some (v', f', buf', total + nbytes) ∧ Shows g v' im ∧ Reading g im f' l bytes ∧
        f'.pos = f.pos + nbytes ∧ (∀ a < total, buf' a = buf a) ∧
        ∀ i < nbytes, buf' (total + i) = bufOf bytes (f.pos + i) := by
  induction n with
  | zero =>
    intro v f buf total nbytes h hr _ hle
    obtain rfl : nbytes = 0 := Nat.le_zero.mp hle
    rw [fatfsReadLoop, if_neg (Nat.lt_irrefl 0)]
    exact ⟨v, f, buf, rfl, h, hr, rfl, fun _ _ => rfl, fun i hi => absurd hi (Nat.not_lt_zero i)⟩
  | succ n ih =>
    intro v f buf total nbytes h hr hfit hle
    rw [fatfsReadLoop]
    rcases Nat.eq_zero_or_pos nbytes with rfl | hpos
    · rw [if_neg (Nat.lt_irrefl 0)]
      exact ⟨v, f, buf, rfl, h, hr, rfl, fun _ _ => rfl, fun i hi => absurd hi (Nat.not_lt_zero i)⟩
    · have hlt := hr.data.length_lt hg ht
      have hmod := Nat.mod_lt f.pos hg.clusterByteSize_pos
      have hcell := hr.cblk (List.ne_nil_of_length_pos (by omega))
      have hct := hr.data.inTable _ (List.mem_of_getElem? hcell)
      obtain ⟨v₁, buf₁, e, hrc, he, h₁, hold, hnew⟩ := readCluster_shows hw hg h hct.two_le
        (Nat.lt_trans hct.lt (by decide)) (by omega : nbytes < 2147483648) total buf
      generalize hw' : min nbytes (g.clusterByteSize - f.pos % g.clusterByteSize) = w at hrc hnew
      obtain ⟨v₂, f₂, hmv, h₂, hr₂, hp₂⟩ := moveFilePos_reads hw hg ht fuel h₁ hr (n := w)
        (by omega) (by omega) (by omega)
      obtain ⟨v', f', buf', hloop, h', hr', hp', hold', hnew'⟩ :=
        ih buf₁ (total + w) (nbytes - w) h₂ hr₂ (by omega) (by omega)
      have htot : total + w + (nbytes - w) = total + nbytes := by omega
      rw [if_pos hpos, hrc]
      dsimp only
      rw [if_neg (Int.not_lt.mpr he), hmv, Option.bind_some]
      dsimp only
      rw [if_neg (Int.lt_irrefl 0), hloop, htot]
      refine ⟨v', f', buf', rfl, h', hr', by omega, fun a ha => ?_, fun i hi => ?_⟩
      · rw [hold' a (by omega), hold a ha]
      · rcases Nat.lt_or_ge i w with hiw | hiw
        · rw [hold' _ (by omega), hnew i hiw]
          exact hr.data.spread.read hcell (by omega) (by omega) i hiw
        · obtain ⟨j, rfl⟩ := Nat.exists_eq_add_of_le hiw
          rw [← Nat.add_assoc, hnew' j (by omega), hp₂, Nat.add_assoc]

/-- The bytes of the file from `pos` on, as many as were read. -/
theorem range_map_bufOf (pos n : Nat) (hn : pos + n ≤ bytes.length) {buf : Nat → UInt8}
    (hb : ∀ i < n, buf i = bufOf bytes (pos + i)) :
    (List.range n).map buf = (bytes.drop pos).take n := by
  refine List.ext_getElem (by simp; omega) fun i h₁ h₂ => ?_
  have hi : i < n := by simpa using h₁
  rw [List.getElem_map, List.getElem_range, hb i hi, List.getElem_take, List.getElem_drop, bufOf,
    List.getD_eq_getElem?_getD, List.getElem?_eq_getElem (by omega), Option.getD_some]

/-- `fatfs_read` reads on from the position, up to the end of the file. -/
theorem fatfsRead_reads (hw : Works dev) (hg : g.Ok) (ht : g.cTotal < 65528) (fuel : Nat)
    (h : Shows g v im) (hr : Reading g im f l bytes) (buf : Nat → UInt8) {n : Nat}
    (hn : n < 2147483648) :
    ∃ v' f' buf', fatfsRead dev g fuel v buf n f =
        some (v', f', buf', min n (bytes.length - f.pos)) ∧ Shows g v' im ∧
      Reading g im f' l bytes ∧ f'.pos = f.pos + min n (bytes.length - f.pos) ∧
      (List.range (min n (bytes.length - f.pos))).map buf' = (bytes.drop f.pos).take n := by
  have hlt := hr.data.length_lt hg ht
  have hp := hr.pos_le
  have hnb :
      (if u32 ((f.pos : Int) + (n : Nat)) > f.size then u32 ((f.size : Int) - f.pos) else n) =
      min n (bytes.length - f.pos) := by
    rw [u32_add (by omega), hr.size, u32_sub hp (by omega)]
    split <;> omega
  obtain ⟨v', f', buf', hloop, h', hr', hp', -, hnew⟩ :=
    fatfsReadLoop_reads hw hg ht fuel (min n (bytes.length - f.pos)) buf 0
      (min n (bytes.length - f.pos)) h hr (by omega) (Nat.le_refl _)
  refine ⟨v', f', buf', ?_, h', hr', hp', ?_⟩
  · unfold fatfsRead
    dsimp only
    rw [hnb, hloop, Nat.zero_add]
  · have hall : ∀ i < min n (bytes.length - f.pos), buf' i = bufOf bytes (f.pos + i) :=
      fun i hi => by rw [← hnew i hi, Nat.zero_add]
    rw [range_map_bufOf f.pos _ (by omega) hall, ← List.length_drop, ← List.take_eq_take_min]

end Read

end Wjos
