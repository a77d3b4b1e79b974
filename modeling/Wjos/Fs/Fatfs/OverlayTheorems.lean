/-
Wjos.Fs.Fatfs.OverlayTheorems — when `fatfs_write` keeps its promises.

`Overlays` and `StaysConsistent` are what a write of `n` bytes should do to the
bytes of a file and to its fields and the table. `fatfs_write` adds every byte it
stores to the size, so both need the write to start at the end of the file.
`CanAppend` says that it does and that the clusters it asks for are free and can
be linked; `write_overlays_iff` and `write_consistent_iff` say that this is
when the promises are kept, the second one also when nothing is allocated.

`Ready` is the state after the first request for space, whatever it came to:
the clusters that hold the new bytes are a part of the chain. The loop turns it
into `Extended`, from which both promises are read off.
-/
import Wjos.Fs.Fatfs.Overlay
import Wjos.Fs.Fatfs.SeekRead
import Wjos.Fs.Fatfs.Transfers

namespace Wjos

open Lib

/-! ## Files and their chains -/

/-- The file has the chain `l` of different clusters, which hold its size. Its
end is marked by a value from `0xFFF8` on; a file without clusters has any
invalid first cluster. -/
structure ChainFile (g : Fat) (im : Image) (f : File) (l : List Nat) (e : Nat) : Prop where
  path : Path im.fat f.sblk l e
  invalid : clusterIsValid e = false
  ends : l ≠ [] → 0xFFF8 ≤ e
  lt : e < 65536
  nodup : l.Nodup
  inTable : ∀ c ∈ l, InTable g c
  size : f.size ≤ l.length * g.clusterByteSize

/-- The current cluster: one of the chain, or past its end. -/
def OnFile (f : File) (l : List Nat) : Prop :=
  f.cblk ∈ l ∨ 0xFFF8 ≤ f.cblk ∧ f.cblk < 65536 ∨ l = []

section Chains

variable {g : Fat} {v : Volume} {im : Image} {f : File} {l : List Nat} {e : Nat}

/-- Clusters are numbers below the end marks. -/
theorem length_lt_of_inTable (hnd : l.Nodup) (hl : ∀ c ∈ l, InTable g c) : l.length < 65530 := by
  have hcard : l.toFinset.card ≤ (Finset.range 65528).card :=
    Finset.card_le_card fun c hc => Finset.mem_range.mpr (hl c (List.mem_toFinset.mp hc)).lt
  rw [List.toFinset_card_of_nodup hnd, Finset.card_range] at hcard
  omega

theorem freeCount_lt (h : Shows g v im) : freeCount g im < 65530 := by
  have hcard : ((Finset.range g.cTotal).filter fun c => im.fat c = 0).card ≤
      (Finset.range 65528).card :=
    Finset.card_le_card fun c hc => Finset.mem_range.mpr
      (inTable_of_fat_zero h (Finset.mem_filter.mp hc).2).lt
  rw [Finset.card_range] at hcard
  unfold freeCount
  rw [Nat.count_eq_card_filter_range]
  omega

theorem freeCount_pos {c : Nat} (hc : c < g.cTotal) (hz : im.fat c = 0) : 0 < freeCount g im :=
  Nat.lt_of_le_of_lt (Nat.zero_le _) (Nat.count_strict_mono hz hc)

namespace ChainFile

theorem used (h : ChainFile g im f l e) : ∀ c ∈ l, im.fat c ≠ 0 := fun c hc =>
  fat_ne_zero_of_path h.path (fun he => by
    have := h.ends (List.ne_nil_of_mem hc)
    omega) h.inTable c hc

theorem size_lt (h : ChainFile g im f l e) (hg : g.Ok) : f.size < 536870912 := by
  have hlen := length_lt_of_inTable h.nodup h.inTable
  have hmul : l.length * g.clusterByteSize ≤ 65530 * 4096 :=
    Nat.mul_le_mul (by omega) hg.clusterByteSize_le
  have hsize := h.size
  omega

/-- The first cluster tells whether there are any. -/
theorem sblk_valid_iff (h : ChainFile g im f l e) :
    clusterIsValid (clusterT f.sblk) = true ↔ l ≠ [] := by
  cases l with
  | nil =>
    have hsb : f.sblk = e := h.path
    rw [hsb, clusterT_of_lt h.lt, h.invalid]
    simp
  | cons b l =>
    have hsb : f.sblk = b := h.path.1
    have hb := h.inTable b List.mem_cons_self
    rw [hsb, clusterT_of_lt (Nat.lt_trans hb.lt (by decide)), hb.valid]
    simp

theorem size_eq_zero (h : ChainFile g im f [] e) : f.size = 0 := by
  have hsize := h.size
  rw [List.length_nil, Nat.zero_mul] at hsize
  exact Nat.le_zero.mp hsize

theorem size_eq_zero_of_not_valid (h : ChainFile g im f l e)
    (hv : clusterIsValid (clusterT f.sblk) = false) : f.size = 0 := by
  have hiff := h.sblk_valid_iff
  rw [hv] at hiff
  obtain rfl : l = [] := by simpa using hiff
  exact h.size_eq_zero

/-- A valid current cluster is one of the chain. -/
theorem mem_of_valid (_h : ChainFile g im f l e) (hcur : OnFile f l) (hl : l ≠ [])
    (hv : clusterIsValid (clusterT f.cblk) = true) : f.cblk ∈ l := by
  rcases hcur with hmem | ⟨hge, hlt⟩ | hnil
  · exact hmem
  · rw [clusterT_of_lt hlt, clusterIsValid_iff] at hv
    omega
  · exact absurd hnil hl

end ChainFile

end Chains

/-! ## The promises -/

/-- What a write of the first `n` bytes of `buf` with the result `r` should do to
the bytes of a file. -/
structure Overlays (g : Fat) (im im' : Image) (f f' : File) (n : Nat) (buf : Nat → UInt8)
    (r : Nat) : Prop where
  count : r = n
  pos : f'.pos = f.pos + n
  size : f'.size = max f.size (f.pos + n)
  holds : HoldsFile g im' f'
  bytes : ∀ k < f'.size, fileByte g im' f'.sblk k =
    if f.pos ≤ k ∧ k < f.pos + n then buf (k - f.pos) else fileByte g im f.sblk k

/-- What a write with the result `r` should leave: the position and the size
account for `r` bytes, what was allocated is on the chain of the file, and a
write of nothing changed nothing. -/
structure StaysConsistent (im im' : Image) (f f' : File) (r : Nat) : Prop where
  pos : f'.pos = f.pos + r
  size : f'.size = if r = 0 then f.size else max f.size (f.pos + r)
  onChain : ∀ c, im.fat c = 0 → im'.fat c ≠ 0 → OnFat im'.fat f'.sblk c
  nothing : r = 0 → im'.fat = im.fat ∧ f'.sblk = f.sblk ∧ f'.cblk = f.cblk ∧
    f'.pos = f.pos ∧ f'.size = f.size

/-- The number of clusters that a write of `n` bytes at the end of a file asks
for: those behind the current cluster up to the one that the next byte would be
in. A file with clusters but without bytes has room in the current one. -/
def clustersAsked (g : Fat) (f : File) (n : Nat) : Nat :=
  if f.size = 0 then
    if clusterIsValid (clusterT f.sblk) then (n + g.clusterByteSize - 1) / g.clusterByteSize
    else if n = 0 then 0 else n / g.clusterByteSize + 1
  else (f.size + n) / g.clusterByteSize - f.size / g.clusterByteSize

/-- The file stands at its end, in a valid cluster unless it has none at all, and
the clusters that the write asks for are free. -/
def CanAppend (g : Fat) (im : Image) (f : File) (n : Nat) : Prop :=
  f.pos = f.size ∧
  (clusterIsValid (clusterT f.sblk) = true → clusterIsValid (clusterT f.cblk) = true) ∧
  clustersAsked g f n ≤ freeCount g im

/-- No clusters are asked for at first, and there is nothing to write or the file
stands at its end; or more are asked for than there are, and the table is none
that the 16-bit counter of the scan runs round; or the write can append. -/
def CanStay (g : Fat) (im : Image) (f : File) (n : Nat) : Prop :=
  growCnt g f n = none ∧ (n = 0 ∨ f.pos = f.size) ∨
  (∃ cnt, growCnt g f n = some cnt ∧ (cnt = 0 ∨ freeCount g im < cnt ∧ g.cTotal ≤ 65535)) ∨
  CanAppend g im f n

/-! ## The clusters asked for -/

section Asked

variable {g : Fat} {f : File} {n cnt : Nat}

/-- A write at the end of a file grows it by its length. -/
theorem growCnt_append (hpos : f.pos = f.size) (hs : f.size < 536870912) (hn : 0 < n)
    (hlt : n < 2147483648) : growCnt g f n = expandCnt g f.size n := by
  have hincr : cInt ((f.pos : Int) + (n : Nat) - f.size) = n := by
    rw [hpos, cInt_eq (by omega) (by unfold intMax; omega)]
    omega
  have hgrow : u32 ((f.pos : Int) + (n : Nat)) > f.size := by
    rw [u32_add (by omega)]
    omega
  rw [growCnt, if_pos hgrow, hincr]

/-- Inside the current cluster none is asked for. -/
theorem clustersAsked_none (hg : g.Ok) (hcnt : expandCnt g f.size n = none) :
    0 < f.size ∧ f.size % g.clusterByteSize + n < g.clusterByteSize ∧ clustersAsked g f n = 0 := by
  have hmod := Nat.mod_lt f.size hg.clusterByteSize_pos
  unfold expandCnt at hcnt
  rcases Nat.eq_zero_or_pos f.size with hz | hs
  · rw [if_pos ⟨hz, by rw [hz, Nat.zero_mod]⟩] at hcnt
    cases hcnt
  · rw [if_neg fun h => Nat.ne_of_gt hs h.1] at hcnt
    dsimp only at hcnt
    split at hcnt
    next hfit =>
      have hin : f.size % g.clusterByteSize + n < g.clusterByteSize := by omega
      refine ⟨hs, hin, ?_⟩
      rw [clustersAsked, if_neg (Nat.ne_of_gt hs), add_div_of_lt hin, Nat.sub_self]
    next => cases hcnt

/-- The first request is for what the new bytes need behind the current cluster,
and `clustersAsked` is one more when they end with the last cluster. -/
theorem clustersAsked_spec (hg : g.Ok) (hn : 0 < n) (hlt : n < 2147483648)
    (hsb : clusterIsValid (clusterT f.sblk) = false → f.size = 0)
    (hcnt : expandCnt g f.size n = some cnt) {base : Nat}
    (hbase : base = if clusterIsValid (clusterT f.sblk) then 1 else 0) :
    0 < cnt ∧ f.size % g.clusterByteSize + n ≤ (base + cnt) * g.clusterByteSize ∧
      (clustersAsked g f n = cnt ∧
          f.size % g.clusterByteSize + n < (base + cnt) * g.clusterByteSize ∨
        clustersAsked g f n = cnt + 1 ∧
          f.size % g.clusterByteSize + n = (base + cnt) * g.clusterByteSize) := by
  have hq := hg.clusterByteSize_pos
  have hmod := Nat.mod_lt f.size hq
  have hup := fun d hd => up2_clusters (n := d) hg hd
  unfold expandCnt at hcnt
  unfold clustersAsked
  rcases Nat.eq_zero_or_pos f.size with hz | hs
  · rw [if_pos ⟨hz, by rw [hz, Nat.zero_mod]⟩, u32_natCast (by omega), hup n hlt,
      Option.some.injEq] at hcnt
    have hpos : 0 < cnt := hcnt ▸ Nat.div_pos (by omega) hq
    have hcases := ceilDiv_cases hq n
    rw [if_pos hz, hz, Nat.zero_mod, Nat.zero_add, hbase]
    rw [hcnt] at hcases ⊢
    cases clusterIsValid (clusterT f.sblk) with
    | true =>
      rw [if_pos rfl, if_pos rfl, Nat.add_mul, Nat.one_mul]
      exact ⟨hpos, by omega, .inl ⟨rfl, by omega⟩⟩
    | false =>
      rw [if_neg (by simp), if_neg (by simp), if_neg (Nat.ne_of_gt hn), Nat.zero_add]
      rcases hcases with ⟨heq, hdiv⟩ | ⟨hlt', hdiv⟩
      · exact ⟨hpos, Nat.le_of_eq heq, .inr ⟨by rw [hdiv], heq⟩⟩
      · exact ⟨hpos, Nat.le_of_lt hlt', .inl ⟨hdiv, hlt'⟩⟩
  · have hv : clusterIsValid (clusterT f.sblk) = true := by
      by_contra hno
      exact Nat.ne_of_gt hs (hsb (by simpa using hno))
    rw [if_neg fun h => Nat.ne_of_gt hs h.1] at hcnt
    dsimp only at hcnt
    rw [if_neg (Nat.ne_of_gt hs), hbase, hv, if_pos rfl, Nat.add_mul, Nat.one_mul]
    split at hcnt
    next => cases hcnt
    next hfit =>
      obtain ⟨d, hd⟩ := Nat.exists_eq_add_of_le
        (show g.clusterByteSize ≤ f.size % g.clusterByteSize + n by omega)
      have hu : u32 ((n : Int) - ((g.clusterByteSize - f.size % g.clusterByteSize : Nat) : Int)) =
          d := by
        rw [u32_sub (by omega) (by omega)]
        omega
      have hasked : (f.size + n) / g.clusterByteSize - f.size / g.clusterByteSize =
          d / g.clusterByteSize + 1 := by
        have hsplit := Nat.div_add_mod' f.size g.clusterByteSize
        have hsum : f.size + n = d + (f.size / g.clusterByteSize + 1) * g.clusterByteSize := by
          rw [Nat.add_mul, Nat.one_mul]
          omega
        rw [hsum, Nat.add_mul_div_right _ _ hq]
        generalize d / g.clusterByteSize = a
        generalize f.size / g.clusterByteSize = b
        omega
      have hcases := ceilDiv_cases hq d
      rw [hu, hup d (by omega), Option.some.injEq] at hcnt
      rw [hasked, hd]
      generalize (d + g.clusterByteSize - 1) / g.clusterByteSize = c at hcnt hcases
      split at hcnt
      next hc =>
        -- the bytes end with the current cluster, and the next one is asked for
        subst hc hcnt
        rw [Nat.zero_mul] at hcases
        obtain ⟨rfl, hdiv⟩ := hcases.resolve_right fun h => Nat.not_lt_zero d h.1
        rw [hdiv, Nat.one_mul]
        exact ⟨Nat.one_pos, by omega, .inl ⟨rfl, by omega⟩⟩
      next hc =>
        subst hcnt
        rcases hcases with ⟨heq, hdiv⟩ | ⟨hlt', hdiv⟩
        · exact ⟨by omega, by omega, .inr ⟨by rw [hdiv], by omega⟩⟩
        · exact ⟨by omega, by omega, .inl ⟨hdiv, by omega⟩⟩

end Asked

/-! ## The clusters of a write -/

/-- The clusters `f₁.cblk :: t` take the new bytes; they lie on the chain behind
`l₁`, and those that are not of the old chain were free. -/
structure Ready (im im₁ : Image) (f f₁ : File) (l l₁ t : List Nat) (e : Nat) : Prop where
  file : f₁ = { f with cblk := f₁.cblk, sblk := f₁.sblk }
  valid : clusterIsValid (clusterT f₁.sblk) = true
  front : Path im₁.fat f₁.sblk l₁ f₁.cblk
  path : Path im₁.fat f₁.cblk (f₁.cblk :: t) e
  nodup : (l₁ ++ f₁.cblk :: t).Nodup
  data : im₁.data = im.data
  used : ∀ c, im.fat c = 0 → im₁.fat c ≠ 0 → c ∈ f₁.cblk :: t
  old : l = [] ∧ l₁ = [] ∨
    f₁.cblk = f.cblk ∧ f₁.sblk = f.sblk ∧ ∃ l₂, l = l₁ ++ f.cblk :: l₂

section Space

variable {dev : Dev} {g : Fat} {fuel : Nat} {v : Volume} {im im₁ : Image} {f f₁ : File}
  {l l₁ t : List Nat} {e cnt : Nat} {incr : Int}

/-- The current cluster as it is. -/
theorem ChainFile.ready (h : ChainFile g im f l e) (hmem : f.cblk ∈ l) :
    ∃ l₁, Ready im im f f l l₁ [] (im.fat f.cblk) ∧ ∀ c ∈ l₁ ++ [f.cblk], InTable g c := by
  obtain ⟨l₁, l₂, hl⟩ := List.append_of_mem hmem
  have hp := h.path
  have hnd := h.nodup
  rw [hl] at hp hnd
  obtain ⟨b, hfront, rfl, -⟩ := path_append.mp hp
  have hsub : ∀ c ∈ l₁ ++ [f.cblk], c ∈ l := by
    intro c hc
    rw [hl]
    simp only [List.mem_append, List.mem_cons, List.not_mem_nil, or_false] at hc ⊢
    exact hc.imp_right .inl
  have hsplit : l₁ ++ f.cblk :: l₂ = (l₁ ++ [f.cblk]) ++ l₂ := by simp
  rw [hsplit] at hnd
  exact ⟨l₁, ⟨rfl, h.sblk_valid_iff.mpr (List.ne_nil_of_mem hmem), hfront, ⟨rfl, rfl⟩,
    (List.nodup_append.mp hnd).1, rfl, fun c hz hne => absurd hz hne, .inr ⟨rfl, rfl, l₂, hl⟩⟩,
    fun c hc => h.inTable c (hsub c hc)⟩

/-- After `expand_file` has allocated clusters. -/
theorem expandFile_ready (hw : Works dev) (hg : g.Ok) (hfuel : 65536 < fuel) (h : Shows g v im)
    (hf : ChainFile g im f l e) (hmem : f.cblk ∈ l ∨ l = [])
    (hcnt : expandCnt g f.size incr = some cnt) (hpos : 0 < cnt) (hfree : cnt ≤ freeCount g im) :
    ∃ v₁ f₁ im₁ l₁ t, expandFile dev g fuel v f incr = some (v₁, f₁, 0) ∧ Shows g v₁ im₁ ∧
      Ready im im₁ f f₁ l l₁ t fatClusterInvalid ∧ (∀ c ∈ l₁ ++ f₁.cblk :: t, InTable g c) ∧
      freeCount g im₁ + cnt = freeCount g im ∧
      (f₁.cblk :: t).length = (if clusterIsValid (clusterT f.sblk) then 1 else 0) + cnt := by
  rcases hmem with hmem | rfl
  · obtain ⟨l₁, hr, hin⟩ := hf.ready hmem
    have hv := hr.valid
    obtain ⟨v₁, im₁, m, hexp, h₁, hlink, hm, hlen, hcount⟩ := expandFile_links hw hg hfuel h hv
      (hf.inTable _ hmem) (hf.used _ hmem) hcnt hpos hfree
    have hold : ∀ c ∈ l₁, c ∉ f.cblk :: m := by
      intro c hc hcm
      obtain ⟨-, -, l₂, hl⟩ := hr.old.resolve_left fun hn => List.ne_nil_of_mem hmem hn.1
      rcases List.mem_cons.mp hcm with rfl | hcm
      · exact (List.nodup_append.mp hr.nodup).2.2 _ hc _ (by simp) rfl
      · exact hf.used c (by simp [hl, hc]) (hlink.free c hcm)
    refine ⟨v₁, f, im₁, l₁, m, hexp, h₁, ⟨rfl, hv, ?_, hlink.path, ?_, hlink.data, ?_, hr.old⟩,
      ?_, hcount, ?_⟩
    · exact hr.front.congr fun c hc => hlink.other c (hold c hc)
    · refine List.nodup_append.mpr ⟨(List.nodup_append.mp hr.nodup).1, hlink.nodup, ?_⟩
      exact fun a ha b hb he => hold a ha (he ▸ hb)
    · intro c hz hne
      by_contra hc
      exact hne ((hlink.other c hc).trans hz)
    · intro c hc
      rcases List.mem_append.mp hc with hc | hc
      · exact hin c (List.mem_append_left _ hc)
      · rcases List.mem_cons.mp hc with rfl | hc
        · exact hf.inTable _ hmem
        · exact hm c hc
    · rw [hv, if_pos rfl, List.length_cons, hlen]
      omega
  · have hv : clusterIsValid (clusterT f.sblk) = false := by
      have hno := hf.sblk_valid_iff
      simpa using hno
    obtain ⟨v₁, s, im₁, m, hexp, h₁, hfresh, hlen, hcount⟩ :=
      expandFile_first hw hg hfuel h hv hcnt hpos hfree
    obtain ⟨b, t, rfl⟩ := List.exists_cons_of_length_pos (hlen ▸ hpos)
    obtain rfl : s = b := hfresh.path.1
    have hs := hfresh.inTable h s List.mem_cons_self
    refine ⟨v₁, _, im₁, [], t, hexp, h₁, ⟨rfl, ?_, rfl, hfresh.path, hfresh.nodup, hfresh.data, ?_,
      .inl ⟨rfl, rfl⟩⟩, hfresh.inTable h, hcount, ?_⟩
    · rw [clusterT_of_lt (Nat.lt_trans hs.lt (by decide))]
      exact hs.valid
    · intro c hz hne
      by_contra hc
      exact hne ((hfresh.other c hc).trans hz)
    · rw [hv, if_neg (by simp), hlen, Nat.zero_add]

end Space

/-! ## After the loop -/

/-- The new bytes are in the clusters `b :: t`, which follow `l₁` on the chain of
the file; nothing else was stored or allocated. -/
structure Extended (g : Fat) (im im' : Image) (f f' : File) (l l₁ : List Nat) (b : Nat)
    (t : List Nat) (buf : Nat → UInt8) (n : Nat) : Prop where
  path : ∃ e, Path im'.fat f'.sblk (l₁ ++ b :: t) e
  nodup : (l₁ ++ b :: t).Nodup
  inTable : ∀ c ∈ l₁ ++ b :: t, InTable g c
  used : ∀ c, im.fat c = 0 → im'.fat c ≠ 0 → c ∈ b :: t
  data : im'.data =
    storeBlocks g.clusterByteSize (b :: t) (f.pos % g.clusterByteSize) n buf im.data
  fits : f.pos % g.clusterByteSize + n ≤ (b :: t).length * g.clusterByteSize
  old : l = [] ∧ l₁ = [] ∨ b = f.cblk ∧ f'.sblk = f.sblk ∧ ∃ l₂, l = l₁ ++ f.cblk :: l₂
  size : f'.size = f.pos + n
  pos : f'.pos = f.pos + n

section Loop

variable {dev : Dev} {g : Fat} {fuel : Nat} {v₁ : Volume} {im im₁ : Image} {f f₁ : File}
  {l l₁ t : List Nat} {e n : Nat}

/-- The loop keeps the chain: it ends in the clusters that were ready, or with one
more; or the last request finds no cluster. -/
theorem fatfsWriteLoop_appends (hw : Works dev) (hg : g.Ok) (hfuel : 65536 < fuel)
    (h₁ : Shows g v₁ im₁) (hr : Ready im im₁ f f₁ l l₁ t e)
    (hin : ∀ c ∈ l₁ ++ f₁.cblk :: t, InTable g c) (hpos : f.pos = f.size)
    (hlt : f.pos + n < 1073741824) (buf : Nat → UInt8)
    (hfits : f.pos % g.clusterByteSize + n ≤ (f₁.cblk :: t).length * g.clusterByteSize)
    (hmark : f.pos % g.clusterByteSize + n = (f₁.cblk :: t).length * g.clusterByteSize →
      e = fatClusterInvalid ∧ (freeCount g im₁ = 0 → g.cTotal ≤ 65535)) :
    ∃ v' f' im', fatfsWriteLoop dev g fuel buf n v₁ f₁ 0 n = some (v', f', n) ∧ Shows g v' im' ∧
      ((∃ t', Extended g im im' f f' l l₁ f₁.cblk t' buf n) ∧
          (f.pos % g.clusterByteSize + n = (f₁.cblk :: t).length * g.clusterByteSize →
            0 < freeCount g im₁) ∨
        f.pos % g.clusterByteSize + n = (f₁.cblk :: t).length * g.clusterByteSize ∧
          freeCount g im₁ = 0 ∧ f'.pos ≠ f.pos + n) := by
  have hp₁ : f₁.pos = f.pos := by rw [hr.file]
  have hs₁ : f₁.size = f.size := by rw [hr.file]
  obtain ⟨hnd₁, hnd₂, hdisj⟩ := List.nodup_append.mp hr.nodup
  rw [← hp₁] at hlt hfits hmark
  obtain ⟨v', f', im', hloop, h', hdata, hsize, hsb, hfill⟩ :=
    fatfsWriteLoop_fill hw hg hfuel buf t n 0 n h₁ hr.path hnd₂
      (fun c hc => hin c (List.mem_append_right _ hc)) hr.valid (by rw [hs₁, hp₁, hpos]) hlt hfits
      hmark (Nat.le_refl n)
  simp only [Nat.zero_add] at hloop hdata
  rw [hp₁] at hdata hsize hfits hmark
  rw [hr.data] at hdata
  have hwhole : Path im₁.fat f'.sblk (l₁ ++ f₁.cblk :: t) e :=
    path_append.mpr ⟨f₁.cblk, hsb ▸ hr.front, hr.path⟩
  have hold : l = [] ∧ l₁ = [] ∨
      f₁.cblk = f.cblk ∧ f'.sblk = f.sblk ∧ ∃ l₂, l = l₁ ++ f.cblk :: l₂ :=
    hr.old.imp_right fun hx => ⟨hx.1, hsb.trans hx.2.1, hx.2.2⟩
  refine ⟨v', f', im', hloop, h', ?_⟩
  cases hfill with
  | inside hn hfat hpos' =>
    rw [hp₁] at hn
    refine .inl ⟨⟨t, ⟨e, hfat ▸ hwhole⟩, hr.nodup, hin, ?_, hdata, hfits, hold, hsize, ?_⟩,
      fun hend => absurd hend (Nat.ne_of_lt hn)⟩
    · rw [hfat]
      exact hr.used
    · rw [hpos', hp₁]
  | grown c hn hfree hc hpath hother hpos' =>
    rw [hp₁] at hn
    obtain ⟨rfl, -⟩ := hmark hn
    have hused := fat_ne_zero hwhole hin
    have hnew : c ∉ l₁ ++ f₁.cblk :: t := fun hm => hused c hm hfree
    have hassoc : l₁ ++ f₁.cblk :: (t ++ [c]) = (l₁ ++ f₁.cblk :: t) ++ [c] := by simp
    refine .inl ⟨⟨t ++ [c], ⟨fatClusterInvalid, ?_⟩, ?_, ?_, fun d hz hne => ?_, ?_, ?_, hold,
      hsize, ?_⟩, fun _ => freeCount_pos hc.2 hfree⟩
    · refine path_append.mpr ⟨f₁.cblk, ?_, hpath⟩
      rw [hsb]
      refine hr.front.congr fun d hd => hother d (fun hm => hdisj d hd d hm rfl) ?_
      rintro rfl
      exact hnew (List.mem_append_left _ hd)
    · rw [hassoc]
      exact List.nodup_append.mpr ⟨hr.nodup, List.nodup_singleton c, fun a ha b hb he =>
        hnew (by rwa [← List.mem_singleton.mp hb, ← he])⟩
    · intro d hd
      rw [hassoc, List.mem_append, List.mem_singleton] at hd
      rcases hd with hd | rfl
      · exact hin d hd
      · exact hc
    · by_contra hd
      rw [← List.cons_append, List.mem_append, List.mem_singleton, not_or] at hd
      rw [hother d hd.1 hd.2] at hne
      exact hd.1 (hr.used d hz hne)
    · rw [hdata, ← List.cons_append, storeBlocks_append hfits]
    · rw [List.length_cons, List.length_append, Nat.add_right_comm, Nat.add_mul]
      exact Nat.le_trans hfits (Nat.le_add_right _ _)
    · rw [hpos', hp₁]
  | full hn hfree hfat hpos' =>
    rw [hp₁] at hn hpos'
    exact .inr ⟨hn, hfree, hpos'⟩

end Loop

namespace Extended

variable {g : Fat} {im im' : Image} {f f' : File} {l l₁ t : List Nat} {b e n : Nat}
  {buf : Nat → UInt8}

theorem consistent (ha : Extended g im im' f f' l l₁ b t buf n) (hpos : f.pos = f.size)
    (hn : 0 < n) : StaysConsistent im im' f f' n := by
  obtain ⟨e', hp⟩ := ha.path
  refine ⟨ha.pos, ?_, fun c hz hne => ?_, fun hz => absurd hz (Nat.ne_of_gt hn)⟩
  · rw [if_neg (Nat.ne_of_gt hn), ha.size]
    omega
  · exact hp.onChain (fun d hd => (ha.inTable d hd).valid)
      (List.mem_append_right _ (ha.used c hz hne))

/-- The new bytes start in the cluster of the position. -/
theorem front_length (ha : Extended g im im' f f' l l₁ b t buf n) (hf : ChainFile g im f l e)
    (hpos : f.pos = f.size) (hcblk : f.cblk = im.fat^[f.pos / g.clusterByteSize] f.sblk) :
    f.pos / g.clusterByteSize = l₁.length := by
  rcases ha.old with ⟨rfl, rfl⟩ | ⟨hb, -, l₂, hl⟩
  · rw [hpos, hf.size_eq_zero, Nat.zero_div, List.length_nil]
  · have hle : f.pos / g.clusterByteSize ≤ l.length := by
      refine Nat.div_le_of_le_mul ?_
      rw [hpos, Nat.mul_comm]
      exact hf.size
    have hcell : l[l₁.length]? = some f.cblk := by rw [hl]; simp
    obtain ⟨hlt, -⟩ := List.getElem?_eq_some_iff.mp hcell
    have hcur : l[f.pos / g.clusterByteSize]? = some f.cblk := by
      rw [hf.path.iterate_eq hle] at hcblk
      cases hc : l[f.pos / g.clusterByteSize]? with
      | none =>
        -- past the end is no cluster of the chain
        rw [hc, Option.getD_none] at hcblk
        have hv := (hf.inTable _ (List.mem_of_getElem? hcell)).valid
        rw [hcblk, hf.invalid] at hv
        cases hv
      | some d =>
        rw [hc, Option.getD_some] at hcblk
        rw [hcblk]
    exact ((List.getElem?_inj hlt hf.nodup).mp (hcell.trans hcur.symm)).symm

/-- The clusters of the new size are there. -/
theorem holds (ha : Extended g im im' f f' l l₁ b t buf n) (hq : 0 < g.clusterByteSize)
    (hfront : f.pos / g.clusterByteSize = l₁.length) : HoldsFile g im' f' := by
  obtain ⟨e', hp⟩ := ha.path
  have hsplit := Nat.div_add_mod' f.pos g.clusterByteSize
  have hfits := ha.fits
  rw [hfront] at hsplit
  have hlen : sizeClusters g f'.size ≤ (l₁ ++ b :: t).length := by
    have hmul : (l₁ ++ b :: t).length * g.clusterByteSize =
        l₁.length * g.clusterByteSize + (b :: t).length * g.clusterByteSize := by
      rw [List.length_append, Nat.add_mul]
    rw [sizeClusters, ha.size]
    refine Nat.le_of_lt_succ (Nat.div_lt_of_lt_mul ?_)
    rw [Nat.mul_comm, Nat.succ_mul]
    omega
  intro i hi
  have hlt := Nat.lt_of_lt_of_le hi hlen
  rw [hp.iterate_eq (Nat.le_of_lt hlt), List.getElem?_eq_getElem hlt]
  exact (ha.inTable _ (List.getElem_mem hlt)).valid

/-- The bytes from the position on are those of the buffer. -/
theorem fileByte_new (ha : Extended g im im' f f' l l₁ b t buf n) (hq : 0 < g.clusterByteSize)
    (hfront : f.pos / g.clusterByteSize = l₁.length) {j : Nat} (hj : j < n) :
    fileByte g im' f'.sblk (f.pos + j) = buf j := by
  obtain ⟨e', hp⟩ := ha.path
  have hsplit := Nat.div_add_mod' f.pos g.clusterByteSize
  have hfits := ha.fits
  have hmod := Nat.mod_lt f.pos hq
  rw [hfront] at hsplit
  have hidx : (f.pos % g.clusterByteSize + j) / g.clusterByteSize < (b :: t).length :=
    Nat.div_lt_of_lt_mul (by rw [Nat.mul_comm]; omega)
  obtain ⟨d, hd⟩ : ∃ d, (b :: t)[(f.pos % g.clusterByteSize + j) / g.clusterByteSize]? =
    some d := ⟨_, List.getElem?_eq_getElem hidx⟩
  have hk : f.pos + j = f.pos % g.clusterByteSize + j + l₁.length * g.clusterByteSize := by
    omega
  have hcell : (l₁ ++ b :: t)[(f.pos + j) / g.clusterByteSize]? = some d := by
    rw [hk, Nat.add_mul_div_right _ _ hq, List.getElem?_append_right (Nat.le_add_left _ _),
      Nat.add_sub_cancel, hd]
  have hsum := Nat.div_add_mod' (f.pos % g.clusterByteSize + j) g.clusterByteSize
  rw [fileByte_of_path hp hcell, ha.data,
    storeBlocks_getElem (List.nodup_append.mp ha.nodup).2.1 (Nat.le_of_lt hmod) hd
      (Nat.mod_lt _ hq)]
  rw [hk, Nat.add_mul_mod_self_right, hsum, if_pos ⟨by omega, by omega⟩, Nat.add_sub_cancel_left]

/-- Those before it are the old ones. -/
theorem fileByte_old (ha : Extended g im im' f f' l l₁ b t buf n) (hf : ChainFile g im f l e)
    (hq : 0 < g.clusterByteSize) (hpos : f.pos = f.size)
    (hfront : f.pos / g.clusterByteSize = l₁.length) {k : Nat} (hk : k < f.pos) :
    fileByte g im' f'.sblk k = fileByte g im f.sblk k := by
  obtain ⟨e', hp⟩ := ha.path
  have hsplit := Nat.div_add_mod' f.pos g.clusterByteSize
  have hmod := Nat.mod_lt f.pos hq
  obtain ⟨-, hnd, hdisj⟩ := List.nodup_append.mp ha.nodup
  obtain ⟨hb, -, l₂, hl⟩ := ha.old.resolve_left fun ⟨hnil, _⟩ => by
    subst hnil
    rw [hpos, hf.size_eq_zero] at hk
    exact Nat.not_lt_zero k hk
  have hkq : k / g.clusterByteSize ≤ l₁.length := by
    rw [← hfront]
    exact Nat.div_le_div_right (Nat.le_of_lt hk)
  rcases Nat.lt_or_eq_of_le hkq with hin | hlast
  · have hcell : l₁[k / g.clusterByteSize]? = some l₁[k / g.clusterByteSize] :=
      List.getElem?_eq_getElem hin
    have hmem : l₁[k / g.clusterByteSize] ∉ b :: t := fun hm =>
      hdisj _ (List.getElem_mem hin) _ hm rfl
    rw [fileByte_of_path hp (by rw [List.getElem?_append_left hin, hcell]),
      fileByte_of_path hf.path (by rw [hl, List.getElem?_append_left hin, hcell]), ha.data,
      storeBlocks_of_not_mem hmem]
  · -- in the cluster of the position, but before it
    have hkm : k % g.clusterByteSize < f.pos % g.clusterByteSize := by
      have hdiv := Nat.div_add_mod' k g.clusterByteSize
      rw [hlast] at hdiv
      rw [hfront] at hsplit
      omega
    rw [fileByte_of_path hp (d := b) (by rw [hlast]; simp),
      fileByte_of_path hf.path (d := b) (by rw [hlast, hl, hb]; simp), ha.data,
      storeBlocks_getElem hnd (Nat.le_of_lt hmod) (i := 0) rfl (Nat.mod_lt _ hq), Nat.zero_mul,
      Nat.zero_add, if_neg (by omega)]

theorem overlays (ha : Extended g im im' f f' l l₁ b t buf n) (hf : ChainFile g im f l e)
    (hq : 0 < g.clusterByteSize) (hpos : f.pos = f.size)
    (hcblk : f.cblk = im.fat^[f.pos / g.clusterByteSize] f.sblk) :
    Overlays g im im' f f' n buf n := by
  have hfront := ha.front_length hf hpos hcblk
  refine ⟨rfl, ha.pos, ?_, ha.holds hq hfront, fun k hk => ?_⟩
  · rw [ha.size]
    omega
  · rw [ha.size] at hk
    split
    next hnew =>
      obtain ⟨j, rfl⟩ := Nat.exists_eq_add_of_le hnew.1
      rw [ha.fileByte_new hq hfront (by omega), Nat.add_sub_cancel_left]
    next hold => exact ha.fileByte_old hf hq hpos hfront (by omega)

end Extended

/-! ## The whole call -/

section Write

variable {dev : Dev} {g : Fat} {fuel : Nat} {v v' : Volume} {im : Image} {f f' : File}
  {l : List Nat} {e n cnt r : Nat} (buf : Nat → UInt8)

theorem fatfsWrite_none (h : growCnt g f n = none) :
    fatfsWrite dev g fuel v buf n f = fatfsWriteLoop dev g fuel buf n v f 0 n := by
  unfold growCnt at h
  unfold fatfsWrite
  split
  next hgrow =>
    rw [if_pos hgrow] at h
    rw [expandFile, h, Option.bind_some]
    exact if_neg (Int.lt_irrefl 0)
  next => rfl

theorem fatfsWrite_some (dev : Dev) (fuel : Nat) (v : Volume) (h : growCnt g f n = some cnt) :
    ∃ incr, expandCnt g f.size incr = some cnt ∧ fatfsWrite dev g fuel v buf n f =
      (expandFile dev g fuel v f incr).bind fun (v, file, err) =>
        if err < 0 then some (v, file, 0) else fatfsWriteLoop dev g fuel buf n v file 0 n := by
  unfold growCnt at h
  unfold fatfsWrite
  split
  next hgrow =>
    rw [if_pos hgrow] at h
    exact ⟨_, h, rfl⟩
  next hgrow =>
    rw [if_neg hgrow] at h
    cases h

/-- At the end of the file, when the first request can be served: all bytes are
stored, and the file is as it should be if the clusters for the second request
are there too. -/
theorem fatfsWrite_extends (hw : Works dev) (hg : g.Ok) (hfuel : 65536 < fuel) (h : Shows g v im)
    (hf : ChainFile g im f l e) (hmem : f.cblk ∈ l ∨ l = []) (hpos : f.pos = f.size) (hn : 0 < n)
    (hlt : n < 2147483648) (hask : ∀ cnt, growCnt g f n = some cnt → cnt ≤ freeCount g im)
    (ht : clustersAsked g f n ≤ freeCount g im ∨ g.cTotal ≤ 65535) :
    ∃ v' f' im', fatfsWrite dev g fuel v buf n f = some (v', f', n) ∧ Shows g v' im' ∧
      (clustersAsked g f n ≤ freeCount g im ∧ (∃ l₁ b t, Extended g im im' f f' l l₁ b t buf n) ∨
        freeCount g im < clustersAsked g f n ∧ f'.pos ≠ f.pos + n) := by
  have hs := hf.size_lt hg
  have hq := hg.clusterByteSize_le
  have happ := growCnt_append (f := f) (g := g) hpos hs hn hlt
  cases hcnt : growCnt g f n with
  | none =>
    obtain ⟨hs0, hin, hzero⟩ := clustersAsked_none hg (happ.symm.trans hcnt)
    have hcur : f.cblk ∈ l := hmem.resolve_right fun hnil => by
      subst hnil
      rw [hf.size_eq_zero] at hs0
      exact Nat.lt_irrefl 0 hs0
    obtain ⟨l₁, hr, hinT⟩ := hf.ready hcur
    rw [← hpos] at hin
    have hone : [f.cblk].length * g.clusterByteSize = g.clusterByteSize := Nat.one_mul _
    obtain ⟨v', f', im', hloop, h', hor⟩ := fatfsWriteLoop_appends hw hg hfuel h hr hinT hpos
      (by omega : f.pos + n < 1073741824) buf (by omega) (fun hend => by omega)
    refine ⟨v', f', im', (fatfsWrite_none buf hcnt).trans hloop, h', .inl ⟨by omega, ?_⟩⟩
    rcases hor with ⟨⟨t', ht'⟩, -⟩ | ⟨hend, -⟩
    · exact ⟨l₁, f.cblk, t', ht'⟩
    · omega
  | some cnt =>
    have hcnt' := happ.symm.trans hcnt
    have hle := hask cnt hcnt
    obtain ⟨hc0, hfits, hasked⟩ :=
      clustersAsked_spec hg hn hlt hf.size_eq_zero_of_not_valid hcnt' rfl
    obtain ⟨incr, hincr, hwrite⟩ := fatfsWrite_some buf dev fuel v hcnt
    obtain ⟨v₁, f₁, im₁, l₁, t, hexp, h₁, hr, hinT, hcount, hlen⟩ :=
      expandFile_ready hw hg hfuel h hf hmem hincr hc0 hle
    rw [← hlen, ← hpos] at hfits hasked
    have hbound : (f₁.cblk :: t).length * g.clusterByteSize ≤ 65531 * 4096 := by
      refine Nat.mul_le_mul ?_ hq
      have hfree := freeCount_lt h
      rw [hlen]
      split <;> omega
    obtain ⟨v', f', im', hloop, h', hor⟩ := fatfsWriteLoop_appends hw hg hfuel h₁ hr hinT hpos
      (by omega : f.pos + n < 1073741824) buf hfits
      (fun hend => ⟨rfl, fun hz => ht.resolve_left (by omega)⟩)
    refine ⟨v', f', im', ?_, h', ?_⟩
    · rw [hwrite, hexp, Option.bind_some]
      exact hloop
    · rcases hor with ⟨⟨t', ht'⟩, hspare⟩ | ⟨hend, hz, hne⟩
      · refine .inl ⟨?_, l₁, f₁.cblk, t', ht'⟩
        rcases hasked with ⟨hask, -⟩ | ⟨hask, hend⟩
        · omega
        · have := hspare hend
          omega
      · exact .inr ⟨by omega, hne⟩

end Write

/-! ## What the size says -/

section Count

variable {dev : Dev} {g : Fat} {fuel : Nat} {buf : Nat → UInt8} {f f' : File} {n r : Nat}

theorem expandFile_size {v v' : Volume} {incr err : Int}
    (h : expandFile dev g fuel v f incr = some (v', f', err)) : f'.size = f.size := by
  obtain ⟨-, -, rfl, -⟩ | ⟨cnt, v₁, start, -, -, hor⟩ := expandFile_cases h
  · rfl
  · obtain ⟨-, -, rfl, -⟩ | ⟨-, -, -, rfl, -⟩ | ⟨-, -, rfl, -⟩ := hor <;> rfl

theorem moveFilePos_size {v v' : Volume} {expand : Bool} {err : Int}
    (h : moveFilePos dev g fuel v f n expand = some (v', f', err)) : f'.size = f.size := by
  unfold moveFilePos at h
  dsimp only at h
  split at h
  · split at h
    · obtain ⟨⟨v₁, f₁, err₁⟩, hexp, he⟩ := Option.map_eq_some_iff.mp h
      dsimp only at he
      have hsize := expandFile_size hexp
      split at he
      · cases he
        exact hsize
      · cases he
        exact hsize
    · cases h
      rfl
  · cases h
    rfl

/-- A transfer takes what lies in the current cluster, whatever that is. -/
theorem writeCluster_part (hw : Works dev) (hg : g.Ok) (v : Volume) (f : File)
    (buf : Nat → UInt8) (total : Nat) (hn : n < 2147483648) :
    ∃ v' err, writeCluster dev g v f buf total n =
      (v', err, min n (g.clusterByteSize - f.pos % g.clusterByteSize)) ∧ 0 ≤ err := by
  have hmod := Nat.mod_lt f.pos hg.clusterByteSize_pos
  unfold writeCluster
  dsimp only
  split
  next hwhole =>
    obtain ⟨ho, rfl⟩ := hwhole
    rw [ho, Nat.sub_zero, Nat.min_self, devWrite, hw v.calls]
    exact ⟨_, _, rfl, Int.natCast_nonneg _⟩
  next =>
    rw [devReadBuffer_eq hw, currPart_eq hg hmod hn]
    dsimp only
    rw [if_neg (Int.not_lt.mpr (Int.natCast_nonneg _)), devWrite, hw]
    exact ⟨_, _, rfl, Int.natCast_nonneg _⟩

/-- Every byte that is stored is added to the size. -/
theorem fatfsWriteLoop_count (hw : Works dev) (hg : g.Ok) (rounds : Nat) :
    ∀ {v v' : Volume} {f : File} {total nbytes : Nat}, nbytes < 2147483648 →
      f.size < 4294967296 →
      fatfsWriteLoop dev g fuel buf rounds v f total nbytes = some (v', f', r) →
      ∃ k ≤ nbytes, r = total + k ∧ f'.size = u32 (f.size + k) ∧ (0 < nbytes → 0 < k) := by
  have hdone : ∀ {v v' : Volume} {f : File} {total nbytes : Nat}, f.size < 4294967296 →
      ¬nbytes > 0 → some (v, f, total) = some (v', f', r) →
      ∃ k ≤ nbytes, r = total + k ∧ f'.size = u32 (f.size + k) ∧ (0 < nbytes → 0 < k) := by
    intro v v' f total nbytes hs hz he
    cases he
    refine ⟨0, Nat.zero_le _, rfl, ?_, fun hpos => absurd hpos hz⟩
    exact (u32_add (b := 0) hs).symm
  induction rounds with
  | zero =>
    intro v v' f total nbytes _ hs hr
    rw [fatfsWriteLoop] at hr
    split at hr
    · cases hr
    next hz => exact hdone hs hz hr
  | succ rounds ih =>
    intro v v' f total nbytes hlt hs hr
    rw [fatfsWriteLoop] at hr
    split at hr
    next hpos =>
      have hmod := Nat.mod_lt f.pos hg.clusterByteSize_pos
      obtain ⟨v₁, err, hwc, he⟩ := writeCluster_part hw hg v f buf total hlt
      rw [hwc] at hr
      generalize hw' : min nbytes (g.clusterByteSize - f.pos % g.clusterByteSize) = w at hr
      dsimp only at hr
      rw [if_neg (Int.not_lt.mpr he)] at hr
      obtain ⟨⟨v₂, f₂, err₂⟩, hmv, hr⟩ := Option.bind_eq_some_iff.mp hr
      have hsize := moveFilePos_size hmv
      dsimp only at hr hsize
      split at hr
      · cases hr
        exact ⟨w, by omega, rfl, hsize, fun _ => by omega⟩
      · obtain ⟨k, hk, hrk, hsk, -⟩ := ih (by omega) (hsize ▸ u32_lt _) hr
        refine ⟨w + k, by omega, by omega, ?_, fun _ => by omega⟩
        rw [hsk, hsize]
        unfold u32
        omega
    next hz => exact hdone hs hz hr

/-- With what a write should leave as the size, it started at the end of the
file. -/
theorem pos_eq_size (hs : f.size < 536870912) (hk : 0 < r) (hlt : r < 2147483648)
    (hcount : f'.size = u32 (f.size + r)) (hsize : f'.size = max f.size (f.pos + r)) :
    f.pos = f.size := by
  rw [hcount, u32_add (by omega)] at hsize
  omega

end Count

/-! ## When the promises are kept -/

section Promises

variable {dev : Dev} {g : Fat} {fuel : Nat} {v v' : Volume} {im : Image} {f f' : File}
  {l : List Nat} {e n r : Nat} {buf : Nat → UInt8}

theorem OnFile.mem (hcur : OnFile f l) (hf : ChainFile g im f l e)
    (hlink : clusterIsValid (clusterT f.sblk) = true → clusterIsValid (clusterT f.cblk) = true) :
    f.cblk ∈ l ∨ l = [] := by
  by_cases hl : l = []
  · exact .inr hl
  · exact .inl (hf.mem_of_valid hcur hl (hlink (hf.sblk_valid_iff.mpr hl)))

/-- A write that can append does. -/
theorem fatfsWrite_append (hw : Works dev) (hg : g.Ok) (hfuel : 65536 < fuel) (h : Shows g v im)
    (hf : ChainFile g im f l e) (hcur : OnFile f l) (hn : 0 < n) (hlt : n < 2147483648)
    (buf : Nat → UInt8) (hcan : CanAppend g im f n) :
    ∃ v' f' im' l₁ b t, fatfsWrite dev g fuel v buf n f = some (v', f', n) ∧ Shows g v' im' ∧
      Extended g im im' f f' l l₁ b t buf n := by
  obtain ⟨hpos, hlink, hask⟩ := hcan
  have hs := hf.size_lt hg
  obtain ⟨v', f', im', hr, h', ⟨-, l₁, b, t, hext⟩ | ⟨hno, -⟩⟩ :=
    fatfsWrite_extends buf hw hg hfuel h hf (hcur.mem hf hlink) hpos hn hlt (fun cnt hcnt => by
      rw [growCnt_append hpos hs hn hlt] at hcnt
      obtain ⟨-, -, ⟨heq, -⟩ | ⟨heq, -⟩⟩ :=
        clustersAsked_spec hg hn hlt hf.size_eq_zero_of_not_valid hcnt rfl <;> omega)
      (.inl hask)
  · exact ⟨v', f', im', l₁, b, t, hr, h', hext⟩
  · omega

/-- A request that cannot be served leaves everything as it was. -/
theorem fatfsWrite_short (hw : Works dev) (hg : g.Ok) (hfuel : 65536 < fuel) (h : Shows g v im)
    (buf : Nat → UInt8) {cnt : Nat} (hcnt : growCnt g f n = some cnt)
    (hshort : cnt = 0 ∨ freeCount g im < cnt ∧ g.cTotal ≤ 65535) :
    ∃ v', fatfsWrite dev g fuel v buf n f = some (v', f, 0) ∧ Shows g v' im := by
  obtain ⟨incr, hincr, hwrite⟩ := fatfsWrite_some buf dev fuel v hcnt
  obtain ⟨v', hexp, h'⟩ := expandFile_short (f := f) hw hg h hfuel hincr hshort
  refine ⟨v', ?_, h'⟩
  rw [hwrite, hexp, Option.bind_some]
  exact if_pos (by decide)

/-- One that allocates without a current cluster to link behind returns 0, but the
table has changed. -/
theorem fatfsWrite_unlinked (hw : Works dev) (hg : g.Ok) (hfuel : 65536 < fuel)
    (h : Shows g v im) (buf : Nat → UInt8) (hs : clusterIsValid (clusterT f.sblk) = true)
    (hc : clusterIsValid (clusterT f.cblk) = false) {cnt : Nat}
    (hcnt : growCnt g f n = some cnt) (hpos : 0 < cnt) (hfree : cnt ≤ freeCount g im) :
    ∃ v' im', fatfsWrite dev g fuel v buf n f = some (v', f, 0) ∧ Shows g v' im' ∧
      im'.fat ≠ im.fat := by
  obtain ⟨incr, hincr, hwrite⟩ := fatfsWrite_some buf dev fuel v hcnt
  obtain ⟨v', im', hexp, h', hne⟩ := expandFile_unlinked (f := f) hw hg h hfuel hs hc hincr hpos
    hfree
  refine ⟨v', im', ?_, h', hne⟩
  rw [hwrite, hexp, Option.bind_some]
  exact if_pos (by decide)

/-- A write that is given the clusters it asks for, and returns 0 all the same, has
changed the table. -/
theorem fatfsWrite_nothing (hw : Works dev) (hg : g.Ok) (hfuel : 65536 < fuel)
    (h : Shows g v im) (hf : ChainFile g im f l e) (hcur : OnFile f l) (hlt : n < 2147483648)
    {cnt : Nat} (hcnt : growCnt g f n = some cnt) (hpos : 0 < cnt) (hfree : cnt ≤ freeCount g im)
    (hr : fatfsWrite dev g fuel v buf n f = some (v', f', 0)) :
    (image g v'.disk).fat ≠ im.fat := by
  by_cases hlink : clusterIsValid (clusterT f.sblk) = true → clusterIsValid (clusterT f.cblk) = true
  · obtain ⟨incr, hincr, hwrite⟩ := fatfsWrite_some buf dev fuel v hcnt
    obtain ⟨v₁, f₁, im₁, l₁, t, hexp, h₁, hready, -, hcount, -⟩ :=
      expandFile_ready hw hg hfuel h hf (hcur.mem hf hlink) hincr hpos hfree
    have hs₁ : f₁.size < 4294967296 := by
      have hs := hf.size_lt hg
      rw [hready.file]
      dsimp only
      omega
    rw [hwrite, hexp, Option.bind_some] at hr
    dsimp only at hr
    rw [if_neg (Int.lt_irrefl 0)] at hr
    obtain ⟨k, -, hk, -, hk0⟩ := fatfsWriteLoop_count hw hg n hlt hs₁ hr
    -- the loop stores something when there is anything to store
    obtain rfl : n = 0 := by omega
    rw [fatfsWriteLoop_done] at hr
    cases hr
    intro he
    rw [h₁.image_eq] at he
    have hsame := freeCount_congr (g := g) he
    omega
  · obtain ⟨hs, hc⟩ := Classical.not_imp.mp hlink
    obtain ⟨w, im', hw', h', hne⟩ :=
      fatfsWrite_unlinked hw hg hfuel h buf hs (by simpa using hc) hcnt hpos hfree
    rw [hr] at hw'
    cases hw'
    rwa [h'.image_eq]

/-- A write inside the current cluster, or past the end of the chain, changes no
table entry. -/
theorem fatfsWrite_here (hw : Works dev) (hg : g.Ok) (h : Shows g v im)
    (hf : ChainFile g im f l e) (hcur : OnFile f l) (hpos : f.pos = f.size) (hn : 0 < n)
    (hlt : n < 2147483648) (buf : Nat → UInt8) (hcnt : growCnt g f n = none) :
    ∃ v' im', fatfsWrite dev g fuel v buf n f =
        some (v', { f with size := f.size + n, pos := f.pos + n }, n) ∧ Shows g v' im' ∧
      im'.fat = im.fat := by
  have hs := hf.size_lt hg
  obtain ⟨hs0, hin, -⟩ := clustersAsked_none hg ((growCnt_append hpos hs hn hlt).symm.trans hcnt)
  have hc : 2 ≤ f.cblk ∧ f.cblk < 65536 := by
    rcases hcur with hmem | hend | rfl
    · have hct := hf.inTable _ hmem
      exact ⟨hct.two_le, Nat.lt_trans hct.lt (by decide)⟩
    · omega
    · rw [hf.size_eq_zero] at hs0
      exact absurd hs0 (Nat.lt_irrefl 0)
  obtain ⟨m, rfl⟩ : ∃ m, n = m + 1 := ⟨n - 1, by omega⟩
  obtain ⟨v', hr, h'⟩ := fatfsWriteLoop_stay buf hw hg h hc.1 hc.2 hn (hpos ▸ hin) (by omega)
    (by omega) fuel m 0
  refine ⟨v', _, ?_, h', rfl⟩
  rw [fatfsWrite_none buf hcnt, hr, Nat.zero_add]

/-- What a write that asked for clusters and stored something says about its
start. -/
theorem canAppend_of_write (hw : Works dev) (hg : g.Ok) (hfuel : 65536 < fuel)
    (ht : g.cTotal ≤ 65535) (h : Shows g v im) (hf : ChainFile g im f l e) (hcur : OnFile f l)
    (hlt : n < 2147483648) {cnt : Nat} (hcnt : growCnt g f n = some cnt)
    (hr : fatfsWrite dev g fuel v buf n f = some (v', f', r)) (hr0 : 0 < r)
    (hpos' : f'.pos = f.pos + r) (hsize' : f'.size = max f.size (f.pos + r)) :
    CanAppend g im f n := by
  have hs := hf.size_lt hg
  -- otherwise nothing would have been stored
  have hlong : 0 < cnt ∧ cnt ≤ freeCount g im := by
    by_contra hno
    obtain ⟨w, hw', -⟩ := fatfsWrite_short hw hg hfuel h buf hcnt (by omega)
    rw [hr] at hw'
    simp at hw'
    omega
  have hlink : clusterIsValid (clusterT f.sblk) = true →
      clusterIsValid (clusterT f.cblk) = true := by
    intro hsv
    by_contra hno
    obtain ⟨w, im', hw', -⟩ := fatfsWrite_unlinked hw hg hfuel h buf hsv (by simpa using hno) hcnt
      hlong.1 hlong.2
    rw [hr] at hw'
    simp at hw'
    omega
  have hmem := hcur.mem hf hlink
  obtain ⟨incr, hincr, hwrite⟩ := fatfsWrite_some buf dev fuel v hcnt
  obtain ⟨v₁, f₁, im₁, l₁, t, hexp, h₁, hready, -⟩ :=
    expandFile_ready hw hg hfuel h hf hmem hincr hlong.1 hlong.2
  have hs₁ : f₁.size = f.size := by rw [hready.file]
  have hloop := hr
  rw [hwrite, hexp, Option.bind_some] at hloop
  obtain ⟨k, hk, hrk, hcount, -⟩ := fatfsWriteLoop_count hw hg n hlt (by omega) hloop
  rw [Nat.zero_add] at hrk
  subst hrk
  rw [hs₁] at hcount
  have hpos := pos_eq_size hs hr0 (by omega) hcount hsize'
  refine ⟨hpos, hlink, ?_⟩
  obtain ⟨w, fw, imw, hw', -, ⟨hask, -⟩ | ⟨-, hne⟩⟩ :=
    fatfsWrite_extends buf hw hg hfuel h hf hmem hpos (by omega) hlt
      (fun c hc => by
        rw [hcnt] at hc
        obtain rfl := Option.some.inj hc
        exact hlong.2) (.inr ht)
  · exact hask
  · rw [hr] at hw'
    simp only [Option.some.injEq, Prod.mk.injEq] at hw'
    obtain ⟨-, rfl, rfl⟩ := hw'
    exact absurd hpos' hne

/-- The cluster of a position within the file, or what follows the last one. -/
theorem ChainFile.onFile (hf : ChainFile g im f l e) (hle : f.pos ≤ f.size)
    (hcblk : f.cblk = im.fat^[f.pos / g.clusterByteSize] f.sblk) : OnFile f l := by
  have hidx : f.pos / g.clusterByteSize ≤ l.length := by
    refine Nat.div_le_of_le_mul ?_
    rw [Nat.mul_comm]
    exact Nat.le_trans hle hf.size
  rw [hf.path.iterate_eq hidx] at hcblk
  cases hc : l[f.pos / g.clusterByteSize]? with
  | none =>
    rw [hc, Option.getD_none] at hcblk
    by_cases hl : l = []
    · exact .inr (.inr hl)
    · exact .inr (.inl (hcblk ▸ ⟨hf.ends hl, hf.lt⟩))
  | some d =>
    rw [hc, Option.getD_some] at hcblk
    exact .inl (hcblk ▸ List.mem_of_getElem? hc)

/-- A write that asks for no clusters and keeps its promise stood at the end of the
file, in a valid cluster. -/
theorem canAppend_of_overlays_here (hw : Works dev) (hg : g.Ok) (h : Shows g v im)
    (hf : ChainFile g im f l e) (hcur : OnFile f l)
    (hcblk : f.cblk = im.fat^[f.pos / g.clusterByteSize] f.sblk) (hn : 0 < n)
    (hlt : n < 2147483648) (hcnt : growCnt g f n = none)
    (hr : fatfsWrite dev g fuel v buf n f = some (v', f', n))
    (ho : Overlays g im (image g v'.disk) f f' n buf n) : CanAppend g im f n := by
  have hs := hf.size_lt hg
  have hq := hg.clusterByteSize_pos
  have hloop := hr
  rw [fatfsWrite_none buf hcnt] at hloop
  obtain ⟨k, -, hrk, hcount, -⟩ := fatfsWriteLoop_count hw hg n hlt (by omega) hloop
  obtain rfl : n = k := by omega
  have hpos := pos_eq_size hs hn hlt hcount ho.size
  obtain ⟨-, -, hask⟩ := clustersAsked_none hg ((growCnt_append hpos hs hn hlt).symm.trans hcnt)
  refine ⟨hpos, fun _ => ?_, hask ▸ Nat.zero_le _⟩
  -- the chain is as it was, and it holds the cluster of the position now
  obtain ⟨w, im', hw', hsh, hfat⟩ := fatfsWrite_here hw hg h hf hcur hpos hn hlt buf hcnt
  rw [hr] at hw'
  simp only [Option.some.injEq, Prod.mk.injEq] at hw'
  obtain ⟨rfl, rfl, -⟩ := hw'
  have hvalid := ho.holds.valid hq (k := f.pos) (show f.pos < f.size + n by omega)
  rw [hsh.image_eq, hfat] at hvalid
  dsimp only at hvalid
  rw [← hcblk] at hvalid
  rw [clusterT_of_lt (by rw [clusterIsValid_iff] at hvalid; omega)]
  exact hvalid

/-- `fatfs_write` overlays the bytes of a file exactly when it can append. Only
on tables that the 16-bit counter of the scan runs round is the converse left
out. -/
theorem write_overlays_iff (hw : Works dev) (hg : g.Ok) (hfuel : 65536 < fuel)
    (hc : Coherent g v) (hf : ChainFile g (image g v.disk) f l e) (hle : f.pos ≤ f.size)
    (hcblk : f.cblk = (image g v.disk).fat^[f.pos / g.clusterByteSize] f.sblk) (hn : 0 < n)
    (hlt : n < 2147483648) (buf : Nat → UInt8) :
    (CanAppend g (image g v.disk) f n →
      ∃ v' f' r, fatfsWrite dev g fuel v buf n f = some (v', f', r) ∧
        Overlays g (image g v.disk) (image g v'.disk) f f' n buf r) ∧
    (g.cTotal ≤ 65535 →
      (∃ v' f' r, fatfsWrite dev g fuel v buf n f = some (v', f', r) ∧
        Overlays g (image g v.disk) (image g v'.disk) f f' n buf r) →
      CanAppend g (image g v.disk) f n) := by
  have h : Shows g v (image g v.disk) := ⟨rfl, hc⟩
  have hcur := hf.onFile hle hcblk
  constructor
  · intro hcan
    obtain ⟨v', f', im', l₁, b, t, hr, h', hext⟩ :=
      fatfsWrite_append hw hg hfuel h hf hcur hn hlt buf hcan
    obtain rfl := h'.image_eq
    exact ⟨v', f', n, hr, hext.overlays hf hg.clusterByteSize_pos hcan.1 hcblk⟩
  · rintro ht ⟨v', f', r, hr, ho⟩
    obtain rfl := ho.count
    cases hcnt : growCnt g f r with
    | some cnt =>
      exact canAppend_of_write hw hg hfuel ht h hf hcur hlt hcnt hr hn ho.pos ho.size
    | none => exact canAppend_of_overlays_here hw hg h hf hcur hcblk hn hlt hcnt hr ho

/-- The two-cluster volume holds a file of up to 1024 bytes. -/
theorem twoCluster_chainFile {f : File} (hsblk : f.sblk = 2) (hsize : f.size ≤ 1024) :
    ChainFile tinyFat (image tinyFat twoClusterVol.disk) f [2, 3] 0xFFF8 where
  path := by
    rw [hsblk]
    have h₂ : (image tinyFat twoClusterVol.disk).fat 2 = 3 := by decide +kernel
    have h₃ : (image tinyFat twoClusterVol.disk).fat 3 = 0xFFF8 := by decide +kernel
    exact ⟨rfl, h₂, (congrArg _ h₂).trans h₃⟩
  invalid := rfl
  ends := fun _ => Nat.le_refl _
  lt := by decide
  nodup := by decide
  inTable := by decide +kernel
  size := hsize

theorem write_overlays_iff_two :
    ∃ v' f' r, fatfsWrite idealDev tinyFat 65537 twoClusterVol (fun _ => 67) 500
        { twoClusterFile with pos := 600, cblk := 3 } = some (v', f', r) ∧
      Overlays tinyFat (image tinyFat twoClusterVol.disk) (image tinyFat v'.disk)
        { twoClusterFile with pos := 600, cblk := 3 } f' 500 (fun _ => 67) r :=
  (write_overlays_iff idealDev_works tinyFat_ok (by decide) (coherent_uncached rfl)
    (twoCluster_chainFile rfl (by decide)) (by decide) (by decide +kernel) (by decide) (by decide)
    (fun _ => 67)).1 ⟨rfl, fun _ => by decide, by decide +kernel⟩

/-- Ten bytes are stored over the first ones of a file of 600: its size becomes
610. -/
theorem overwriting_grows :
    ChainFile tinyFat (image tinyFat twoClusterVol.disk) twoClusterFile [2, 3] 0xFFF8 ∧
      twoClusterFile.cblk = (image tinyFat twoClusterVol.disk).fat^[
        twoClusterFile.pos / tinyFat.clusterByteSize] twoClusterFile.sblk ∧
      10 ≤ freeCount tinyFat (image tinyFat twoClusterVol.disk) ∧
      ∃ v' f', fatfsWrite idealDev tinyFat 65537 twoClusterVol (fun _ => 67) 10 twoClusterFile =
          some (v', f', 10) ∧ f'.size = 610 ∧
        ¬Overlays tinyFat (image tinyFat twoClusterVol.disk) (image tinyFat v'.disk)
          twoClusterFile f' 10 (fun _ => 67) 10 := by
  have hrun : (fatfsWrite idealDev tinyFat 65537 twoClusterVol (fun _ => 67) 10
      twoClusterFile).map (fun r => (r.2.1.size, r.2.2)) = some (610, 10) := by decide +kernel
  obtain ⟨⟨v', f', r⟩, hwrite, he⟩ := Option.map_eq_some_iff.mp hrun
  obtain ⟨hsize, rfl⟩ : f'.size = 610 ∧ r = 10 := by simpa using he
  refine ⟨twoCluster_chainFile rfl (by decide), by decide +kernel, by decide +kernel, v', f',
    hwrite, hsize, fun ho => ?_⟩
  have hmax := ho.size
  rw [hsize] at hmax
  exact absurd hmax (by decide)

/-- Nothing at all is consistent with the result 0. -/
theorem StaysConsistent.refl (h : Shows g v im) : StaysConsistent im (image g v.disk) f f 0 := by
  rw [h.image_eq]
  exact ⟨rfl, rfl, fun c hz hne => absurd hz hne, fun _ => ⟨rfl, rfl, rfl, rfl, rfl⟩⟩

/-- In the cases of `CanStay` a write is consistent. -/
theorem fatfsWrite_stays (hw : Works dev) (hg : g.Ok) (hfuel : 65536 < fuel) (h : Shows g v im)
    (hf : ChainFile g im f l e) (hcur : OnFile f l) (hlt : n < 2147483648) (buf : Nat → UInt8)
    (hcan : CanStay g im f n) :
    ∃ v' f' r, fatfsWrite dev g fuel v buf n f = some (v', f', r) ∧
      StaysConsistent im (image g v'.disk) f f' r := by
  have hs := hf.size_lt hg
  have hnothing : growCnt g f 0 = none → ∃ v' f' r, fatfsWrite dev g fuel v buf 0 f =
      some (v', f', r) ∧ StaysConsistent im (image g v'.disk) f f' r := by
    intro hnone
    exact ⟨v, f, 0, by rw [fatfsWrite_none buf hnone, fatfsWriteLoop_done], .refl h⟩
  rcases hcan with ⟨hnone, hor⟩ | ⟨cnt, hcnt, hshort⟩ | hcan
  · rcases Nat.eq_zero_or_pos n with rfl | hn
    · exact hnothing hnone
    · have hpos := hor.resolve_left (Nat.ne_of_gt hn)
      obtain ⟨v', im', hr, h', hfat⟩ := fatfsWrite_here hw hg h hf hcur hpos hn hlt buf hnone
      obtain rfl := h'.image_eq
      refine ⟨v', _, n, hr, rfl, ?_, fun c hz hne => absurd (by rw [hfat, hz]) hne,
        fun hz => absurd hz (Nat.ne_of_gt hn)⟩
      rw [if_neg (Nat.ne_of_gt hn), hpos]
      exact (Nat.max_eq_right (Nat.le_add_right _ _)).symm
  · obtain ⟨v', hr, h'⟩ := fatfsWrite_short hw hg hfuel h buf hcnt hshort
    exact ⟨v', f, 0, hr, .refl h'⟩
  · rcases Nat.eq_zero_or_pos n with rfl | hn
    · refine hnothing (if_neg ?_)
      rw [hcan.1, u32_add (by omega)]
      omega
    · obtain ⟨v', f', im', l₁, b, t, hr, h', hext⟩ :=
        fatfsWrite_append hw hg hfuel h hf hcur hn hlt buf hcan
      obtain rfl := h'.image_eq
      exact ⟨v', f', n, hr, hext.consistent hcan.1 hn⟩

/-- A write that was consistent is in one of them. -/
theorem canStay_of_write (hw : Works dev) (hg : g.Ok) (hfuel : 65536 < fuel)
    (ht : g.cTotal ≤ 65535) (h : Shows g v im) (hf : ChainFile g im f l e) (hcur : OnFile f l)
    (hlt : n < 2147483648) (hr : fatfsWrite dev g fuel v buf n f = some (v', f', r))
    (hst : StaysConsistent im (image g v'.disk) f f' r) : CanStay g im f n := by
  have hs := hf.size_lt hg
  have hsize : 0 < r → f'.size = max f.size (f.pos + r) := fun hr0 => by
    rw [hst.size, if_neg (Nat.ne_of_gt hr0)]
  cases hcnt : growCnt g f n with
  | none =>
    refine .inl ⟨hcnt, ?_⟩
    rcases Nat.eq_zero_or_pos n with hz | hn
    · exact .inl hz
    · rw [fatfsWrite_none buf hcnt] at hr
      obtain ⟨k, hk, hrk, hcount, hk0⟩ := fatfsWriteLoop_count hw hg n hlt (by omega) hr
      rw [Nat.zero_add] at hrk
      subst hrk
      exact .inr (pos_eq_size hs (hk0 hn) (by omega) hcount (hsize (hk0 hn)))
  | some cnt =>
    by_cases hshort : cnt = 0 ∨ freeCount g im < cnt
    · exact .inr (.inl ⟨cnt, hcnt, hshort.imp_right fun hlt' => ⟨hlt', ht⟩⟩)
    · have hlong : 0 < cnt ∧ cnt ≤ freeCount g im := by omega
      have hr0 : 0 < r := by
        refine Nat.pos_of_ne_zero fun hz => ?_
        subst hz
        exact fatfsWrite_nothing hw hg hfuel h hf hcur hlt hcnt hlong.1 hlong.2 hr
          (hst.nothing rfl).1
      exact .inr (.inr (canAppend_of_write hw hg hfuel ht h hf hcur hlt hcnt hr hr0 hst.pos
        (hsize hr0)))

/-- What `fatfs_write` leaves is consistent exactly in the cases of `CanStay`,
wherever the file stands. -/
theorem write_consistent_iff (hw : Works dev) (hg : g.Ok) (hfuel : 65536 < fuel)
    (hc : Coherent g v) (hf : ChainFile g (image g v.disk) f l e) (hcur : OnFile f l)
    (hlt : n < 2147483648) (buf : Nat → UInt8) :
    (CanStay g (image g v.disk) f n →
      ∃ v' f' r, fatfsWrite dev g fuel v buf n f = some (v', f', r) ∧
        StaysConsistent (image g v.disk) (image g v'.disk) f f' r) ∧
    (g.cTotal ≤ 65535 →
      (∃ v' f' r, fatfsWrite dev g fuel v buf n f = some (v', f', r) ∧
        StaysConsistent (image g v.disk) (image g v'.disk) f f' r) →
      CanStay g (image g v.disk) f n) := by
  have h : Shows g v (image g v.disk) := ⟨rfl, hc⟩
  constructor
  · exact fatfsWrite_stays hw hg hfuel h hf hcur hlt buf
  · rintro ht ⟨v', f', r, hr, hst⟩
    exact canStay_of_write hw hg hfuel ht h hf hcur hlt hr hst

theorem write_consistent_iff_two :
    ∃ v' f' r, fatfsWrite idealDev tinyFat 65537 twoClusterVol (fun _ => 67) 200000
        { twoClusterFile with cblk := 0xFFF8 } = some (v', f', r) ∧
      StaysConsistent (image tinyFat twoClusterVol.disk) (image tinyFat v'.disk)
        { twoClusterFile with cblk := 0xFFF8 } f' r :=
  (write_consistent_iff idealDev_works tinyFat_ok (by decide) (coherent_uncached rfl)
    (twoCluster_chainFile rfl (by decide)) (.inr (.inl (by decide))) (by decide)
    (fun _ => 67)).1 (.inr (.inl ⟨389, by decide, .inr ⟨by decide +kernel, by decide⟩⟩))

/-- A file of two whole clusters is read to its end, so that the current cluster is
past the last one; the write after it returns 0, and cluster 4 is lost. -/
theorem write_past_chain_leaks :
    ∃ v₁ f₁ buf, fatfsRead idealDev tinyFat 0 twoClusterVol (fun _ => 0) 1024
        { twoClusterFile with size := 1024 } = some (v₁, f₁, buf, 1024) ∧ OnFile f₁ [2, 3] ∧
      ∃ v₂ f₂, fatfsWrite idealDev tinyFat 65537 v₁ (fun _ => 67) 512 f₁ = some (v₂, f₂, 0) ∧
        (image tinyFat v₁.disk).fat 4 = 0 ∧ (image tinyFat v₂.disk).fat 4 ≠ 0 ∧
        ¬StaysConsistent (image tinyFat v₁.disk) (image tinyFat v₂.disk) f₁ f₂ 0 := by
  have hrun : ((fatfsRead idealDev tinyFat 0 twoClusterVol (fun _ => 0) 1024
      { twoClusterFile with size := 1024 }).bind fun r =>
      (fatfsWrite idealDev tinyFat 65537 r.1 (fun _ => 67) 512 r.2.1).map fun w =>
        (r.2.1.cblk, r.2.2.2, (image tinyFat r.1.disk).fat 4, w.2.2,
          (image tinyFat w.1.disk).fat 4)) = some (0xFFF8, 1024, 0, 0, 0xFFF8) := by
    decide +kernel
  obtain ⟨⟨v₁, f₁, buf, n⟩, hread, hrun⟩ := Option.bind_eq_some_iff.mp hrun
  obtain ⟨⟨v₂, f₂, r⟩, hwrite, he⟩ := Option.map_eq_some_iff.mp hrun
  obtain ⟨hcblk, rfl, hold, rfl, hnew⟩ : f₁.cblk = 0xFFF8 ∧ n = 1024 ∧
      (image tinyFat v₁.disk).fat 4 = 0 ∧ r = 0 ∧ (image tinyFat v₂.disk).fat 4 = 0xFFF8 := by
    simpa using he
  refine ⟨v₁, f₁, buf, hread, .inr (.inl (by omega)), v₂, f₂, hwrite, hold,
    hnew ▸ by decide, fun hst => ?_⟩
  rw [(hst.nothing rfl).1, hold] at hnew
  exact absurd hnew (by decide)

end Promises

end Wjos
