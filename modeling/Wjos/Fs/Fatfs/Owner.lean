/-
Wjos.Fs.Fatfs.Owner — no two files share a cluster.

The invariant gives clusters an owner, the directory slot they belong to:
`own c = some i`. Owned clusters are not free and their successors have the
same owner (`OwnFat`); the clusters that an open file or a live entry refers
to are owned by its slot (`OwnFile`, `OwnEntry`). Allocation adds clusters to
one slot, freeing takes all of them from one. Clusters that nobody owns, such as
those of an allocation that could not be linked, are left alone.

A handle keeps its own copy of the first cluster and `fatfs_close` writes it
back, whatever has happened to the slot in the meantime. So ownership is only
kept when no truncation and no unlink frees the chain of a slot that another
handle has open, and no open reads an entry whose chain a truncating handle,
still open, has freed. `ClearStep` says this; the history `staleNext` keeps the
slots with such an entry.
-/
import Mathlib.Data.Set.Insert
import Mathlib.Order.Basic
import Wjos.Fs.Fatfs.DirMap

namespace Wjos

open Lib

/-! ## Ownership of clusters -/

/-- Owned clusters are in use and belong together with their successors. -/
structure OwnFat (im : Image) (own : Nat → Option Nat) : Prop where
  ne_zero : ∀ c i, own c = some i → im.fat c ≠ 0
  ne_one : ∀ c i, own c = some i → im.fat c ≠ 1
  next : ∀ c i, own c = some i → clusterIsValid (im.fat c) = true → own (im.fat c) = some i

/-- Slot `i` has more clusters than before, nobody else has. -/
def Extends (own own' : Nat → Option Nat) (i : Nat) : Prop :=
  ∀ c, own' c = own c ∨ own c = none ∧ own' c = some i

/-- Slot `i` has lost its clusters. -/
def dropOwner (own : Nat → Option Nat) (i : Nat) : Nat → Option Nat :=
  fun c => if own c = some i then none else own c

section Own

variable {own own' own'' : Nat → Option Nat} {im im' : Image} {i j c : Nat}

theorem Extends.refl (own : Nat → Option Nat) (i : Nat) : Extends own own i := fun _ => .inl rfl

theorem Extends.mono (h : Extends own own' i) (hc : own c = some j) : own' c = some j := by
  rcases h c with he | ⟨hn, -⟩
  · rw [he, hc]
  · rw [hc] at hn
    exact absurd hn (by simp)

theorem Extends.trans (h : Extends own own' i) (h' : Extends own' own'' i) :
    Extends own own'' i := fun c => by
  rcases h c with he | ⟨hn, he⟩
  · rw [← he]
    exact h' c
  · exact .inr ⟨hn, h'.mono he⟩

theorem dropOwner_eq_some (h : dropOwner own i c = some j) : own c = some j ∧ j ≠ i := by
  unfold dropOwner at h
  split at h
  · exact absurd h (by simp)
  next hne => exact ⟨h, fun he => hne (he ▸ h)⟩

theorem dropOwner_of_ne (h : own c = some j) (hij : j ≠ i) : dropOwner own i c = some j := by
  rw [dropOwner, if_neg, h]
  rw [h]
  exact fun he => hij (Option.some.inj he)

namespace OwnFat

/-- The successor of an owned cluster is a cluster number or an end mark. -/
theorem two_le_next (h : OwnFat im own) (hc : own c = some i) : 2 ≤ im.fat c := by
  have h₀ := h.ne_zero c i hc
  have h₁ := h.ne_one c i hc
  omega

/-- A chain from an owned cluster has one owner. -/
theorem onFat (h : OwnFat im own) {a : Nat} (ha : own a = some i) (hc : OnFat im.fat a c) :
    own c = some i :=
  hc.closed (P := fun x => own x = some i) (fun x hx hv => h.next x i hx hv) ha

/-- Entries that were free do not count. -/
theorem congr (h : OwnFat im own) (he : ∀ c, im'.fat c = im.fat c ∨ im.fat c = 0) :
    OwnFat im' own := by
  have hsame : ∀ c i, own c = some i → im'.fat c = im.fat c := fun c i hc =>
    (he c).resolve_right (h.ne_zero c i hc)
  refine ⟨fun c i hc => ?_, fun c i hc => ?_, fun c i hc hv => ?_⟩
  · rw [hsame c i hc]
    exact h.ne_zero c i hc
  · rw [hsame c i hc]
    exact h.ne_one c i hc
  · rw [hsame c i hc] at hv ⊢
    exact h.next c i hc hv

/-- An owned cluster made to point to a cluster of the same owner. -/
theorem setNext {g : Fat} (h : OwnFat im own) {x : Nat} (hc : own c = some i)
    (hx : own x = some i) (hv : clusterIsValid x = true) : OwnFat (im.setNext g c x) own := by
  by_cases ht : InTable g c
  · have hfat := setNext_fat g im ht x
    have hx2 := (clusterIsValid_iff.mp hv).1
    have hcase : ∀ d, (im.setNext g c x).fat d = if d = c then x else im.fat d := fun d => by
      rw [hfat, Function.update_apply]
    refine ⟨fun d k hd => ?_, fun d k hd => ?_, fun d k hd hvd => ?_⟩
    · rw [hcase]
      split
      · omega
      · exact h.ne_zero d k hd
    · rw [hcase]
      split
      · omega
      · exact h.ne_one d k hd
    · rw [hcase] at hvd ⊢
      split at hvd
      next hdc =>
        subst hdc
        rw [if_pos rfl, hx, ← hc, hd]
      next hdc =>
        rw [if_neg hdc]
        exact h.next d k hd hvd
  · rw [Image.setNext, if_neg ht]
    exact h

/-- Freeing a chain that slot `i` owns. -/
theorem free (h : OwnFat im own) {a : Nat} (ha : own a = some i) (hf : Freed im im' a) :
    OwnFat im' (dropOwner own i) := by
  have hsame : ∀ c j, dropOwner own i c = some j → im'.fat c = im.fat c := fun c j hc => by
    obtain ⟨hcj, hji⟩ := dropOwner_eq_some hc
    rcases hf.fat c with he | ⟨-, hon⟩
    · exact he
    · rw [h.onFat ha hon] at hcj
      exact absurd (Option.some.inj hcj).symm hji
  refine ⟨fun c j hc => ?_, fun c j hc => ?_, fun c j hc hv => ?_⟩
  · rw [hsame c j hc]
    exact h.ne_zero c j (dropOwner_eq_some hc).1
  · rw [hsame c j hc]
    exact h.ne_one c j (dropOwner_eq_some hc).1
  · rw [hsame c j hc] at hv ⊢
    obtain ⟨hcj, hji⟩ := dropOwner_eq_some hc
    exact dropOwner_of_ne (h.next c j hcj hv) hji

open Classical in
/-- Newly allocated clusters given to slot `i`. -/
theorem alloc {g : Fat} {v : Volume} (hs : Shows g v im) (h : OwnFat im own) {r : Nat}
    (ha : Alloced im im' r) (i : Nat) :
    ∃ own', OwnFat im' own' ∧ Extends own own' i ∧
      (clusterIsValid r = true → own' r = some i) := by
  cases ha with
  | failed hr _ _ hfat =>
    refine ⟨own, h.congr hfat, Extends.refl own i, fun hv => ?_⟩
    rw [hr] at hv
    exact absurd hv (by decide)
  | done S _ _ hfree hother hnext hr =>
    have hS : ∀ c, S c → (if S c then some i else own c) = some i := fun c hc => if_pos hc
    have hnS : ∀ c j, own c = some j → ¬S c := fun c j hc hSc =>
      h.ne_zero c j hc (hfree c hSc)
    have hvalid : ∀ c, S c → 2 ≤ c := fun c hc =>
      (inTable_of_fat_zero hs (hfree c hc)).two_le
    have hnew : ∀ c, S c → 2 ≤ im'.fat c := fun c hc => by
      rcases hnext c hc with hn | he
      · exact hvalid _ hn
      · rw [he]
        decide
    have hold : ∀ c j, ¬S c → (if S c then some i else own c) = some j → own c = some j :=
      fun c j hc he => by rwa [if_neg hc] at he
    refine ⟨fun c => if S c then some i else own c, ⟨fun c j hc => ?_, fun c j hc => ?_,
      fun c j hc hv => ?_⟩, fun c => ?_, fun _ => hS r hr⟩
    · by_cases hSc : S c
      · have := hnew c hSc
        omega
      · rw [hother c hSc]
        exact h.ne_zero c j (hold c j hSc hc)
    · by_cases hSc : S c
      · have := hnew c hSc
        omega
      · rw [hother c hSc]
        exact h.ne_one c j (hold c j hSc hc)
    · by_cases hSc : S c
      · rw [if_pos hSc] at hc
        rcases hnext c hSc with hn | he
        · rw [if_pos hn, hc]
        · rw [he] at hv
          exact absurd hv (by decide)
      · have hcj := hold c j hSc hc
        rw [hother c hSc] at hv ⊢
        have hn := h.next c j hcj hv
        rw [if_neg (hnS _ j hn), hn]
    · by_cases hSc : S c
      · refine .inr ⟨?_, if_pos hSc⟩
        cases ho : own c with
        | none => rfl
        | some j => exact absurd hSc (hnS c j ho)
      · exact .inl (if_neg hSc)

end OwnFat

end Own

/-! ## Open files -/

/-- The clusters of a file that is open on slot `i`. A file without clusters
may hold 0 or 1 for its first cluster; it is then empty, and no transfer takes
place before it has got a cluster. -/
structure OwnFile (g : Fat) (own : Nat → Option Nat) (i : Nat) (f : File) : Prop where
  pIndex : f.pIndex = i
  lt : i < g.rootEntCnt
  sblk_lt : f.sblk < 65536
  cblk_lt : f.cblk < 65536
  size_lt : f.size < 4294967296
  sblk : clusterIsValid f.sblk = true → own f.sblk = some i
  cblk : clusterIsValid f.cblk = true → own f.cblk = some i
  start : 2 ≤ f.sblk ∧ 2 ≤ f.cblk ∨
    f.cblk = f.sblk ∧ f.size = 0 ∧ f.pos < g.clusterByteSize

theorem OwnFile.mono {g : Fat} {own own' : Nat → Option Nat} {i : Nat} {f : File}
    (h : OwnFile g own i f) (hm : ∀ c, own c = some i → own' c = some i) :
    OwnFile g own' i f :=
  { h with sblk := fun hv => hm _ (h.sblk hv), cblk := fun hv => hm _ (h.cblk hv) }

section Files

variable {dev : Dev} {g : Fat} {fuel : Nat} {v v' : Volume} {im : Image}
  {own : Nat → Option Nat} {i : Nat} {f f' : File} {err : Int}

/-- How `expand_file` can end. -/
theorem expandFile_cases {incr : Int} (hr : expandFile dev g fuel v f incr = some (v', f', err)) :
    (expandCnt g f.size incr = none ∧ v' = v ∧ f' = f ∧ err = 0) ∨
      ∃ cnt v₁ start, expandCnt g f.size incr = some cnt ∧
        clusterAllocFree dev g fuel v cnt = some (v₁, start) ∧
        (clusterIsValid start = false ∧ v' = v₁ ∧ f' = f ∧ err = -1 ∨
          clusterIsValid start = true ∧ clusterIsValid (clusterT f.sblk) = false ∧ v' = v₁ ∧
            f' = { f with cblk := start, sblk := start } ∧ err = 0 ∨
          clusterIsValid start = true ∧ clusterIsValid (clusterT f.sblk) = true ∧ f' = f ∧
            ∃ e, clusterSetNext dev g v₁ (clusterT f.cblk) start = (v', e) ∧
              err = if e < 0 then -1 else 0) := by
  unfold expandFile at hr
  cases hcnt : expandCnt g f.size incr with
  | none =>
    rw [hcnt] at hr
    simp only [Option.some.injEq, Prod.mk.injEq] at hr
    obtain ⟨rfl, rfl, rfl⟩ := hr
    exact .inl ⟨rfl, rfl, rfl, rfl⟩
  | some cnt =>
    rw [hcnt] at hr
    obtain ⟨⟨v₁, start⟩, halloc, hr⟩ := Option.map_eq_some_iff.mp hr
    refine .inr ⟨cnt, v₁, start, rfl, halloc, ?_⟩
    dsimp only at hr
    cases hs : clusterIsValid start with
    | false =>
      rw [if_pos hs] at hr
      simp only [Prod.mk.injEq] at hr
      obtain ⟨rfl, rfl, rfl⟩ := hr
      exact .inl ⟨rfl, rfl, rfl, rfl⟩
    | true =>
      rw [if_neg (by simp [hs])] at hr
      cases hb : clusterIsValid (clusterT f.sblk) with
      | false =>
        rw [if_pos hb] at hr
        simp only [Prod.mk.injEq] at hr
        obtain ⟨rfl, rfl, rfl⟩ := hr
        exact .inr (.inl ⟨rfl, rfl, rfl, rfl, rfl⟩)
      | true =>
        rw [if_neg (by simp [hb])] at hr
        generalize hset : clusterSetNext dev g v₁ (clusterT f.cblk) start = x at hr
        obtain ⟨v₂, e⟩ := x
        simp only [Prod.mk.injEq] at hr
        obtain ⟨rfl, rfl, rfl⟩ := hr
        exact .inr (.inr ⟨rfl, rfl, rfl, e, rfl, rfl⟩)

/-- What a call that extends slot `i` may have done. -/
structure Grew (g : Fat) (im : Image) (own : Nat → Option Nat) (i : Nat) (v' : Volume)
    (im' : Image) (own' : Nat → Option Nat) (f' : File) : Prop where
  shows : Shows g v' im'
  dir : im'.dir = im.dir
  fat : OwnFat im' own'
  extends' : Extends own own' i
  file : OwnFile g own' i f'

theorem expandFile_own (hw : Works dev) (hg : g.Ok) (h : Shows g v im) (ho : OwnFat im own)
    (hf : OwnFile g own i f) {incr : Int}
    (hr : expandFile dev g fuel v f incr = some (v', f', err)) :
    ∃ im' own', Grew g im own i v' im' own' f' ∧ f'.size = f.size ∧ f'.pos = f.pos ∧
      (0 ≤ err → 2 ≤ f'.sblk ∧ 2 ≤ f'.cblk) := by
  rcases expandFile_cases hr with ⟨hcnt, rfl, rfl, rfl⟩ | ⟨cnt, v₁, start, -, halloc, hcase⟩
  · refine ⟨im, own, ⟨h, rfl, ho, Extends.refl own i, hf⟩, rfl, rfl, fun _ => ?_⟩
    rcases hf.start with hs | ⟨-, hz, -⟩
    · exact hs
    · simp [expandCnt, hz] at hcnt
  · obtain ⟨im₁, h₁, halloced⟩ := clusterAllocFree_shows hw hg h halloc
    obtain ⟨own', ho', hext, hstart⟩ := ho.alloc h halloced i
    have hdir : im₁.dir = im.dir := by cases halloced <;> assumption
    have hf' : OwnFile g own' i f := hf.mono fun c hc => hext.mono hc
    rcases hcase with ⟨-, rfl, rfl, rfl⟩ | ⟨hv, -, rfl, rfl, rfl⟩ | ⟨hv, hb, rfl, e, hset, rfl⟩
    · exact ⟨im₁, own', ⟨h₁, hdir, ho', hext, hf'⟩, rfl, rfl, fun he => absurd he (by decide)⟩
    · obtain ⟨hs2, hs8⟩ := clusterIsValid_iff.mp hv
      refine ⟨im₁, own', ⟨h₁, hdir, ho', hext, ?_⟩, rfl, rfl, fun _ => ⟨hs2, hs2⟩⟩
      exact { hf' with
        sblk_lt := by dsimp only; omega
        cblk_lt := by dsimp only; omega
        sblk := fun _ => hstart hv
        cblk := fun _ => hstart hv
        start := .inl ⟨hs2, hs2⟩ }
    · rw [clusterT_of_lt hf.cblk_lt] at hset
      rw [clusterT_of_lt hf.sblk_lt] at hb
      obtain ⟨v₂, e', hset', h₂, -, -⟩ := clusterSetNext_shows hw hg h₁ f'.cblk (x := start)
        (by have := (clusterIsValid_iff.mp hv).2; omega)
      obtain ⟨rfl, rfl⟩ := Prod.mk.inj (hset.symm.trans hset')
      have hsettled : 2 ≤ f'.sblk ∧ 2 ≤ f'.cblk := by
        have hs2 := (clusterIsValid_iff.mp hb).1
        rcases hf.start with hs | ⟨he, -⟩
        · exact hs
        · exact ⟨hs2, he ▸ hs2⟩
      refine ⟨_, own', ⟨h₂, hdir, ?_, hext, hf'⟩, rfl, rfl, fun _ => hsettled⟩
      cases hc : clusterIsValid f'.cblk with
      | true => exact ho'.setNext (hf'.cblk hc) (hstart hv) hv
      | false =>
        have hn : ¬InTable g f'.cblk := fun ht => by simp [ht.valid] at hc
        rw [Image.setNext, if_neg hn]
        exact ho'

/-- Following the table from a file's cluster stays with the file. -/
theorem next_own (h : Shows g v im) (ho : OwnFat im own) {c : Nat}
    (hc : clusterIsValid c = true → own c = some i) :
    2 ≤ im.fat c ∧ im.fat c < 65536 ∧
      (clusterIsValid (im.fat c) = true → own (im.fat c) = some i) := by
  refine ⟨?_, fat_lt h c, fun hv => ?_⟩
  · cases hv : clusterIsValid c with
    | true => exact ho.two_le_next (hc hv)
    | false =>
      rw [fat_of_not_inTable h fun ht => by simp [ht.valid] at hv]
      decide
  · cases hvc : clusterIsValid c with
    | true => exact ho.next c i (hc hvc) hv
    | false =>
      rw [fat_of_not_inTable h fun ht => by simp [ht.valid] at hvc] at hv
      exact absurd hv (by decide)

/-- The file moved to another position and cluster of its own. -/
theorem OwnFile.move (hf : OwnFile g own i f) (hs : 2 ≤ f.sblk) {c pos : Nat} (h₂ : 2 ≤ c)
    (hlt : c < 65536) (hc : clusterIsValid c = true → own c = some i) :
    OwnFile g own i { f with cblk := c, pos := pos } :=
  { hf with cblk_lt := hlt, cblk := hc, start := .inl ⟨hs, h₂⟩ }

theorem moveFilePos_own (hw : Works dev) (hg : g.Ok) (h : Shows g v im) (ho : OwnFat im own)
    (hf : OwnFile g own i f) (hset : 2 ≤ f.sblk ∧ 2 ≤ f.cblk) {n : Nat} {expand : Bool}
    (hr : moveFilePos dev g fuel v f n expand = some (v', f', err)) :
    ∃ im' own', Grew g im own i v' im' own' f' ∧ (0 ≤ err → 2 ≤ f'.sblk ∧ 2 ≤ f'.cblk) := by
  unfold moveFilePos at hr
  dsimp only at hr
  split at hr
  · rw [clusterT_of_lt hf.cblk_lt] at hr
    obtain ⟨v₁, hget, h₁⟩ := clusterGetNext_shows hw hg h f.cblk
    obtain ⟨hn2, hnlt, hnown⟩ := next_own h ho hf.cblk
    rw [hget] at hr
    dsimp only at hr
    split at hr
    · obtain ⟨⟨v₂, f₂, e₂⟩, hexp, hr⟩ := Option.map_eq_some_iff.mp hr
      obtain ⟨im₂, own₂, hgrew, -, -, hset₂⟩ := expandFile_own hw hg h₁ ho hf hexp
      dsimp only at hr
      split at hr
      · simp only [Prod.mk.injEq] at hr
        obtain ⟨rfl, rfl, rfl⟩ := hr
        exact ⟨im₂, own₂, hgrew, fun he => absurd he (by decide)⟩
      next he =>
        obtain ⟨hs₂, hc₂⟩ := hset₂ (Int.not_lt.mp he)
        rw [clusterT_of_lt hgrew.file.cblk_lt] at hr
        obtain ⟨v₃, hget₃, h₃⟩ := clusterGetNext_shows hw hg hgrew.shows f₂.cblk
        obtain ⟨hn2', hnlt', hnown'⟩ := next_own hgrew.shows hgrew.fat hgrew.file.cblk
        rw [hget₃] at hr
        simp only [Prod.mk.injEq] at hr
        obtain ⟨rfl, rfl, rfl⟩ := hr
        exact ⟨im₂, own₂, ⟨h₃, hgrew.dir, hgrew.fat, hgrew.extends',
          hgrew.file.move hs₂ hn2' hnlt' hnown'⟩, fun _ => ⟨hs₂, hn2'⟩⟩
    · simp only [Option.some.injEq, Prod.mk.injEq] at hr
      obtain ⟨rfl, rfl, rfl⟩ := hr
      exact ⟨im, own, ⟨h₁, rfl, ho, Extends.refl own i, hf.move hset.1 hn2 hnlt hnown⟩,
        fun _ => ⟨hset.1, hn2⟩⟩
  · simp only [Option.some.injEq, Prod.mk.injEq] at hr
    obtain ⟨rfl, rfl, rfl⟩ := hr
    exact ⟨im, own, ⟨h, rfl, ho, Extends.refl own i,
      hf.move hset.1 hset.2 hf.cblk_lt hf.cblk⟩, fun _ => hset⟩

theorem Grew.trans {im₁ : Image} {own₁ : Nat → Option Nat} {v₁ : Volume} {f₁ : File}
    (h : Grew g im own i v₁ im₁ own₁ f₁) {im₂ : Image} {own₂ : Nat → Option Nat}
    (h' : Grew g im₁ own₁ i v' im₂ own₂ f') : Grew g im own i v' im₂ own₂ f' :=
  ⟨h'.shows, h'.dir.trans h.dir, h'.fat, h.extends'.trans h'.extends', h'.file⟩

theorem fatfsWriteLoop_own (hw : Works dev) (hg : g.Ok) (buf : Nat → UInt8) (n : Nat) {r : Nat} :
    ∀ {v : Volume} {im : Image} {own : Nat → Option Nat} {f : File} {total nbytes : Nat},
      Shows g v im → OwnFat im own → OwnFile g own i f →
      (2 ≤ f.sblk ∧ 2 ≤ f.cblk ∨ nbytes = 0) → nbytes < 2147483648 →
      fatfsWriteLoop dev g fuel buf n v f total nbytes = some (v', f', r) →
      ∃ im' own', Grew g im own i v' im' own' f' := by
  induction n with
  | zero =>
    intro v im own f total nbytes h ho hf _ _ hr
    rw [fatfsWriteLoop] at hr
    split at hr
    · exact absurd hr (by simp)
    · simp only [Option.some.injEq, Prod.mk.injEq] at hr
      obtain ⟨rfl, rfl, rfl⟩ := hr
      exact ⟨im, own, h, rfl, ho, Extends.refl own i, hf⟩
  | succ n ih =>
    intro v im own f total nbytes h ho hf hset hn hr
    rw [fatfsWriteLoop] at hr
    split at hr
    next hpos =>
      have hset := hset.resolve_right (Nat.ne_of_gt hpos)
      obtain ⟨v₁, e₁, hwc, he₁, h₁⟩ :=
        writeCluster_shows hw hg h hset.2 hf.cblk_lt hn total buf
      rw [hwc] at hr
      dsimp only at hr
      rw [if_neg (Int.not_lt.mpr he₁)] at hr
      obtain ⟨⟨v₂, f₂, e₂⟩, hmove, hr⟩ := Option.bind_eq_some_iff.mp hr
      have hf₁ : OwnFile g own i
          { f with size := u32 (f.size + (min nbytes (g.clusterByteSize -
            f.pos % g.clusterByteSize) : Nat)) } :=
        { hf with size_lt := by dsimp only; exact u32_lt _, start := .inl hset }
      obtain ⟨im₂, own₂, hgrew, hset₂⟩ := moveFilePos_own hw hg h₁
        (ho.congr fun c => .inl rfl) hf₁ hset hmove
      have hgrew' : Grew g im own i v₂ im₂ own₂ f₂ :=
        ⟨hgrew.shows, hgrew.dir, hgrew.fat, hgrew.extends', hgrew.file⟩
      dsimp only at hr
      split at hr
      · simp only [Option.some.injEq, Prod.mk.injEq] at hr
        obtain ⟨rfl, rfl, rfl⟩ := hr
        exact ⟨im₂, own₂, hgrew'⟩
      next he =>
        obtain ⟨im₃, own₃, hgrew₃⟩ := ih hgrew.shows hgrew.fat hgrew.file
          (.inl (hset₂ (Int.not_lt.mp he))) (by omega) hr
        exact ⟨im₃, own₃, hgrew'.trans hgrew₃⟩
    next =>
      simp only [Option.some.injEq, Prod.mk.injEq] at hr
      obtain ⟨rfl, rfl, rfl⟩ := hr
      exact ⟨im, own, h, rfl, ho, Extends.refl own i, hf⟩

theorem fatfsWrite_own (hw : Works dev) (hg : g.Ok) (h : Shows g v im) (ho : OwnFat im own)
    (hf : OwnFile g own i f) {buf : Nat → UInt8} {size r : Nat} (hsize : size < 2147483648)
    (hr : fatfsWrite dev g fuel v buf size f = some (v', f', r)) :
    ∃ im' own', Grew g im own i v' im' own' f' := by
  unfold fatfsWrite at hr
  split at hr
  · obtain ⟨⟨v₁, f₁, e₁⟩, hexp, hr⟩ := Option.bind_eq_some_iff.mp hr
    obtain ⟨im₁, own₁, hgrew, -, -, hset⟩ := expandFile_own hw hg h ho hf hexp
    dsimp only at hr
    split at hr
    · simp only [Option.some.injEq, Prod.mk.injEq] at hr
      obtain ⟨rfl, rfl, rfl⟩ := hr
      exact ⟨im₁, own₁, hgrew⟩
    next he =>
      obtain ⟨im₂, own₂, hgrew₂⟩ := fatfsWriteLoop_own hw hg buf size hgrew.shows hgrew.fat
        hgrew.file (.inl (hset (Int.not_lt.mp he))) hsize hr
      exact ⟨im₂, own₂, hgrew.trans hgrew₂⟩
  next hle =>
    refine fatfsWriteLoop_own hw hg buf size h ho hf ?_ hsize hr
    rcases hf.start with hs | ⟨-, hz, hpos⟩
    · exact .inl hs
    · -- an empty file: only an empty write fits into it
      have hcbs := hg.clusterByteSize_le
      rw [hz, u32_add (by omega)] at hle
      exact .inr (by omega)

/-- What the loop of `fatfs_seek` ends with, from cluster `cur` at `currPos`. -/
structure SeekEnd (g : Fat) (own : Nat → Option Nat) (i cur currPos move pos c : Nat) :
    Prop where
  lt : c < 65536
  own_eq : clusterIsValid c = true → own c = some i
  two_le : 2 ≤ cur → 2 ≤ c
  low : cur < 2 → c = cur ∧ (currPos = 0 → move < 4294967296 → pos < g.clusterByteSize)

theorem fatfsSeekLoop_own (hw : Works dev) (hg : g.Ok) (ho : OwnFat im own) (n : Nat)
    {o : Option (Nat × Nat)} :
    ∀ {v : Volume} {cur currPos move : Nat}, Shows g v im →
      (clusterIsValid cur = true → own cur = some i) → cur < 65536 →
      fatfsSeekLoop dev g n v cur currPos move = some (v', o) →
      Shows g v' im ∧ ∀ pos c, o = some (pos, c) → SeekEnd g own i cur currPos move pos c := by
  have hpos := hg.clusterByteSize_pos
  induction n with
  | zero =>
    intro v cur currPos move h hown hlt hr
    rw [fatfsSeekLoop] at hr
    split at hr
    · exact absurd hr (by simp)
    · simp only [Option.some.injEq, Prod.mk.injEq] at hr
      obtain ⟨rfl, rfl⟩ := hr
      refine ⟨h, fun pos c he => ?_⟩
      obtain ⟨rfl, rfl⟩ := Prod.mk.inj (Option.some.inj he)
      exact ⟨hlt, hown, id, fun _ => ⟨rfl, fun hz _ => hz ▸ hpos⟩⟩
  | succ n ih =>
    intro v cur currPos move h hown hlt hr
    rw [fatfsSeekLoop] at hr
    split at hr
    · dsimp only at hr
      split at hr
      next hsmall =>
        simp only [Option.some.injEq, Prod.mk.injEq] at hr
        obtain ⟨rfl, rfl⟩ := hr
        refine ⟨h, fun pos c he => ?_⟩
        obtain ⟨rfl, rfl⟩ := Prod.mk.inj (Option.some.inj he)
        refine ⟨hlt, hown, id, fun _ => ⟨rfl, fun hz hm => ?_⟩⟩
        subst hz
        rw [Nat.zero_mod] at hsmall
        exact hsmall
      · obtain ⟨v₁, hget, h₁⟩ := clusterGetNext_shows hw hg h cur
        obtain ⟨hn2, hnlt, hnown⟩ := next_own h ho hown
        rw [hget] at hr
        dsimp only at hr
        split at hr
        next hnv =>
          simp only [Option.some.injEq, Prod.mk.injEq] at hr
          obtain ⟨rfl, rfl⟩ := hr
          exact ⟨h₁, fun pos c he => absurd he (by simp)⟩
        next hv =>
          obtain ⟨h', hend⟩ := ih h₁ hnown hnlt hr
          refine ⟨h', fun pos c he => ?_⟩
          have hs := hend pos c he
          refine ⟨hs.lt, hs.own_eq, fun _ => hs.two_le hn2, fun hlow => ?_⟩
          have hn : ¬InTable g cur := fun ht => Nat.not_le_of_lt hlow ht.two_le
          rw [fat_of_not_inTable h hn] at hv
          exact absurd (by decide) hv
    · simp only [Option.some.injEq, Prod.mk.injEq] at hr
      obtain ⟨rfl, rfl⟩ := hr
      refine ⟨h, fun pos c he => ?_⟩
      obtain ⟨rfl, rfl⟩ := Prod.mk.inj (Option.some.inj he)
      exact ⟨hlt, hown, id, fun _ => ⟨rfl, fun hz _ => hz ▸ hpos⟩⟩

theorem fatfsSeek_own (hw : Works dev) (hg : g.Ok) (h : Shows g v im) (ho : OwnFat im own)
    (hf : OwnFile g own i f) {offset : Nat} {dir : Int} (hoff : offset < 4294967296)
    (hr : fatfsSeek dev g v f offset dir = some (v', f', err)) :
    Shows g v' im ∧ OwnFile g own i f' := by
  unfold fatfsSeek at hr
  split at hr
  · simp only [Option.some.injEq, Prod.mk.injEq] at hr
    obtain ⟨rfl, rfl, rfl⟩ := hr
    exact ⟨h, hf⟩
  · rw [clusterT_of_lt hf.cblk_lt] at hr
    obtain ⟨⟨v₁, o⟩, hloop, hr⟩ := Option.map_eq_some_iff.mp hr
    obtain ⟨h₁, hend⟩ := fatfsSeekLoop_own hw hg ho offset h hf.cblk hf.cblk_lt hloop
    cases o with
    | none =>
      simp only [Prod.mk.injEq] at hr
      obtain ⟨rfl, rfl, rfl⟩ := hr
      exact ⟨h₁, hf⟩
    | some pc =>
      obtain ⟨pos, c⟩ := pc
      simp only [Prod.mk.injEq] at hr
      obtain ⟨rfl, rfl, rfl⟩ := hr
      have hs := hend pos c rfl
      refine ⟨h₁, { hf with cblk_lt := hs.lt, cblk := hs.own_eq, start := ?_ }⟩
      dsimp only
      rcases hf.start with ⟨hs2, hc2⟩ | ⟨he, hz, hp⟩
      · exact .inl ⟨hs2, hs.two_le hc2⟩
      · rcases Nat.lt_or_ge f.cblk 2 with hlow | hge
        · obtain ⟨hce, hpc⟩ := hs.low hlow
          exact .inr ⟨hce.trans he, hz, hpc rfl hoff⟩
        · exact .inl ⟨he ▸ hge, hs.two_le hge⟩

end Files

end Wjos
