/-
Wjos.Tools.List — `kernel/tools/list.c`: the intrusive doubly linked list.

A node is embedded in the object it queues, so an operation changes the
heap of links and the list header together. The functions here take the
heap `h`, the header `l` and the node and return the new heap and header,
statement by statement as in the C code. A store through a null pointer
(`list->last->next` of an empty list whose count is not 0) has no model
and is left out of the heap; `Rep` excludes it.

`Rep h l s` is the abstraction: header and links represent the
duplicate-free sequence `s`. Each operation has one lemma that says what
it does to `s` and one that says which links it leaves alone.
-/
import Wjos.Lib.Queues
import Wjos.Lib.Segment

namespace Wjos

open Lib

variable {ν : Type*}

/-- `list_t`. -/
structure ListT (ν : Type*) where
  first : Option ν
  last : Option ν
  count : Int
  deriving DecidableEq, Repr

/-- `list_init`. -/
def listInit : ListT ν := ⟨none, none, 0⟩

/-- `node_init`. -/
def nodeInit : Links ν := ⟨none, none⟩

section Operations

variable [DecidableEq ν]

/-- The store `node->next = v`. -/
def setNext (h : ν → Links ν) (node : ν) (v : Option ν) : ν → Links ν :=
  Function.update h node { h node with next := v }

/-- The store `node->pre = v`. -/
def setPre (h : ν → Links ν) (node : ν) (v : Option ν) : ν → Links ν :=
  Function.update h node { h node with pre := v }

/-- `list_insert_first`. -/
def listInsertFirst (h : ν → Links ν) (l : ListT ν) (node : ν) : (ν → Links ν) × ListT ν :=
  let h := Function.update h node ⟨none, l.first⟩
  if l.count = 0 then (h, ⟨some node, some node, l.count + 1⟩)
  else
    let h := match l.first with
      | some f => setPre h f (some node)
      | none => h
    (h, ⟨some node, l.last, l.count + 1⟩)

/-- `list_insert_last`. -/
def listInsertLast (h : ν → Links ν) (l : ListT ν) (node : ν) : (ν → Links ν) × ListT ν :=
  let h := Function.update h node ⟨l.last, none⟩
  if l.count = 0 then (h, ⟨some node, some node, l.count + 1⟩)
  else
    let h := match l.last with
      | some p => setNext h p (some node)
      | none => h
    (h, ⟨l.first, some node, l.count + 1⟩)

/-- `list_remove_first`: heap, header and the removed node. -/
def listRemoveFirst (h : ν → Links ν) (l : ListT ν) : (ν → Links ν) × ListT ν × Option ν :=
  if l.count = 0 then (h, l, none)
  else
    match l.first with
    | none => (h, l, none)
    | some node =>
      let first := (h node).next
      let r := match first with
        | none => (h, none)
        | some b => (setPre h b none, l.last)
      (Function.update r.1 node nodeInit, ⟨first, r.2, l.count - 1⟩, some node)

/-- `list_remove_last`: heap, header and the removed node. -/
def listRemoveLast (h : ν → Links ν) (l : ListT ν) : (ν → Links ν) × ListT ν × Option ν :=
  if l.count = 0 then (h, l, none)
  else
    match l.last with
    | none => (h, l, none)
    | some node =>
      let last := (h node).pre
      let r := match last with
        | none => (h, none)
        | some b => (setNext h b none, l.first)
      (Function.update r.1 node nodeInit, ⟨r.2, last, l.count - 1⟩, some node)

/-- `list_remove`. -/
def listRemove (h : ν → Links ν) (l : ListT ν) (node : ν) : (ν → Links ν) × ListT ν :=
  let first := if l.first = some node then (h node).next else l.first
  let last := if l.last = some node then (h node).pre else l.last
  let h := match (h node).pre with
    | some p => setNext h p (h node).next
    | none => h
  let h := match (h node).next with
    | some q => setPre h q (h node).pre
    | none => h
  (Function.update h node nodeInit, ⟨first, last, l.count - 1⟩)

end Operations

/-! ## The abstraction -/

/-- The header `l` and the links of `h` represent the sequence `s`. -/
structure Rep (h : ν → Links ν) (l : ListT ν) (s : List ν) : Prop where
  first_eq : l.first = s.head?
  last_eq : l.last = s.getLast?
  count_eq : l.count = s.length
  nodup : s.Nodup
  seg : Seg h none s none

theorem rep_listInit (h : ν → Links ν) : Rep h listInit ([] : List ν) :=
  ⟨rfl, rfl, rfl, List.nodup_nil, trivial⟩

/-- A list only depends on the links of its members. -/
theorem Rep.congr {h h' : ν → Links ν} {l : ListT ν} {s : List ν} (hr : Rep h l s)
    (heq : ∀ a ∈ s, h' a = h a) : Rep h' l s :=
  ⟨hr.first_eq, hr.last_eq, hr.count_eq, hr.nodup, hr.seg.congr heq⟩

theorem Rep.count_eq_zero {h : ν → Links ν} {l : ListT ν} {s : List ν} (hr : Rep h l s) :
    l.count = 0 ↔ s = [] := by
  rw [hr.count_eq, Int.natCast_eq_zero, List.length_eq_zero_iff]

theorem Rep.count_ne_zero {h : ν → Links ν} {l : ListT ν} {s : List ν} (hr : Rep h l s)
    (hs : s ≠ []) : l.count ≠ 0 :=
  fun h0 => hs (hr.count_eq_zero.mp h0)

/-- Header and links determine the sequence. -/
theorem Rep.unique {h : ν → Links ν} {l : ListT ν} {s t : List ν} (hs : Rep h l s)
    (ht : Rep h l t) : s = t := by
  have hlen : s.length = t.length := by
    have h₁ := hs.count_eq
    have h₂ := ht.count_eq
    omega
  have hhead : s.head? = t.head? := hs.first_eq.symm.trans ht.first_eq
  have key : ∀ (p q : Option ν) (s t : List ν), Seg h p s none → Seg h q t none →
      s.length = t.length → s.head? = t.head? → s = t := by
    intro p q s
    induction s generalizing p q with
    | nil => intro t _ _ hl _; exact (List.length_eq_zero_iff.mp hl.symm).symm
    | cons a s ih =>
      intro t h₁ h₂ hl hh
      cases t with
      | nil => simp at hl
      | cons b t =>
        obtain rfl : a = b := by simpa using hh
        have hn : s.head? = t.head? := by
          have e₁ := h₁.2.1
          have e₂ := h₂.2.1
          rw [Option.or_none] at e₁ e₂
          exact e₁.symm.trans e₂
        rw [ih (some a) (some a) t h₁.2.2 h₂.2.2 (by simpa using hl) hn]
  exact key none none s t hs.seg ht.seg hlen hhead

section OperationLemmas

variable [DecidableEq ν]

@[simp] theorem setNext_of_ne {h : ν → Links ν} {node m : ν} {v : Option ν} (hne : m ≠ node) :
    setNext h node v m = h m := Function.update_of_ne hne _ _

@[simp] theorem setPre_of_ne {h : ν → Links ν} {node m : ν} {v : Option ν} (hne : m ≠ node) :
    setPre h node v m = h m := Function.update_of_ne hne _ _

@[simp] theorem setNext_self (h : ν → Links ν) (node : ν) (v : Option ν) :
    setNext h node v node = { h node with next := v } := Function.update_self ..

@[simp] theorem setPre_self (h : ν → Links ν) (node : ν) (v : Option ν) :
    setPre h node v node = { h node with pre := v } := Function.update_self ..

/-- `list_insert_first` puts a node that is in no list at the front. -/
theorem Rep.insertFirst {h : ν → Links ν} {l : ListT ν} {s : List ν} {node : ν}
    (hr : Rep h l s) (hn : node ∉ s) :
    Rep (listInsertFirst h l node).1 (listInsertFirst h l node).2 (node :: s) := by
  have hcount : l.count + 1 = (node :: s).length := by
    rw [hr.count_eq, List.length_cons]
    omega
  cases s with
  | nil =>
    have hc : l.count = 0 := hr.count_eq_zero.mpr rfl
    have hf : l.first = none := hr.first_eq
    simp only [listInsertFirst, hc, if_true, hf]
    exact ⟨rfl, rfl, rfl, by simp, by simp [seg_singleton]⟩
  | cons a s =>
    have hc : l.count ≠ 0 := hr.count_ne_zero (by simp)
    have hf : l.first = some a := hr.first_eq
    have hna : a ≠ node := fun h0 => hn (by simp [h0])
    have hns : ∀ b ∈ s, b ≠ node := fun b hb h0 => hn (by simp [← h0, hb])
    have has : ∀ b ∈ s, b ≠ a := fun b hb h0 => (List.nodup_cons.mp hr.nodup).1 (h0 ▸ hb)
    simp only [listInsertFirst, hc, if_false, hf]
    refine ⟨rfl, ?_, hcount, List.nodup_cons.mpr ⟨hn, hr.nodup⟩, ?_, ?_, ?_⟩
    · rw [hr.last_eq, List.getLast?_cons_cons]
    · rw [setPre_of_ne hna.symm, Function.update_self]
    · rw [setPre_of_ne hna.symm, Function.update_self]
      rfl
    · refine Seg.relink_first hr.seg (fun b hb => ?_) ?_
      · rw [setPre_of_ne (has b hb), Function.update_of_ne (hns b hb)]
      · rw [setPre_self, Function.update_of_ne hna]

/-- `list_insert_first` leaves the links of all other nodes alone. -/
theorem listInsertFirst_frame {h : ν → Links ν} {l : ListT ν} {s : List ν} {node m : ν}
    (hr : Rep h l s) (hms : m ∉ s) (hm : m ≠ node) : (listInsertFirst h l node).1 m = h m := by
  rw [listInsertFirst]
  cases s with
  | nil => simp [hr.count_eq_zero.mpr rfl, Function.update_of_ne hm]
  | cons a s =>
    have hc : l.count ≠ 0 := hr.count_ne_zero (by simp)
    have hf : l.first = some a := hr.first_eq
    have hma : m ≠ a := fun h0 => hms (by simp [h0])
    simp [hc, hf, hma, Function.update_of_ne hm]

/-- `list_insert_last` appends a node that is in no list. -/
theorem Rep.insertLast {h : ν → Links ν} {l : ListT ν} {s : List ν} {node : ν}
    (hr : Rep h l s) (hn : node ∉ s) :
    Rep (listInsertLast h l node).1 (listInsertLast h l node).2 (s ++ [node]) := by
  rcases List.eq_nil_or_concat s with rfl | ⟨s, a, rfl⟩
  · have hc : l.count = 0 := hr.count_eq_zero.mpr rfl
    have hl : l.last = none := hr.last_eq
    simp only [listInsertLast, hc, if_true, hl]
    exact ⟨rfl, rfl, rfl, by simp, by simp [seg_singleton]⟩
  · rw [List.concat_eq_append] at hr hn ⊢
    have hc : l.count ≠ 0 := hr.count_ne_zero (by simp)
    have hl : l.last = some a := by rw [hr.last_eq]; simp
    have hna : a ≠ node := fun h0 => hn (by simp [h0])
    have hns : ∀ b ∈ s, b ≠ node := fun b hb h0 => hn (by simp [← h0, hb])
    have has : ∀ b ∈ s, b ≠ a := by
      intro b hb h0
      have hd := hr.nodup
      rw [h0] at hb
      exact (List.nodup_append.mp hd).2.2 a hb a (by simp) rfl
    simp only [listInsertLast, hc, if_false, hl]
    refine ⟨?_, by simp, ?_, ?_, ?_⟩
    · rw [hr.first_eq]
      cases s <;> simp
    · simp only [hr.count_eq, List.length_append, List.length_singleton]
      omega
    · rw [List.nodup_append]
      refine ⟨hr.nodup, by simp, ?_⟩
      rintro b hb c hc rfl
      exact hn ((List.mem_singleton.mp hc) ▸ hb)
    · rw [seg_append]
      refine ⟨?_, ?_⟩
      · refine Seg.relink_last hr.seg (fun b hb => ?_) ?_
        · rw [setNext_of_ne (has b hb), Function.update_of_ne (hns b hb)]
        · rw [setNext_self, Function.update_of_ne hna]
          rfl
      · rw [seg_singleton, setNext_of_ne hna.symm, Function.update_self]
        simp

/-- `list_insert_last` leaves the links of all other nodes alone. -/
theorem listInsertLast_frame {h : ν → Links ν} {l : ListT ν} {s : List ν} {node m : ν}
    (hr : Rep h l s) (hms : m ∉ s) (hm : m ≠ node) : (listInsertLast h l node).1 m = h m := by
  rw [listInsertLast]
  by_cases hc : l.count = 0
  · simp [hc, Function.update_of_ne hm]
  · have hne : s ≠ [] := fun h0 => hc (hr.count_eq_zero.mpr h0)
    have hl : l.last = some (s.getLast hne) := by
      rw [hr.last_eq, List.getLast?_eq_getLast_of_ne_nil hne]
    have hml : m ≠ s.getLast hne := fun h0 => hms (h0 ▸ List.getLast_mem hne)
    simp [hc, hl, hml, Function.update_of_ne hm]

/-- `list_remove_first` on an empty list. -/
theorem Rep.removeFirst_nil {h : ν → Links ν} {l : ListT ν} (hr : Rep h l []) :
    listRemoveFirst h l = (h, l, none) := by
  simp [listRemoveFirst, hr.count_eq_zero.mpr rfl]

/-- `list_remove_first` takes off the head. -/
theorem Rep.removeFirst {h : ν → Links ν} {l : ListT ν} {s : List ν} {node : ν}
    (hr : Rep h l (node :: s)) :
    (listRemoveFirst h l).2.2 = some node ∧
      Rep (listRemoveFirst h l).1 (listRemoveFirst h l).2.1 s := by
  have hc : l.count ≠ 0 := hr.count_ne_zero (by simp)
  have hf : l.first = some node := hr.first_eq
  have hnext : (h node).next = s.head? := by simpa using hr.seg.2.1
  have hns : ∀ b ∈ s, b ≠ node := fun b hb h0 => (List.nodup_cons.mp hr.nodup).1 (h0 ▸ hb)
  have hlen : l.count - 1 = s.length := by
    rw [hr.count_eq, List.length_cons]
    omega
  cases s with
  | nil =>
    have hn : (h node).next = none := hnext
    simp only [listRemoveFirst, hc, if_false, hf, hn, true_and]
    exact ⟨rfl, rfl, hlen, List.nodup_nil, trivial⟩
  | cons b s =>
    have hn : (h node).next = some b := hnext
    simp only [listRemoveFirst, hc, if_false, hf, hn, true_and]
    refine ⟨rfl, ?_, hlen, hr.nodup.of_cons, ?_⟩
    · rw [hr.last_eq, List.getLast?_cons_cons]
    · refine Seg.relink_first hr.seg.2.2 (fun c hcs => ?_) ?_
      · have hcb : c ≠ b := by
          intro h0
          have hd := (List.nodup_cons.mp hr.nodup.of_cons).1
          exact hd (h0 ▸ hcs)
        rw [Function.update_of_ne (hns c (by simp [hcs])), setPre_of_ne hcb]
      · rw [Function.update_of_ne (hns b (by simp)), setPre_self]

/-- `list_remove_first` leaves the links of non-members alone. -/
theorem listRemoveFirst_frame {h : ν → Links ν} {l : ListT ν} {s : List ν} {m : ν}
    (hr : Rep h l s) (hm : m ∉ s) : (listRemoveFirst h l).1 m = h m := by
  cases s with
  | nil => rw [hr.removeFirst_nil]
  | cons node s =>
    have hc : l.count ≠ 0 := hr.count_ne_zero (by simp)
    have hf : l.first = some node := hr.first_eq
    have hnext : (h node).next = s.head? := by simpa using hr.seg.2.1
    have hmn : m ≠ node := fun h0 => hm (by simp [h0])
    cases s with
    | nil =>
      have hn : (h node).next = none := hnext
      simp [listRemoveFirst, hc, hf, hn, hmn]
    | cons b s =>
      have hn : (h node).next = some b := hnext
      have hmb : m ≠ b := fun h0 => hm (by simp [h0])
      simp [listRemoveFirst, hc, hf, hn, hmn, hmb]

/-- `list_remove_last` on an empty list. -/
theorem Rep.removeLast_nil {h : ν → Links ν} {l : ListT ν} (hr : Rep h l []) :
    listRemoveLast h l = (h, l, none) := by
  simp [listRemoveLast, hr.count_eq_zero.mpr rfl]

/-- `list_remove_last` takes off the end. -/
theorem Rep.removeLast {h : ν → Links ν} {l : ListT ν} {s : List ν} {node : ν}
    (hr : Rep h l (s ++ [node])) :
    (listRemoveLast h l).2.2 = some node ∧
      Rep (listRemoveLast h l).1 (listRemoveLast h l).2.1 s := by
  have hc : l.count ≠ 0 := hr.count_ne_zero (by simp)
  have hl : l.last = some node := by rw [hr.last_eq, List.getLast?_concat]
  have hpre : (h node).pre = s.getLast? := by
    rw [hr.seg.pre_eq, Option.or_none]
  have hlen : l.count - 1 = s.length := by
    rw [hr.count_eq, List.length_append, List.length_singleton]
    omega
  have hnd := List.nodup_append.mp hr.nodup
  have hns : ∀ b ∈ s, b ≠ node := fun b hb => hnd.2.2 b hb node (by simp)
  rcases List.eq_nil_or_concat s with rfl | ⟨s, b, rfl⟩
  · have hp : (h node).pre = none := hpre
    simp only [listRemoveLast, hc, if_false, hl, hp, true_and]
    exact ⟨rfl, rfl, hlen, List.nodup_nil, trivial⟩
  · rw [List.concat_eq_append] at *
    have hp : (h node).pre = some b := by rw [hpre, List.getLast?_concat]
    have hsb : ∀ c ∈ s, c ≠ b := fun c hcs =>
      (List.nodup_append.mp hnd.1).2.2 c hcs b (by simp)
    simp only [listRemoveLast, hc, if_false, hl, hp, true_and]
    refine ⟨?_, ?_, hlen, hnd.1, ?_⟩
    · rw [hr.first_eq]
      cases s <;> simp
    · rw [List.getLast?_concat]
    · refine Seg.relink_last (seg_append.mp hr.seg).1 (fun c hcs => ?_) ?_
      · rw [Function.update_of_ne (hns c (by simp [hcs])), setNext_of_ne (hsb c hcs)]
      · rw [Function.update_of_ne (hns b (by simp)), setNext_self]

/-- `list_remove_last` leaves the links of non-members alone. -/
theorem listRemoveLast_frame {h : ν → Links ν} {l : ListT ν} {s : List ν} {m : ν}
    (hr : Rep h l s) (hm : m ∉ s) : (listRemoveLast h l).1 m = h m := by
  rcases List.eq_nil_or_concat s with rfl | ⟨s, node, rfl⟩
  · rw [hr.removeLast_nil]
  · rw [List.concat_eq_append] at hr hm
    have hc : l.count ≠ 0 := hr.count_ne_zero (by simp)
    have hl : l.last = some node := by rw [hr.last_eq, List.getLast?_concat]
    have hpre : (h node).pre = s.getLast? := by rw [hr.seg.pre_eq, Option.or_none]
    have hmn : m ≠ node := fun h0 => hm (by simp [h0])
    cases hs : s.getLast? with
    | none =>
      rw [hs] at hpre
      simp [listRemoveLast, hc, hl, hpre, hmn]
    | some b =>
      rw [hs] at hpre
      have hmb : m ≠ b := fun h0 => hm (by simp [h0, List.mem_of_getLast? hs])
      simp [listRemoveLast, hc, hl, hpre, hmn, hmb]

/-- What `list_remove` does to the links of the other nodes: the
neighbours of the removed node are joined, everything else stays. -/
theorem listRemove_links {h : ν → Links ν} {l : ListT ν} {s t : List ν} {node m : ν}
    (hr : Rep h l (s ++ node :: t)) (hm : m ≠ node) :
    (listRemove h l node).1 m =
      { pre := if t.head? = some m then s.getLast? else (h m).pre
        next := if s.getLast? = some m then t.head? else (h m).next } := by
  have hpre : (h node).pre = s.getLast? := by rw [hr.seg.pre_eq, Option.or_none]
  have hnext : (h node).next = t.head? := by rw [hr.seg.next_eq, Option.or_none]
  have hnd := hr.nodup
  simp only [listRemove, hpre, hnext]
  cases hs : s.getLast? with
  | none =>
    cases ht : t.head? with
    | none => simp [hnext, ht, hm]
    | some q =>
      simp only [hnext, ht, hpre, hs]
      by_cases hq : m = q
      · subst hq
        simp [hm]
      · have hq' : ¬ q = m := fun h0 => hq h0.symm
        simp [hm, hq, hq']
  | some p =>
    have hps : p ∈ s := List.mem_of_getLast? hs
    have hpn : node ≠ p := by
      rintro rfl
      exact (List.nodup_append.mp hnd).2.2 node hps node (by simp) rfl
    cases ht : t.head? with
    | none =>
      simp only [setNext_of_ne hpn, hnext, ht]
      by_cases hp : m = p
      · subst hp
        simp [hm]
      · have hp' : ¬ p = m := fun h0 => hp h0.symm
        simp [hm, hp, hp']
    | some q =>
      have hqt : q ∈ t := List.mem_of_head? ht
      have hpq : q ≠ p := by
        rintro rfl
        exact (List.nodup_append.mp hnd).2.2 q hps q (by simp [hqt]) rfl
      simp only [setNext_of_ne hpn, hnext, ht, hpre, hs]
      by_cases hq : m = q
      · subst hq
        have hp' : ¬ p = m := fun h0 => hpq h0.symm
        simp [hm, hpq, hp']
      · have hq' : ¬ q = m := fun h0 => hq h0.symm
        by_cases hp : m = p
        · subst hp
          simp [hm, hq, hq']
        · have hp' : ¬ p = m := fun h0 => hp h0.symm
          simp [hm, hq, hq', hp, hp']

/-- `list_remove` takes a member out of the sequence. -/
theorem Rep.remove {h : ν → Links ν} {l : ListT ν} {s t : List ν} {node : ν}
    (hr : Rep h l (s ++ node :: t)) :
    Rep (listRemove h l node).1 (listRemove h l node).2 (s ++ t) := by
  have hnd := hr.nodup
  have hns : ∀ b ∈ s, b ≠ node := by
    rintro b hb rfl
    exact (List.nodup_append.mp hnd).2.2 b hb b (by simp) rfl
  have hnt : ∀ b ∈ t, b ≠ node := by
    rintro b hb rfl
    exact (List.nodup_cons.mp (List.nodup_append.mp hnd).2.1).1 hb
  have hst : ∀ b ∈ s, ∀ c ∈ t, b ≠ c :=
    fun b hb c hc => (List.nodup_append.mp hnd).2.2 b hb c (by simp [hc])
  have hlinks := fun m (hm : m ≠ node) => listRemove_links (m := m) hr hm
  have hpre : (h node).pre = s.getLast? := by rw [hr.seg.pre_eq, Option.or_none]
  have hnext : (h node).next = t.head? := by rw [hr.seg.next_eq, Option.or_none]
  refine ⟨?_, ?_, ?_, ?_, ?_⟩
  · simp only [listRemove, hr.first_eq, hnext]
    cases s with
    | nil => simp
    | cons a s => simp [hns a (by simp)]
  · simp only [listRemove, hr.last_eq, hpre]
    rcases List.eq_nil_or_concat t with rfl | ⟨t, b, rfl⟩
    · simp
    · have hbn : ¬ b = node := hnt b (by simp)
      have hlast : (node :: (t ++ [b])).getLast? = some b := by
        rw [← List.cons_append, List.getLast?_concat]
      simp [hlast, hbn]
  · simp only [listRemove, hr.count_eq, List.length_append, List.length_cons]
    omega
  · exact (List.nodup_middle.mp hnd).of_cons
  · have hseg := hr.seg
    rw [seg_append] at hseg
    rw [seg_append, Option.or_none]
    rw [Option.or_none] at hseg
    refine ⟨?_, ?_⟩
    · rcases List.eq_nil_or_concat s with rfl | ⟨s, a, rfl⟩
      · trivial
      · rw [List.concat_eq_append] at *
        refine Seg.relink_last hseg.1 (fun b hb => ?_) ?_
        · have hba : ¬ a = b := by
            rintro rfl
            have hd := (List.nodup_append.mp hnd).1
            exact (List.nodup_append.mp hd).2.2 a hb a (by simp) rfl
          have hbt : ¬ t.head? = some b :=
            fun h0 => hst b (by simp [hb]) b (List.mem_of_head? h0) rfl
          rw [hlinks b (hns b (by simp [hb]))]
          simp [hba, hbt]
        · have hat : ¬ t.head? = some a :=
            fun h0 => hst a (by simp) a (List.mem_of_head? h0) rfl
          rw [hlinks a (hns a (by simp))]
          simp [hat]
    · cases t with
      | nil => trivial
      | cons b t =>
        refine Seg.relink_first hseg.2.2.2 (fun c hc => ?_) ?_
        · have hcb : ¬ b = c := by
            rintro rfl
            have hd := (List.nodup_cons.mp (List.nodup_append.mp hnd).2.1).2
            exact (List.nodup_cons.mp hd).1 hc
          have hcs : ¬ s.getLast? = some c :=
            fun h0 => hst c (List.mem_of_getLast? h0) c (by simp [hc]) rfl
          rw [hlinks c (hnt c (by simp [hc]))]
          simp [hcb, hcs]
        · have hbs : ¬ s.getLast? = some b :=
            fun h0 => hst b (List.mem_of_getLast? h0) b (by simp) rfl
          rw [hlinks b (hnt b (by simp))]
          simp [hbs]

/-- `list_remove` leaves the links of non-members alone. -/
theorem listRemove_frame {h : ν → Links ν} {l : ListT ν} {s t : List ν} {node m : ν}
    (hr : Rep h l (s ++ node :: t)) (hm : m ∉ s ++ node :: t) :
    (listRemove h l node).1 m = h m := by
  have hmn : m ≠ node := fun h0 => hm (by simp [h0])
  have hms : ¬ s.getLast? = some m := fun h0 => hm (by simp [List.mem_of_getLast? h0])
  have hmt : ¬ t.head? = some m := fun h0 => hm (by simp [List.mem_of_head? h0])
  rw [listRemove_links hr hmn]
  simp [hms, hmt]

end OperationLemmas

/-! ## Several lists in one heap

The kernel threads a family of lists through one heap: the list at place
`p` links the node `nodeOf p a` of each of its objects. As long as a node
determines its object and no object stands in two lists, an operation on
one list is an operation on the family. -/

section Family

variable {π α : Type*}

/-- Every header of the family represents the queue at its place. -/
def Reps (nodeOf : π → α → ν) (h : ν → Links ν) (hdr : π → ListT ν) (q : π → List α) : Prop :=
  ∀ p, Rep h (hdr p) ((q p).map (nodeOf p))

/-- A node determines the object it is embedded in. -/
def Embeds (nodeOf : π → α → ν) : Prop :=
  ∀ p r a b, nodeOf p a = nodeOf r b → a = b

variable {nodeOf : π → α → ν} {h : ν → Links ν} {hdr : π → ListT ν} {q : π → List α}

theorem Embeds.notMem_map (hinj : Embeds nodeOf) {p r : π} {a : α} (ha : a ∉ q p) :
    nodeOf r a ∉ (q p).map (nodeOf p) := by
  intro hmem
  obtain ⟨b, hb, he⟩ := List.mem_map.mp hmem
  exact ha (hinj p r b a he ▸ hb)

variable [DecidableEq ν] [DecidableEq π] [DecidableEq α]

omit [DecidableEq α] in
/-- `list_insert_last` at place `p` of an object that is in no list. -/
theorem Reps.insertLast (hr : Reps nodeOf h hdr q) (hinj : Embeds nodeOf) (hq : Placed q)
    {p : π} {a : α} (ha : ∀ r, a ∉ q r) :
    Reps nodeOf (listInsertLast h (hdr p) (nodeOf p a)).1
      (Function.update hdr p (listInsertLast h (hdr p) (nodeOf p a)).2) (enqueue q p a) := by
  intro r
  by_cases hrp : r = p
  · subst hrp
    rw [Function.update_self, enqueue_self, List.map_append]
    exact (hr r).insertLast (hinj.notMem_map (ha r))
  · rw [Function.update_of_ne hrp, enqueue_of_ne q a hrp]
    refine (hr r).congr fun m hm => ?_
    obtain ⟨b, hb, rfl⟩ := List.mem_map.mp hm
    refine listInsertLast_frame (hr p) (hinj.notMem_map fun hbp => ?_) ?_
    · exact hrp (hq.apart r p b hb hbp)
    · exact fun he => ha r (hinj _ _ _ _ he ▸ hb)

/-- `list_remove` at place `p` of one of its members. -/
theorem Reps.remove (hr : Reps nodeOf h hdr q) (hinj : Embeds nodeOf) (hq : Placed q)
    {p : π} {a : α} (ha : a ∈ q p) :
    Reps nodeOf (listRemove h (hdr p) (nodeOf p a)).1
      (Function.update hdr p (listRemove h (hdr p) (nodeOf p a)).2) (dequeue q p a) := by
  obtain ⟨s, t, hst⟩ := List.append_of_mem ha
  have hrep : Rep h (hdr p) (s.map (nodeOf p) ++ nodeOf p a :: t.map (nodeOf p)) := by
    have := hr p
    rwa [hst, List.map_append, List.map_cons] at this
  intro r
  by_cases hrp : r = p
  · subst hrp
    rw [Function.update_self, dequeue_self, hq.erase_split hst, List.map_append]
    exact hrep.remove
  · rw [Function.update_of_ne hrp, dequeue_of_ne q a hrp]
    refine (hr r).congr fun m hm => ?_
    obtain ⟨b, hb, rfl⟩ := List.mem_map.mp hm
    refine listRemove_frame hrep ?_
    rw [← List.map_cons, ← List.map_append, ← hst]
    exact hinj.notMem_map fun hbp => hrp (hq.apart r p b hb hbp)

/-- `list_remove_first` at place `p` of a nonempty list. -/
theorem Reps.removeFirst (hr : Reps nodeOf h hdr q) (hinj : Embeds nodeOf) (hq : Placed q)
    {p : π} {a : α} {t : List α} (ha : q p = a :: t) :
    (listRemoveFirst h (hdr p)).2.2 = some (nodeOf p a) ∧
      Reps nodeOf (listRemoveFirst h (hdr p)).1
        (Function.update hdr p (listRemoveFirst h (hdr p)).2.1) (dequeue q p a) := by
  have hrep : Rep h (hdr p) (nodeOf p a :: t.map (nodeOf p)) := by
    have := hr p
    rwa [ha, List.map_cons] at this
  obtain ⟨hres, hrep'⟩ := hrep.removeFirst
  refine ⟨hres, fun r => ?_⟩
  by_cases hrp : r = p
  · subst hrp
    rw [Function.update_self, dequeue_self, ha, List.erase_cons_head]
    exact hrep'
  · rw [Function.update_of_ne hrp, dequeue_of_ne q a hrp]
    refine (hr r).congr fun m hm => ?_
    obtain ⟨b, hb, rfl⟩ := List.mem_map.mp hm
    refine listRemoveFirst_frame hrep ?_
    rw [← List.map_cons, ← ha]
    exact hinj.notMem_map fun hbp => hrp (hq.apart r p b hb hbp)

end Family

end Wjos
