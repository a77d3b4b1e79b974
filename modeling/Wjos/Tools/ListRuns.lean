/-
Wjos.Tools.ListRuns — the intrusive list as a sequence of nodes.

`list_is_sequence` puts the operations of `kernel/tools/list.c` side by side:
what each does to the sequence that header and links represent, what it
returns, and that it stores to no node but the members of the list and the
one it is given. `ListOp.run_refines` carries this along any number of
operations on one list: header and links follow the sequence, and the links
of a node that was never in it stay as they were.
-/
import Wjos.Tools.List

namespace Wjos

open Lib

variable {ν : Type*} [DecidableEq ν] {h : ν → Links ν} {l : ListT ν} {s t : List ν} {node m : ν}

/-! ## What a removed node is left with -/

theorem Rep.removeFirst_cleared (hr : Rep h l (node :: s)) :
    (listRemoveFirst h l).1 node = nodeInit := by
  have hc : l.count ≠ 0 := hr.count_ne_zero (by simp)
  have hf : l.first = some node := hr.first_eq
  simp only [listRemoveFirst, hc, if_false, hf]
  exact Function.update_self ..

theorem Rep.removeLast_cleared (hr : Rep h l (s ++ [node])) :
    (listRemoveLast h l).1 node = nodeInit := by
  have hc : l.count ≠ 0 := hr.count_ne_zero (by simp)
  have hl : l.last = some node := by rw [hr.last_eq, List.getLast?_concat]
  simp only [listRemoveLast, hc, if_false, hl]
  exact Function.update_self ..

theorem listRemove_cleared (h : ν → Links ν) (l : ListT ν) (node : ν) :
    (listRemove h l node).1 node = nodeInit := Function.update_self ..

/-- A member cuts the sequence in two, and is in neither part. -/
theorem erase_member (hnd : s.Nodup) (hn : node ∈ s) :
    ∃ a b, s = a ++ node :: b ∧ s.erase node = a ++ b := by
  obtain ⟨a, b, rfl⟩ := List.append_of_mem hn
  have ha : node ∉ a := fun hna => (List.nodup_append.mp hnd).2.2 node hna node (by simp) rfl
  exact ⟨a, b, rfl, by rw [List.erase_append_right _ ha, List.erase_cons_head]⟩

theorem Rep.remove_member (hr : Rep h l s) (hn : node ∈ s) :
    Rep (listRemove h l node).1 (listRemove h l node).2 (s.erase node) ∧
      ∀ m, m ∉ s → (listRemove h l node).1 m = h m := by
  obtain ⟨a, b, hs, herase⟩ := erase_member hr.nodup hn
  rw [herase]
  rw [hs] at hr ⊢
  exact ⟨hr.remove, fun m hm => listRemove_frame hr hm⟩

/-! ## Every operation -/

/-- Header and links represent `s`: then each operation does to them what it
says it does to the sequence. -/
theorem list_is_sequence (h : ν → Links ν) (l : ListT ν) (s : List ν) (hr : Rep h l s) :
    Rep h listInit ([] : List ν) ∧
    (∀ node, node ∉ s →
      Rep (listInsertFirst h l node).1 (listInsertFirst h l node).2 (node :: s) ∧
        ∀ m, m ∉ s → m ≠ node → (listInsertFirst h l node).1 m = h m) ∧
    (∀ node, node ∉ s →
      Rep (listInsertLast h l node).1 (listInsertLast h l node).2 (s ++ [node]) ∧
        ∀ m, m ∉ s → m ≠ node → (listInsertLast h l node).1 m = h m) ∧
    (s = [] → listRemoveFirst h l = (h, l, none) ∧ listRemoveLast h l = (h, l, none)) ∧
    (∀ node t, s = node :: t →
      (listRemoveFirst h l).2.2 = some node ∧
        Rep (listRemoveFirst h l).1 (listRemoveFirst h l).2.1 t ∧
        (listRemoveFirst h l).1 node = nodeInit ∧
        ∀ m, m ∉ s → (listRemoveFirst h l).1 m = h m) ∧
    (∀ t node, s = t ++ [node] →
      (listRemoveLast h l).2.2 = some node ∧
        Rep (listRemoveLast h l).1 (listRemoveLast h l).2.1 t ∧
        (listRemoveLast h l).1 node = nodeInit ∧
        ∀ m, m ∉ s → (listRemoveLast h l).1 m = h m) ∧
    (∀ node, node ∈ s →
      Rep (listRemove h l node).1 (listRemove h l node).2 (s.erase node) ∧
        (listRemove h l node).1 node = nodeInit ∧
        ∀ m, m ∉ s → (listRemove h l node).1 m = h m) := by
  refine ⟨rep_listInit h, fun node hn => ?_, fun node hn => ?_, ?_, ?_, ?_, fun node hn => ?_⟩
  · exact ⟨hr.insertFirst hn, fun m hms hm => listInsertFirst_frame hr hms hm⟩
  · exact ⟨hr.insertLast hn, fun m hms hm => listInsertLast_frame hr hms hm⟩
  · rintro rfl
    exact ⟨hr.removeFirst_nil, hr.removeLast_nil⟩
  · rintro node t rfl
    obtain ⟨hret, hrep⟩ := hr.removeFirst
    exact ⟨hret, hrep, hr.removeFirst_cleared, fun m hm => listRemoveFirst_frame hr hm⟩
  · rintro t node rfl
    obtain ⟨hret, hrep⟩ := hr.removeLast
    exact ⟨hret, hrep, hr.removeLast_cleared, fun m hm => listRemoveLast_frame hr hm⟩
  · obtain ⟨hrep, hframe⟩ := hr.remove_member hn
    exact ⟨hrep, listRemove_cleared h l node, hframe⟩

/-- Node 7 goes before node 3, in a heap where node 5 links node 9. -/
theorem list_is_sequence_two :
    let h : Nat → Links Nat := fun n => if n = 5 then ⟨none, some 9⟩ else nodeInit
    let r := listInsertLast h listInit 3
    Rep (listInsertFirst r.1 r.2 7).1 (listInsertFirst r.1 r.2 7).2 [7, 3] ∧
      (listInsertFirst r.1 r.2 7).1 5 = ⟨none, some 9⟩ := by
  intro h r
  have hr : Rep r.1 r.2 [3] := (rep_listInit h).insertLast List.not_mem_nil
  obtain ⟨hrep, hframe⟩ := (list_is_sequence r.1 r.2 [3] hr).2.1 7 (by decide)
  exact ⟨hrep, (hframe 5 (by decide) (by decide)).trans rfl⟩

/-! ## Runs of operations on one list -/

/-- A call on a list. -/
inductive ListOp (ν : Type*) where
  | insertFirst (node : ν)
  | insertLast (node : ν)
  | removeFirst
  | removeLast
  | remove (node : ν)

namespace ListOp

/-- The call on the heap and the header. -/
def apply (h : ν → Links ν) (l : ListT ν) : ListOp ν → (ν → Links ν) × ListT ν
  | insertFirst node => listInsertFirst h l node
  | insertLast node => listInsertLast h l node
  | removeFirst => ((listRemoveFirst h l).1, (listRemoveFirst h l).2.1)
  | removeLast => ((listRemoveLast h l).1, (listRemoveLast h l).2.1)
  | remove node => listRemove h l node

/-- The call on the sequence; `none` is a call that its caller must not make. -/
def onSequence (s : List ν) : ListOp ν → Option (List ν)
  | insertFirst node => if node ∈ s then none else some (node :: s)
  | insertLast node => if node ∈ s then none else some (s ++ [node])
  | removeFirst => some s.tail
  | removeLast => some s.dropLast
  | remove node => if node ∈ s then some (s.erase node) else none

/-- The node that a call brings in. -/
def inserted : ListOp ν → Option ν
  | insertFirst node => some node
  | insertLast node => some node
  | _ => none

/-- A node in no sequence that `op` brings nothing of is not stored to. -/
theorem step_refines {op : ListOp ν} (hr : Rep h l s) (hop : op.onSequence s = some t) :
    Rep (op.apply h l).1 (op.apply h l).2 t ∧
      ∀ m, m ∉ s → op.inserted ≠ some m → m ∉ t ∧ (op.apply h l).1 m = h m := by
  cases op with
  | insertFirst node =>
    obtain ⟨hn, ht⟩ := Option.ite_none_left_eq_some.mp hop
    obtain rfl := Option.some.inj ht
    refine ⟨hr.insertFirst hn, fun m hm hne => ?_⟩
    have hmn : m ≠ node := fun h0 => hne (congrArg some h0.symm)
    exact ⟨by simp [hm, hmn], listInsertFirst_frame hr hm hmn⟩
  | insertLast node =>
    obtain ⟨hn, ht⟩ := Option.ite_none_left_eq_some.mp hop
    obtain rfl := Option.some.inj ht
    refine ⟨hr.insertLast hn, fun m hm hne => ?_⟩
    have hmn : m ≠ node := fun h0 => hne (congrArg some h0.symm)
    exact ⟨by simp [hm, hmn], listInsertLast_frame hr hm hmn⟩
  | removeFirst =>
    obtain rfl := Option.some.inj hop
    refine ⟨?_, fun m hm _ => ⟨fun ht => hm (List.mem_of_mem_tail ht), listRemoveFirst_frame hr hm⟩⟩
    cases s with
    | nil =>
      rw [apply, hr.removeFirst_nil]
      exact hr
    | cons node s => exact hr.removeFirst.2
  | removeLast =>
    obtain rfl := Option.some.inj hop
    refine ⟨?_, fun m hm _ =>
      ⟨fun ht => hm (List.dropLast_subset s ht), listRemoveLast_frame hr hm⟩⟩
    rcases List.eq_nil_or_concat s with rfl | ⟨s, node, rfl⟩
    · rw [apply, hr.removeLast_nil]
      exact hr
    · rw [List.concat_eq_append] at hr ⊢
      rw [List.dropLast_concat]
      exact hr.removeLast.2
  | remove node =>
    obtain ⟨hn, ht⟩ := Option.ite_none_right_eq_some.mp hop
    obtain rfl := Option.some.inj ht
    obtain ⟨hrep, hframe⟩ := hr.remove_member hn
    exact ⟨hrep, fun m hm _ => ⟨fun ht => hm (List.mem_of_mem_erase ht), hframe m hm⟩⟩

/-- Any number of calls. -/
theorem run_refines {ops : List (ListOp ν)} (hr : Rep h l s)
    (hops : ops.foldlM onSequence s = some t) :
    let r := ops.foldl (fun (hl : (ν → Links ν) × ListT ν) op => op.apply hl.1 hl.2) (h, l)
    Rep r.1 r.2 t ∧
      ∀ m, m ∉ s → (∀ op ∈ ops, op.inserted ≠ some m) → m ∉ t ∧ r.1 m = h m := by
  induction ops generalizing h l s with
  | nil =>
    obtain rfl : s = t := by simpa using hops
    exact ⟨hr, fun m hm _ => ⟨hm, rfl⟩⟩
  | cons op ops ih =>
    rw [List.foldlM_cons, Option.bind_eq_bind, Option.bind_eq_some_iff] at hops
    obtain ⟨u, hop, hrest⟩ := hops
    obtain ⟨hrep, hframe⟩ := step_refines hr hop
    obtain ⟨hlast, hkeep⟩ := ih hrep hrest
    refine ⟨hlast, fun m hm hne => ?_⟩
    obtain ⟨hmu, heq⟩ := hframe m hm (hne op List.mem_cons_self)
    obtain ⟨hmt, hrun⟩ := hkeep m hmu fun o ho => hne o (List.mem_cons_of_mem op ho)
    exact ⟨hmt, hrun.trans heq⟩

end ListOp

end Wjos
