import Mathlib.Data.Multiset.AddSub
import Mathlib.Order.Lattice

/-! The best `k` of what has been seen so far. Elements come one at a time; when there is
no room for one more, one of the least is let go, which may be the new one. -/
namespace LibProc.Selection

variable {α P : Type} [LinearOrder P] {score : α → P} {k : Nat} {all kept rest dropped : Multiset α} {x w : α}

structure Selected (score : α → P) (k : Nat) (all kept dropped : Multiset α) : Prop where
  parts : all = kept + dropped
  count : kept.card = min all.card k
  best : ∀ a ∈ kept, ∀ b ∈ dropped, score b ≤ score a

theorem selectedNone : Selected score k 0 0 0 :=
  ⟨rfl,by simp,by simp⟩

theorem Selected.undropped (selected : Selected score k all kept dropped) (room : kept.card < k) : dropped = 0 := by
  have sum := congrArg Multiset.card selected.parts
  rw [Multiset.card_add] at sum
  have count := selected.count
  rw [← Multiset.card_eq_zero]
  omega

theorem Selected.admit (selected : Selected score k all kept dropped) (room : kept.card < k) (x : α) :
    Selected score k (x ::ₘ all) (x ::ₘ kept) dropped := by
  have none := selected.undropped room
  have count := selected.count
  refine ⟨by rw [selected.parts, Multiset.cons_add],?_,by simp [none]⟩
  rw [Multiset.card_cons, Multiset.card_cons]
  omega

theorem Selected.replace (selected : Selected score k all kept dropped) (full : kept.card = k)
    (parts : x ::ₘ kept = w ::ₘ rest) (least : ∀ a ∈ x ::ₘ kept, score w ≤ score a) :
    Selected score k (x ::ₘ all) rest (w ::ₘ dropped) := by
  have size := congrArg Multiset.card parts
  rw [Multiset.card_cons, Multiset.card_cons] at size
  have count := selected.count
  refine ⟨?_,?_,?_⟩
  · rw [selected.parts, ← Multiset.cons_add, parts, Multiset.cons_add, Multiset.add_cons]
  · rw [Multiset.card_cons]
    omega
  intro a stays b gone
  have among : a ∈ x ::ₘ kept := parts ▸ Multiset.mem_cons_of_mem stays
  rcases Multiset.mem_cons.mp gone with rfl | before
  · exact least a among
  by_cases old : w ∈ kept
  · exact (selected.best w old b before).trans (least a among)
  · -- The newcomer itself was let go, so what stays was there before.
    have itself : w = x := (Multiset.mem_cons.mp (parts ▸ Multiset.mem_cons_self w rest)).resolve_right old
    subst itself
    rw [Multiset.cons_inj_right] at parts
    exact selected.best a (parts ▸ stays) b before

end LibProc.Selection
