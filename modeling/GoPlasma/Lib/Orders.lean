import Mathlib.Tactic
import Mathlib.Data.Finset.Card

/-!
# Orders of a finite set

The lists that have every element of a set once: what iterating over a set or a map can give, where
the order is not determined. It is determined exactly if there is one element at most
(`Orders.eq_of_card_le`, `Orders.card_le_of_reverse`).
-/

/-- A list of the elements of a set, each of them once. -/
def Orders {α : Type*} [DecidableEq α] (s : Finset α) (l : List α) : Prop :=
  l.Nodup ∧ l.toFinset = s

namespace Orders

variable {α : Type*} [DecidableEq α] {s : Finset α} {l l' : List α}

theorem exists_orders (s : Finset α) : ∃ l, Orders s l :=
  ⟨s.toList, s.nodup_toList, s.toList_toFinset⟩

theorem length_eq (h : Orders s l) : l.length = s.card := by
  rw [← h.2, List.toFinset_card_of_nodup h.1]

theorem reverse (h : Orders s l) : Orders s l.reverse :=
  ⟨List.nodup_reverse.mpr h.1, by rw [List.toFinset_reverse, h.2]⟩

theorem perm (h : Orders s l) (h' : Orders s l') : l.Perm l' := by
  refine (List.perm_ext_iff_of_nodup h.1 h'.1).mpr fun a => ?_
  rw [← List.mem_toFinset, ← List.mem_toFinset, h.2, h'.2]

/-- The order of one element or none. -/
theorem eq_of_card_le (h : Orders s l) (h' : Orders s l') (hs : s.card ≤ 1) : l = l' := by
  have hperm := h.perm h'
  have hlen := h.length_eq
  rcases l with _ | ⟨x, _ | ⟨y, l⟩⟩
  · exact hperm.nil_eq
  · exact (List.singleton_perm.mp hperm)
  · rw [List.length_cons, List.length_cons] at hlen
    omega

/-- A list of two different elements or more is not its own reverse. -/
theorem card_le_of_reverse (h : Orders s l) (hrev : l.reverse = l) : s.card ≤ 1 := by
  rw [← h.length_eq]
  by_contra hlen
  have h0 : 0 < l.length := by omega
  have hlast : l.length - 1 < l.length := by omega
  have hget : l[l.length - 1] = l[0] := by
    have := List.getElem_reverse (l := l) (i := 0) (by rw [List.length_reverse]; exact h0)
    simp only [hrev, Nat.sub_zero] at this
    exact this.symm
  have := (h.1.getElem_inj_iff).mp hget
  omega

end Orders
