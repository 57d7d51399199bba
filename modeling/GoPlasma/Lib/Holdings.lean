import Mathlib.Tactic
import Mathlib.Algebra.BigOperators.Group.List.Basic

/-!
# Lists of holdings

A table gives each index an entry, and each entry an owner. `Lists` says that a list names what one
owner has in the table, each index once, and `total` adds up an amount over the list. Replacing one
entry of the table changes the two in one of four ways: the owner gains the index, loses it, keeps
it with another entry, or has nothing to do with it.
-/

namespace Holdings

variable {ι ε ο : Type*} [DecidableEq ι] {owner : ε → ο} {a : ο} {table : ι → Option ε}
  {l : List ι} {i : ι} {e e₀ : ε} {amount : ε → ℤ}

/-- The entry at an index is one of the owner's. -/
def Owned (owner : ε → ο) (a : ο) (table : ι → Option ε) (i : ι) : Prop :=
  ∃ e, table i = some e ∧ owner e = a

/-- The list names the indices of the owner, each once. -/
structure Lists (owner : ε → ο) (a : ο) (table : ι → Option ε) (l : List ι) : Prop where
  nodup : l.Nodup
  mem : ∀ i, i ∈ l ↔ Owned owner a table i

/-- The sum of an amount over the entries of a list. -/
def total (amount : ε → ℤ) (table : ι → Option ε) (l : List ι) : ℤ :=
  (l.map fun i => (table i).elim 0 amount).sum

/-! ## Ownership -/

theorem owned_update_self : Owned owner a (Function.update table i (some e)) i ↔ owner e = a := by
  simp [Owned]

theorem owned_update_of_ne {j : ι} (h : j ≠ i) :
    Owned owner a (Function.update table i (some e)) j ↔ Owned owner a table j := by
  simp [Owned, h]

theorem Lists.gain (h : Lists owner a table l) (hi : ¬ Owned owner a table i) (he : owner e = a) :
    Lists owner a (Function.update table i (some e)) (l ++ [i]) where
  nodup := by
    refine List.nodup_append.mpr ⟨h.nodup, List.nodup_singleton i, ?_⟩
    rintro j hj k hk rfl
    rw [List.mem_singleton.mp hk] at hj
    exact hi ((h.mem i).mp hj)
  mem j := by
    rw [List.mem_append, List.mem_singleton, h.mem]
    by_cases hj : j = i
    · simp [hj, owned_update_self, he]
    · simp [hj, owned_update_of_ne hj]

theorem Lists.lose (h : Lists owner a table l) (he : owner e ≠ a) :
    Lists owner a (Function.update table i (some e)) (l.filter fun j => j ≠ i) where
  nodup := h.nodup.filter _
  mem j := by
    rw [List.mem_filter, h.mem]
    by_cases hj : j = i
    · simp [hj, owned_update_self, he]
    · simp [hj, owned_update_of_ne hj]

theorem Lists.replace (h : Lists owner a table l) (hi : Owned owner a table i ↔ owner e = a) :
    Lists owner a (Function.update table i (some e)) l where
  nodup := h.nodup
  mem j := by
    rw [h.mem]
    by_cases hj : j = i
    · rw [hj, hi, owned_update_self]
    · rw [owned_update_of_ne hj]

/-! ## Totals -/

omit [DecidableEq ι] in
theorem total_nonneg (h : ∀ e, 0 ≤ amount e) (table : ι → Option ε) (l : List ι) :
    0 ≤ total amount table l := by
  apply List.sum_nonneg
  intro x hx
  obtain ⟨i, -, rfl⟩ := List.mem_map.mp hx
  cases table i with
  | none => exact le_refl _
  | some e => exact h e

/-- Entries that are not in the list do not count. -/
theorem total_update_of_notMem (h : i ∉ l) :
    total amount (Function.update table i (some e)) l = total amount table l := by
  unfold total
  congr 1
  refine List.map_congr_left fun j hj => ?_
  have hne : j ≠ i := fun heq => h (heq ▸ hj)
  rw [Function.update_of_ne hne]

theorem total_of_mem (h : i ∈ l) :
    total amount table l = (table i).elim 0 amount + total amount table (l.erase i) :=
  (List.sum_map_erase _ h).symm

theorem total_gain (h : i ∉ l) :
    total amount (Function.update table i (some e)) (l ++ [i]) =
      total amount table l + amount e := by
  rw [← total_update_of_notMem (e := e) h]
  simp [total]

theorem total_lose (hl : l.Nodup) (h : i ∈ l) (hi : table i = some e₀) :
    total amount (Function.update table i (some e)) (l.filter fun j => j ≠ i) =
      total amount table l - amount e₀ := by
  have herase : (l.filter fun j => decide (j ≠ i)) = l.erase i := by
    rw [hl.erase_eq_filter]
    refine List.filter_congr fun j _ => ?_
    by_cases hj : j = i
    · simp [hj]
    · simp [hj]
  rw [herase, total_update_of_notMem (hl.not_mem_erase), total_of_mem h, hi]
  change _ = amount e₀ + _ - amount e₀
  ring

theorem total_replace (hl : l.Nodup) (h : i ∈ l) (hi : table i = some e₀) :
    total amount (Function.update table i (some e)) l =
      total amount table l - amount e₀ + amount e := by
  rw [total_of_mem h, total_of_mem h, total_update_of_notMem hl.not_mem_erase, hi,
    Function.update_self]
  change amount e + _ = amount e₀ + _ - amount e₀ + amount e
  ring

end Holdings
