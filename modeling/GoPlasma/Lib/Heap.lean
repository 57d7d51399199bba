import Mathlib.Data.Multiset.MapFold
import Mathlib.Order.Lattice
import Mathlib.Data.Multiset.Range
import Mathlib.Logic.Equiv.Basic
import Mathlib.Tactic.Linarith

/-!
# Binary heaps

A binary min-heap in the positions `1, …, n` of an array: the parent of position `k` is `k / 2`.
A value that moves through the heap is taken out of the array: the position where it belongs for
the moment is a hole. `UpHole` and `DownHole` are what is known while the hole moves up or down;
each has a lemma for one move (`move`) and one for filling the hole (`fill`).
-/

namespace Heap

variable {α : Type*}

/-! ## Entries -/

/-- The entries. -/
def content (h : ℕ → α) (n : ℕ) : Multiset α := (Multiset.range n).map fun k => h (k + 1)

theorem mem_content {h : ℕ → α} {n : ℕ} {a : α} :
    a ∈ content h n ↔ ∃ k, 1 ≤ k ∧ k ≤ n ∧ h k = a := by
  rw [content, Multiset.mem_map]
  constructor
  · rintro ⟨k, hk, rfl⟩
    exact ⟨k + 1, by omega, by have := Multiset.mem_range.mp hk; omega, rfl⟩
  · rintro ⟨k, h1, hn, rfl⟩
    exact ⟨k - 1, Multiset.mem_range.mpr (by omega), by rw [Nat.sub_add_cancel h1]⟩

@[simp] theorem card_content (h : ℕ → α) (n : ℕ) : Multiset.card (content h n) = n := by
  simp [content]

theorem content_succ (h : ℕ → α) (n : ℕ) : content h (n + 1) = h (n + 1) ::ₘ content h n := by
  simp [content, Multiset.range_succ]

theorem content_congr {h h' : ℕ → α} {n : ℕ} (heq : ∀ k, 1 ≤ k → k ≤ n → h k = h' k) :
    content h n = content h' n := by
  apply Multiset.map_congr rfl
  intro k hk
  have := Multiset.mem_range.mp hk
  exact heq (k + 1) (by omega) (by omega)

/-- Writing one position exchanges one entry. -/
theorem content_update (h : ℕ → α) {n i : ℕ} (v : α) (h1 : 1 ≤ i) (hn : i ≤ n) :
    h i ::ₘ content (Function.update h i v) n = v ::ₘ content h n := by
  induction n with
  | zero => omega
  | succ n ih =>
    rw [content_succ, content_succ]
    by_cases hi : i = n + 1
    · subst hi
      rw [Function.update_self, Multiset.cons_swap]
      congr 2
      apply content_congr
      intro k _ hk
      rw [Function.update_of_ne (by omega)]
    · rw [Function.update_of_ne (by omega), Multiset.cons_swap, ih (by omega), Multiset.cons_swap]

/-- The hole moves: the entry of `p` goes to `i`. -/
theorem content_move (h : ℕ → α) {n i p : ℕ} (v : α) (hi : 1 ≤ i ∧ i ≤ n) (hp : 1 ≤ p ∧ p ≤ n)
    (hne : i ≠ p) :
    content (Function.update (Function.update h i (h p)) p v) n
      = content (Function.update h i v) n := by
  have h1 := content_update (Function.update h i (h p)) v hp.1 hp.2
  have h2 := content_update h (h p) hi.1 hi.2
  have h3 := content_update h v hi.1 hi.2
  rw [Function.update_of_ne (Ne.symm hne)] at h1
  -- all three differ from the entries of `h` by one exchange
  apply (Multiset.cons_inj_right (h p)).mp
  apply (Multiset.cons_inj_right (h i)).mp
  rw [h1, Multiset.cons_swap, h2, Multiset.cons_swap (h i), h3, Multiset.cons_swap]

/-! ## Order -/

variable [LinearOrder α]

/-- No entry is before its parent. -/
def Ordered (h : ℕ → α) (n : ℕ) : Prop := ∀ k, 2 ≤ k → k ≤ n → h (k / 2) ≤ h k

/-- The first entry is the least. -/
theorem Ordered.root_le {h : ℕ → α} {n : ℕ} (ho : Ordered h n) {k : ℕ} (hk : 1 ≤ k) (hn : k ≤ n) :
    h 1 ≤ h k := by
  induction k using Nat.strongRecOn with
  | ind k ih =>
    rcases Nat.lt_or_ge k 2 with h2 | h2
    · obtain rfl : k = 1 := by omega
      exact le_rfl
    · exact (ih (k / 2) (by omega) (by omega) (by omega)).trans (ho k h2 hn)

/-! ## Moving up -/

/-- The hole is at `i`, and `v` is not after anything below it. -/
structure UpHole (h : ℕ → α) (n i : ℕ) (v : α) : Prop where
  except : ∀ k, 2 ≤ k → k ≤ n → k ≠ i → k / 2 ≠ i → h (k / 2) ≤ h k
  grand : 2 ≤ i → ∀ k, 2 ≤ k → k ≤ n → k / 2 = i → h (i / 2) ≤ h k
  below : ∀ k, 2 ≤ k → k ≤ n → k / 2 = i → v ≤ h k

theorem UpHole.move {h : ℕ → α} {n i : ℕ} {v : α} (hole : UpHole h n i v) (hi : 2 ≤ i) (hn : i ≤ n)
    (hv : v < h (i / 2)) : UpHole (Function.update h i (h (i / 2))) n (i / 2) v where
  -- the value of the parent moves down into the hole, and the hole up
  except k h2 hk hki hkp := by
    by_cases hk' : k = i
    · exact absurd (congrArg (· / 2) hk') hkp
    · rw [Function.update_of_ne hk']
      by_cases hp : k / 2 = i
      · rw [hp, Function.update_self]
        exact hole.grand hi k h2 hk hp
      · rw [Function.update_of_ne hp]
        exact hole.except k h2 hk hk' hp
  grand hi2 k h2 hk hkp := by
    have hup : h (i / 2 / 2) ≤ h (i / 2) :=
      hole.except (i / 2) hi2 (by omega) (by omega) (by omega)
    rw [Function.update_of_ne (by omega)]
    by_cases hk' : k = i
    · rw [hk', Function.update_self]
      exact hup
    · rw [Function.update_of_ne hk']
      have := hole.except k h2 hk hk' (by omega)
      rw [hkp] at this
      exact hup.trans this
  below k h2 hk hkp := by
    by_cases hk' : k = i
    · rw [hk', Function.update_self]
      exact hv.le
    · rw [Function.update_of_ne hk']
      have := hole.except k h2 hk hk' (by omega)
      rw [hkp] at this
      exact hv.le.trans this

theorem UpHole.fill {h : ℕ → α} {n i : ℕ} {v : α} (hole : UpHole h n i v)
    (hstop : 2 ≤ i → h (i / 2) ≤ v) : Ordered (Function.update h i v) n := by
  intro k h2 hk
  by_cases hk' : k = i
  · subst hk'
    rw [Function.update_self, Function.update_of_ne (by omega)]
    exact hstop h2
  · rw [Function.update_of_ne hk']
    by_cases hp : k / 2 = i
    · rw [hp, Function.update_self]
      exact hole.below k h2 hk hp
    · rw [Function.update_of_ne hp]
      exact hole.except k h2 hk hk' hp

/-! ## Moving down -/

/-- The hole is at `i`, and nothing above it is after `v` or after what is below it. -/
structure DownHole (h : ℕ → α) (n i : ℕ) (v : α) : Prop where
  except : ∀ k, 2 ≤ k → k ≤ n → k ≠ i → k / 2 ≠ i → h (k / 2) ≤ h k
  grand : 2 ≤ i → ∀ k, 2 ≤ k → k ≤ n → k / 2 = i → h (i / 2) ≤ h k
  above : 2 ≤ i → h (i / 2) ≤ v

theorem DownHole.move {h : ℕ → α} {n i c : ℕ} {v : α} (hole : DownHole h n i v) (hi : 1 ≤ i)
    (hc : c / 2 = i) (hn : c ≤ n) (hmin : ∀ k, 2 ≤ k → k ≤ n → k / 2 = i → h c ≤ h k)
    (hv : h c < v) : DownHole (Function.update h i (h c)) n c v where
  except k h2 hk hkc hkp := by
    by_cases hk' : k = i
    · subst hk'
      rw [Function.update_self, Function.update_of_ne (by omega)]
      exact hole.grand h2 c (by omega) hn hc
    · rw [Function.update_of_ne hk']
      by_cases hp : k / 2 = i
      · rw [hp, Function.update_self]
        exact hmin k h2 hk hp
      · rw [Function.update_of_ne hp]
        exact hole.except k h2 hk hk' hp
  grand hc2 k h2 hk hkp := by
    rw [hc, Function.update_self, Function.update_of_ne (by omega)]
    have := hole.except k h2 hk (by omega) (by omega)
    rwa [hkp] at this
  above hc2 := by
    rw [hc, Function.update_self]
    exact hv.le

theorem DownHole.fill {h : ℕ → α} {n i : ℕ} {v : α} (hole : DownHole h n i v)
    (hstop : ∀ k, 2 ≤ k → k ≤ n → k / 2 = i → v ≤ h k) : Ordered (Function.update h i v) n :=
  UpHole.fill ⟨hole.except, hole.grand, hstop⟩ hole.above

end Heap
