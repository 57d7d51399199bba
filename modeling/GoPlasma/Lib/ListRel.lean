import Mathlib.Tactic
import Mathlib.Data.List.Forall2

/-!
# Related lists

Two lists whose entries are related position by position (`List.Forall₂`), as the components of
a concrete and an abstract state: looking up a position, replacing an entry and adding one at
the end.
-/

namespace ListRel

variable {α β : Type*} {R : α → β → Prop} {l : List α} {l' : List β}

/-- The entry that is related to the one at position `i`. -/
theorem getElem? (h : List.Forall₂ R l l') {i : ℕ} {x : α} (hx : l[i]? = some x) :
    ∃ y, l'[i]? = some y ∧ R x y := by
  induction h generalizing i with
  | nil => cases hx
  | cons hR _ ih =>
    rcases i with _ | i
    · obtain rfl := Option.some.inj hx
      exact ⟨_, rfl, hR⟩
    · exact ih hx

/-- Every entry has a related one. -/
theorem exists_mem (h : List.Forall₂ R l l') {x : α} (hx : x ∈ l) : ∃ y ∈ l', R x y := by
  obtain ⟨i, hi⟩ := List.mem_iff_getElem?.mp hx
  obtain ⟨y, hy, hxy⟩ := ListRel.getElem? h hi
  exact ⟨y, List.mem_of_getElem? hy, hxy⟩

theorem getElem?_none (h : List.Forall₂ R l l') {i : ℕ} (hx : l[i]? = none) : l'[i]? = none := by
  rw [List.getElem?_eq_none_iff] at hx ⊢
  rw [← h.length_eq]
  exact hx

/-- A position of a list that was just extended is an old one or the new one. -/
theorem getElem?_concat {i : ℕ} {x y : α} (h : (l ++ [y])[i]? = some x) :
    l[i]? = some x ∨ (i = l.length ∧ x = y) := by
  have hlt := (List.getElem?_eq_some_iff.mp h).1
  rw [List.length_append, List.length_singleton] at hlt
  rw [List.getElem?_append] at h
  split at h
  · exact Or.inl h
  · exact Or.inr ⟨by omega, List.mem_singleton.mp (List.mem_of_getElem? h)⟩

/-- Old positions stay. -/
theorem getElem?_concat_of_some {i : ℕ} {x : α} (h : l[i]? = some x) (y : α) :
    (l ++ [y])[i]? = some x := by
  rw [List.getElem?_append_left (List.getElem?_eq_some_iff.mp h).1]
  exact h

/-- Replacing related entries at one position. -/
theorem set (h : List.Forall₂ R l l') {x : α} {y : β} (hxy : R x y) (i : ℕ) :
    List.Forall₂ R (l.set i x) (l'.set i y) := by
  induction h generalizing i with
  | nil => exact .nil
  | cons hR hrest ih =>
    rcases i with _ | i
    · exact .cons hxy hrest
    · exact .cons hR (ih i)

/-- Adding related entries at the end. -/
theorem concat (h : List.Forall₂ R l l') {x : α} {y : β} (hxy : R x y) :
    List.Forall₂ R (l ++ [x]) (l' ++ [y]) :=
  List.rel_append h (.cons hxy .nil)

/-! ## Increasing lists -/

/-- In an increasing list an entry is determined by its number. -/
theorem eq_of_increasing {f : α → ℕ} {l : List α} (h : l.Pairwise fun a a' => f a < f a') {a a' : α}
    (ha : a ∈ l) (ha' : a' ∈ l) (heq : f a = f a') : a = a' := by
  obtain ⟨i, hi, rfl⟩ := List.mem_iff_getElem.mp ha
  obtain ⟨j, hj, rfl⟩ := List.mem_iff_getElem.mp ha'
  have hlt := List.pairwise_iff_getElem.mp h
  rcases Nat.lt_trichotomy i j with hij | rfl | hij
  · have := hlt i j hi hj hij
    omega
  · rfl
  · have := hlt j i hj hi hij
    omega

/-! ## Neighbours -/

/-- Each entry and the next one are related. -/
def Neighbours (R : α → α → Prop) (l : List α) : Prop :=
  ∀ i a a', l[i]? = some a → l[i + 1]? = some a' → R a a'

theorem Neighbours.concat {R : α → α → Prop} (h : Neighbours R l) {x : α}
    (hx : ∀ a, l.getLast? = some a → R a x) : Neighbours R (l ++ [x]) := by
  intro i a a' ha ha'
  rcases Nat.lt_trichotomy (i + 1) l.length with hi | hi | hi
  · rw [List.getElem?_append_left (by omega)] at ha ha'
    exact h i a a' ha ha'
  · -- the last entry and the new one
    rw [List.getElem?_append_left (by omega)] at ha
    rw [List.getElem?_append_right (by omega), hi, Nat.sub_self] at ha'
    obtain rfl := Option.some.inj ha'
    refine hx a ?_
    rw [List.getLast?_eq_getElem?, ← hi]
    exact ha
  · have hlen := (List.getElem?_eq_some_iff.mp ha').1
    rw [List.length_append, List.length_singleton] at hlen
    omega

theorem Neighbours.mid {R : α → α → Prop} {l₁ l₂ : List α} {a a' : α}
    (h : Neighbours R (l₁ ++ a :: a' :: l₂)) : R a a' :=
  h l₁.length a a' (by simp) (by simp)

/-- What goes from each entry to the next one goes from one entry to all that follow. -/
theorem Neighbours.carry {R : α → α → Prop} {P : α → Prop} {l₁ l₂ l₃ : List α} {a a' : α}
    (h : Neighbours R (l₁ ++ a :: (l₂ ++ a' :: l₃))) (ha : P a)
    (hstep : ∀ x, ∀ y ∈ l₂, R x y → P x → P y) : ∃ x, P x ∧ R x a' := by
  induction l₂ generalizing l₁ a with
  | nil => exact ⟨a, ha, h.mid⟩
  | cons b l₂ ih =>
    have hb : P b := hstep a b List.mem_cons_self h.mid ha
    have hrest : Neighbours R ((l₁ ++ [a]) ++ b :: (l₂ ++ a' :: l₃)) := by
      rwa [List.append_assoc]
    exact ih hrest hb fun x y hy => hstep x y (List.mem_cons_of_mem _ hy)

end ListRel
