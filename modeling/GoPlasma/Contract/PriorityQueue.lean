import GoPlasma.Contract.Solidity
import GoPlasma.Lib.Heap

/-!
# `PriorityQueue.sol`

The queue of pending exits: a binary heap in the positions from 1 of an array, with a zero at
position 0. A loop runs on a number of rounds that is never used up. At the end stands what the
rest of the development uses: `insert` adds an entry, `getMin` answers with the least entry, and
`delMin` removes it.
-/

namespace GoPlasma.Contract

/-- `PriorityQueue` -/
structure PriorityQueue where
  heapList : List ℕ
  currentSize : ℕ
deriving DecidableEq

namespace PriorityQueue

/-- The constructor. -/
def new : PriorityQueue := ⟨[0], 0⟩

/-- `heapList[i]` -/
def load (h : List ℕ) (i : ℕ) : Sol ℕ :=
  match h[i]? with
  | none => .error .invalid
  | some x => .ok x

/-- `heapList[i] = x` -/
def store (h : List ℕ) (i x : ℕ) : Sol (List ℕ) :=
  if i < h.length then .ok (h.set i x) else .error .invalid

/-- `minChild` -/
def minChild (h : List ℕ) (currentSize i : ℕ) : Sol ℕ :=
  if currentSize < i * 2 + 1 then .ok (i * 2)
  else do
    let left ← load h (i * 2)
    let right ← load h (i * 2 + 1)
    .ok (if left < right then i * 2 else i * 2 + 1)

/-- The loop of `percUp`: from position `i` there are at most `i` rounds. -/
def percUpLoop (newVal : ℕ) : ℕ → List ℕ → ℕ → Sol (List ℕ × ℕ)
  | 0, h, i => .ok (h, i)
  | n + 1, h, i => do
      let parent ← load h (i / 2)
      if newVal < parent then do
        let h ← store h i parent
        percUpLoop newVal n h (i / 2)
      else .ok (h, i)

/-- `percUp` -/
def percUp (h : List ℕ) (j : ℕ) : Sol (List ℕ) := do
  let newVal ← load h j
  let (h, i) ← percUpLoop newVal j h j
  if i ≠ j then store h i newVal else .ok h

/-- The loop of `percDown`: there are at most `currentSize` rounds. -/
def percDownLoop (newVal currentSize : ℕ) : ℕ → List ℕ → ℕ → Sol (List ℕ × ℕ)
  | 0, h, i => .ok (h, i)
  | n + 1, h, i => do
      let mc ← minChild h currentSize i
      if mc ≤ currentSize then do
        let child ← load h mc
        if child < newVal then do
          let h ← store h i child
          percDownLoop newVal currentSize n h mc
        else .ok (h, i)
      else .ok (h, i)

/-- `percDown` -/
def percDown (h : List ℕ) (currentSize j : ℕ) : Sol (List ℕ) := do
  let newVal ← load h j
  let (h, i) ← percDownLoop newVal currentSize currentSize h j
  if i ≠ j then store h i newVal else .ok h

/-- `insert` -/
def insert (k : ℕ) (q : PriorityQueue) : Sol PriorityQueue := do
  let h ← percUp (q.heapList ++ [k]) (q.currentSize + 1)
  .ok ⟨h, q.currentSize + 1⟩

/-- `getMin` -/
def getMin (q : PriorityQueue) : Sol ℕ := load q.heapList 1

/-- `delMin` -/
def delMin (q : PriorityQueue) : Sol (ℕ × PriorityQueue) := do
  let retVal ← load q.heapList 1
  let last ← load q.heapList q.currentSize
  let h ← store q.heapList 1 last
  let h ← store h q.currentSize 0
  require (1 ≤ q.currentSize)
  let h ← percDown h (q.currentSize - 1) 1
  .ok (retVal, ⟨h.dropLast, q.currentSize - 1⟩)

/-! ## The invariant -/

/-- The value at a position. -/
def entry (h : List ℕ) (i : ℕ) : ℕ := h.getD i 0

/-- The array is a heap of `currentSize` entries behind a zero. -/
structure WF (q : PriorityQueue) : Prop where
  length : q.heapList.length = q.currentSize + 1
  zero : entry q.heapList 0 = 0
  ordered : Heap.Ordered (entry q.heapList) q.currentSize

/-- The entries. -/
def entries (q : PriorityQueue) : Multiset ℕ :=
  Heap.content (entry q.heapList) q.currentSize

theorem wf_new : WF new where
  length := rfl
  zero := rfl
  ordered k h2 hk := by
    change k ≤ 0 at hk
    omega

theorem entries_new : entries new = 0 := rfl

theorem load_eq {h : List ℕ} {i : ℕ} (hi : i < h.length) :
    load h i = .ok (entry h i) := by
  rw [load, entry, List.getD_eq_getElem?_getD, List.getElem?_eq_getElem hi]
  rfl

theorem store_eq {h : List ℕ} {i : ℕ} (hi : i < h.length) (x : ℕ) :
    store h i x = .ok (h.set i x) := if_pos hi

theorem entry_set {h : List ℕ} {i : ℕ} (hi : i < h.length) (x : ℕ) :
    entry (h.set i x) = Function.update (entry h) i x := by
  funext k
  simp only [entry, List.getD_eq_getElem?_getD, List.getElem?_set, Function.update_apply]
  by_cases hk : i = k
  · subst hk
    simp [hi]
  · simp [hk, Ne.symm hk]

/-! ## Insertion -/

/-- What a loop leaves for the hole at `i` and the value that goes there. -/
structure Filled (n newVal : ℕ) (m : Multiset ℕ) (h : List ℕ) (i : ℕ) : Prop where
  length : n < h.length
  pos : 1 ≤ i
  le : i ≤ n
  zero : entry h 0 = 0
  ordered : Heap.Ordered (Function.update (entry h) i newVal) n
  content : Heap.content (Function.update (entry h) i newVal) n = m

theorem percUpLoop_spec {newVal n j i : ℕ} {h : List ℕ} (hlen : n < h.length) (hi : 1 ≤ i)
    (hn : i ≤ n) (hj : i ≤ j) (hzero : entry h 0 = 0) (hole : Heap.UpHole (entry h) n i newVal) :
    ∃ h' i', percUpLoop newVal j h i = .ok (h', i') ∧ h'.length = h.length ∧ i' ≤ i ∧
      (i' = i → h' = h) ∧
      Filled n newVal (Heap.content (Function.update (entry h) i newVal) n) h' i' := by
  induction j generalizing h i with
  | zero => omega
  | succ j ih =>
    rw [percUpLoop, load_eq (by omega)]
    change ∃ h' i', (if newVal < entry h (i / 2) then _ else _) = _ ∧ _
    split_ifs with hlt
    · -- position 0 holds a zero, so `i` has a parent in the heap
      have hi2 : 2 ≤ i := by
        by_contra hcon
        rw [show i / 2 = 0 by omega, hzero] at hlt
        omega
      have hset := entry_set (h := h) (i := i) (by omega) (entry h (i / 2))
      obtain ⟨h', i', hl, hlen', hle, -, hfilled⟩ :=
        ih (h := h.set i (entry h (i / 2))) (i := i / 2) (by simpa using hlen) (by omega) (by omega)
          (by omega) (by rw [hset, Function.update_of_ne (by omega), hzero])
          (by rw [hset]; exact hole.move hi2 hn hlt)
      rw [hset, Heap.content_move _ _ ⟨hi, hn⟩ ⟨by omega, by omega⟩ (by omega)] at hfilled
      refine ⟨h', i', ?_, by simpa using hlen', by omega, fun h' => by omega, hfilled⟩
      rw [store_eq (by omega)]
      exact hl
    · exact ⟨h, i, rfl, rfl, le_rfl, fun _ => rfl, hlen, hi, hn, hzero,
        hole.fill fun _ => not_lt.mp hlt, rfl⟩

/-- Writing the value into the hole, which is not needed where the hole has not moved. -/
theorem Filled.write {n newVal j i : ℕ} {m : Multiset ℕ} {h₀ h : List ℕ}
    (hf : Filled n newVal m h i) (hv : entry h₀ j = newVal) (hlen : h.length = h₀.length)
    (hsame : i = j → h = h₀) :
    ∃ h', (if i ≠ j then store h i newVal else .ok h) = .ok h' ∧ h'.length = h₀.length ∧
      entry h' 0 = 0 ∧ Heap.Ordered (entry h') n ∧ Heap.content (entry h') n = m := by
  have hpos := hf.pos
  have hi : i < h.length := lt_of_le_of_lt hf.le hf.length
  have hset := entry_set hi newVal
  by_cases hij : i = j
  · have hself : Function.update (entry h) i newVal = entry h := by
      rw [Function.update_eq_self_iff, hsame hij, hij, hv]
    rw [if_neg (not_not.mpr hij)]
    refine ⟨h, rfl, hlen, hf.zero, ?_, ?_⟩
    · rw [← hself]
      exact hf.ordered
    · rw [← hself]
      exact hf.content
  · rw [if_pos hij, store_eq hi]
    refine ⟨_, rfl, by rw [List.length_set, hlen], ?_, ?_, ?_⟩
    · rw [hset, Function.update_of_ne (by omega), hf.zero]
    · rw [hset]
      exact hf.ordered
    · rw [hset]
      exact hf.content

/-- `insert` adds an entry. -/
theorem WF.insert {q : PriorityQueue} (hq : WF q) (k : ℕ) :
    ∃ q', PriorityQueue.insert k q = .ok q' ∧ WF q' ∧ entries q' = k ::ₘ entries q := by
  have hlen := hq.length
  have hl : (q.heapList ++ [k]).length = q.currentSize + 2 := by simp [hlen]
  have hlast : entry (q.heapList ++ [k]) (q.currentSize + 1) = k := by
    simp [entry, List.getD_eq_getElem?_getD, hlen]
  have hbefore : ∀ i ≤ q.currentSize, entry (q.heapList ++ [k]) i = entry q.heapList i := by
    intro i hi
    simp [entry, List.getD_eq_getElem?_getD, List.getElem?_append,
      show i < q.heapList.length by omega]
  -- at the end there is nothing below the hole
  have hole : Heap.UpHole (entry (q.heapList ++ [k])) (q.currentSize + 1)
    (q.currentSize + 1) k := by
    refine ⟨fun i h2 hi hne _ => ?_, fun _ i _ hi hp => by omega, fun i _ hi hp => by omega⟩
    rw [hbefore i (by omega), hbefore (i / 2) (by omega)]
    exact hq.ordered i h2 (by omega)
  obtain ⟨h₁, i, hloop, hlen₁, -, hsame, hfilled⟩ := percUpLoop_spec (j := q.currentSize + 1)
    (by omega) (by omega) le_rfl le_rfl (by rw [hbefore 0 (by omega), hq.zero]) hole
  obtain ⟨h₂, hwrite, hlen₂, hzero, hord, hcont⟩ := hfilled.write hlast hlen₁ hsame
  refine ⟨⟨h₂, q.currentSize + 1⟩, ?_, ⟨by rw [hlen₂, hl], hzero, hord⟩, ?_⟩
  · rw [PriorityQueue.insert, percUp, load_eq (by omega), hlast]
    exact bind_eq_ok.mpr ⟨h₂, bind_eq_ok.mpr ⟨k, rfl, bind_eq_ok.mpr ⟨_, hloop, hwrite⟩⟩, rfl⟩
  · change Heap.content (entry h₂) (q.currentSize + 1) = _
    have hself : Function.update (entry (q.heapList ++ [k])) (q.currentSize + 1) k
        = entry (q.heapList ++ [k]) := by
      rw [Function.update_eq_self_iff, hlast]
    rw [hcont, hself, Heap.content_succ, hlast]
    congr 1
    exact Heap.content_congr fun i _ hi => hbefore i hi

/-! ## Removal -/

/-- `minChild` of a position with a child in the heap. -/
theorem minChild_spec {h : List ℕ} {n i : ℕ} (hlen : n < h.length) (hi : i * 2 ≤ n) :
    ∃ c, minChild h n i = .ok c ∧ c / 2 = i ∧ c ≤ n ∧
      ∀ k, 2 ≤ k → k ≤ n → k / 2 = i → entry h c ≤ entry h k := by
  rw [minChild]
  split_ifs with hone
  · refine ⟨i * 2, rfl, by omega, hi, fun k _ hk hp => ?_⟩
    rw [show k = i * 2 by omega]
  · rw [load_eq (by omega), load_eq (by omega)]
    refine ⟨if entry h (i * 2) < entry h (i * 2 + 1) then i * 2 else i * 2 + 1, rfl, ?_, ?_, ?_⟩
    · split_ifs
      · omega
      · omega
    · split_ifs
      · omega
      · omega
    · intro k _ hk hp
      have hk' : k = i * 2 ∨ k = i * 2 + 1 := by omega
      split_ifs with hlt
      · rcases hk' with rfl | rfl
        · exact le_rfl
        · exact hlt.le
      · rcases hk' with rfl | rfl
        · exact not_lt.mp hlt
        · exact le_rfl

theorem percDownLoop_spec {newVal n r i : ℕ} {h : List ℕ} (hlen : n < h.length) (hi : 1 ≤ i)
    (hn : i ≤ n) (hr : n < i + r) (hzero : entry h 0 = 0)
    (hole : Heap.DownHole (entry h) n i newVal) :
    ∃ h' i', percDownLoop newVal n r h i = .ok (h', i') ∧ h'.length = h.length ∧ i ≤ i' ∧
      (i' = i → h' = h) ∧
      Filled n newVal (Heap.content (Function.update (entry h) i newVal) n) h' i' := by
  induction r generalizing h i with
  | zero => omega
  | succ r ih =>
    rw [percDownLoop]
    by_cases hchild : i * 2 ≤ n
    · obtain ⟨c, hc, hci, hcn, hmin⟩ := minChild_spec hlen hchild
      rw [hc]
      change ∃ h' i', (if c ≤ n then _ else _) = _ ∧ _
      rw [if_pos hcn, load_eq (by omega)]
      change ∃ h' i', (if entry h c < newVal then _ else _) = _ ∧ _
      split_ifs with hlt
      -- the smaller child moves up, and the hole takes its place
      · have hset := entry_set (h := h) (i := i) (by omega) (entry h c)
        obtain ⟨h', i', hl, hlen', hle, -, hfilled⟩ :=
          ih (h := h.set i (entry h c)) (i := c) (by simpa using hlen) (by omega) hcn (by omega)
            (by rw [hset, Function.update_of_ne (by omega), hzero])
            (by rw [hset]; exact hole.move hi hci hcn hmin hlt)
        rw [hset, Heap.content_move _ _ ⟨hi, hn⟩ ⟨by omega, hcn⟩ (by omega)] at hfilled
        refine ⟨h', i', ?_, by simpa using hlen', by omega, fun h' => by omega, hfilled⟩
        rw [store_eq (by omega)]
        exact hl
      · exact ⟨h, i, rfl, rfl, le_rfl, fun _ => rfl, hlen, hi, hn, hzero,
          hole.fill fun k h2 hk hp => (not_lt.mp hlt).trans (hmin k h2 hk hp), rfl⟩
    · -- no child in the heap
      have hmc : minChild h n i = .ok (i * 2) := by rw [minChild, if_pos (by omega)]
      rw [hmc]
      change ∃ h' i', (if i * 2 ≤ n then _ else _) = _ ∧ _
      rw [if_neg hchild]
      exact ⟨h, i, rfl, rfl, le_rfl, fun _ => rfl, hlen, hi, hn, hzero,
        hole.fill fun k _ hk hp => by omega, rfl⟩

theorem card_entries (q : PriorityQueue) : Multiset.card (entries q) = q.currentSize :=
  Heap.card_content _ _

theorem currentSize_pos {q : PriorityQueue} (hne : entries q ≠ 0) : 0 < q.currentSize := by
  rw [← card_entries]
  exact Multiset.card_pos.mpr hne

/-- A queue with a least entry is not empty. -/
theorem WF.ne_zero_of_getMin {q : PriorityQueue} (hq : WF q) {m : ℕ} (h : getMin q = .ok m) :
    entries q ≠ 0 := by
  intro h0
  have hsize : q.currentSize = 0 := by rw [← card_entries, h0, Multiset.card_zero]
  have hlen := hq.length
  rw [getMin, load, List.getElem?_eq_none (by omega)] at h
  cases h

theorem entry_dropLast {h : List ℕ} {i : ℕ} (hi : i + 1 < h.length) :
    entry h.dropLast i = entry h i := by
  rw [entry, entry, List.getD_eq_getElem?_getD, List.getD_eq_getElem?_getD, List.getElem?_dropLast,
    if_pos (by omega)]

/-- `percDown` on the array of `delMin`: the last entry takes the place of the first. -/
theorem percDown_spec {h : List ℕ} {n : ℕ} (hn : 1 ≤ n) (hlen : h.length = n + 2)
    (hzero : entry h 0 = 0) (hord : ∀ k, 2 ≤ k → k ≤ n → k / 2 ≠ 1 → entry h (k / 2) ≤ entry h k) :
    ∃ h', percDown h n 1 = .ok h' ∧ h'.length = n + 2 ∧ entry h' 0 = 0 ∧
      Heap.Ordered (entry h') n ∧ Heap.content (entry h') n = Heap.content (entry h) n := by
  have hole : Heap.DownHole (entry h) n 1 (entry h 1) :=
    ⟨fun k h2 hk _ hp => hord k h2 hk hp, fun h2 => by omega, fun h2 => by omega⟩
  obtain ⟨h₁, i, hloop, hlen₁, -, hsame, hfilled⟩ :=
    percDownLoop_spec (r := n) (by omega) le_rfl hn (by omega) hzero hole
  obtain ⟨h₂, hwrite, hlen₂, hz, ho, hc⟩ := hfilled.write rfl hlen₁ hsame
  refine ⟨h₂, ?_, by rw [hlen₂, hlen], hz, ho, by rw [hc, Function.update_eq_self]⟩
  rw [percDown, load_eq (by omega)]
  exact bind_eq_ok.mpr ⟨_, rfl, bind_eq_ok.mpr ⟨_, hloop, hwrite⟩⟩

/-- `getMin` answers with the least entry. -/
theorem WF.getMin {q : PriorityQueue} (hq : WF q) (hne : entries q ≠ 0) :
    ∃ m, PriorityQueue.getMin q = .ok m ∧ m ∈ entries q ∧ ∀ x ∈ entries q, m ≤ x := by
  have hpos := currentSize_pos hne
  have hlen := hq.length
  refine ⟨entry q.heapList 1, load_eq (by omega), Heap.mem_content.mpr ⟨1, le_rfl, hpos, rfl⟩, ?_⟩
  intro x hx
  obtain ⟨k, h1, hn, rfl⟩ := Heap.mem_content.mp hx
  exact hq.ordered.root_le h1 hn

/-- `delMin` removes the entry that `getMin` answers with. -/
theorem WF.delMin {q : PriorityQueue} (hq : WF q) (hne : entries q ≠ 0) :
    ∃ m q', PriorityQueue.getMin q = .ok m ∧ PriorityQueue.delMin q = .ok (m, q') ∧ WF q' ∧
      m ::ₘ entries q' = entries q := by
  have hpos := currentSize_pos hne
  obtain ⟨h, size⟩ := q
  obtain ⟨n, rfl⟩ : ∃ n, size = n + 1 := ⟨size - 1, by change 0 < size at hpos; omega⟩
  have hlen : h.length = n + 2 := hq.length
  have hfirst : 1 < h.length := by omega
  have hlast : n + 1 < h.length := by omega
  -- the array when `percDown` is called
  obtain ⟨h₂, hh₂⟩ : ∃ h₂, h₂ = (h.set 1 (entry h (n + 1))).set (n + 1) 0 := ⟨_, rfl⟩
  have hlen₂ : h₂.length = n + 2 := by simp [hh₂, hlen]
  have hentry : entry h₂
      = Function.update (Function.update (entry h) 1 (entry h (n + 1))) (n + 1) 0 := by
    rw [hh₂, entry_set (by simp [hlen]), entry_set (by omega)]
  have hzero : entry h₂ 0 = 0 := by
    rw [hentry, Function.update_of_ne (by omega), Function.update_of_ne (by omega)]
    exact hq.zero
  have hdown : ∃ h', percDown h₂ n 1 = .ok h' ∧ h'.length = n + 2 ∧ entry h' 0 = 0 ∧
      Heap.Ordered (entry h') n ∧ Heap.content (entry h') n = Heap.content (entry h₂) n := by
    rcases Nat.eq_zero_or_pos n with rfl | h1
    · refine ⟨h₂, ?_, hlen₂, hzero, fun k h2 hk => by omega, rfl⟩
      rw [percDown, load_eq (by omega)]
      rfl
    · apply percDown_spec h1 hlen₂ hzero
      intro k h2 hk hp
      rw [hentry, Function.update_of_ne (by omega), Function.update_of_ne hp,
        Function.update_of_ne (by omega), Function.update_of_ne (by omega)]
      exact hq.ordered k h2 (hk.trans (Nat.le_succ n))
  obtain ⟨h₃, hperc, hlen₃, hz, ho, hc⟩ := hdown
  have hdrop : ∀ k, k ≤ n → entry h₃.dropLast k = entry h₃ k :=
    fun k hk => entry_dropLast (by omega)
  refine ⟨entry h 1, ⟨h₃.dropLast, n⟩, load_eq hfirst, ?_, ⟨by simp [hlen₃], ?_, ?_⟩, ?_⟩
  · refine bind_eq_ok.mpr ⟨_, load_eq hfirst, bind_eq_ok.mpr ⟨_, load_eq hlast,
      bind_eq_ok.mpr ⟨_, store_eq hfirst _, bind_eq_ok.mpr ⟨_, store_eq (by simp [hlen]) _,
        require_bind_eq_ok.mpr ⟨by simp, bind_eq_ok.mpr ⟨h₃, ?_, rfl⟩⟩⟩⟩⟩⟩
    rw [← hh₂]
    exact hperc
  · exact (hdrop 0 (by omega)).trans hz
  · intro k h2 hk
    rw [hdrop k hk, hdrop (k / 2) (by change k ≤ n at hk; omega)]
    exact ho k h2 hk
  · -- the first entry is exchanged for the last one
    have hcontent : Heap.content (entry h₃.dropLast) n
        = Heap.content (Function.update (entry h) 1 (entry h (n + 1))) n := by
      rw [Heap.content_congr fun k _ hk => hdrop k hk, hc]
      apply Heap.content_congr
      intro k _ hk
      rw [hentry, Function.update_of_ne (by omega)]
    rw [entries, hcontent, entries, Heap.content_succ]
    rcases Nat.eq_zero_or_pos n with rfl | h1
    · rfl
    · exact Heap.content_update (entry h) (entry h (n + 1)) le_rfl h1

end PriorityQueue

end GoPlasma.Contract
