import GoPlasma.Basic
import GoPlasma.Lib.ListRel

/-!
# Deposit replay (`initDeposit` in `plasmachain/backend.go`, `contract_backend.go`)

When a node starts it reads the deposits from the root chain again: for each published block those
between the index of the block before and its own, and last those up to the current index. Each
range is counted up by a loop over `uint64` with an inclusive bound, so that an index of zero, less
one, makes the loop endless.

The ranges of the blocks end below the index of the block, but the last range ends at the current
index, which belongs to no deposit yet: it is requested on every input.
-/

namespace GoPlasma.Plasma

/-- What `initDeposit` reads of a `RootChainPublishedBlock`. -/
structure PublishedBlock where
  blknum : UInt64
  currentDepositIndex : UInt64

/-- `getPublishedBlock`: the first event of each block number; `queried` are the numbers seen. -/
def getPublishedBlock (queried : List UInt64) : List PublishedBlock → List PublishedBlock
  | [] => []
  | pb :: events =>
    if pb.blknum ∈ queried then getPublishedBlock queried events
    else pb :: getPublishedBlock (pb.blknum :: queried) events

/-- `makeIndexRange` from `i` on, with the indices `a` so far and a bound on the rounds. -/
def makeIndexRange (last : UInt64) : ℕ → UInt64 → List UInt64 → Option (List UInt64)
  | 0, _, _ => none
  | rounds + 1, i, a =>
    if i ≤ last then makeIndexRange last rounds (i + 1) (a ++ [i]) else some a

/-- The calls of `getPastDeposit` that `initDeposit` makes, after the index `prevdep`. -/
def pastDepositCalls (current prevdep : UInt64) : List PublishedBlock → List (UInt64 × UInt64)
  | [] => [(prevdep, current)]
  | pb :: pbs =>
    (prevdep, pb.currentDepositIndex - 1) :: pastDepositCalls current pb.currentDepositIndex pbs

/-- The loop for the range comes to its end, with these indices. -/
def IndexRange (call : UInt64 × UInt64) (indices : List UInt64) : Prop :=
  ∃ rounds, makeIndexRange call.2 rounds call.1 [] = some indices

/-! ## One range -/

variable {last i current prevdep : UInt64} {a l : List UInt64} {rounds : ℕ}

/-- The largest bound is never passed. -/
theorem makeIndexRange_endless (hlast : last.toNat + 1 = 2 ^ 64) :
    makeIndexRange last rounds i a = none := by
  induction rounds generalizing i a with
  | zero => rfl
  | succ rounds ih =>
    have hi : i ≤ last := by
      rw [UInt64.le_iff_toNat_le]
      have := i.toNat_lt
      omega
    rw [makeIndexRange, if_pos hi, ih]

theorem toNat_succ (h : i.toNat + 1 < 2 ^ 64) : (i + 1).toNat = i.toNat + 1 := by
  rw [UInt64.toNat_add, UInt64.toNat_one, Nat.mod_eq_of_lt h]

/-- Below the largest bound the loop counts up. -/
theorem makeIndexRange_some (h : makeIndexRange last rounds i a = some l) :
    last.toNat + 1 < 2 ^ 64 ∧
      l.map UInt64.toNat =
        a.map UInt64.toNat ++ List.range' i.toNat (last.toNat + 1 - i.toNat) := by
  have hlast : last.toNat + 1 < 2 ^ 64 := by
    by_contra hge
    have := last.toNat_lt
    rw [makeIndexRange_endless (by omega)] at h
    cases h
  refine ⟨hlast, ?_⟩
  induction rounds generalizing i a with
  | zero => cases h
  | succ rounds ih =>
    rw [makeIndexRange] at h
    split_ifs at h with hi
    · rw [UInt64.le_iff_toNat_le] at hi
      have hlen : last.toNat + 1 - i.toNat = (last.toNat + 1 - (i.toNat + 1)) + 1 := by omega
      rw [ih h, toNat_succ (by omega), List.map_append, List.append_assoc, hlen,
        List.range'_succ]
      rfl
    · rw [UInt64.le_iff_toNat_le] at hi
      cases h
      rw [Nat.sub_eq_zero_of_le (by omega), List.range'_zero, List.append_nil]

theorem indexRange_toNat {call : UInt64 × UInt64} (h : IndexRange call l) :
    l.map UInt64.toNat = List.range' call.1.toNat (call.2.toNat + 1 - call.1.toNat) := by
  obtain ⟨rounds, hr⟩ := h
  rw [(makeIndexRange_some hr).2, List.map_nil, List.nil_append]

/-- A range that ends has its bound as its last index. -/
theorem IndexRange.mem_last {call : UInt64 × UInt64} (h : IndexRange call l)
    (hle : call.1 ≤ call.2) : call.2 ∈ l := by
  have hmem : call.2.toNat ∈ l.map UInt64.toNat := by
    rw [UInt64.le_iff_toNat_le] at hle
    rw [indexRange_toNat h, List.mem_range'_1]
    omega
  obtain ⟨x, hx, heq⟩ := List.mem_map.mp hmem
  rwa [← UInt64.toNat_inj.mp heq]

/-! ## What is requested -/

/-- The published blocks of a root chain and its current deposit index: the block numbers are
different, the deposit indices do not decrease, and none is above the current one. -/
structure DepositLog where
  events : List PublishedBlock
  currentDepositIndex : UInt64
  distinct : (events.map PublishedBlock.blknum).Nodup
  sorted : events.Pairwise fun pb pb' => pb.currentDepositIndex ≤ pb'.currentDepositIndex
  bounded : ∀ pb ∈ events, pb.currentDepositIndex ≤ currentDepositIndex

/-- The calls of `getPastDeposit` that `initDeposit` makes. -/
def DepositLog.calls (L : DepositLog) : List (UInt64 × UInt64) :=
  pastDepositCalls L.currentDepositIndex 0 (getPublishedBlock [] L.events)

/-- The loops of all calls end, and together they list each index below the current one once and no
other index. -/
def DepositLog.CoversOnce (L : DepositLog) : Prop :=
  ∃ ranges, List.Forall₂ IndexRange L.calls ranges ∧
    ∀ i, ranges.flatten.count i = if i < L.currentDepositIndex then 1 else 0

theorem getPublishedBlock_of_distinct {queried : List UInt64} {events : List PublishedBlock}
    (h : (events.map PublishedBlock.blknum).Nodup)
    (hq : ∀ pb ∈ events, pb.blknum ∉ queried) : getPublishedBlock queried events = events := by
  induction events generalizing queried with
  | nil => rfl
  | cons pb events ih =>
    rw [List.map_cons, List.nodup_cons] at h
    rw [getPublishedBlock, if_neg (hq pb List.mem_cons_self), ih h.2]
    intro pb' hpb' hmem
    rcases List.mem_cons.mp hmem with heq | hmem
    · exact h.1 (heq ▸ List.mem_map_of_mem hpb')
    · exact hq pb' (List.mem_cons_of_mem _ hpb') hmem

theorem DepositLog.calls_eq (L : DepositLog) :
    L.calls = pastDepositCalls L.currentDepositIndex 0 L.events := by
  rw [DepositLog.calls, getPublishedBlock_of_distinct L.distinct fun _ _ => List.not_mem_nil]

/-- The last call asks for all indices up to the current one. -/
theorem last_pastDepositCalls (pbs : List PublishedBlock) (hprev : prevdep ≤ current)
    (hpbs : ∀ pb ∈ pbs, pb.currentDepositIndex ≤ current) :
    ∃ start, start ≤ current ∧ (start, current) ∈ pastDepositCalls current prevdep pbs := by
  induction pbs generalizing prevdep with
  | nil => exact ⟨prevdep, hprev, List.mem_singleton.mpr rfl⟩
  | cons pb pbs ih =>
    obtain ⟨start, hle, hmem⟩ := ih (hpbs pb List.mem_cons_self)
      fun pb' h => hpbs pb' (List.mem_cons_of_mem _ h)
    exact ⟨start, hle, List.mem_cons_of_mem _ hmem⟩

/-- Each published block has its call. -/
theorem mem_pastDepositCalls {pbs : List PublishedBlock} {pb : PublishedBlock} (h : pb ∈ pbs) :
    ∃ start, (start, pb.currentDepositIndex - 1) ∈ pastDepositCalls current prevdep pbs := by
  induction pbs generalizing prevdep with
  | nil => cases h
  | cons pb' pbs ih =>
    rcases List.mem_cons.mp h with rfl | h
    · exact ⟨prevdep, List.mem_cons_self⟩
    · obtain ⟨start, hmem⟩ := ih h
      exact ⟨start, List.mem_cons_of_mem _ hmem⟩

/-! ## Results -/

/-- A published block with the deposit index zero makes its loop endless. -/
theorem DepositLog.endless_of_zero (L : DepositLog) {pb : PublishedBlock} (hmem : pb ∈ L.events)
    (hzero : pb.currentDepositIndex = 0) :
    ∃ call ∈ L.calls, ∀ indices, ¬ IndexRange call indices := by
  rw [L.calls_eq]
  obtain ⟨start, hcall⟩ := mem_pastDepositCalls hmem
  refine ⟨_, hcall, ?_⟩
  rintro indices ⟨rounds, hr⟩
  have hlast : (0 - 1 : UInt64).toNat + 1 = 2 ^ 64 := by decide
  rw [hzero, makeIndexRange_endless hlast] at hr
  cases hr

/-- On no input are the deposits below the current index requested once each and nothing else: if
all loops end, the last range has the current index itself. -/
theorem DepositLog.not_coversOnce (L : DepositLog) : ¬ L.CoversOnce := by
  rintro ⟨ranges, hranges, hcount⟩
  rw [L.calls_eq] at hranges
  obtain ⟨start, hle, hmem⟩ := last_pastDepositCalls L.events UInt64.zero_le L.bounded
  obtain ⟨l, hl, hlast⟩ := ListRel.exists_mem hranges hmem
  have hin : L.currentDepositIndex ∈ ranges.flatten :=
    List.mem_flatten.mpr ⟨l, hl, hlast.mem_last hle⟩
  have hzero := hcount L.currentDepositIndex
  rw [if_neg (UInt64.lt_irrefl _)] at hzero
  exact List.count_eq_zero.mp hzero hin

/-- One published block after one deposit. -/
def oneDepositLog : DepositLog := ⟨[⟨1, 1⟩], 1, by decide, by decide, by decide⟩

/-- Two deposits are requested although there is only one. -/
theorem oneDepositLog_requests : ∃ ranges, List.Forall₂ IndexRange oneDepositLog.calls ranges ∧
    ranges.flatten = [0, 1] ∧ ¬ (1 : UInt64) < oneDepositLog.currentDepositIndex :=
  ⟨[[0], [1]], .cons ⟨2, rfl⟩ (.cons ⟨2, rfl⟩ .nil), rfl, by decide⟩

end GoPlasma.Plasma
