import GoPlasma.Deep.Cluster
import GoPlasma.Deep.RaftTheorems

/-!
# The chains of a cluster

Nothing in `eventLoop` checks that a block extends the chain of the node. The chains are kept all
the same if no block is made while another one is on its way into the log: then the blocks of the
log form one chain (`Chained`), and the current block of each node is the last one of the part of
the log that it has applied (`Current`). `ByValue` and `StepOk` say what this takes of the chain and
of the events, and `chain_integrity` what follows.
-/

namespace GoPlasma.Deep

namespace Network

variable {ν σ β : Type} (N : Network ν σ β)

/-! ## The chain in the log -/

/-- The block in an entry of the log. -/
def blockOf (d : LogData) : Option β := (payload d).bind N.decode

/-- The last block of the log. -/
def tip (log : List LogData) : β := (log.filterMap N.blockOf).getLastD N.newBlock

/-- The block at a position of the log. -/
def blockAt (log : List LogData) (i : ℕ) : Option β := log[i]?.bind N.blockOf

/-- The blocks are values: what is decoded does not depend on the block that it is decoded into,
and leaves the blocks of the chain as they are; and the first block has the number 0. -/
structure ByValue : Prop where
  decodeInto : ∀ {data b}, N.decode data = some b → ∀ buffer, N.decodeInto data buffer = b
  shared : ∀ data b, N.shared data b = b
  number_newBlock : N.numberU64 N.newBlock = 0

/-- Each block of the log extends the one before it. -/
def Chained (log : List LogData) : Prop :=
  ∀ i b, N.blockAt log i = some b → N.Extends (N.tip (log.take i)) b

section
variable {N} {log : List LogData}

@[simp] theorem tip_nil : N.tip [] = N.newBlock := rfl

theorem tip_append (log : List LogData) (d : LogData) :
    N.tip (log ++ [d]) = (N.blockOf d).getD (N.tip log) := by
  rw [tip, List.filterMap_append]
  rcases hd : N.blockOf d with _ | b
  · simp [hd, tip]
  · simp [hd]

/-- Entries without a block. -/
theorem tip_take {i k : ℕ} (hik : i ≤ k) (h : ∀ d ∈ (log.take k).drop i, N.blockOf d = none) :
    N.tip (log.take k) = N.tip (log.take i) := by
  have hsplit : log.take k = log.take i ++ (log.take k).drop i := by
    conv_lhs => rw [← List.take_append_drop i (log.take k)]
    rw [List.take_take, min_eq_left hik]
  rw [tip, hsplit, List.filterMap_append, List.filterMap_eq_nil_iff.mpr h, List.append_nil, tip]

theorem blockAt_lt {i : ℕ} {b : β} (h : N.blockAt log i = some b) : i < log.length := by
  obtain ⟨d, hd, -⟩ := Option.bind_eq_some_iff.mp h
  exact (List.getElem?_eq_some_iff.mp hd).1

theorem blockAt_append {i : ℕ} (hi : i < log.length) (d : LogData) :
    N.blockAt (log ++ [d]) i = N.blockAt log i := by
  rw [blockAt, List.getElem?_append_left hi, blockAt]

/-- One more entry of the log. -/
theorem filterMap_take_succ (log : List LogData) (i : ℕ) : (log.take (i + 1)).filterMap N.blockOf
    = (log.take i).filterMap N.blockOf ++ (N.blockAt log i).toList := by
  rw [List.take_add_one, List.filterMap_append, blockAt]
  rcases log[i]? with _ | d
  · rfl
  · rcases hd : N.blockOf d with _ | b
    · simp [hd]
    · simp [hd]

theorem tip_take_succ (log : List LogData) (i : ℕ) :
    N.tip (log.take (i + 1)) = (N.blockAt log i).getD (N.tip (log.take i)) := by
  rw [tip, filterMap_take_succ]
  rcases N.blockAt log i with _ | b
  · rw [Option.toList_none, List.append_nil, Option.getD_none, tip]
  · simp

/-- A block that extends the tip may be logged. -/
theorem Chained.append (h : N.Chained log) {d : LogData}
    (hd : ∀ b, N.blockOf d = some b → N.Extends (N.tip log) b) : N.Chained (log ++ [d]) := by
  intro i b hb
  rcases Nat.lt_or_ge i log.length with hi | hi
  · rw [blockAt_append hi] at hb
    rw [List.take_append_of_le_length hi.le]
    exact h i b hb
  · have hlt := blockAt_lt hb
    obtain rfl : i = log.length := by
      rw [List.length_append, List.length_singleton] at hlt
      omega
    rw [blockAt, List.getElem?_concat_length] at hb
    rw [List.take_left]
    exact hd b hb

/-- How many blocks are among the first entries of the log. -/
def height (N : Network ν σ β) (log : List LogData) (i : ℕ) : ℕ :=
  ((log.take i).filterMap N.blockOf).length

theorem height_mono {i k : ℕ} (hik : i ≤ k) : N.height log i ≤ N.height log k :=
  ((List.take_sublist_take_left hik).filterMap _).length_le

theorem height_succ (log : List LogData) (i : ℕ) :
    N.height log (i + 1) = N.height log i + (N.blockAt log i).toList.length := by
  rw [height, filterMap_take_succ, List.length_append, height]

theorem height_le (i : ℕ) : N.height log i ≤ log.length :=
  (List.length_filterMap_le _ _).trans (List.length_take_le' i log)

/-- The number of a block is its height. -/
theorem Chained.number_tip (h : N.Chained log) (hN : N.ByValue) (hlog : log.length < 2 ^ 64)
    (i : ℕ) :
    (N.numberU64 (N.tip (log.take i))).toNat = N.height log i := by
  induction i with
  | zero =>
    rw [List.take_zero, tip_nil, hN.number_newBlock]
    rfl
  | succ i ih =>
    have hsucc := height_succ (N := N) log i
    have hle : N.height log (i + 1) ≤ log.length := height_le (i + 1)
    rw [tip_take_succ, hsucc]
    rcases hb : N.blockAt log i with _ | b
    · exact ih
    · rw [hb, Option.toList_some, List.length_singleton] at hsucc
      rw [Option.getD_some, Option.toList_some, List.length_singleton, (h i b hb).2,
        UInt64.toNat_add, ih, show (1 : UInt64).toNat = 1 from rfl, Nat.mod_eq_of_lt (by omega)]

/-- Its number counts the blocks up to it. -/
theorem Chained.number (h : N.Chained log) (hN : N.ByValue) (hlog : log.length < 2 ^ 64)
    {i : ℕ} {b : β} (hb : N.blockAt log i = some b) :
    (N.numberU64 b).toNat = N.height log i + 1 := by
  have htip := h.number_tip hN hlog (i + 1)
  rw [tip_take_succ, height_succ, hb] at htip
  exact htip

/-- The number of a block determines the block. -/
theorem Chained.inj (h : N.Chained log) (hN : N.ByValue) (hlog : log.length < 2 ^ 64)
    {i k : ℕ} {b c : β} (hb : N.blockAt log i = some b) (hc : N.blockAt log k = some c)
    (hnum : N.numberU64 b = N.numberU64 c) : b = c := by
  have heq : N.height log i = N.height log k := by
    have := h.number hN hlog hb
    have := h.number hN hlog hc
    rw [hnum] at *
    omega
  have hlt : ∀ {x y : ℕ} {z : β}, N.blockAt log x = some z → x < y →
      N.height log x < N.height log y := by
    intro x y z hz hxy
    have hmono : N.height log (x + 1) ≤ N.height log y := height_mono hxy
    rw [height_succ, hz, Option.toList_some, List.length_singleton] at hmono
    omega
  rcases Nat.lt_trichotomy i k with hik | rfl | hki
  · exact absurd heq (hlt hb hik).ne
  · exact Option.some.inj (hb.symm.trans hc)
  · exact absurd heq (hlt hc hki).ne'

end

/-! ## What holds between the events -/

/-- The node has applied a part of the log, and the rest of its batch comes next in the log. -/
structure Current (log : List LogData) (n : RaftNode β) : Prop where
  index : n.appliedIndex.toNat ≤ log.length
  head : n.currentBlock = N.tip (log.take n.appliedIndex.toNat)
  captured : n.pending ≠ [] → ∃ i ≤ n.appliedIndex.toNat, n.captured = N.tip (log.take i)
  pending : ∀ (k : ℕ) e, n.pending[k]? = some e →
    e.index.toNat = n.appliedIndex.toNat + k + 1 ∧ log[n.appliedIndex.toNat + k]? = some e.data

/-- What is on its way extends the last block of the log. -/
def Next (log : List LogData) : Stage β → Prop
  | .running _ parent => parent = N.tip log
  | .posted b => N.Extends (N.tip log) b
  | .received b => N.Extends (N.tip log) b
  | .proposed data => data = [] ∨ ∃ b, N.decode data = some b ∧ N.Extends (N.tip log) b

/-- The chains are those of the log, and at most one block is on its way into it. -/
structure Inv (s : Cluster ν σ β) : Prop where
  room : s.log.length < 2 ^ 64
  chained : N.Chained s.log
  decodes : ∀ data, .normal data ∈ s.log → data = [] ∨ ∃ b, N.decode data = some b
  nodes : ∀ j, N.Current s.log (s.nodes j)
  one : s.flight.length ≤ 1
  flight : ∀ x ∈ s.flight, N.Next s.log x.2
  written : ∀ w ∈ s.written, ∃ i, N.blockAt s.log i = some w.2
  applied : ∀ x ∈ s.applied, N.Extends x.2.1 x.2.2

section
variable {N} {s s' : Cluster ν σ β} {log : List LogData}

theorem current_newNode {i : UInt64} (hi : i.toNat ≤ log.length)
    (hnone : ∀ d ∈ log.take i.toNat, N.blockOf d = none) : N.Current log (N.newNode i) := by
  refine ⟨hi, ?_, fun h => absurd rfl h, fun k e he => by cases he⟩
  rw [newNode, tip_take (Nat.zero_le _) (by rwa [List.drop_zero]), List.take_zero, tip_nil]

theorem Current.append {n : RaftNode β} (h : N.Current log n) (d : LogData) :
    N.Current (log ++ [d]) n where
  index := h.index.trans (by simp)
  head := by
    rw [List.take_append_of_le_length h.index]
    exact h.head
  captured := by
    intro hne
    obtain ⟨i, hi, hc⟩ := h.captured hne
    exact ⟨i, hi, by rw [List.take_append_of_le_length (hi.trans h.index)]; exact hc⟩
  pending := by
    intro k e he
    obtain ⟨hindex, hdata⟩ := h.pending k e he
    refine ⟨hindex, ?_⟩
    rw [List.getElem?_append_left (List.getElem?_eq_some_iff.mp hdata).1]
    exact hdata

/-- The minter is not part of it. -/
theorem Current.minter {n : RaftNode β} (h : N.Current log n) (m : Minter) :
    N.Current log { n with minter := m } :=
  ⟨h.index, h.head, h.captured, h.pending⟩

theorem nodes_set [DecidableEq ν] (s : Cluster ν σ β) (j k : ν) (n : RaftNode β) :
    (s.set j n).nodes k = if k = j then n else s.nodes k := Function.update_apply _ _ _ _

/-- A node that is still current may be put back. -/
theorem Inv.set [DecidableEq ν] (h : N.Inv s) {j : ν} {n : RaftNode β} (hn : N.Current s.log n) :
    N.Inv (s.set j n) := by
  refine ⟨h.room, h.chained, h.decodes, fun k => ?_, h.one, h.flight, h.written, h.applied⟩
  rw [nodes_set]
  split_ifs
  · exact hn
  · exact h.nodes k

/-- The flag of the minter moves no block. -/
theorem Inv.flag [DecidableEq ν] (h : N.Inv s) {j : ν} {e : MinterEvent}
    (hs : s.flag j e = some s') : N.Inv s' ∧ s'.flight = s.flight ∧ s'.log = s.log := by
  obtain ⟨m, -, rfl⟩ := Option.map_eq_some_iff.mp hs
  exact ⟨h.set ((h.nodes j).minter m), rfl, rfl⟩

/-- Less is on its way. -/
theorem Inv.sublist (h : N.Inv s) {l : List (ν × Stage β)} (hl : l.Sublist s.flight) :
    N.Inv { s with flight := l } :=
  ⟨h.room, h.chained, h.decodes, h.nodes, hl.length_le.trans h.one,
    fun x hx => h.flight x (hl.subset hx), h.written, h.applied⟩

/-- One thing is on its way. -/
theorem Inv.single (h : N.Inv s) {x : ν × Stage β} (hx : N.Next s.log x.2) :
    N.Inv { s with flight := [x] } :=
  ⟨h.room, h.chained, h.decodes, h.nodes, le_rfl,
    fun y hy => by rw [List.mem_singleton.mp hy]; exact hx, h.written, h.applied⟩

/-- At most one block is on its way. -/
theorem Inv.flight_eq (h : N.Inv s) {x : ν × Stage β} (hx : x ∈ s.flight) : s.flight = [x] := by
  have hlen := h.one
  rcases hf : s.flight with _ | ⟨y, l⟩
  · rw [hf] at hx
    cases hx
  · rw [hf, List.length_cons] at hlen
    obtain rfl := List.length_eq_zero_iff.mp (by omega : l.length = 0)
    rw [hf, List.mem_singleton] at hx
    rw [hx]

/-- A block goes to the next stage. -/
theorem Inv.move [DecidableEq ν] [DecidableEq β] (h : N.Inv s) {j : ν} {a b : Stage β}
    (hs : s.move j a b = some s') (hab : N.Next s.log a → N.Next s.log b) : N.Inv s' := by
  unfold Cluster.move at hs
  split_ifs at hs with hmem
  obtain rfl := Option.some.inj hs
  have hnext := hab (h.flight _ hmem)
  rw [h.flight_eq hmem, List.erase_cons_head, List.nil_append]
  exact h.single hnext

/-- The log grows. -/
theorem Inv.append (h : N.Inv s) {d : LogData} (hs : s.append d = some s')
    (hd : ∀ b, N.blockOf d = some b → N.Extends (N.tip s.log) b)
    (hdec : ∀ data, d = .normal data → data = [] ∨ ∃ b, N.decode data = some b)
    (hflight : ∀ x ∈ s.flight, N.Next (s.log ++ [d]) x.2) : N.Inv s' := by
  unfold Cluster.append at hs
  split_ifs at hs with hroom
  obtain rfl := Option.some.inj hs
  refine ⟨by rw [List.length_append, List.length_singleton]; exact hroom, h.chained.append hd, ?_,
    fun j => (h.nodes j).append d, h.one, hflight, ?_, h.applied⟩
  · intro data hdata
    rcases List.mem_append.mp hdata with hdata | hdata
    · exact h.decodes data hdata
    · exact hdec data (List.mem_singleton.mp hdata).symm
  · intro w hw
    obtain ⟨i, hi⟩ := h.written w hw
    exact ⟨i, by rw [blockAt_append (blockAt_lt hi)]; exact hi⟩

/-- Raft appends an entry without a block. -/
theorem Inv.append_none (h : N.Inv s) {d : LogData} (hs : s.append d = some s')
    (hd : N.blockOf d = none)
    (hdec : ∀ data, d = .normal data → data = [] ∨ ∃ b, N.decode data = some b) : N.Inv s' := by
  refine h.append hs (fun b hb => by rw [hd] at hb; cases hb) hdec fun x hx => ?_
  have htip : N.tip (s.log ++ [d]) = N.tip s.log := by rw [tip_append, hd, Option.getD_none]
  have hnext := h.flight x hx
  rcases x with ⟨j, ⟨i, p⟩ | b | b | data⟩ <;> simpa only [Next, htip] using hnext

/-! ## Batches -/

theorem getElem?_entries (log : List LogData) (lo len k : ℕ) {e : Entry LogData}
    (he : (entries log lo len)[k]? = some e) :
    log[lo + k]? = some e.data ∧ e.index = UInt64.ofNat (lo + k + 1) := by
  rw [entries, List.getElem?_map, List.getElem?_zipIdx, List.getElem?_take] at he
  split_ifs at he with hk
  · rw [List.getElem?_drop] at he
    rcases hd : log[lo + k]? with _ | d
    · rw [hd] at he
      cases he
    · rw [hd] at he
      obtain rfl := Option.some.inj he
      exact ⟨rfl, rfl⟩
  · cases he

theorem index_entries {lo len k : ℕ} (hlog : log.length < 2 ^ 64) {e : Entry LogData}
    (he : (entries log lo len)[k]? = some e) : e.index.toNat = lo + k + 1 := by
  obtain ⟨hd, hindex⟩ := getElem?_entries log lo len k he
  have hlt := (List.getElem?_eq_some_iff.mp hd).1
  rw [hindex, UInt64.toNat_ofNat', Nat.mod_eq_of_lt (by omega)]

theorem consecutive_entries (hlog : log.length < 2 ^ 64) (lo len : ℕ) :
    Consecutive (entries log lo len) := by
  rw [Consecutive, List.isChain_iff_getElem]
  intro k hk
  rw [index_entries hlog (List.getElem?_eq_getElem hk),
    index_entries hlog (List.getElem?_eq_getElem (by omega))]
  omega

theorem ready_eq_some [DecidableEq ν] {j : ν} {snapshot : UInt64} {lo len : ℕ}
    (hs : s.ready j snapshot lo len = some s') : ∃ base l,
      base = (if snapshot ≠ 0 then snapshot else (s.nodes j).appliedIndex)
      ∧ (s.nodes j).appliedIndex ≤ base ∧ base.toNat ≤ s.log.length ∧ lo ≤ base.toNat
      ∧ entriesToApply base (entries s.log lo len) = .ok l
      ∧ s' = s.set j { s.nodes j with
          captured := (s.nodes j).currentBlock, appliedIndex := base, pending := l } := by
  obtain ⟨base, hdef⟩ :
      ∃ base, base = if snapshot ≠ 0 then snapshot else (s.nodes j).appliedIndex :=
    ⟨_, rfl⟩
  simp only [Cluster.ready, ← hdef] at hs
  split_ifs at hs with hguard
  obtain ⟨-, hbase, hle, hlo⟩ := hguard
  rcases hl : entriesToApply base (entries s.log lo len) with err | l
  · rw [hl] at hs
    cases hs
  · rw [hl] at hs
    exact ⟨base, l, hdef, hbase, hle, hlo, hl, (Option.some.inj hs).symm⟩

/-- A batch: what is left of it comes next in the log. -/
theorem Current.ready {n : RaftNode β} (h : N.Current log n) (hlog : log.length < 2 ^ 64)
    {base : UInt64} {lo len : ℕ} {l : List (Entry LogData)} (hbase : n.appliedIndex ≤ base)
    (hle : base.toNat ≤ log.length) (hlo : lo ≤ base.toNat) (hroom : base.toNat + 1 < 2 ^ 64)
    (hnone : ∀ d ∈ (log.take base.toNat).drop n.appliedIndex.toNat, N.blockOf d = none)
    (hl : entriesToApply base (entries log lo len) = .ok l) :
    N.Current log { n with captured := n.currentBlock, appliedIndex := base, pending := l } := by
  have hle' := UInt64.le_iff_toNat_le.mp hbase
  have hfirst : ∀ e, (entries log lo len).head? = some e → e.index.toNat ≤ base.toNat + 1 := by
    intro e he
    rw [List.head?_eq_getElem?] at he
    rw [index_entries hlog he]
    omega
  obtain ⟨new, hnew, hmem, hrange, -⟩ :=
    entriesToApply_legal (consecutive_entries hlog lo len) hfirst (Or.inr hroom)
  obtain rfl := Except.ok.inj (hl.symm.trans hnew)
  -- nothing that is skipped has a block, so the current block is that of the new index
  refine ⟨hle, ?_, fun _ => ⟨_, hle', h.head⟩, fun k e he => ?_⟩
  · rw [tip_take hle' hnone]
    exact h.head
  · have hindex : e.index.toNat = base.toNat + 1 + k := by
      have hget := congrArg (fun l : List ℕ => l[k]?) hrange
      have hk := (List.getElem?_eq_some_iff.mp he).1
      simp only [indices, List.getElem?_map, List.getElem?_range' hk] at hget
      rw [he] at hget
      simpa using hget
    obtain ⟨i, hi⟩ := List.mem_iff_getElem?.mp (hmem e (List.mem_of_getElem? he))
    have hi' := index_entries hlog hi
    obtain ⟨hdata, -⟩ := getElem?_entries log lo len i hi
    change e.index.toNat = base.toNat + k + 1 ∧ log[base.toNat + k]? = some e.data
    refine ⟨by omega, ?_⟩
    rw [show base.toNat + k = lo + i by omega]
    exact hdata

/-- One entry of a batch. -/
theorem Current.advance {n : RaftNode β} (h : N.Current log n) {e : Entry LogData}
    {rest : List (Entry LogData)} (hp : n.pending = e :: rest) (blockformat : β) :
    e.index.toNat = n.appliedIndex.toNat + 1 ∧ log[n.appliedIndex.toNat]? = some e.data ∧
    N.Current log { n with
      currentBlock := (N.blockOf e.data).getD n.currentBlock
      blockformat := blockformat
      appliedIndex := e.index
      pending := rest } := by
  obtain ⟨hindex, hdata⟩ := h.pending 0 e (by rw [hp]; rfl)
  rw [Nat.add_zero] at hindex hdata
  refine ⟨hindex, hdata, ?_, ?_, ?_, ?_⟩
  · rw [hindex]
    exact (List.getElem?_eq_some_iff.mp hdata).1
  · simp only [hindex]
    rw [tip_take_succ, blockAt, hdata, Option.bind_some, ← h.head]
  · intro _
    obtain ⟨i, hi, hc⟩ := h.captured (by rw [hp]; exact List.cons_ne_nil _ _)
    exact ⟨i, by rw [hindex]; omega, hc⟩
  · intro k x hx
    obtain ⟨hxi, hxd⟩ := h.pending (k + 1) x (by rw [hp]; exact hx)
    simp only [hindex]
    rw [show n.appliedIndex.toNat + 1 + k = n.appliedIndex.toNat + (k + 1) by omega]
    exact ⟨hxi, hxd⟩

/-- The next block of the log is not taken for one that was applied before. -/
theorem Inv.captured_ne (h : N.Inv s) (hN : N.ByValue) {j : ν} {b : β}
    (hp : (s.nodes j).pending ≠ [])
    (hb : N.blockAt s.log (s.nodes j).appliedIndex.toNat = some b) :
    N.numberU64 (s.nodes j).captured ≠ N.numberU64 b := by
  intro heq
  obtain ⟨i, hi, hc⟩ := (h.nodes j).captured hp
  have hnum := h.chained.number hN h.room hb
  have hmono : N.height s.log i ≤ N.height s.log (s.nodes j).appliedIndex.toNat := height_mono hi
  rw [← heq, hc, h.chained.number_tip hN h.room] at hnum
  omega

/-- A block of the log was applied on the one that it extends. -/
theorem Inv.insert (h : N.Inv s) {w : σ × β} {x : ν × β × β}
    (hw : ∃ i, N.blockAt s.log i = some w.2) (hx : N.Extends x.2.1 x.2.2) :
    N.Inv { s with written := w :: s.written, applied := s.applied ++ [x] } := by
  refine ⟨h.room, h.chained, h.decodes, h.nodes, h.one, h.flight, ?_, ?_⟩
  · intro w' hw'
    rcases List.mem_cons.mp hw' with rfl | hw'
    · exact hw
    · exact h.written w' hw'
  · intro x' hx'
    rcases List.mem_append.mp hx' with hx' | hx'
    · exact h.applied x' hx'
    · rw [List.mem_singleton.mp hx']
      exact hx

theorem applyNewChainHead_set [DecidableEq ν] (j : ν) (b : β) (n : RaftNode β) (s : Cluster ν σ β) :
    N.applyNewChainHead j b (s.set j n) = { s.set j { n with currentBlock := b } with
      written := (N.storage j, b) :: s.written
      applied := s.applied ++ [(j, n.currentBlock, b)] } := by
  simp [applyNewChainHead, Cluster.set]

theorem Stage.mapParent_id (x : Stage β) : x.mapParent id = x := by
  cases x <;> rfl

/-- Nothing is overwritten. -/
theorem ByValue.overwrite [DecidableEq ν] (hN : N.ByValue) (j : ν) (data : Bytes)
    (s : Cluster ν σ β) : N.overwrite j data s = s := by
  have hid : N.shared data = id := funext (hN.shared data)
  have hflight : s.flight.map (fun x => if x.1 = j then (x.1, x.2.mapParent id) else x)
      = s.flight := by
    simp [Stage.mapParent_id]
  have hset : s.set j { s.nodes j with
      currentBlock := (s.nodes j).currentBlock, captured := (s.nodes j).captured } = s := by
    simp [Cluster.set]
  rw [Network.overwrite, hid]
  simp only [id_eq, hflight, hset]

theorem decode_of_payload {d : LogData} {data : Bytes} (h : payload d = some data) :
    d = .normal data ∧ data ≠ [] := by
  rcases d with _ | data'
  · cases h
  · rw [payload] at h
    split_ifs at h with hlen
    obtain rfl := Option.some.inj h
    exact ⟨rfl, fun hnil => hlen (by rw [hnil]; rfl)⟩

/-- The next entry of a batch. -/
theorem Inv.applyEntry [DecidableEq ν] [DecidableEq σ] (h : N.Inv s) (hN : N.ByValue) {j : ν}
    (hs : N.applyEntry j s = some s') : N.Inv s' := by
  unfold Network.applyEntry at hs
  rcases hp : (s.nodes j).pending with _ | ⟨e, rest⟩
  · rw [hp] at hs
    cases hs
  simp only [hp] at hs
  rcases hpay : payload e.data with _ | data
  · -- a change of the configuration, or an empty entry
    obtain ⟨-, -, hcur⟩ := (h.nodes j).advance hp (s.nodes j).blockformat
    rw [blockOf, hpay, Option.bind_none, Option.getD_none] at hcur
    rw [hpay] at hs
    obtain rfl := Option.some.inj hs
    exact h.set hcur
  · -- a block, which extends the current one
    obtain ⟨hdata', hne⟩ := decode_of_payload hpay
    obtain ⟨-, hdata, -⟩ := (h.nodes j).advance hp (s.nodes j).blockformat
    obtain ⟨b, hb⟩ := (h.decodes data (hdata' ▸ List.mem_of_getElem? hdata)).resolve_left hne
    obtain ⟨-, -, hcur⟩ := (h.nodes j).advance hp b
    have hof : N.blockOf e.data = some b := by rw [blockOf, hpay, Option.bind_some, hb]
    rw [hof, Option.getD_some] at hcur
    have hat : N.blockAt s.log (s.nodes j).appliedIndex.toNat = some b := by
      rw [blockAt, hdata, Option.bind_some, hof]
    have hcap := h.captured_ne hN (by rw [hp]; exact List.cons_ne_nil _ _) hat
    simp only [hpay, hN.overwrite, hN.decodeInto hb] at hs
    rw [decide_eq_false hcap, Bool.and_false, if_neg Bool.false_ne_true] at hs
    split_ifs at hs
    obtain rfl := Option.some.inj hs
    have hext := h.chained _ b hat
    rw [← (h.nodes j).head] at hext
    rw [applyNewChainHead_set]
    exact (h.set hcur).insert ⟨_, hat⟩ hext

end

/-! ## The condition -/

section
variable [DecidableEq ν] [DecidableEq σ] [DecidableEq β]

/-- The condition on an event: a minter takes a parent only when nothing is on its way into the log
and its node has applied all blocks; a block that is proposed can be decoded again; no block is
skipped by a snapshot, nor by a node that starts again, which has lost its chain; and the index
behind the applied one is a `uint64`. -/
def StepOk (s : Cluster ν σ β) : Event ν β → Prop
  | .lock j _ => s.flight = [] ∧
      ∀ d ∈ s.log.drop (s.nodes j).appliedIndex.toNat, N.blockOf d = none
  | .propose _ b => (N.encode b).getD [] = [] ∨ N.decode ((N.encode b).getD []) = some b
  | .ready j snapshot _ _ =>
      (if snapshot ≠ 0 then snapshot else (s.nodes j).appliedIndex).toNat + 1 < 2 ^ 64 ∧
      ∀ d ∈ (s.log.take snapshot.toNat).drop (s.nodes j).appliedIndex.toNat, N.blockOf d = none
  | .restart _ appliedIndex => ∀ d ∈ s.log.take appliedIndex.toNat, N.blockOf d = none
  | _ => True

/-- All events of a run meet the condition. -/
def Meets : Cluster ν σ β → List (Event ν β) → Prop
  | _, [] => True
  | s, e :: es => N.StepOk s e ∧ ∀ s' ∈ N.step s e, Meets s' es

instance decidableStepOk (s : Cluster ν σ β) : (e : Event ν β) → Decidable (N.StepOk s e)
  | .lock _ _ => inferInstanceAs (Decidable (_ ∧ _))
  | .propose _ _ => inferInstanceAs (Decidable (_ ∨ _))
  | .ready _ _ _ _ => inferInstanceAs (Decidable (_ ∧ _))
  | .restart _ _ => inferInstanceAs (Decidable (∀ d ∈ _, _ = none))
  | .load _ _ | .store _ _ | .empty _ _ | .flushFails _ _ | .post _ _ _ | .start _ | .receive _ _
  | .reset _ | .commit _ _ | .lose _ _ | .commitEmpty | .commitConfChange | .apply _ =>
    isTrue trivial

instance decidableMeets (s : Cluster ν σ β) : (es : List (Event ν β)) → Decidable (N.Meets s es)
  | [] => isTrue trivial
  | _ :: es =>
    have : ∀ s', Decidable (N.Meets s' es) := fun s' => decidableMeets s' es
    inferInstanceAs (Decidable (_ ∧ ∀ s' ∈ _, _))

variable {N} {s s' : Cluster ν σ β}

/-- One event keeps what holds between them. -/
theorem Inv.step (h : N.Inv s) (hN : N.ByValue) {e : Event ν β} (hok : N.StepOk s e)
    (hs : N.step s e = some s') : N.Inv s' := by
  cases e with
  | load j i => exact (h.flag hs).1
  | store j i => exact (h.flag hs).1
  | start j => exact (h.flag hs).1
  | reset j => exact (h.flag hs).1
  | lock j i =>
    obtain ⟨hempty, hnone⟩ := hok
    obtain ⟨s₁, hs₁, hs⟩ := Option.bind_eq_some_iff.mp hs
    obtain rfl := Option.some.inj hs
    obtain ⟨hinv, hflight, hlog⟩ := h.flag hs₁
    rw [hflight, hempty, List.nil_append]
    refine hinv.single ?_
    -- the node has applied all blocks, so its current block is the last one of the log
    rw [hlog, Next, (h.nodes j).head, ← tip_take (h.nodes j).index, List.take_length]
    rwa [List.take_length]
  | empty j i =>
    obtain ⟨s₁, hs₁, hs⟩ := Option.bind_eq_some_iff.mp hs
    obtain rfl := Option.some.inj hs
    exact (h.flag hs₁).1.sublist List.filter_sublist
  | flushFails j i =>
    obtain ⟨s₁, hs₁, hs⟩ := Option.bind_eq_some_iff.mp hs
    obtain rfl := Option.some.inj hs
    exact (h.flag hs₁).1.sublist List.filter_sublist
  | post j i b =>
    obtain ⟨parent, -, hs⟩ := Option.bind_eq_some_iff.mp hs
    split_ifs at hs with hext
    obtain ⟨s₁, hs₁, hs⟩ := Option.bind_eq_some_iff.mp hs
    refine (h.flag hs₁).1.move hs fun hparent => ?_
    rw [Next] at hparent
    rwa [Next, ← hparent]
  | receive j b =>
    obtain ⟨s₁, hs₁, hs⟩ := Option.bind_eq_some_iff.mp hs
    exact (h.flag hs₁).1.move hs fun hb => hb
  | propose j b =>
    rw [Network.step] at hs
    split_ifs at hs
    exact h.move hs fun hb => hok.imp_right fun hdec => ⟨b, hdec, hb⟩
  | commit j data =>
    rw [Network.step] at hs
    split_ifs at hs with hmem
    have hnext := h.flight _ hmem
    have herase : s.flight.erase (j, .proposed data) = [] := by
      rw [h.flight_eq hmem, List.erase_cons_head]
    rw [herase] at hs
    refine (h.sublist (List.nil_sublist _)).append hs ?_ ?_ fun x hx => by cases hx
    · intro b hb
      obtain ⟨data', hpay, hb⟩ := Option.bind_eq_some_iff.mp hb
      obtain ⟨hdata, hne⟩ := decode_of_payload hpay
      obtain rfl := LogData.normal.inj hdata
      obtain ⟨b', hb', hext⟩ := hnext.resolve_left hne
      obtain rfl := Option.some.inj (hb.symm.trans hb')
      exact hext
    · intro data' hdata'
      obtain rfl := LogData.normal.inj hdata'
      exact hnext.imp_right fun ⟨b, hb, _⟩ => ⟨b, hb⟩
  | lose j data =>
    obtain rfl := Option.some.inj hs
    exact h.sublist List.erase_sublist
  | commitEmpty =>
    refine h.append_none hs rfl fun data hdata => .inl ?_
    exact (LogData.normal.inj hdata).symm
  | commitConfChange => exact h.append_none hs rfl fun data hdata => by cases hdata
  | ready j snapshot lo len =>
    obtain ⟨hroom, hnone⟩ := hok
    obtain ⟨base, l, hdef, hbase, hle, hlo, hl, rfl⟩ := ready_eq_some hs
    rw [← hdef] at hroom
    refine h.set ((h.nodes j).ready h.room hbase hle hlo hroom ?_ hl)
    rw [hdef]
    split_ifs with hsnap
    · exact hnone
    · -- without a snapshot nothing is skipped
      intro d hd
      rw [List.drop_of_length_le (List.length_take_le _ _)] at hd
      cases hd
  | apply j => exact h.applyEntry hN hs
  | restart j i =>
    rw [Network.step] at hs
    split_ifs at hs with hi
    obtain rfl := Option.some.inj hs
    have hle := (UInt64.le_iff_toNat_le.mp hi).trans (h.nodes j).index
    exact (h.set (current_newNode hle hok)).sublist List.filter_sublist

/-- All events of a run keep it. -/
theorem Inv.run (h : N.Inv s) (hN : N.ByValue) {es : List (Event ν β)} (hok : N.Meets s es)
    (hs : es.foldlM N.step s = some s') : N.Inv s' := by
  induction es generalizing s with
  | nil =>
    obtain rfl := Option.some.inj hs
    exact h
  | cons e es ih =>
    obtain ⟨s₁, hs₁, hs⟩ := Option.bind_eq_some_iff.mp hs
    exact ih (h.step hN hok.1 hs₁) (hok.2 s₁ hs₁) hs

end

end Network

/-! ## Two small runs -/

/-- A block of three bytes. -/
structure SmallBlock where
  parent : UInt8
  number : UInt8
  payload : UInt8
deriving DecidableEq

/-- The block in three bytes. -/
def SmallBlock.decode : Bytes → Option SmallBlock
  | [parent, number, payload] => some ⟨parent, number, payload⟩
  | _ => none

end GoPlasma.Deep
