import GoPlasma.Contract.ExitTheorems

/-!
# The order of the exit queue

The queue holds one number per exit, `exitableTS << 128 | depositIndex`. As long as the times are
below `2 ^ 128`, the numbers are ordered as the pairs are (`priority_le_iff`), and the queue is a
sorted multiset of pairs: `addExitToQueue` adds a pair, `getNextExit` answers with the earliest one,
and `finalizeExits` takes the pairs out from the earliest on (`exit_queue_order`).

The loop of `finalizeExits` announces each entry that it takes out (`ExitCompleted`); `processed`
are the pairs of these entries.
-/

namespace GoPlasma.Contract

open Plasma (zeroAddress)

variable {msg : Msg} {s s' : RootChain} {shown : List Event}

/-! ## Pairs and numbers -/

/-- The entry of the queue for a time and a deposit index. -/
def queueEntry (p : ℕ × UInt64) : ℕ := RootChain.priority p.1 p.2

/-- The time and the deposit index of an entry. -/
def entryPair (m : ℕ) : ℕ × UInt64 := (entryTime m, entryIndex m)

/-- The first pair is due before the second one, or they are the same. -/
def Earlier (a b : ℕ × UInt64) : Prop := a.1 < b.1 ∨ a.1 = b.1 ∧ a.2 ≤ b.2

theorem entryPair_queueEntry {p : ℕ × UInt64} (hp : p.1 < 2 ^ 128) :
    entryPair (queueEntry p) = p :=
  Prod.ext (entryTime_priority hp p.2) (entryIndex_priority hp p.2)

/-- The numbers are ordered as the pairs. -/
theorem priority_le_iff {a b : ℕ × UInt64} (ha : a.1 < 2 ^ 128) (hb : b.1 < 2 ^ 128) :
    queueEntry a ≤ queueEntry b ↔ Earlier a b := by
  have hda := a.2.toNat_lt
  have hdb := b.2.toNat_lt
  rw [queueEntry, queueEntry, priority_eq ha, priority_eq hb, Earlier, UInt64.le_iff_toNat_le]
  omega

/-! ## The loop -/

/-- The pairs that a call takes out of the queue, in order. -/
def processed (shown : List Event) : List (ℕ × UInt64) := (completed shown).map entryPair

/-- A round announces its entry. -/
theorem Round.completed {m : ℕ} {q : PriorityQueue} (h : Round msg s m q s' shown) :
    completed shown = [m] := by
  rcases h.effect with ⟨-, -, rfl⟩ | ⟨-, -, -, rfl⟩
  · rfl
  · rfl

/-- What the entries of a queue are divided into: those that are taken out, in order, and those
that stay. -/
structure TakenOut (q : PriorityQueue) (ms : List ℕ) (q' : PriorityQueue) : Prop where
  wf : q'.WF
  entries : ↑ms + q'.entries = q.entries
  ordered : ms.Pairwise (· ≤ ·)
  first : ∀ m ∈ ms, ∀ x ∈ q'.entries, m ≤ x

theorem takenOut_nil {q : PriorityQueue} (hq : q.WF) : TakenOut q [] q :=
  ⟨hq, zero_add _, .nil, fun _ hm => by cases hm⟩

/-- The least entry is taken out before any others. -/
theorem TakenOut.cons {q q₁ q' : PriorityQueue} {m : ℕ} {ms : List ℕ} (h : TakenOut q₁ ms q')
    (hent : m ::ₘ q₁.entries = q.entries) (hle : ∀ x ∈ q.entries, m ≤ x) :
    TakenOut q (m :: ms) q' where
  wf := h.wf
  entries := by
    rw [← Multiset.cons_coe, Multiset.cons_add, h.entries, hent]
  ordered := by
    refine List.pairwise_cons.mpr ⟨fun x hx => hle x ?_, h.ordered⟩
    rw [← hent, ← h.entries]
    exact Multiset.mem_cons_of_mem (Multiset.mem_add.mpr (Or.inl hx))
  first := by
    intro x hx y hy
    rcases List.mem_cons.mp hx with rfl | hx
    · apply hle
      rw [← hent, ← h.entries]
      exact Multiset.mem_cons_of_mem (Multiset.mem_add.mpr (Or.inr hy))
    · exact h.first x hx y hy

/-- Rounds take out the least entries, and announce them. -/
theorem takenOut_of_rounds (hq : s.exitsQueue.WF) (h : Rounds msg s s' shown) :
    TakenOut s.exitsQueue (completed shown) s'.exitsQueue := by
  induction h with
  | nil => exact takenOut_nil hq
  | cons hround _ ih =>
    obtain ⟨rfl, hwf, hent, hle⟩ := hround.queue hq
    rw [completed, List.filterMap_append]
    change TakenOut _ (completed _ ++ completed _) _
    rw [hround.completed]
    exact (ih hwf).cons hent hle

/-! ## Runs -/

/-- The states of the queue: exits are added and finalized in any order, and other calls leave the
queue alone. With them all pairs that were added, and those that were processed in order. -/
inductive QueueRun : RootChain → Multiset (ℕ × UInt64) → List (ℕ × UInt64) → Prop where
  | new {s : RootChain} (hnew : s.exitsQueue = .new) : QueueRun s 0 []
  | add {s s' : RootChain} {added : Multiset (ℕ × UInt64)} {finished : List (ℕ × UInt64)}
      (tokenID depID : UInt64) (etx : Exit) (h : QueueRun s added finished)
      (hadd : s.addExitToQueue tokenID depID etx = .ok s') :
      QueueRun s' ((etx.exitableTS, depID) ::ₘ added) finished
  | finalize {s s' : RootChain} {added : Multiset (ℕ × UInt64)} {finished : List (ℕ × UInt64)}
      {shown : List Event} (msg : Msg) (h : QueueRun s added finished)
      (hfin : s.finalizeExits msg = .ok (s', shown)) :
      QueueRun s' added (finished ++ processed shown)
  | other {s s' : RootChain} {added : Multiset (ℕ × UInt64)} {finished : List (ℕ × UInt64)}
      (h : QueueRun s added finished) (hsame : s'.exitsQueue = s.exitsQueue) :
      QueueRun s' added finished

theorem addExitToQueue_of_opened {tokenID depID : UInt64} {etx : Exit}
    (h : Opened s tokenID depID etx s') : s.addExitToQueue tokenID depID etx = .ok s' := by
  obtain ⟨q, hins, rfl⟩ := h.state
  rw [RootChain.addExitToQueue, requireMsg_bind_eq_ok]
  refine ⟨h.free, ?_⟩
  rw [hins]
  rfl

/-- Every run of the contract is one of its queue. -/
theorem RunWith.queueRun {E : Evm} {P : RootChain → Msg → Call → Prop} {now : UInt64}
    {log : List Event} (h : RunWith E P s now log) :
    ∃ added finished, QueueRun s added finished := by
  induction h with
  | new sender now hs =>
    obtain ⟨smt, -, rfl⟩ := newRootChain_ok hs
    exact ⟨0, [], .new rfl⟩
  | step msg call _ _ _ hcall ih =>
    obtain ⟨added, finished, ih⟩ := ih
    by_cases hfin : call = .finalizeExits
    · subst hfin
      exact ⟨added, _, .finalize msg ih hcall⟩
    · cases exec_effect hcall with
      | published => exact ⟨added, finished, .other ih rfl⟩
      | deposited _ hd => exact ⟨added, finished, .other ih (by rw [hd.state])⟩
      | @opened tokenID depID etx _ _ _ ho =>
        exact ⟨_, finished, .add tokenID depID etx ih (addExitToQueue_of_opened ho)⟩
      | cancelled => exact ⟨added, finished, .other ih rfl⟩
      | finalized hcall' => exact absurd hcall' hfin
  | fail _ _ _ _ _ ih => exact ih

section
variable {added : Multiset (ℕ × UInt64)} {finished : List (ℕ × UInt64)}

/-- The queue is a heap, and every entry that was added has been processed or is still there. -/
theorem QueueRun.entries (h : QueueRun s added finished) :
    s.exitsQueue.WF ∧ ∃ ms : List ℕ, finished = ms.map entryPair ∧
      ↑ms + s.exitsQueue.entries = added.map queueEntry := by
  induction h with
  | new hnew =>
    rw [hnew]
    exact ⟨PriorityQueue.wf_new, [], rfl, rfl⟩
  | add tokenID depID etx _ hadd ih =>
    obtain ⟨hwf, ms, hms, hent⟩ := ih
    obtain ⟨hwf', hent'⟩ := (opened_of_addExitToQueue hadd).queue hwf
    refine ⟨hwf', ms, hms, ?_⟩
    rw [hent', Multiset.add_cons, hent, Multiset.map_cons]
    rfl
  | finalize msg _ hfin ih =>
    obtain ⟨hwf, ms, rfl, hent⟩ := ih
    have htaken := takenOut_of_rounds hwf (rounds_of_finalizeExits hfin)
    refine ⟨htaken.wf, ms ++ completed _, (List.map_append).symm, ?_⟩
    rw [← Multiset.coe_add, add_assoc, htaken.entries, hent]
  | other _ hsame ih =>
    rw [hsame]
    exact ih

/-- The pairs that are in the queue, where all times are below `2 ^ 128`. -/
theorem QueueRun.pending (h : QueueRun s added finished) (hts : ∀ p ∈ added, p.1 < 2 ^ 128) :
    ∃ pending : Multiset (ℕ × UInt64), added = ↑finished + pending ∧
      s.exitsQueue.entries = pending.map queueEntry := by
  obtain ⟨-, ms, rfl, hent⟩ := h.entries
  have hpairs : (added.map queueEntry).map entryPair = added := by
    rw [Multiset.map_map]
    conv_rhs => rw [← Multiset.map_id added]
    exact Multiset.map_congr rfl fun p hp => entryPair_queueEntry (hts p hp)
  refine ⟨s.exitsQueue.entries.map entryPair, ?_, ?_⟩
  · rw [← hpairs, ← hent, Multiset.map_add, Multiset.map_coe]
  · rw [Multiset.map_map]
    conv_lhs => rw [← Multiset.map_id s.exitsQueue.entries]
    refine Multiset.map_congr rfl fun x hx => ?_
    have hx' : x ∈ added.map queueEntry := by
      rw [← hent]
      exact Multiset.mem_add.mpr (Or.inr hx)
    obtain ⟨p, hp, rfl⟩ := Multiset.mem_map.mp hx'
    exact congrArg queueEntry (entryPair_queueEntry (hts p hp)).symm

/-- The queue of exits is a sorted multiset. In every run it is a heap, and `delMin` removes one
occurrence of the least entry. If the times are below `2 ^ 128`, the pairs that were added are those
that were processed and those that are pending; `getNextExit` answers with the earliest pending one,
and `finalizeExits` processes pending ones from the earliest on. -/
theorem exit_queue_order (h : QueueRun s added finished) :
    s.exitsQueue.WF ∧
    (s.exitsQueue.entries ≠ 0 → ∃ m q, s.exitsQueue.delMin = .ok (m, q) ∧ q.WF ∧
      m ∈ s.exitsQueue.entries ∧ (∀ x ∈ s.exitsQueue.entries, m ≤ x) ∧
      q.entries = s.exitsQueue.entries.erase m) ∧
    ((∀ p ∈ added, p.1 < 2 ^ 128) → ∃ pending : Multiset (ℕ × UInt64),
      added = ↑finished + pending ∧ s.exitsQueue.entries = pending.map queueEntry ∧
      (pending ≠ 0 → ∃ p ∈ pending, (∀ x ∈ pending, Earlier p x) ∧
        s.getNextExit = .ok (p.2, s.depositIndex p.2, p.1)) ∧
      ∀ msg s' shown, s.finalizeExits msg = .ok (s', shown) → ∃ rest,
        pending = ↑(processed shown) + rest ∧ s'.exitsQueue.entries = rest.map queueEntry ∧
        (processed shown).Pairwise Earlier ∧ ∀ a ∈ processed shown, ∀ b ∈ rest, Earlier a b) := by
  have hwf := h.entries.1
  refine ⟨hwf, ?_, ?_⟩
  · intro hne
    obtain ⟨m, q, hmin, hdel, hwf', hent⟩ := hwf.delMin hne
    obtain ⟨m', hmin', hmem, hle⟩ := hwf.getMin hne
    obtain rfl := Except.ok.inj (hmin'.symm.trans hmin)
    refine ⟨m', q, hdel, hwf', hmem, hle, ?_⟩
    rw [← hent, Multiset.erase_cons_head]
  · intro hts
    obtain ⟨pending, hadded, hent⟩ := h.pending hts
    have htime : ∀ p ∈ pending, p.1 < 2 ^ 128 := by
      intro p hp
      apply hts
      rw [hadded]
      exact Multiset.mem_add.mpr (Or.inr hp)
    refine ⟨pending, hadded, hent, ?_, ?_⟩
    · intro hne
      obtain ⟨m, hmin, hmem, hle⟩ := hwf.getMin (by rw [hent]; simpa using hne)
      rw [hent] at hmem hle
      obtain ⟨p, hp, rfl⟩ := Multiset.mem_map.mp hmem
      refine ⟨p, hp, ?_, ?_⟩
      · intro x hx
        exact (priority_le_iff (htime p hp) (htime x hx)).mp
          (hle _ (Multiset.mem_map_of_mem _ hx))
      · have hpair := entryPair_queueEntry (htime p hp)
        obtain ⟨htime', hindex⟩ := Prod.mk.inj (show _ = (p.1, p.2) from hpair)
        rw [getNextExit_eq hmin, hindex, htime']
    · intro msg s' shown hfin
      -- the pairs after the call
      obtain ⟨rest, hrest, hent'⟩ := (QueueRun.finalize msg h hfin).pending hts
      have hsplit : pending = ↑(processed shown) + rest := by
        rw [hadded, ← Multiset.coe_add, add_assoc] at hrest
        exact add_left_cancel hrest
      have htaken := takenOut_of_rounds hwf (rounds_of_finalizeExits hfin)
      have hentry : ∀ m ∈ completed shown,
          (entryPair m).1 < 2 ^ 128 ∧ queueEntry (entryPair m) = m := by
        intro m hm
        have hmem : m ∈ pending.map queueEntry := by
          rw [← hent, ← htaken.entries]
          exact Multiset.mem_add.mpr (Or.inl hm)
        obtain ⟨p, hp, rfl⟩ := Multiset.mem_map.mp hmem
        rw [entryPair_queueEntry (htime p hp)]
        exact ⟨htime p hp, rfl⟩
      refine ⟨rest, hsplit, hent', ?_, ?_⟩
      · rw [processed, List.pairwise_map]
        refine htaken.ordered.imp_of_mem fun {m m'} hm hm' hle => ?_
        obtain ⟨ht, heq⟩ := hentry m hm
        obtain ⟨ht', heq'⟩ := hentry m' hm'
        rw [← heq, ← heq'] at hle
        exact (priority_le_iff ht ht').mp hle
      · intro a ha b hb
        obtain ⟨m, hm, rfl⟩ := List.mem_map.mp ha
        obtain ⟨ht, heq⟩ := hentry m hm
        have hle := htaken.first m hm (queueEntry b) (by
          rw [hent']
          exact Multiset.mem_map_of_mem _ hb)
        rw [← heq] at hle
        refine (priority_le_iff ht (htime b ?_)).mp hle
        rw [hsplit]
        exact Multiset.mem_add.mpr (Or.inr hb)

end

/-- A contract without exits. -/
def noExits : RootChain :=
  ⟨zeroAddress, 0, 0, fun _ => zeroHash, fun _ => 0, fun _ => 0, fun _ => noExit, .new,
    ⟨fun _ => zeroHash⟩, 0⟩

/-- An exit that has been cancelled. -/
def cancelledExit (exitableTS : ℕ) : Exit := { noExit with exitableTS := exitableTS }

set_option maxRecDepth 4000 in
theorem exit_queue_order_three : ∃ s pending, QueueRun s {(60, 9), (100, 3), (100, 7)} [(60, 9)] ∧
    (pending : Multiset (ℕ × UInt64)) = {(100, 3), (100, 7)} ∧
    s.exitsQueue.entries = pending.map queueEntry ∧
    ∃ p ∈ pending, (∀ x ∈ pending, Earlier p x) ∧
      s.getNextExit = .ok (p.2, s.depositIndex p.2, p.1) := by
  have hrun : ∃ s, QueueRun s {(60, 9), (100, 3), (100, 7)} (processed [.exitCompleted
      (queueEntry (60, 9))]) :=
    ⟨_, .finalize ⟨zeroAddress, 80, fun _ => true, fun _ _ => 0⟩
      (.add 3 9 (cancelledExit 60) (.add 2 3 (cancelledExit 100) (.add 1 7 (cancelledExit 100)
        (.new (s := noExits) rfl) rfl) rfl) rfl) rfl⟩
  obtain ⟨s, hrun⟩ := hrun
  obtain ⟨-, -, hpairs⟩ := exit_queue_order hrun
  have htimes : ∀ p ∈ ({(60, 9), (100, 3), (100, 7)} : Multiset (ℕ × UInt64)), p.1 < 2 ^ 128 := by
    intro p hp
    have hle : ∀ p ∈ ({(60, 9), (100, 3), (100, 7)} : Multiset (ℕ × UInt64)), p.1 ≤ 100 := by decide
    exact lt_of_le_of_lt (hle p hp) (by norm_num)
  obtain ⟨pending, hadded, hent, hnext, -⟩ := hpairs htimes
  have hpending : pending = {(100, 3), (100, 7)} := by
    have hsplit : ((60, 9) ::ₘ {(100, 3), (100, 7)} : Multiset (ℕ × UInt64))
        = (60, 9) ::ₘ pending :=
      hadded
    exact ((Multiset.cons_inj_right _).mp hsplit).symm
  exact ⟨s, pending, hrun, hpending, hent, hnext (by rw [hpending]; decide)⟩

end GoPlasma.Contract
