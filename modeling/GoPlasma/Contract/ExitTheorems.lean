import GoPlasma.Contract.RootChainTheorems

/-!
# Exits and the queue

The queue holds the time and the deposit index of an exit, the record is found under its token, and
nothing ties the two together. This module is about what ties them: a record is finalized by an
entry of its own time (`payment_after_window`), and a pending record has its entry
(`pending_exit_queued`). Both hold in the runs in which exits are opened under the deposit index of
their token, the first only if no entry of a cancelled exit of the token is left. They fail for a
token that is exited again after a challenge, and for a deposit index that is made up.

`challenge_genuine_iff` says which of the successful challenges show a conflict.
-/

namespace GoPlasma.Contract

open Plasma (Address zeroAddress)

variable {E : Evm} {msg : Msg} {s s' : RootChain} {shown log : List Event} {now : UInt64}

/-! ## Entries of the queue -/

theorem priority_eq {ts : ℕ} (hts : ts < 2 ^ 128) (d : UInt64) :
    RootChain.priority ts d = 2 ^ 128 * ts + d.toNat := by
  have hd : d.toNat < 2 ^ 128 := lt_of_lt_of_le d.toNat_lt (by norm_num)
  rw [RootChain.priority, Nat.shiftLeft_eq, Nat.mod_eq_of_lt (by omega), Nat.mul_comm,
    Nat.two_pow_add_eq_or_of_lt hd]

theorem entryTime_priority {ts : ℕ} (hts : ts < 2 ^ 128) (d : UInt64) :
    entryTime (RootChain.priority ts d) = ts := by
  have hd : d.toNat < 2 ^ 128 := lt_of_lt_of_le d.toNat_lt (by norm_num)
  rw [priority_eq hts, entryTime, Nat.shiftRight_eq_div_pow]
  omega

theorem entryIndex_priority {ts : ℕ} (hts : ts < 2 ^ 128) (d : UInt64) :
    entryIndex (RootChain.priority ts d) = d := by
  have hd := d.toNat_lt
  rw [priority_eq hts, entryIndex, ← UInt64.toNat_inj, UInt64.toNat_ofNat']
  omega

/-- The time of an exit that is asked for leaves room for the deposit index. -/
theorem Call.opens_time {call : Call} {t d : UInt64} {etx : Exit}
    (h : call.opens msg s = some (t, d, etx)) : etx.exitableTS < 2 ^ 128 := by
  have hts := msg.timestamp.toNat_lt
  have key : etx.exitableTS = msg.timestamp.toNat + 60 := by
    cases call with
    | depositExit d' =>
      obtain ⟨-, h⟩ := Prod.mk.inj (Option.some.inj h)
      obtain ⟨-, rfl⟩ := Prod.mk.inj h
      rfl
    | startExit pb pp pblk tb pr blk =>
      rw [Call.opens] at h
      cases hp : parseTx (msg.behind 0) tb with
      | error e => simp [hp] at h
      | ok tx =>
        rw [hp] at h
        obtain ⟨-, h⟩ := Prod.mk.inj (Option.some.inj h)
        obtain ⟨-, rfl⟩ := Prod.mk.inj h
        rfl
    | _ => cases h
  omega

/-- A deposit index that was given out stays below the next one. -/
theorem lt_succ_currentDepositIndex {d : UInt64}
    (hbound : s.currentDepositIndex.toNat + 1 < 2 ^ 64) (hd : d < s.currentDepositIndex) :
    d < s.currentDepositIndex + 1 := by
  have := UInt64.lt_iff_toNat_lt.mp hd
  rw [UInt64.lt_iff_toNat_lt, UInt64.toNat_add, UInt64.toNat_one]
  omega

/-! ## Every exit gets its time -/

/-- Exits are opened under a deposit index of their token that was given out, there is no entry
for the token in the queue, and the deposit indices are not used up. -/
def OpensAfresh (s : RootChain) (msg : Msg) (call : Call) : Prop :=
  s.currentDepositIndex.toNat + 1 < 2 ^ 64 ∧
  ∀ o ∈ call.opens msg s, s.depositIndex o.2.1 = o.1 ∧ o.2.1 < s.currentDepositIndex ∧
    ∀ m ∈ s.exitsQueue.entries, s.depositIndex (entryIndex m) ≠ o.1

/-- No entry of the queue finalizes a record of another time. -/
structure Timely (s : RootChain) (log : List Event) : Prop where
  queue : s.exitsQueue.WF
  nodup : (s.exitsQueue.entries.map entryIndex).Nodup
  bound : ∀ m ∈ s.exitsQueue.entries, entryIndex m < s.currentDepositIndex
  time : ∀ m ∈ s.exitsQueue.entries,
    (s.exits (s.depositIndex (entryIndex m))).exitor ≠ zeroAddress →
      (s.exits (s.depositIndex (entryIndex m))).exitableTS = entryTime m
  payments : ∀ p, .payment p ∈ log → p.exit.exitableTS < p.timestamp.toNat

theorem noExit_exitor : noExit.exitor = zeroAddress := rfl

/-- Deleting a record keeps the times of the others. -/
theorem time_update_noExit {t : UInt64} {m : ℕ} {d : UInt64}
    (h : (s.exits d).exitor ≠ zeroAddress → (s.exits d).exitableTS = entryTime m) :
    (Function.update s.exits t noExit d).exitor ≠ zeroAddress →
      (Function.update s.exits t noExit d).exitableTS = entryTime m := by
  intro hexit
  by_cases hd : d = t
  · rw [hd, Function.update_self] at hexit
    exact absurd noExit_exitor hexit
  · rw [Function.update_of_ne hd] at hexit ⊢
    exact h hexit

theorem Timely.opened {call : Call} {t d : UInt64} {etx : Exit} (h : Timely s log)
    (hp : OpensAfresh s msg call) (hcall : call.opens msg s = some (t, d, etx))
    (ho : Opened s t d etx s') : Timely s' log := by
  obtain ⟨hwf, hent⟩ := ho.queue h.queue
  have hts := Call.opens_time hcall
  obtain ⟨htok, hlt, hfresh⟩ := hp.2 (t, d, etx) hcall
  obtain ⟨q, -, rfl⟩ := ho.state
  change q.entries = _ at hent
  refine ⟨hwf, ?_, ?_, ?_, h.payments⟩
  · -- an entry with the same deposit index would be one for the same token
    change (q.entries.map entryIndex).Nodup
    rw [hent, Multiset.map_cons, entryIndex_priority hts, Multiset.nodup_cons]
    refine ⟨fun hmem => ?_, h.nodup⟩
    obtain ⟨m, hm, rfl⟩ := Multiset.mem_map.mp hmem
    exact hfresh m hm htok
  · change ∀ m ∈ q.entries, entryIndex m < s.currentDepositIndex
    intro m hm
    rw [hent, Multiset.mem_cons] at hm
    rcases hm with rfl | hm
    · rwa [entryIndex_priority hts]
    · exact h.bound m hm
  · change ∀ m ∈ q.entries,
      (Function.update s.exits t etx (s.depositIndex (entryIndex m))).exitor ≠ zeroAddress →
        (Function.update s.exits t etx (s.depositIndex (entryIndex m))).exitableTS = entryTime m
    intro m hm
    rw [hent, Multiset.mem_cons] at hm
    rcases hm with rfl | hm
    · rw [entryIndex_priority hts, entryTime_priority hts, htok, Function.update_self]
      exact fun _ => rfl
    · rw [Function.update_of_ne (hfresh m hm)]
      exact h.time m hm

theorem Timely.deposited {value : ℕ} {t : UInt64} (h : Timely s log)
    (hbound : s.currentDepositIndex.toNat + 1 < 2 ^ 64) (hd : Deposited E msg s value t s' shown) :
    Timely s' (log ++ shown) := by
  have hne : ∀ m ∈ s.exitsQueue.entries, entryIndex m ≠ s.currentDepositIndex :=
    fun m hm => UInt64.ne_of_lt (h.bound m hm)
  obtain ⟨-, -, -, -, rfl, rfl⟩ := hd
  refine ⟨h.queue, h.nodup, ?_, ?_, ?_⟩
  · exact fun m hm => lt_succ_currentDepositIndex hbound (h.bound m hm)
  · intro m hm
    change (s.exits (Function.update s.depositIndex s.currentDepositIndex t (entryIndex m))).exitor
      ≠ zeroAddress → (s.exits (Function.update s.depositIndex s.currentDepositIndex t
        (entryIndex m))).exitableTS = entryTime m
    rw [Function.update_of_ne (hne m hm)]
    exact h.time m hm
  · intro p hp
    simp only [List.mem_append, List.mem_singleton, reduceCtorEq, or_false] at hp
    exact h.payments p hp

theorem Timely.round {m : ℕ} {q : PriorityQueue} (h : Timely s log)
    (hr : Round msg s m q s' shown) : Timely s' (log ++ shown) := by
  obtain ⟨rfl, hwf, hent, -⟩ := hr.queue h.queue
  have hsub : ∀ x ∈ s'.exitsQueue.entries, x ∈ s.exitsQueue.entries := by
    intro x hx
    rw [← hent]
    exact Multiset.mem_cons_of_mem hx
  have hnodup := h.nodup
  rw [← hent, Multiset.map_cons, Multiset.nodup_cons] at hnodup
  refine ⟨hwf, hnodup.2, ?_, ?_, ?_⟩
  · intro x hx
    rw [hr.currentDepositIndex]
    exact h.bound x (hsub x hx)
  · intro x hx
    -- the deposit index of the entry that was taken out is no longer in the queue
    have hne : entryIndex x ≠ entryIndex m := by
      intro heq
      exact hnodup.1 (heq ▸ Multiset.mem_map_of_mem _ hx)
    rw [hr.depositIndex hne, hr.exits]
    exact time_update_noExit (h.time x (hsub x hx))
  · intro p hp
    rcases List.mem_append.mp hp with hp | hp
    · exact h.payments p hp
    · obtain ⟨hexit, -, rfl⟩ := hr.payment hp
      have hm : m ∈ s.exitsQueue.entries := by
        rw [← hent]
        exact Multiset.mem_cons_self _ _
      have htime := h.time m hm hexit
      have hdue := hr.due
      change (s.exits (s.depositIndex (entryIndex m))).exitableTS < msg.timestamp.toNat
      omega

theorem RunWith.timely (h : RunWith E OpensAfresh s now log) : Timely s log := by
  refine h.keeps (I := Timely) ?_ ?_
  · intro s sender hs
    obtain ⟨smt, -, rfl⟩ := newRootChain_ok hs
    refine ⟨PriorityQueue.wf_new, ?_, ?_, ?_, fun p hp => absurd hp (List.not_mem_nil)⟩
    all_goals simp [PriorityQueue.entries_new]
  · intro s now msg call s' log shown _ hi hp heff
    cases heff with
    | published =>
      rw [List.append_nil]
      exact ⟨hi.queue, hi.nodup, hi.bound, hi.time, hi.payments⟩
    | deposited _ hd => exact hi.deposited hp.1 hd
    | opened hcall _ ho =>
      rw [List.append_nil]
      exact hi.opened hp hcall ho
    | cancelled t =>
      rw [List.append_nil]
      exact ⟨hi.queue, hi.nodup, hi.bound, fun m hm => time_update_noExit (hi.time m hm),
        hi.payments⟩
    | finalized _ hr => exact hr.keeps (fun s m q s' log shown hi h => hi.round h) log hi

/-- An exit is paid only after its own time. -/
theorem payment_after_window (h : RunWith E OpensAfresh s now log) {p : Payment}
    (hp : p ∈ payments log) : p.exit.exitableTS < p.timestamp.toNat :=
  h.timely.payments p (mem_payments.mp hp)

instance : ∀ s msg call, Decidable (OpensAfresh s msg call) := by
  unfold OpensAfresh
  infer_instance

/-- A hash of 61 bits that is cheap to compute, with the right value for the empty string. -/
def smallHash (b : Bytes) : Hash :=
  if b = [] then emptyHash
  else ⟨Bytes.zeros 24 ++ Bytes.toBE 8 (Bytes.ofBE (1 :: b) % (2 ^ 61 - 1) + 1), by simp⟩

/-- A machine on which the first word of a signature names its signer. -/
def smallEvm : Evm where
  keccak := smallHash
  ecrecover _ _ r _ := ⟨r.1.drop 12, by rw [List.length_drop, r.2]⟩

def depositor : Address := ⟨Bytes.zeros 19 ++ [1], rfl⟩

def receiver : Address := ⟨Bytes.zeros 19 ++ [2], rfl⟩

/-- A call at a time, with zeros behind the arguments. All accounts accept ether. -/
def callAt (timestamp : UInt64) (sender : Address) : Msg :=
  ⟨sender, timestamp, fun _ => true, fun _ _ => 0⟩

/-- The token of the first deposit, of 5 by `depositor`. -/
def firstToken : UInt64 := tokenHash smallEvm depositor 0 5

theorem payment_after_window_depositExit :
    ∃ s now log, RunWith smallEvm OpensAfresh s now log ∧
      ∃ p ∈ payments log, p.exit.exitableTS < p.timestamp.toNat := by
  obtain ⟨s, now, log, hrun, p, hp, -⟩ := exists_runWith smallEvm OpensAfresh depositor
    [(callAt 100 depositor, .deposit 5), (callAt 100 depositor, .depositExit 0),
      (callAt 170 depositor, .finalizeExits)] (fun _ log => ∃ p ∈ payments log, True)
    (by decide +kernel)
  exact ⟨s, now, log, hrun, p, hp, payment_after_window hrun hp⟩

/-- The transaction of the first deposit on the child chain. -/
def firstDepositTx : Plasma.Transaction :=
  ⟨firstToken, 5, 0, 0, depositor, depositor, 0, 0, Plasma.emptySlice, 5⟩

/-- A signature that names its signer. -/
def signedBy (a : Address) : Plasma.Slice :=
  ⟨Bytes.zeros 12 ++ a.1 ++ Bytes.zeros 33, by simp [a.2]⟩

/-- The root of a block with one transaction. -/
def blockRoot (E : Evm) (tx : Plasma.Transaction) : Hash :=
  match newSparseMerkle E >>= fun smt =>
      getRoot E smt (E.keccak tx.bytes) tx.tokenID (Bytes.zeros 8) with
  | .ok root => root
  | .error _ => zeroHash

/-- The exit is challenged and opened again 50 seconds later; the entry of the first exit pays the
second one after 20 seconds. -/
theorem payment_before_window :
    ∃ s now log, Run smallEvm s now log ∧
      ∃ p ∈ payments log, p.timestamp.toNat ≤ p.exit.exitableTS := by
  exact exists_runWith smallEvm _ depositor
    [(callAt 90 depositor, .deposit 5),
      (callAt 90 depositor, .submitBlock (blockRoot smallEvm firstDepositTx) 1),
      (callAt 100 depositor, .depositExit 0),
      (callAt 140 receiver, .challenge firstDepositTx.bytes (Bytes.zeros 8) 1),
      (callAt 150 depositor, .depositExit 0),
      (callAt 170 receiver, .finalizeExits)]
    (fun _ log => ∃ p ∈ payments log, p.timestamp.toNat ≤ p.exit.exitableTS)
    (by decide +kernel)

/-! ## Pending exits have their entry -/

/-- Exits are opened under a deposit index of their token that was given out, and the deposit
indices are not used up. -/
def OpensOwnIndex (s : RootChain) (msg : Msg) (call : Call) : Prop :=
  s.currentDepositIndex.toNat + 1 < 2 ^ 64 ∧
  ∀ o ∈ call.opens msg s, s.depositIndex o.2.1 = o.1 ∧ o.2.1 < s.currentDepositIndex

instance : ∀ s msg call, Decidable (OpensOwnIndex s msg call) := by
  unfold OpensOwnIndex
  infer_instance

/-- The entry of an exit of `t` with the time `ts`. -/
structure QueuedAt (s : RootChain) (t : UInt64) (ts m : ℕ) : Prop where
  mem : m ∈ s.exitsQueue.entries
  time : entryTime m = ts
  token : s.depositIndex (entryIndex m) = t
  bound : entryIndex m < s.currentDepositIndex

/-- Every pending exit is queued. -/
structure Queued (s : RootChain) : Prop where
  queue : s.exitsQueue.WF
  pending : ∀ t, (s.exits t).exitableTS ≠ 0 → ∃ m, QueuedAt s t (s.exits t).exitableTS m

theorem Queued.opened {call : Call} {t d : UInt64} {etx : Exit} (h : Queued s)
    (hp : OpensOwnIndex s msg call) (hcall : call.opens msg s = some (t, d, etx))
    (ho : Opened s t d etx s') : Queued s' := by
  obtain ⟨hwf, hent⟩ := ho.queue h.queue
  have hts := Call.opens_time hcall
  obtain ⟨htok, hlt⟩ := hp.2 (t, d, etx) hcall
  obtain ⟨q, -, rfl⟩ := ho.state
  change q.entries = _ at hent
  refine ⟨hwf, fun t' hpend => ?_⟩
  change (Function.update s.exits t etx t').exitableTS ≠ 0 at hpend
  change ∃ m, QueuedAt _ t' (Function.update s.exits t etx t').exitableTS m
  -- the token of the new exit has the new entry; the others keep theirs
  by_cases ht : t' = t
  · subst ht
    rw [Function.update_self]
    refine ⟨RootChain.priority etx.exitableTS d, ?_, entryTime_priority hts d, ?_, ?_⟩
    · change _ ∈ q.entries
      rw [hent]
      exact Multiset.mem_cons_self _ _
    · rwa [entryIndex_priority hts]
    · rwa [entryIndex_priority hts]
  · rw [Function.update_of_ne ht] at hpend ⊢
    obtain ⟨m, hm, hmt, hmd, hmb⟩ := h.pending t' hpend
    refine ⟨m, ?_, hmt, hmd, hmb⟩
    change m ∈ q.entries
    rw [hent]
    exact Multiset.mem_cons_of_mem hm

theorem Queued.deposited {value : ℕ} {t : UInt64} (h : Queued s)
    (hbound : s.currentDepositIndex.toNat + 1 < 2 ^ 64) (hd : Deposited E msg s value t s' shown) :
    Queued s' := by
  obtain ⟨-, -, -, -, rfl, -⟩ := hd
  refine ⟨h.queue, fun t' hpend => ?_⟩
  obtain ⟨m, hm, hmt, hmd, hmb⟩ := h.pending t' hpend
  refine ⟨m, hm, hmt, ?_, ?_⟩
  · change Function.update s.depositIndex s.currentDepositIndex t (entryIndex m) = t'
    rwa [Function.update_of_ne (UInt64.ne_of_lt hmb)]
  · exact lt_succ_currentDepositIndex hbound hmb

theorem Queued.round {m : ℕ} {q : PriorityQueue} (h : Queued s) (hr : Round msg s m q s' shown) :
    Queued s' := by
  obtain ⟨rfl, hwf, hent, -⟩ := hr.queue h.queue
  refine ⟨hwf, fun t hpend => ?_⟩
  rw [hr.exits] at hpend ⊢
  -- the token of the entry that goes is no longer pending; another token has another entry
  have ht : t ≠ s.depositIndex (entryIndex m) := by
    rintro rfl
    rw [Function.update_self] at hpend
    exact hpend rfl
  rw [Function.update_of_ne ht] at hpend ⊢
  obtain ⟨x, hx, hxt, hxd, hxb⟩ := h.pending t hpend
  have hidx : entryIndex x ≠ entryIndex m := by
    intro heq
    rw [heq] at hxd
    exact ht hxd.symm
  have hne : x ≠ m := fun heq => hidx (congrArg entryIndex heq)
  refine ⟨x, ?_, hxt, ?_, ?_⟩
  · rw [← hent] at hx
    exact (Multiset.mem_cons.mp hx).resolve_left hne
  · rw [hr.depositIndex hidx, hxd]
  · rwa [hr.currentDepositIndex]

theorem RunWith.queued (h : RunWith E OpensOwnIndex s now log) : Queued s := by
  refine h.keeps (I := fun s _ => Queued s) ?_ ?_
  · intro s sender hs
    obtain ⟨smt, -, rfl⟩ := newRootChain_ok hs
    exact ⟨PriorityQueue.wf_new, fun t hpend => absurd rfl hpend⟩
  · intro s now msg call s' log shown _ hi hp heff
    cases heff with
    | published =>
      refine ⟨hi.queue, fun t hpend => ?_⟩
      obtain ⟨m, hm, hmt, hmd, hmb⟩ := hi.pending t hpend
      exact ⟨m, hm, hmt, hmd, hmb⟩
    | deposited _ hd => exact hi.deposited hp.1 hd
    | opened hcall _ ho => exact hi.opened hp hcall ho
    | cancelled t =>
      refine ⟨hi.queue, fun t' hpend => ?_⟩
      change (Function.update s.exits t noExit t').exitableTS ≠ 0 at hpend
      change ∃ m, QueuedAt _ t' (Function.update s.exits t noExit t').exitableTS m
      -- a token whose exit was cancelled has no pending one
      have ht : t' ≠ t := by
        rintro rfl
        rw [Function.update_self] at hpend
        exact hpend rfl
      rw [Function.update_of_ne ht] at hpend ⊢
      obtain ⟨m, hm, hmt, hmd, hmb⟩ := hi.pending t' hpend
      exact ⟨m, hm, hmt, hmd, hmb⟩
    | finalized _ hr =>
      refine hr.keeps (I := fun s _ => Queued s) ?_ log hi
      exact fun s m q s' log shown hi h => hi.round h

/-- A pending exit has an entry with its time and a deposit index of its token, and the round that
takes this entry deletes the record, after paying it if it names an exitor. -/
theorem pending_exit_queued (h : RunWith E OpensOwnIndex s now log) {t : UInt64}
    (ht : (s.exits t).exitableTS ≠ 0) :
    ∃ m ∈ s.exitsQueue.entries, entryTime m = (s.exits t).exitableTS ∧
      s.depositIndex (entryIndex m) = t ∧
      ∀ msg q s' shown, Round msg s m q s' shown → s'.exits t = noExit ∧
        ((s.exits t).exitor ≠ zeroAddress → ∃ p ∈ payments shown, p.tokenID = t ∧
          p.exit = s.exits t) := by
  obtain ⟨m, hm, hmt, hmd, -⟩ := h.queued.pending t ht
  refine ⟨m, hm, hmt, hmd, fun msg q s' shown hr => ⟨?_, fun hexit => ?_⟩⟩
  · rw [hr.exits, hmd, Function.update_self]
  · rcases hr.effect with ⟨hno, -, -⟩ | ⟨-, -, -, rfl⟩
    · rw [hmd] at hno
      exact absurd hno hexit
    · refine ⟨_, mem_payments.mpr List.mem_cons_self, hmd, ?_⟩
      rw [RootChain.payment, hmd]

theorem pending_exit_queued_depositExit :
    ∃ s now log, RunWith smallEvm OpensOwnIndex s now log ∧
      (s.exits firstToken).exitableTS ≠ 0 ∧
      ∃ m ∈ s.exitsQueue.entries, entryTime m = (s.exits firstToken).exitableTS ∧
        s.depositIndex (entryIndex m) = firstToken := by
  obtain ⟨s, now, log, hrun, ht⟩ := exists_runWith smallEvm OpensOwnIndex depositor
    [(callAt 100 depositor, .deposit 5), (callAt 100 depositor, .depositExit 0)]
    (fun s _ => (s.exits firstToken).exitableTS ≠ 0) (by decide +kernel)
  obtain ⟨m, hm, htime, htoken, -⟩ := pending_exit_queued hrun ht
  exact ⟨s, now, log, hrun, ht, m, hm, htime, htoken⟩

/-- The first token goes to `receiver`, in a transaction with the deposit index 7. -/
def foreignIndexTx : Plasma.Transaction :=
  ⟨firstToken, 5, 7, 1, depositor, receiver, 0, 0, signedBy depositor, 5⟩

/-- An exit with a deposit index that was never given out: it is pending, and its only entry is
one for token 0. -/
theorem pending_exit_not_queued :
    ∃ s now log, Run smallEvm s now log ∧ (s.exits firstToken).exitableTS ≠ 0 ∧
      ∀ m ∈ s.exitsQueue.entries, s.depositIndex (entryIndex m) ≠ firstToken := by
  exact exists_runWith smallEvm _ depositor
    [(callAt 90 depositor, .deposit 5),
      (callAt 90 depositor, .submitBlock (blockRoot smallEvm firstDepositTx) 1),
      (callAt 90 depositor, .submitBlock (blockRoot smallEvm foreignIndexTx) 2),
      (callAt 100 receiver, .startExit firstDepositTx.bytes (Bytes.zeros 8) 1
        foreignIndexTx.bytes (Bytes.zeros 8) 2)]
    (fun s _ => (s.exits firstToken).exitableTS ≠ 0 ∧
      ∀ m ∈ s.exitsQueue.entries, s.depositIndex (entryIndex m) ≠ firstToken)
    (by decide +kernel)

/-! ## Challenges that show a conflict -/

/-- The transaction spends the token after the exit, or gives it to somebody else before. -/
def Conflicts (tx : PlasmaTx) (e : Exit) (blk : UInt64) : Prop :=
  (e.exitBlk < blk ∧ tx.prevOwner = e.exitor ∧ (e.prevBlk ≠ 0 → tx.prevBlock = e.exitBlk)) ∨
  (e.prevBlk < blk ∧ blk < e.exitBlk ∧ tx.recipient ≠ e.exitor)

/-- The transaction is like the one that is exited: it gives the token to the exitor, and names
the block before the exit. `startExit` checks both of the exit transaction. -/
def LikeExit (tx : PlasmaTx) (e : Exit) : Prop :=
  tx.recipient = e.exitor ∧ tx.prevBlock = e.prevBlk

instance : ∀ tx e blk, Decidable (Conflicts tx e blk) := by
  unfold Conflicts
  infer_instance

instance : ∀ tx e, Decidable (LikeExit tx e) := by
  unfold LikeExit
  infer_instance

/-- What `challenge` asks of the transaction. -/
theorem challengeCond_eq_ok {tx : PlasmaTx} {e : Exit} {blk : UInt64} :
    RootChain.challengeCond tx e blk = .ok () ↔
      (e.exitBlk < blk → tx.prevOwner = e.exitor ∧
        if e.prevBlk = 0 then tx.prevBlock ≠ 0 else tx.prevBlock = e.exitBlk) ∧
      (¬ e.exitBlk < blk → e.prevBlk < blk → blk < e.exitBlk → tx.recipient ≠ e.exitor) := by
  rw [RootChain.challengeCond]
  by_cases hafter : e.exitBlk < blk
  · rw [if_pos hafter]
    by_cases hprev : e.prevBlk = 0
    · rw [if_pos hprev, requireMsg_bind_eq_ok, requireMsg_eq_ok]
      simp only [hafter, hprev, if_true, true_imp_iff, not_true, false_imp_iff, and_true]
      exact and_comm
    · rw [if_neg hprev, requireMsg_eq_ok]
      simp only [hafter, hprev, if_false, true_imp_iff, not_true, false_imp_iff, and_true]
  · rw [if_neg hafter]
    by_cases hbetween : e.prevBlk < blk ∧ blk < e.exitBlk
    · rw [if_pos hbetween, requireMsg_eq_ok]
      simp only [hafter, hbetween, false_imp_iff, not_false_iff, true_imp_iff, true_and]
    · rw [if_neg hbetween]
      simp only [hafter, false_imp_iff, true_and, not_false_iff, true_imp_iff, true_iff]
      exact fun h₁ h₂ => absurd ⟨h₁, h₂⟩ hbetween

/-- An exit is opened with its blocks in order. -/
theorem Grounds.order {call : Call} {t d : UInt64} {e : Exit} (h : Grounds E msg s call t d e) :
    e.prevBlk < e.exitBlk := by
  cases h with
  | deposit => exact (by decide : (0 : UInt64) < 1)
  | start _ _ h => exact h.order

/-- The blocks of a pending exit are in order. -/
theorem RunWith.order {P : RootChain → Msg → Call → Prop} (h : RunWith E P s now log) (t : UInt64)
    (ht : (s.exits t).exitableTS ≠ 0) : (s.exits t).prevBlk < (s.exits t).exitBlk :=
  h.pending (J := fun _ e => e.prevBlk < e.exitBlk) (fun _ _ _ _ _ _ _ _ _ _ hg => hg.order) t ht

/-- Of the successful challenges exactly those after the exit block, or strictly between the two
blocks of the exit, show a conflict; they are not made with the exit transaction, and not with one
at or before the earlier block. -/
theorem challenge_genuine_iff (hrun : Run E s now log) {txBytes proof : Bytes} {blk : UInt64}
    (h : s.challenge E msg txBytes proof blk = .ok s') :
    ∃ tx, parseTx (msg.behind 0) txBytes = .ok tx ∧ (s.exits tx.tokenID).exitableTS ≠ 0 ∧
      s' = { s with exits := Function.update s.exits tx.tokenID noExit } ∧
      ((Conflicts tx (s.exits tx.tokenID) blk ∧ ¬ LikeExit tx (s.exits tx.tokenID) ∧
          (s.exits tx.tokenID).prevBlk < blk) ↔
        (s.exits tx.tokenID).exitBlk < blk ∨
          ((s.exits tx.tokenID).prevBlk < blk ∧ blk < (s.exits tx.tokenID).exitBlk)) := by
  obtain ⟨tx, hok, rfl⟩ := challenge_eq_ok.mp h
  have hpending : (s.exits tx.tokenID).exitableTS ≠ 0 := Nat.pos_iff_ne_zero.mp hok.pending
  have horder := hrun.order tx.tokenID hpending
  obtain ⟨hafter, hbetween⟩ := challengeCond_eq_ok.mp hok.cond
  refine ⟨tx, hok.parse, hpending, rfl, ?_, ?_⟩
  · rintro ⟨⟨hlt, -⟩ | ⟨hlt, hlt', -⟩, -, -⟩
    · exact .inl hlt
    · exact .inr ⟨hlt, hlt'⟩
  · generalize s.exits tx.tokenID = e at *
    rintro (hlt | ⟨hlt, hlt'⟩)
    · obtain ⟨howner, hblock⟩ := hafter hlt
      refine ⟨.inl ⟨hlt, howner, fun hne => ?_⟩, fun hlike => ?_, UInt64.lt_trans horder hlt⟩
      · rwa [if_neg hne] at hblock
      · -- the block that the transaction names would be the one before the exit
        rw [hlike.2] at hblock
        by_cases hzero : e.prevBlk = 0
        · rw [if_pos hzero] at hblock
          exact hblock hzero
        · rw [if_neg hzero] at hblock
          exact UInt64.ne_of_lt horder hblock
    · have hrec := hbetween (UInt64.lt_asymm hlt') hlt hlt'
      exact ⟨.inr ⟨hlt, hlt', hrec⟩, fun hlike => hrec hlike.1, hlt⟩

/-- The first token goes to `receiver`. -/
def transferTx : Plasma.Transaction :=
  ⟨firstToken, 5, 0, 1, depositor, receiver, 0, 0, signedBy depositor, 5⟩

/-- The two transactions of the first token are published. -/
def transferCalls : List (Msg × Call) :=
  [(callAt 90 depositor, .deposit 5),
    (callAt 90 depositor, .submitBlock (blockRoot smallEvm firstDepositTx) 1),
    (callAt 90 depositor, .submitBlock (blockRoot smallEvm transferTx) 2)]

/-- The deposit is exited after the token was given away, and challenged. -/
theorem challenge_genuine_iff_spent :
    ∃ s now log s' tx, Run smallEvm s now log ∧
      s.challenge smallEvm (callAt 110 receiver) transferTx.bytes (Bytes.zeros 8) 2 = .ok s' ∧
      Conflicts tx (s.exits tx.tokenID) 2 := by
  obtain ⟨s, now, log, hrun, hok, hblk⟩ := exists_runWith smallEvm (fun _ _ _ => True) depositor
    (transferCalls ++ [(callAt 100 depositor, .depositExit 0)])
    (fun s _ => (s.challenge smallEvm (callAt 110 receiver) transferTx.bytes
      (Bytes.zeros 8) 2).isOk = true ∧ ∀ tx ∈ (parseTx (fun _ => 0) transferTx.bytes).toOption,
        (s.exits tx.tokenID).exitBlk < 2) (by decide +kernel)
  obtain ⟨s', hs'⟩ := exists_of_isOk hok
  obtain ⟨tx, hparse, -, -, hiff⟩ := challenge_genuine_iff hrun hs'
  have hlt : (s.exits tx.tokenID).exitBlk < 2 := by
    change parseTx (fun _ => 0) transferTx.bytes = .ok tx at hparse
    rw [hparse] at hblk
    exact hblk tx rfl
  exact ⟨s, now, log, s', tx, hrun, hs', (hiff.mpr (.inl hlt)).1⟩

/-- An exit is cancelled by its own transaction, in its own block. -/
theorem challenge_by_exit_transaction :
    ∃ s now log s' tx, Run smallEvm s now log ∧
      s.challenge smallEvm (callAt 110 depositor) transferTx.bytes (Bytes.zeros 8) 2 = .ok s' ∧
      parseTx (fun _ => 0) transferTx.bytes = .ok tx ∧ LikeExit tx (s.exits tx.tokenID) ∧
      ¬ Conflicts tx (s.exits tx.tokenID) 2 := by
  obtain ⟨s, now, log, hrun, hok, hpok, htx⟩ := exists_runWith smallEvm (fun _ _ _ => True)
    depositor
    (transferCalls ++ [(callAt 100 receiver, .startExit firstDepositTx.bytes (Bytes.zeros 8) 1
      transferTx.bytes (Bytes.zeros 8) 2)])
    (fun s _ => (s.challenge smallEvm (callAt 110 depositor) transferTx.bytes
        (Bytes.zeros 8) 2).isOk = true ∧ (parseTx (fun _ => 0) transferTx.bytes).isOk = true ∧
      ∀ tx ∈ (parseTx (fun _ => 0) transferTx.bytes).toOption,
        LikeExit tx (s.exits tx.tokenID) ∧ ¬ Conflicts tx (s.exits tx.tokenID) 2)
          (by decide +kernel)
  obtain ⟨s', hs'⟩ := exists_of_isOk hok
  obtain ⟨tx, htx'⟩ := exists_of_isOk hpok
  rw [htx'] at htx
  exact ⟨s, now, log, s', tx, hrun, hs', htx', htx tx rfl⟩

end GoPlasma.Contract
