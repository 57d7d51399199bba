import GoPlasma.Contract.ExitTheorems
import Mathlib.Algebra.BigOperators.Group.Finset.Basic
import Mathlib.Algebra.Order.BigOperators.Group.Finset

/-!
# The ether of the contract

What is paid for a token comes out of its deposit balance, whatever exits are opened, cancelled and
finalized: `solvency`. That a payment is possible is another matter. The balance of an exit is
taken from the exit transaction, and the exitor may be a contract that accepts no ether; one such
entry at the head of the queue stops all finalization (`finalizeExits_blocked`). When no such exit
is opened, finalization makes progress whenever an entry is due (`finalizeExits_progress`).
-/

namespace GoPlasma.Contract

open Plasma (Address zeroAddress)

variable {E : Evm} {msg : Msg} {s s' : RootChain} {shown log : List Event} {now : UInt64}

/-! ## Sums of deposit balances -/

/-- What the tokens of a set are worth. -/
def heldFor (balance : UInt64 → UInt64) (T : Finset UInt64) : ℕ := ∑ t ∈ T, (balance t).toNat

theorem heldFor_insert (balance : UInt64 → UInt64) (T : Finset UInt64) (t : UInt64) :
    heldFor balance (insert t T) = (balance t).toNat + heldFor balance (T.erase t) := by
  rw [heldFor, heldFor, ← Finset.add_sum_erase _ _ (Finset.mem_insert_self t T),
    Finset.erase_insert_eq_erase]

/-- A changed balance counts once at most. -/
theorem heldFor_update_le (balance : UInt64 → UInt64) (T : Finset UInt64) (t v : UInt64) :
    heldFor (Function.update balance t v) T ≤ v.toNat + heldFor balance (T.erase t) := by
  have hrest : heldFor (Function.update balance t v) (T.erase t) = heldFor balance (T.erase t) := by
    refine Finset.sum_congr rfl fun x hx => ?_
    rw [Function.update_of_ne (Finset.ne_of_mem_erase hx)]
  by_cases ht : t ∈ T
  · rw [heldFor, ← Finset.add_sum_erase _ _ ht, Function.update_self]
    exact Nat.add_le_add_left hrest.le _
  · rw [← hrest, Finset.erase_eq_of_notMem ht]
    exact Nat.le_add_left _ _

/-- The ether covers the deposit balances of all tokens. -/
def Solvent (s : RootChain) : Prop := ∀ T, heldFor s.depositBalance T ≤ s.ether

theorem Solvent.deposited {value : ℕ} {t : UInt64} (h : Solvent s)
    (hd : Deposited E msg s value t s' shown) : Solvent s' := by
  intro T
  have hv : (UInt64.ofNat value).toNat = value :=
    UInt64.toNat_ofNat_of_lt' (lt_trans hd.small (by decide))
  have hle := heldFor_update_le s.depositBalance T t (UInt64.ofNat value)
  have hrest := h (T.erase t)
  rw [hd.state]
  change heldFor (Function.update s.depositBalance t (UInt64.ofNat value)) T ≤ s.ether + value
  omega

theorem Solvent.round {m : ℕ} {q : PriorityQueue} (h : Solvent s)
    (hr : Round msg s m q s' shown) : Solvent s' := by
  rcases hr.effect with ⟨-, rfl, -⟩ | ⟨-, -, rfl, -⟩
  · exact h
  · intro T
    have hle := heldFor_update_le s.depositBalance T (s.depositIndex (entryIndex m)) 0
    have hall := h (insert (s.depositIndex (entryIndex m)) T)
    rw [heldFor_insert] at hall
    rw [UInt64.toNat_zero] at hle
    change heldFor (Function.update s.depositBalance (s.depositIndex (entryIndex m)) 0) T ≤
      s.ether - (s.depositBalance (s.depositIndex (entryIndex m))).toNat
    omega

theorem RunWith.solvent {P : RootChain → Msg → Call → Prop} (h : RunWith E P s now log) :
    Solvent s := by
  refine h.keeps (I := fun s _ => Solvent s) ?_ ?_
  · intro s sender hs T
    obtain ⟨smt, -, rfl⟩ := newRootChain_ok hs
    exact (Finset.sum_eq_zero fun _ _ => rfl).le
  · intro s now msg call s' log shown _ hi _ heff
    cases heff with
    | published => exact hi
    | deposited _ hd => exact hi.deposited hd
    | opened _ _ ho =>
      obtain ⟨q, -, rfl⟩ := ho.state
      exact hi
    | cancelled => exact hi
    | finalized _ hr =>
      refine hr.keeps (I := fun s _ => Solvent s) ?_ log hi
      exact fun s m q s' log shown hi h => hi.round h

/-! ## What is paid for a deposit -/

/-- What a payment hands out, to the exitor and to the operator. -/
def Payment.amount (p : Payment) : ℕ := p.exit.balance.toNat + p.operatorBalance.toNat

/-- What an event hands out for a token. -/
def Event.paidFor (t : UInt64) : Event → ℕ
  | .payment p => if p.tokenID = t then p.amount else 0
  | .deposit _ _ _ _ | .exitCompleted _ => 0

/-- What an event takes in for a token. -/
def Event.depositedFor (t : UInt64) : Event → ℕ
  | .deposit _ _ denomination tokenID => if tokenID = t then denomination.toNat else 0
  | .payment _ | .exitCompleted _ => 0

/-- All that was paid for a token. -/
def paidFor (t : UInt64) (log : List Event) : ℕ := (log.map (Event.paidFor t)).sum

/-- All that was deposited for a token. -/
def depositedFor (t : UInt64) (log : List Event) : ℕ := (log.map (Event.depositedFor t)).sum

@[simp] theorem paidFor_append (t : UInt64) (a b : List Event) :
    paidFor t (a ++ b) = paidFor t a + paidFor t b := by
  simp [paidFor]

@[simp] theorem depositedFor_append (t : UInt64) (a b : List Event) :
    depositedFor t (a ++ b) = depositedFor t a + depositedFor t b := by
  simp [depositedFor]

@[simp] theorem paidFor_cons (t : UInt64) (e : Event) (a : List Event) :
    paidFor t (e :: a) = e.paidFor t + paidFor t a := by
  simp [paidFor]

@[simp] theorem depositedFor_cons (t : UInt64) (e : Event) (a : List Event) :
    depositedFor t (e :: a) = e.depositedFor t + depositedFor t a := by
  simp [depositedFor]

@[simp] theorem paidFor_nil (t : UInt64) : paidFor t [] = 0 := rfl

@[simp] theorem depositedFor_nil (t : UInt64) : depositedFor t [] = 0 := rfl

/-- The books of a token: the balance is what was deposited and not yet paid, no more was ever paid
than had been deposited, and when a deposit was made all earlier ones had been paid out. -/
structure Booked (t : UInt64) (balance : ℕ) (log : List Event) : Prop where
  total : paidFor t log + balance = depositedFor t log
  covered : ∀ a b, log = a ++ b → paidFor t a ≤ depositedFor t a
  settled : ∀ a who d v b, log = a ++ .deposit who d v t :: b → paidFor t a = depositedFor t a

/-- The books are kept event by event. -/
theorem Booked.concat {t : UInt64} {balance balance' : ℕ} {e : Event} (h : Booked t balance log)
    (htotal : e.paidFor t + balance' = balance + e.depositedFor t)
    (hsettled : ∀ who d v, e = .deposit who d v t → balance = 0) :
    Booked t balance' (log ++ [e]) := by
  have hnew : paidFor t (log ++ [e]) + balance' = depositedFor t (log ++ [e]) := by
    have := h.total
    simp only [paidFor_append, depositedFor_append, paidFor_cons, depositedFor_cons, paidFor_nil,
      depositedFor_nil]
    omega
  refine ⟨hnew, fun a b hab => ?_, fun a who d v b hab => ?_⟩
  · rcases List.eq_nil_or_concat b with rfl | ⟨b', x, rfl⟩
    · rw [List.append_nil] at hab
      rw [← hab]
      omega
    · rw [List.concat_eq_append, ← List.append_assoc] at hab
      exact h.covered a b' (List.append_inj' hab rfl).1
  · rcases List.eq_nil_or_concat b with rfl | ⟨b', x, rfl⟩
    · obtain ⟨rfl, he⟩ := List.append_inj' hab rfl
      have hzero := hsettled who d v (List.singleton_inj.mp he)
      have := h.total
      omega
    · rw [List.concat_eq_append, ← List.cons_append, ← List.append_assoc] at hab
      exact h.settled a who d v b' (List.append_inj' hab rfl).1

/-- No more is paid for a deposit than its amount: the payments for a deposit are those between it
and the next deposit of the same token. -/
theorem Booked.paid_le {t : UInt64} {balance : ℕ} (h : Booked t balance log) {a b c : List Event}
    {who : Address} {d v : UInt64} (hlog : log = a ++ .deposit who d v t :: (b ++ c))
    (hb : ∀ e ∈ b, e.depositedFor t = 0) : paidFor t b ≤ v.toNat := by
  have hcovered := h.covered (a ++ .deposit who d v t :: b) c (by simp [hlog])
  have hsettled := h.settled a who d v (b ++ c) hlog
  have hzero : depositedFor t b = 0 := by
    refine List.sum_eq_zero fun x hx => ?_
    obtain ⟨e, he, rfl⟩ := List.mem_map.mp hx
    exact hb e he
  simp only [paidFor_append, depositedFor_append, paidFor_cons, depositedFor_cons,
    Event.paidFor, Event.depositedFor, if_true] at hcovered
  omega

/-- A payment hands out the deposit balance of its token. -/
theorem CanPay.amount {t d : UInt64} (h : CanPay msg s t) :
    (s.payment msg d t).amount = (s.depositBalance t).toNat := by
  have hle := UInt64.le_iff_toNat_le.mp h.covered
  have hsub := UInt64.toNat_sub_of_le _ _ h.covered
  change (s.exits t).balance.toNat + (s.depositBalance t - (s.exits t).balance).toNat = _
  omega

/-- The books of all tokens, and the payments one by one. -/
structure Accounts (s : RootChain) (log : List Event) : Prop where
  booked : ∀ t, Booked t (s.depositBalance t).toNat log
  split : ∀ p ∈ payments log, p.amount = p.denomination.toNat

theorem Accounts.deposited {value : ℕ} {t : UInt64} (h : Accounts s log)
    (hd : Deposited E msg s value t s' shown) : Accounts s' (log ++ shown) := by
  have hfree := hd.free
  obtain ⟨-, -, -, -, rfl, rfl⟩ := hd
  refine ⟨fun t' => (h.booked t').concat ?_ ?_, ?_⟩
  · change 0 + (Function.update s.depositBalance t (UInt64.ofNat value) t').toNat =
      (s.depositBalance t').toNat + if t = t' then (UInt64.ofNat value).toNat else 0
    by_cases ht : t = t'
    · subst ht
      rw [if_pos rfl, Function.update_self, hfree, UInt64.toNat_zero]
    · rw [if_neg ht, Function.update_of_ne (Ne.symm ht)]
      omega
  · intro who d v he
    cases he
    rw [hfree, UInt64.toNat_zero]
  · intro p hp
    rw [mem_payments] at hp
    simp only [List.mem_append, List.mem_singleton, reduceCtorEq, or_false] at hp
    exact h.split p (mem_payments.mpr hp)

/-- An entry that leaves the queue changes no books. -/
theorem Accounts.completed (h : Accounts s log) (m : ℕ) :
    Accounts s (log ++ [.exitCompleted m]) := by
  refine ⟨fun t => (h.booked t).concat (Nat.add_comm _ _) (fun _ _ _ he => by cases he), ?_⟩
  intro p hp
  rw [mem_payments] at hp
  simp only [List.mem_append, List.mem_singleton, reduceCtorEq, or_false] at hp
  exact h.split p (mem_payments.mpr hp)

theorem Accounts.round {m : ℕ} {q : PriorityQueue} (h : Accounts s log)
    (hr : Round msg s m q s' shown) : Accounts s' (log ++ shown) := by
  rcases hr.effect with ⟨-, rfl, rfl⟩ | ⟨-, hcan, rfl, rfl⟩
  · exact Accounts.completed (s := s.popped q _) ⟨h.booked, h.split⟩ m
  · rw [List.append_cons]
    refine Accounts.completed ⟨fun t => (h.booked t).concat ?_ ?_, ?_⟩ m
    · change (if s.depositIndex (entryIndex m) = t then
          (s.payment msg (entryIndex m) (s.depositIndex (entryIndex m))).amount else 0) +
        (Function.update s.depositBalance (s.depositIndex (entryIndex m)) 0 t).toNat =
          (s.depositBalance t).toNat + 0
      by_cases ht : s.depositIndex (entryIndex m) = t
      · rw [if_pos ht, hcan.amount, ht, Function.update_self, UInt64.toNat_zero]
      · rw [if_neg ht, Function.update_of_ne (Ne.symm ht)]
        omega
    · intro who d v he
      cases he
    · intro p hp
      rw [mem_payments, List.mem_append, List.mem_singleton] at hp
      rcases hp with hp | hp
      · exact h.split p (mem_payments.mpr hp)
      · obtain rfl := Event.payment.inj hp
        exact hcan.amount

theorem RunWith.accounts {P : RootChain → Msg → Call → Prop} (h : RunWith E P s now log) :
    Accounts s log := by
  refine h.keeps (I := Accounts) ?_ ?_
  · intro s sender hs
    obtain ⟨smt, -, rfl⟩ := newRootChain_ok hs
    refine ⟨fun t => ⟨rfl, fun a b hab => ?_, fun a who d v b hab => ?_⟩, fun p hp => ?_⟩
    · rw [(List.append_eq_nil_iff.mp hab.symm).1]
      exact le_rfl
    · simp at hab
    · simp [payments] at hp
  · intro s now msg call s' log shown _ hi _ heff
    cases heff with
    | published =>
      rw [List.append_nil]
      exact ⟨hi.booked, hi.split⟩
    | deposited _ hd => exact hi.deposited hd
    | opened _ _ ho =>
      obtain ⟨q, -, rfl⟩ := ho.state
      rw [List.append_nil]
      exact ⟨hi.booked, hi.split⟩
    | cancelled =>
      rw [List.append_nil]
      exact ⟨hi.booked, hi.split⟩
    | finalized _ hr => exact hr.keeps (fun s m q s' log shown hi h => hi.round h) log hi

/-- In every run, the ether of the contract covers the deposit balances of any set of tokens, a
payment hands out to the exitor and to the operator together what the token's deposit balance is,
and what is paid for a deposit, before the next one of the same token, is no more than its amount.
-/
theorem solvency (h : Run E s now log) :
    (∀ T : Finset UInt64, ∑ t ∈ T, (s.depositBalance t).toNat ≤ s.ether) ∧
    (∀ msg s' m q shown, Round msg s m q s' shown → ∀ p ∈ payments shown,
      p.exit.balance.toNat + p.operatorBalance.toNat = (s.depositBalance p.tokenID).toNat) ∧
    (∀ p ∈ payments log, p.exit.balance.toNat + p.operatorBalance.toNat = p.denomination.toNat) ∧
    (∀ t, paidFor t log + (s.depositBalance t).toNat = depositedFor t log) ∧
    ∀ a who d v t b c, log = a ++ .deposit who d v t :: (b ++ c) →
      (∀ e ∈ b, e.depositedFor t = 0) → paidFor t b ≤ v.toNat := by
  refine ⟨h.solvent, ?_, h.accounts.split, fun t => (h.accounts.booked t).total, ?_⟩
  · intro msg s' m q shown hr p hp
    obtain ⟨-, hcan, rfl⟩ := hr.payment (mem_payments.mp hp)
    exact hcan.amount
  · exact fun a who d v t b c hlog hb => (h.accounts.booked t).paid_le hlog hb

theorem solvency_depositExit :
    ∃ s now log, Run smallEvm s now log ∧ paidFor firstToken log = 5 ∧
      paidFor firstToken log + (s.depositBalance firstToken).toNat =
        depositedFor firstToken log := by
  obtain ⟨s, now, log, hrun, hpaid⟩ := exists_runWith smallEvm (fun _ _ _ => True) depositor
    [(callAt 100 depositor, .deposit 5), (callAt 100 depositor, .depositExit 0),
      (callAt 170 depositor, .finalizeExits)] (fun _ log => paidFor firstToken log = 5)
    (by decide +kernel)
  exact ⟨s, now, log, hrun, hpaid, (solvency hrun).2.2.2.1 firstToken⟩

/-! ## Progress -/

/-- Exits are opened by accounts of the given kind only, and for no more than the deposit balance
of the token. -/
def OpensPayable (eoa : Address → Prop) (s : RootChain) (msg : Msg) (call : Call) : Prop :=
  ∀ o ∈ call.opens msg s, eoa o.2.2.exitor ∧ o.2.2.balance ≤ s.depositBalance o.1

/-- A record can be paid, out of a balance. -/
structure Backed (eoa : Address → Prop) (e : Exit) (balance : UInt64) : Prop where
  covered : e.balance ≤ balance
  exitor : e.exitor ≠ zeroAddress → eoa e.exitor

section
variable {eoa : Address → Prop}

theorem backed_noExit (balance : UInt64) : Backed eoa noExit balance :=
  ⟨UInt64.zero_le, fun hno => absurd rfl hno⟩

/-- A record and a balance are changed for one token. -/
theorem forall_backed_update {exits : UInt64 → Exit} {balance : UInt64 → UInt64} {t v : UInt64}
    {e : Exit} (h : ∀ t, Backed eoa (exits t) (balance t)) (he : Backed eoa e v) (t' : UInt64) :
    Backed eoa (Function.update exits t e t') (Function.update balance t v t') := by
  by_cases ht : t' = t
  · subst ht
    rwa [Function.update_self, Function.update_self]
  · rw [Function.update_of_ne ht, Function.update_of_ne ht]
    exact h t'

/-- A record is changed for one token. -/
theorem forall_backed_update_exits {exits : UInt64 → Exit} {balance : UInt64 → UInt64} {t : UInt64}
    {e : Exit} (h : ∀ t, Backed eoa (exits t) (balance t)) (he : Backed eoa e (balance t))
    (t' : UInt64) : Backed eoa (Function.update exits t e t') (balance t') := by
  have := forall_backed_update (t := t) h he t'
  rwa [Function.update_eq_self] at this

/-- All records can be paid. -/
def Payable (eoa : Address → Prop) (s : RootChain) : Prop :=
  ∀ t, Backed eoa (s.exits t) (s.depositBalance t)

theorem Payable.deposited {value : ℕ} {t : UInt64} (h : Payable eoa s)
    (hd : Deposited E msg s value t s' shown) : Payable eoa s' := by
  have hfree := hd.free
  obtain ⟨-, -, -, -, rfl, -⟩ := hd
  intro t'
  -- the record of the token claims nothing of a balance that was zero
  have ht : Backed eoa (s.exits t) (UInt64.ofNat value) := by
    obtain ⟨hcovered, hexitor⟩ := h t
    rw [hfree] at hcovered
    exact ⟨UInt64.le_trans hcovered UInt64.zero_le, hexitor⟩
  have := forall_backed_update (t := t) h ht t'
  rwa [Function.update_eq_self] at this

theorem Payable.round {m : ℕ} {q : PriorityQueue} (h : Payable eoa s)
    (hr : Round msg s m q s' shown) : Payable eoa s' := by
  rcases hr.effect with ⟨-, rfl, -⟩ | ⟨-, -, rfl, -⟩
  · exact forall_backed_update_exits h (backed_noExit _)
  · exact forall_backed_update h (backed_noExit 0)

theorem RunWith.payable (h : RunWith E (OpensPayable eoa) s now log) : Payable eoa s := by
  refine h.keeps (I := fun s _ => Payable eoa s) ?_ ?_
  · intro s sender hs t
    obtain ⟨smt, -, rfl⟩ := newRootChain_ok hs
    exact backed_noExit _
  · intro s now msg call s' log shown _ hi hp heff
    cases heff with
    | published => exact hi
    | deposited _ hd => exact hi.deposited hd
    | opened hcall _ ho =>
      obtain ⟨heoa, hle⟩ := hp _ hcall
      obtain ⟨q, -, rfl⟩ := ho.state
      exact forall_backed_update_exits hi ⟨hle, fun _ => heoa⟩
    | cancelled => exact forall_backed_update_exits hi (backed_noExit _)
    | finalized _ hr =>
      refine hr.keeps (I := fun s _ => Payable eoa s) ?_ log hi
      exact fun s m q s' log shown hi h => hi.round h

/-- All that finalization needs. -/
structure Ready (eoa : Address → Prop) (msg : Msg) (s : RootChain) : Prop where
  queue : s.exitsQueue.WF
  solvent : Solvent s
  payable : Payable eoa s
  authority : eoa s.authority
  accepts : ∀ a, eoa a → msg.accepts a = true

theorem Ready.canPay (h : Ready eoa msg s) {t : UInt64}
    (hexit : (s.exits t).exitor ≠ zeroAddress) : CanPay msg s t where
  covered := (h.payable t).covered
  exitor := h.accepts _ ((h.payable t).exitor hexit)
  operator := h.accepts _ h.authority
  ether := by
    have := h.solvent {t}
    rwa [heldFor, Finset.sum_singleton] at this

theorem Ready.round {m : ℕ} {q : PriorityQueue} (h : Ready eoa msg s)
    (hr : Round msg s m q s' shown) : Ready eoa msg s' := by
  obtain ⟨rfl, hwf, -, -⟩ := hr.queue h.queue
  refine ⟨hwf, h.solvent.round hr, h.payable.round hr, ?_, h.accepts⟩
  rcases hr.effect with ⟨-, hs, -⟩ | ⟨-, -, hs, -⟩
  · rw [hs]
    exact h.authority
  · rw [hs]
    exact h.authority

/-- The payment of a round does not fail. -/
theorem Ready.payExit (h : Ready eoa msg s) {m : ℕ} (hmin : s.exitsQueue.getMin = .ok m)
    (hdue : entryTime m < msg.timestamp.toNat) :
    ∃ s₁ q paid, s.payExit msg (entryIndex m) (s.depositIndex (entryIndex m)) = .ok (s₁, paid) ∧
      s₁.exitsQueue.delMin = .ok (m, q) ∧
      Round msg s m q (s₁.popped q (s.depositIndex (entryIndex m)))
        (paid ++ [.exitCompleted m]) := by
  obtain ⟨m', q, hmin', hdel, -, -⟩ := h.queue.delMin (h.queue.ne_zero_of_getMin hmin)
  obtain rfl := Except.ok.inj (hmin'.symm.trans hmin)
  by_cases hexit : (s.exits (s.depositIndex (entryIndex m'))).exitor = zeroAddress
  · exact ⟨s, q, [], payExit_none hexit, hdel, hmin, hdue, hdel, .inl ⟨hexit, rfl, rfl⟩⟩
  · have hcan := h.canPay hexit
    exact ⟨_, q, _, (payExit_eq_ok hexit).mpr ⟨hcan, rfl, rfl⟩, hdel, hmin, hdue, hdel,
      .inr ⟨hexit, hcan, rfl, rfl⟩⟩

/-- The loop does not fail, and does not add to the queue; its first round takes out an entry. -/
theorem Ready.finalizeLoop {n m : ℕ} (h : Ready eoa msg s) (hmin : s.exitsQueue.getMin = .ok m) :
    ∃ s' shown, RootChain.finalizeLoop msg n
        (entryIndex m, s.depositIndex (entryIndex m), entryTime m) s = .ok (s', shown) ∧
      s'.exitsQueue.currentSize ≤ s.exitsQueue.currentSize ∧
      (0 < n → entryTime m < msg.timestamp.toNat →
        s'.exitsQueue.currentSize < s.exitsQueue.currentSize) := by
  induction n generalizing s m with
  | zero => exact ⟨s, [], rfl, le_rfl, fun h0 => absurd h0 (lt_irrefl 0)⟩
  | succ n ih =>
    rw [RootChain.finalizeLoop]
    -- each round takes the least entry out, and the queue stays ready for the next one
    by_cases hdue : entryTime m < msg.timestamp.toNat
    · obtain ⟨s₁, q, paid, hpay, hdel, hr⟩ := h.payExit hmin hdue
      have hready := h.round hr
      obtain ⟨-, hwf, hent, -⟩ := hr.queue h.queue
      have hsize : q.currentSize + 1 = s.exitsQueue.currentSize := by
        rw [← PriorityQueue.card_entries, ← PriorityQueue.card_entries, ← hent,
          Multiset.card_cons]
      rw [if_pos hdue]
      -- the loop goes on while there is an entry
      by_cases hpos : 0 < q.currentSize
      · have hne : q.entries ≠ 0 := by
          rw [← Multiset.card_pos, PriorityQueue.card_entries]
          exact hpos
        obtain ⟨m₁, hm₁, -⟩ := hwf.getMin hne
        obtain ⟨s₂, rest, hloop, hle, -⟩ := ih hready hm₁
        refine ⟨s₂, paid ++ [.exitCompleted m] ++ rest, ?_, ?_, fun _ _ => ?_⟩
        · refine bind_eq_ok.mpr ⟨_, hpay, bind_eq_ok.mpr ⟨_, getMin_of_delMin hdel,
            bind_eq_ok.mpr ⟨_, hdel, ?_⟩⟩⟩
          change (if 0 < q.currentSize then _ else _) = _
          rw [if_pos hpos]
          exact bind_eq_ok.mpr ⟨_, getNextExit_eq hm₁, bind_eq_ok.mpr ⟨_, hloop, rfl⟩⟩
        all_goals
          change s₂.exitsQueue.currentSize ≤ q.currentSize at hle
          omega
      · refine ⟨s₁.popped q (s.depositIndex (entryIndex m)), paid ++ [.exitCompleted m], ?_, ?_,
          fun _ _ => ?_⟩
        · refine bind_eq_ok.mpr ⟨_, hpay, bind_eq_ok.mpr ⟨_, getMin_of_delMin hdel,
            bind_eq_ok.mpr ⟨_, hdel, ?_⟩⟩⟩
          change (if 0 < q.currentSize then _ else _) = _
          rw [if_neg hpos]
          rfl
        all_goals
          have hpop : (s₁.popped q (s.depositIndex (entryIndex m))).exitsQueue = q := rfl
          rw [hpop]
          omega
    · rw [if_neg hdue]
      exact ⟨s, [], rfl, le_rfl, fun _ hd => absurd hd hdue⟩

end

/-- While exits are opened by accounts that accept ether, for no more than the deposit balance of
their token, and the operator is such an account, finalization succeeds whenever an entry of the
queue is due, and takes out at least one. -/
theorem finalizeExits_progress {eoa : Address → Prop} (h : RunWith E (OpensPayable eoa) s now log)
    (hauth : eoa s.authority) (haccepts : ∀ a, eoa a → msg.accepts a = true) {m : ℕ}
    (hm : m ∈ s.exitsQueue.entries) (hdue : entryTime m < msg.timestamp.toNat) :
    ∃ s' shown, s.finalizeExits msg = .ok (s', shown) ∧
      Multiset.card s'.exitsQueue.entries < Multiset.card s.exitsQueue.entries := by
  have hready : Ready eoa msg s := ⟨h.queue_wf, h.solvent, h.payable, hauth, haccepts⟩
  have hne : s.exitsQueue.entries ≠ 0 := fun h0 => absurd (h0 ▸ hm) (Multiset.notMem_zero m)
  obtain ⟨m₀, hmin, -, hle⟩ := hready.queue.getMin hne
  have hdue₀ : entryTime m₀ < msg.timestamp.toNat := by
    refine lt_of_le_of_lt ?_ hdue
    rw [entryTime, entryTime, Nat.shiftRight_eq_div_pow, Nat.shiftRight_eq_div_pow]
    exact Nat.div_le_div_right (hle m hm)
  obtain ⟨s', shown, hloop, -, hlt⟩ := hready.finalizeLoop (n := 21) hmin
  refine ⟨s', shown, bind_eq_ok.mpr ⟨_, getNextExit_eq hmin, hloop⟩, ?_⟩
  rw [PriorityQueue.card_entries, PriorityQueue.card_entries]
  exact hlt (by decide) hdue₀

instance (eoa : Address → Prop) [DecidablePred eoa] :
    ∀ s msg call, Decidable (OpensPayable eoa s msg call) := by
  unfold OpensPayable
  infer_instance

/-- `receiver` is a contract without a payable fallback function. -/
def IsAccount (a : Address) : Prop := a ≠ receiver

instance : DecidablePred IsAccount := by
  unfold IsAccount
  infer_instance

/-- A call at a time when only accounts accept ether. -/
def callRejected (timestamp : UInt64) (sender : Address) : Msg :=
  ⟨sender, timestamp, fun a => decide (IsAccount a), fun _ _ => 0⟩

theorem finalizeExits_progress_depositExit :
    ∃ s now log s' shown, RunWith smallEvm (OpensPayable IsAccount) s now log ∧
      s.finalizeExits (callRejected 170 depositor) = .ok (s', shown) ∧
      Multiset.card s'.exitsQueue.entries < Multiset.card s.exitsQueue.entries := by
  obtain ⟨s, now, log, hrun, hauth, hm⟩ := exists_runWith smallEvm
    (OpensPayable IsAccount) depositor
    [(callAt 100 depositor, .deposit 5), (callAt 100 depositor, .depositExit 0)]
    (fun s _ => IsAccount s.authority ∧ RootChain.priority 160 0 ∈ s.exitsQueue.entries)
    (by decide +kernel)
  have haccepts : ∀ a, IsAccount a → (callRejected 170 depositor).accepts a = true :=
    fun a ha => decide_eq_true ha
  have hdue : entryTime (RootChain.priority 160 0) < (callRejected 170 depositor).timestamp.toNat :=
    by decide +kernel
  obtain ⟨s', shown, hok, hlt⟩ := finalizeExits_progress hrun hauth haccepts hm hdue
  exact ⟨s, now, log, s', shown, hrun, hok, hlt⟩

/-- A transaction with a denomination above the deposit of its token. -/
def excessiveTx : Plasma.Transaction :=
  ⟨firstToken, 6, 0, 1, depositor, receiver, 0, 0, signedBy depositor, 6⟩

/-- The least entry of the queue is due and finalization fails. -/
def Blocked (msg : Msg) (s : RootChain) (m : ℕ) : Prop :=
  m ∈ s.exitsQueue.entries ∧ (∀ x ∈ s.exitsQueue.entries, m ≤ x) ∧
    entryTime m < msg.timestamp.toNat ∧ (s.finalizeExits msg).isOk = false

instance : ∀ msg s m, Decidable (Blocked msg s m) := by
  unfold Blocked
  infer_instance

/-- Finalization is stopped by an exit of a contract that accepts no ether, although all accounts
do, and by an exit for more than was deposited, although all addresses accept ether. -/
theorem finalizeExits_blocked :
    (∃ s now log, Run smallEvm s now log ∧
      Blocked (callRejected 170 depositor) s (RootChain.priority 160 0)) ∧
    ∃ s now log, Run smallEvm s now log ∧
      Blocked (callAt 170 depositor) s (RootChain.priority 160 0) := by
  constructor
  · exact exists_runWith smallEvm _ depositor
      [(callAt 100 receiver, .deposit 5), (callAt 100 receiver, .depositExit 0)]
      (fun s _ => Blocked (callRejected 170 depositor) s (RootChain.priority 160 0))
        (by decide +kernel)
  · exact exists_runWith smallEvm _ depositor
      [(callAt 90 depositor, .deposit 5),
        (callAt 90 depositor, .submitBlock (blockRoot smallEvm firstDepositTx) 1),
        (callAt 90 depositor, .submitBlock (blockRoot smallEvm excessiveTx) 2),
        (callAt 100 receiver, .startExit firstDepositTx.bytes (Bytes.zeros 8) 1
          excessiveTx.bytes (Bytes.zeros 8) 2)]
      (fun s _ => Blocked (callAt 170 depositor) s (RootChain.priority 160 0)) (by decide +kernel)

end GoPlasma.Contract
