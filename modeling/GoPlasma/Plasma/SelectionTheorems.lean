import GoPlasma.Plasma.HistoryTheorems

/-!
# Which transactions of the pool go into a block

`commitTransactions` walks through the transactions that it was given. When one fails it takes it
from the pool, steps back and shortens the loop, as if the list were the pool; but the list is a
copy, so that the same transaction is tried again in the place of a later one.

This holds over any storage, failing ones included. `singlePass` is what the loop is for: one
attempt at each transaction, in order.
-/

namespace GoPlasma.Plasma

variable {σ : Type}

/-! ## One pass over the transactions -/

section
variable (C : Crypto) (S : Storage σ) (blockNumber : ℕ)

/-- One attempt at each transaction, from first to last, each failed one rolled back and skipped:
which of them succeed. -/
def singlePass : List Tx → Env σ → Go (List (Tx × Bool))
  | [], _ => .ok []
  | tx :: txes, env =>
    match commitTransaction C S blockNumber tx env with
    | .error p => .error p
    | .ok (.ok (), env) => (singlePass txes env).map ((tx, true) :: ·)
    | .ok (.error _, env) => (singlePass txes env).map ((tx, false) :: ·)

end

/-- The transactions of a pass that succeeded. -/
def successes (pass : List (Tx × Bool)) : List Tx :=
  (pass.filter Prod.snd).map Prod.fst

@[simp] theorem successes_nil : successes [] = [] := rfl

@[simp] theorem successes_true (tx : Tx) (pass : List (Tx × Bool)) :
    successes ((tx, true) :: pass) = tx :: successes pass := rfl

@[simp] theorem successes_false (tx : Tx) (pass : List (Tx × Bool)) :
    successes ((tx, false) :: pass) = successes pass := rfl

variable {C : Crypto} {S : Storage σ} {blockNumber : ℕ}

/-! ## A pass in which only the last transaction may fail -/

/-- Every attempt of the pass but the last one succeeds. -/
def OnlyLastFails (pass : List (Tx × Bool)) : Prop :=
  ∀ r ∈ pass.dropLast, r.2 = true

theorem onlyLastFails_nil : OnlyLastFails [] := fun _ h => absurd h List.not_mem_nil

theorem onlyLastFails_singleton (r : Tx × Bool) : OnlyLastFails [r] :=
  fun _ h => absurd h List.not_mem_nil

theorem onlyLastFails_true (tx : Tx) (pass : List (Tx × Bool)) :
    OnlyLastFails ((tx, true) :: pass) ↔ OnlyLastFails pass := by
  cases pass with
  | nil => exact iff_of_true (onlyLastFails_singleton _) onlyLastFails_nil
  | cons r pass => simp [OnlyLastFails]

section
variable {tx : Tx} {txes : List Tx} {env env' : Env σ} {pass : List (Tx × Bool)} {e : String}

/-- The first attempt of a pass, and the pass over the other transactions from the state that it
leaves. -/
theorem singlePass_cons (h : singlePass C S blockNumber (tx :: txes) env = .ok pass) :
    ∃ env' rest, singlePass C S blockNumber txes env' = .ok rest ∧
      ((commitTransaction C S blockNumber tx env = .ok (.ok (), env') ∧
          pass = (tx, true) :: rest) ∨
        ∃ e, commitTransaction C S blockNumber tx env = .ok (.error e, env') ∧
          pass = (tx, false) :: rest) := by
  rw [singlePass] at h
  rcases hc : commitTransaction C S blockNumber tx env with p | ⟨e | _, env'⟩
  · rw [hc] at h
    cases h
  · rw [hc] at h
    rcases hp : singlePass C S blockNumber txes env' with p | rest
    · simp [hp, Except.map] at h
    · simp only [hp, Except.map, Except.ok.injEq] at h
      exact ⟨env', rest, hp, .inr ⟨e, rfl, h.symm⟩⟩
  · rw [hc] at h
    rcases hp : singlePass C S blockNumber txes env' with p | rest
    · simp [hp, Except.map] at h
    · simp only [hp, Except.map, Except.ok.injEq] at h
      exact ⟨env', rest, hp, .inl ⟨rfl, h.symm⟩⟩

theorem singlePass_length (h : singlePass C S blockNumber txes env = .ok pass) :
    pass.length = txes.length := by
  induction txes generalizing env pass with
  | nil =>
    cases h
    rfl
  | cons tx txes ih =>
    obtain ⟨env', rest, hp, ⟨-, rfl⟩ | ⟨e, -, rfl⟩⟩ := singlePass_cons h
    · rw [List.length_cons, List.length_cons, ih hp]
    · rw [List.length_cons, List.length_cons, ih hp]

/-- The loop adds to the attempts. -/
theorem commitTransactions_attempts {i : ℕ} {m m' : Minting σ}
    (h : commitTransactions C S blockNumber i txes m = .ok m') : m.attempts <+: m'.attempts :=
  (commitTransactions_invariant (P := fun _ m' => m.attempts <+: m'.attempts)
    (fun _ _ _ _ hm _ => hm.trans (List.prefix_append _ _))
    (fun _ _ _ _ _ hm _ => hm.trans (List.prefix_append _ _)) List.prefix_rfl h).choose_spec

/-- The next attempt of the loop is at the first one of its list. -/
theorem commitTransactions_next {i : ℕ} {m m' : Minting σ}
    (h : commitTransactions C S blockNumber (i + 1) (tx :: txes) m = .ok m') :
    ∃ b rest, m'.attempts = m.attempts ++ (tx, b) :: rest := by
  rw [commitTransactions] at h
  rcases hc : commitTransaction C S blockNumber tx m.env with p | ⟨e | _, env'⟩
  · rw [hc] at h
    cases h
  · rw [hc] at h
    obtain ⟨rest, hrest⟩ := commitTransactions_attempts h
    exact ⟨false, rest, by rw [← hrest, List.append_assoc, List.singleton_append]⟩
  · rw [hc] at h
    obtain ⟨rest, hrest⟩ := commitTransactions_attempts h
    exact ⟨true, rest, by rw [← hrest, List.append_assoc, List.singleton_append]⟩

/-- Then the loop attempts each transaction once, and commits those that succeed. -/
theorem loop_of_onlyLastFails (h : singlePass C S blockNumber txes env = .ok pass)
    (hlast : OnlyLastFails pass) (committed : List Tx) (pool : Pool) (attempts : List (Tx × Bool)) :
    ∃ m, commitTransactions C S blockNumber txes.length txes ⟨committed, pool, env, attempts⟩
        = .ok m ∧
      m.committed = committed ++ successes pass ∧
      m.attempts.map Prod.fst = attempts.map Prod.fst ++ txes := by
  induction txes generalizing env pass committed pool attempts with
  | nil =>
    cases h
    exact ⟨_, rfl, (List.append_nil _).symm, (List.append_nil _).symm⟩
  | cons tx txes ih =>
    obtain ⟨env', rest, hp, ⟨hc, rfl⟩ | ⟨e, hc, rfl⟩⟩ := singlePass_cons h
    · obtain ⟨m, hm, hcom, hatt⟩ := ih hp ((onlyLastFails_true tx rest).mp hlast)
        (committed ++ [tx]) pool (attempts ++ [(tx, true)])
      refine ⟨m, ?_, ?_, ?_⟩
      · rw [List.length_cons, commitTransactions, hc]
        exact hm
      · rw [hcom, successes_true, List.append_assoc, List.singleton_append]
      · rw [hatt, List.map_append, List.append_assoc]
        rfl
    · -- the transaction fails: it is the last one
      cases rest with
      | cons r rest => exact absurd (hlast (tx, false) List.mem_cons_self) Bool.false_ne_true
      | nil =>
        have htxes : txes = [] := List.length_eq_zero_iff.mp (singlePass_length hp).symm
        subst htxes
        refine ⟨_, by rw [List.length_singleton, commitTransactions, hc]; rfl,
          (List.append_nil _).symm, ?_⟩
        rw [List.map_append]
        rfl

/-- A loop that attempts each transaction once fails on the last one at most: after any other
failure it attempts the same transaction in the place of the next one. -/
theorem onlyLastFails_of_attempts {m m' : Minting σ} (hnd : txes.Nodup)
    (h : singlePass C S blockNumber txes m.env = .ok pass)
    (hm : commitTransactions C S blockNumber txes.length txes m = .ok m')
    (hatt : m'.attempts.map Prod.fst = m.attempts.map Prod.fst ++ txes) : OnlyLastFails pass := by
  induction txes generalizing m pass with
  | nil =>
    cases h
    exact onlyLastFails_nil
  | cons tx txes ih =>
    obtain ⟨env', rest, hp, ⟨hc, rfl⟩ | ⟨e, hc, rfl⟩⟩ := singlePass_cons h
    · rw [List.length_cons, commitTransactions, hc] at hm
      refine (onlyLastFails_true tx rest).mpr (ih (List.nodup_cons.mp hnd).2 hp hm ?_)
      rw [hatt, List.map_append, List.append_assoc]
      rfl
    · cases txes with
      | nil =>
        have hrest : rest = [] := List.length_eq_zero_iff.mp (singlePass_length hp)
        rw [hrest]
        exact onlyLastFails_singleton _
      | cons tx' txes =>
        -- the second attempt is at `tx`, the second transaction is `tx'`
        rw [List.length_cons, commitTransactions, hc] at hm
        obtain ⟨b, later, hlater⟩ := commitTransactions_next hm
        rw [hlater, List.map_append, List.map_append, List.append_assoc] at hatt
        have heq := (List.cons.inj (List.append_cancel_left hatt)).2
        exact absurd ((List.cons.inj heq).1 ▸ List.mem_cons_self) (List.nodup_cons.mp hnd).1

end

/-! ## Results -/

/-- Let one attempt at each of the transactions give `pass`. The loop attempts each of them once,
from first to last, and returns those that succeed, exactly if no transaction but the last one
fails. -/
theorem commitTransactions_skips_iff (txes : List Tx) (hnd : txes.Nodup) (pool : Pool)
    (env : Env σ) (pass : List (Tx × Bool))
    (h : singlePass C S blockNumber txes env = .ok pass) :
    (∃ m, commitTransactions C S blockNumber txes.length txes ⟨[], pool, env, []⟩ = .ok m ∧
      m.committed = successes pass ∧ m.attempts.map Prod.fst = txes) ↔ OnlyLastFails pass := by
  constructor
  · rintro ⟨m, hm, -, hatt⟩
    exact onlyLastFails_of_attempts hnd h hm hatt
  · intro hlast
    exact loop_of_onlyLastFails h hlast [] pool []

/-- A transfer of a token that is not there. -/
def ghostTransfer : Transaction := { oneTransfer with tokenID := 0 }

/-- The deposit of token 1, then the transfer that fails: each is attempted once. -/
theorem commitTransactions_skips_ghostLast : ∃ pass m,
    singlePass byteCrypto (mapStorage (stateAt newNode.currentBlock)) 0
      [.plasma oneDeposit, .plasma ghostTransfer] ⟨newStateDB, ()⟩ = .ok pass ∧
    commitTransactions byteCrypto (mapStorage (stateAt newNode.currentBlock)) 0 2
      [.plasma oneDeposit, .plasma ghostTransfer] ⟨[], ⟨[], []⟩, ⟨newStateDB, ()⟩, []⟩ = .ok m ∧
    m.committed = successes pass ∧ successes pass = [.plasma oneDeposit] := by
  have hpass : singlePass byteCrypto (mapStorage (stateAt newNode.currentBlock)) 0
      [.plasma oneDeposit, .plasma ghostTransfer] ⟨newStateDB, ()⟩ =
        .ok [(.plasma oneDeposit, true), (.plasma ghostTransfer, false)] := by
    decide +kernel
  obtain ⟨m, hm, hcom, -⟩ := (commitTransactions_skips_iff _ (by decide +kernel) ⟨[], []⟩ _ _
    hpass).mpr (by unfold OnlyLastFails; decide)
  exact ⟨_, m, hpass, hm, hcom, rfl⟩

/-- A new node has a transfer that fails and a deposit in its pool. The deposit would succeed, and
it is never attempted. -/
theorem deposit_dropped : ∃ s, Run byteCrypto s ∧
    s.pool.SortsTo ⟨[ghostTransfer, oneDeposit], [], ⟨[], [], []⟩⟩ ∧
    (singlePass byteCrypto (mapStorage (stateAt s.currentBlock)) s.blockNumber
        [.plasma ghostTransfer, .plasma oneDeposit] ⟨newStateDB, ()⟩).map successes =
      .ok [.plasma oneDeposit] ∧
    (commitTransactions byteCrypto (mapStorage (stateAt s.currentBlock)) s.blockNumber 2
        [.plasma ghostTransfer, .plasma oneDeposit] ⟨[], s.pool, ⟨newStateDB, ()⟩, []⟩).map
        (fun m => (m.committed, m.attempts.map Prod.fst)) =
      .ok ([], [.plasma ghostTransfer, .plasma ghostTransfer]) := by
  refine exists_runWith byteCrypto (fun _ _ => True)
    [.send ghostTransfer, .deposit ⟨0, 5, oneAddress⟩] _ ?_
  decide +kernel

end GoPlasma.Plasma
