import GoPlasma.Plasma.Consensus

/-!
# The calls on the pool

The pool (`plasmachain/plasmatxpool.go`) knows its transactions by their hashes. The node adds to
it, `ProcessPlasmaBlock` takes out what is in the block of a peer, and the minter (`deep/poa.go`)
takes out what it has tried in vain and, once the block is in the chain, what is in the block.

`mintNewBlockOn` is `mintNewBlock` over any storage and with an error at any place, as far as the
pool is concerned; the minter of the node is the case without errors, over the tries.
-/

namespace GoPlasma.Plasma

variable {σ : Type}

/-- The errors of what `mintNewBlock` calls besides `commitTransactions`, if there are any. -/
structure MintErrors where
  stateAt : Option String
  commit : Option String
  makeBlock : Option String
  flush : Option String
  writeBlock : Option String

/-- The first error of what comes between `commitTransactions` and the insertion of the block. The
text of the third one goes on with the hash of the block. -/
def MintErrors.afterCommit (errs : MintErrors) : Option String :=
  (errs.commit.map ("[deep:poa:mintNewBlock]state.Commit " ++ ·)).or
    ((errs.makeBlock.map ("[deep:poa:mintNewBlock] minter.makeBlock " ++ ·)).or
      ((errs.flush.map
          ("[deep:poa:mintNewBlock] Error flushing chunks associated with attempted block " ++
            ·)).or
        (errs.writeBlock.map ("[deep:poa:mintNewBlock] " ++ ·))))

/-- What the minter works with: the storage, the counter of the chain, the state database that
`StateAt` gives, and the errors. -/
structure MintInput (σ : Type) where
  storage : Storage σ
  blockNumber : ℕ
  state : Env σ
  errs : MintErrors

/-- What a mint leaves behind: the pool, the error that it returns, and the transactions of the
block if one was inserted. -/
structure MintResult where
  pool : Pool
  err : Option String
  block : Option (List Tx)

section
variable (C : Crypto)

/-- `mintNewBlock` on a pool that `getTransactions` has sorted. -/
def mintNewBlockOn (input : MintInput σ) (p : Pool) : Go MintResult :=
  if p.transactions = [] then .ok ⟨p, none, none⟩
  else
    match input.errs.stateAt with
    | some err => .ok ⟨p, some ("[deep:poa:mintNewBlock] " ++ err), none⟩
    | none => do
      let s ← commitTransactions C input.storage input.blockNumber p.transactions.length
        p.transactions ⟨[], p, input.state, []⟩
      if s.committed = [] then .ok ⟨s.pool, none, none⟩
      else
        match input.errs.afterCommit with
        | some err => .ok ⟨s.pool, some err, none⟩
        | none =>
          let (pool, err) := s.pool.removeAll C s.committed
          .ok ⟨pool, err, some s.committed⟩

end

/-- The calls on a pool. -/
inductive PoolOp (σ : Type) where
  | addTransaction (tx : Transaction)
  | addAnchorTransaction (tx : AnchorTransaction)
  /-- The pool is left in this order. -/
  | getTransactions (sorted : Pool)
  | removeTransaction (txhash : Hash)
  | processPlasmaBlock (b : Block)
  | mint (sorted : Pool) (input : MintInput σ)

section
variable (C : Crypto)

/-- One call, unless it panics; an order that `sort.Sort` cannot leave is no call. -/
def Pool.step (p : Pool) : PoolOp σ → Option Pool
  | .addTransaction tx => some (p.addTransaction C tx)
  | .addAnchorTransaction tx => some (p.addAnchorTransaction C tx)
  | .getTransactions sorted => if p.SortedAs sorted then some sorted else none
  | .removeTransaction txhash =>
      match p.removeTransaction C txhash with
      | .error _ => some p
      | .ok p => some p
  | .processPlasmaBlock b => some (processPlasmaBlock C b ⟨p, none, 0⟩).pool
  | .mint sorted input =>
      if p.SortedAs sorted then (mintNewBlockOn C input sorted).toOption.map MintResult.pool
      else none

/-- Calls one after another, on a new pool. -/
def runPool (ops : List (PoolOp σ)) : Option Pool := ops.foldlM (Pool.step C) ⟨[], []⟩

end

end GoPlasma.Plasma
