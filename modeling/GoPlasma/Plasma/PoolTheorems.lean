import GoPlasma.Plasma.Pool
import GoPlasma.Plasma.SelectionTheorems

/-!
# What happens to the transactions of the pool

`Pool.Shrinks` says what a call takes out: sublists stay, and every transaction that is missing has
a hash of a given kind. `pool_sound` is about all runs of the calls, over any storage and with an
error at any place.
-/

namespace GoPlasma.Plasma

variable {σ : Type}

section
variable (C : Crypto)

/-- The minter has attempted a transaction with this hash in vain. -/
def MintInput.Rejects (input : MintInput σ) (p : Pool) (txhash : Hash) : Prop :=
  ∃ m, commitTransactions C input.storage input.blockNumber p.transactions.length p.transactions
      ⟨[], p, input.state, []⟩ = .ok m ∧ ∃ tx, (tx, false) ∈ m.attempts ∧ tx.hash C = txhash

/-- No two transactions of one kind have the same hash. -/
def Pool.Distinct (p : Pool) : Prop :=
  (p.txpool.map (Transaction.hash C)).Nodup ∧ (p.wtxpool.map (AnchorTransaction.hash C)).Nodup

/-- Transactions have been taken out of the pool, all with hashes of a kind. -/
structure Pool.Shrinks (H : Hash → Prop) (p p' : Pool) : Prop where
  txpool : p'.txpool.Sublist p.txpool
  wtxpool : p'.wtxpool.Sublist p.wtxpool
  lost : ∀ tx ∈ p.transactions, tx ∉ p'.transactions → H (tx.hash C)

end

variable {C : Crypto} {p p' p'' : Pool} {H H' : Hash → Prop}

@[simp] theorem Pool.mem_plasma {tx : Transaction} :
    .plasma tx ∈ p.transactions ↔ tx ∈ p.txpool := by
  simp [Pool.transactions]

@[simp] theorem Pool.mem_anchor {tx : AnchorTransaction} :
    .anchor tx ∈ p.transactions ↔ tx ∈ p.wtxpool := by
  simp [Pool.transactions]

/-! ## What is taken out -/

theorem Pool.Shrinks.refl (p : Pool) : p.Shrinks C H p :=
  ⟨List.Sublist.refl _, List.Sublist.refl _, fun _ h h' => absurd h h'⟩

theorem Pool.Shrinks.trans (h : p.Shrinks C H p') (h' : p'.Shrinks C H p'') :
    p.Shrinks C H p'' := by
  refine ⟨h'.txpool.trans h.txpool, h'.wtxpool.trans h.wtxpool, fun tx htx hlost => ?_⟩
  by_cases hmem : tx ∈ p'.transactions
  · exact h'.lost tx hmem hlost
  · exact h.lost tx htx hmem

theorem Pool.Shrinks.mono (h : p.Shrinks C H p') (hH : ∀ x, H x → H' x) : p.Shrinks C H' p' :=
  ⟨h.txpool, h.wtxpool, fun tx htx hlost => hH _ (h.lost tx htx hlost)⟩

theorem Pool.Shrinks.distinct (h : p.Shrinks C H p') (hp : p.Distinct C) : p'.Distinct C :=
  ⟨hp.1.sublist (h.txpool.map _), hp.2.sublist (h.wtxpool.map _)⟩

theorem Pool.removeTransaction_shrinks {txhash : Hash} (h : p.removeTransaction C txhash = .ok p') :
    p.Shrinks C (· = txhash) p' := by
  unfold Pool.removeTransaction at h
  split_ifs at h
  · cases h
    refine ⟨List.eraseP_sublist, List.Sublist.refl _, fun tx htx hlost => ?_⟩
    cases tx with
    | plasma tx =>
      rw [Pool.mem_plasma] at htx hlost
      by_contra hne
      exact hlost ((List.mem_eraseP_of_neg (by simpa [Tx.hash] using hne)).mpr htx)
    | anchor tx =>
      rw [Pool.mem_anchor] at htx hlost
      exact absurd htx hlost
  · cases h
    refine ⟨List.Sublist.refl _, List.eraseP_sublist, fun tx htx hlost => ?_⟩
    cases tx with
    | plasma tx =>
      rw [Pool.mem_plasma] at htx hlost
      exact absurd htx hlost
    | anchor tx =>
      rw [Pool.mem_anchor] at htx hlost
      by_contra hne
      exact hlost ((List.mem_eraseP_of_neg (by simpa [Tx.hash] using hne)).mpr htx)

theorem Pool.dropFailed_shrinks (p : Pool) (tx : Tx) :
    p.Shrinks C (· = tx.hash C) (p.dropFailed C tx) := by
  unfold Pool.dropFailed
  rcases h : p.removeTransaction C (tx.hash C) with e | p'
  · exact Pool.Shrinks.refl p
  · exact Pool.removeTransaction_shrinks h

theorem Pool.removeAll_shrinks (p : Pool) (txes : List Tx) :
    p.Shrinks C (· ∈ txes.map (Tx.hash C)) (p.removeAll C txes).1 := by
  induction txes generalizing p with
  | nil => exact Pool.Shrinks.refl p
  | cons tx txes ih =>
    rw [Pool.removeAll]
    rcases h : p.removeTransaction C (tx.hash C) with e | p'
    · exact Pool.Shrinks.refl p
    · exact ((Pool.removeTransaction_shrinks h).mono fun x hx => hx ▸ List.mem_cons_self).trans
        ((ih p').mono fun x hx => List.mem_cons_of_mem _ hx)

theorem processPlasmaBlock_shrinks (b : Block) (p : Pool) :
    p.Shrinks C (· ∈ covered C b) (processPlasmaBlock C b ⟨p, none, 0⟩).pool := by
  refine ⟨List.filter_sublist, List.filter_sublist, fun tx htx hlost => ?_⟩
  by_contra hne
  cases tx with
  | plasma tx => simp_all [processPlasmaBlock, Tx.hash]
  | anchor tx => simp_all [processPlasmaBlock, Tx.hash]

/-- The loop of the minter takes out what it rejects. -/
theorem commitTransactions_shrinks {S : Storage σ} {n i : ℕ} {txes : List Tx} {m m' : Minting σ}
    (h : commitTransactions C S n i txes m = .ok m') :
    m.pool.Shrinks C (fun x => ∃ tx, (tx, false) ∈ m'.attempts ∧ tx.hash C = x) m'.pool := by
  refine (commitTransactions_invariant (P := fun _ m' =>
    m.pool.Shrinks C (fun x => ∃ tx, (tx, false) ∈ m'.attempts ∧ tx.hash C = x) m'.pool) ?_ ?_
    (Pool.Shrinks.refl _) h).choose_spec
  · intro tx _ m' env hm _
    exact hm.mono fun x ⟨t, ht, hx⟩ => ⟨t, List.mem_append_left _ ht, hx⟩
  · intro tx _ m' e env hm _
    refine (hm.mono fun x ⟨t, ht, hx⟩ => ⟨t, List.mem_append_left _ ht, hx⟩).trans ?_
    exact (m'.pool.dropFailed_shrinks tx).mono fun x hx =>
      ⟨tx, List.mem_append_right _ (List.mem_singleton_self _), hx.symm⟩

/-! ## A mint that returns nil -/

/-- No transaction of the kind of this one has its hash. -/
def Pool.Without (C : Crypto) (p : Pool) : Tx → Prop
  | .plasma tx => ∀ tx' ∈ p.txpool, tx'.hash C ≠ tx.hash C
  | .anchor tx => ∀ tx' ∈ p.wtxpool, tx'.hash C ≠ tx.hash C

theorem Pool.Without.shrinks {tx : Tx} (h : p.Without C tx) (hs : p.Shrinks C H p') :
    p'.Without C tx := by
  cases tx with
  | plasma tx => exact fun tx' htx' => h tx' (hs.txpool.subset htx')
  | anchor tx => exact fun tx' htx' => h tx' (hs.wtxpool.subset htx')

/-- What is erased is gone if the keys are distinct. -/
theorem ne_of_mem_eraseP {α β : Type} [DecidableEq β] {f : α → β} {b : β} {l : List α}
    (h : (l.map f).Nodup) : ∀ x ∈ l.eraseP (fun y => decide (f y = b)), f x ≠ b := by
  induction l with
  | nil => exact fun x hx => absurd hx List.not_mem_nil
  | cons y l ih =>
    obtain ⟨hy, hl⟩ := List.nodup_cons.mp h
    intro x hx hxb
    by_cases hyb : f y = b
    · rw [List.eraseP_cons_of_pos (by simpa using hyb)] at hx
      exact hy (List.mem_map.mpr ⟨x, hx, hxb.trans hyb.symm⟩)
    · rw [List.eraseP_cons_of_neg (by simpa using hyb)] at hx
      rcases List.mem_cons.mp hx with rfl | hx
      · exact hyb hxb
      · exact ih hl x hx hxb

/-- A token transaction that is removed is gone, and so is an anchor if no token transaction has its
hash. -/
theorem Pool.removeTransaction_without {tx : Tx} (hp : p.Distinct C)
    (hfirst : ∀ a, tx = .anchor a → ∀ t ∈ p.txpool, t.hash C ≠ a.hash C)
    (h : p.removeTransaction C (tx.hash C) = .ok p') : p'.Without C tx := by
  unfold Pool.removeTransaction at h
  split_ifs at h with htx hatx
  · cases h
    cases tx with
    | plasma tx => exact ne_of_mem_eraseP hp.1
    | anchor tx =>
      obtain ⟨t, ht, heq⟩ := List.any_eq_true.mp htx
      exact absurd (of_decide_eq_true heq) (hfirst tx rfl t ht)
  · cases h
    cases tx with
    | plasma tx =>
      intro t ht heq
      exact htx (List.any_eq_true.mpr ⟨t, ht, decide_eq_true heq⟩)
    | anchor tx => exact ne_of_mem_eraseP hp.2

/-- If all removals succeed, the transactions are gone. -/
theorem Pool.removeAll_without {txes : List Tx} (hp : p.Distinct C)
    (hfirst : ∀ l₁ l₂ a, txes = l₁ ++ .anchor a :: l₂ → ∀ t ∈ p.txpool, t.hash C = a.hash C →
      ∃ t', .plasma t' ∈ l₁ ∧ t'.hash C = t.hash C)
    (h : p.removeAll C txes = (p', none)) : ∀ tx ∈ txes, p'.Without C tx := by
  induction txes generalizing p with
  | nil => exact fun tx htx => absurd htx List.not_mem_nil
  | cons tx txes ih =>
    rw [Pool.removeAll] at h
    rcases hr : p.removeTransaction C (tx.hash C) with e | p₁
    · rw [hr] at h
      cases h
    · rw [hr] at h
      have h : p₁.removeAll C txes = (p', none) := h
      have hs := Pool.removeTransaction_shrinks hr
      -- a plasma transaction with the hash of an anchor would be removed in its place
      have hw : p₁.Without C tx := by
        refine Pool.removeTransaction_without hp (fun a ha t ht heq => ?_) hr
        obtain ⟨t', ht', -⟩ := hfirst [] txes a (by rw [ha]; rfl) t ht heq
        exact absurd ht' List.not_mem_nil
      have hlater : ∀ tx' ∈ txes, p'.Without C tx' := by
        refine ih (hs.distinct hp) (fun l₁ l₂ a ha t ht heq => ?_) h
        obtain ⟨t', ht', heq'⟩ := hfirst (tx :: l₁) l₂ a (by rw [ha]; rfl) t
          (hs.txpool.subset ht) heq
        rcases List.mem_cons.mp ht' with rfl | ht'
        · exact absurd heq'.symm (hw t ht)
        · exact ⟨t', ht', heq'⟩
      have hrest : p₁.Shrinks C (· ∈ txes.map (Tx.hash C)) (p₁.removeAll C txes).1 :=
        p₁.removeAll_shrinks txes
      rw [h] at hrest
      intro tx' htx'
      rcases List.mem_cons.mp htx' with rfl | htx'
      · exact hw.shrinks hrest
      · exact hlater tx' htx'

/-- The transactions that are committed are the first ones. -/
theorem commitTransactions_prefix {S : Storage σ} {n i : ℕ} {txes : List Tx} {m m' : Minting σ}
    (h : commitTransactions C S n i txes m = .ok m') : m'.committed <+: m.committed ++ txes := by
  obtain ⟨rest, hrest⟩ := commitTransactions_invariant
    (P := fun rest m' => m'.committed ++ rest = m.committed ++ txes)
    (fun tx rest m' env hm _ => by rw [List.append_assoc, List.singleton_append, hm])
    (fun _ _ _ _ _ hm _ => hm) rfl h
  exact ⟨rest, hrest⟩

/-- Before an anchor come all token transactions of the pool. -/
theorem Pool.mem_before_anchor {l₁ l₂ : List Tx} {a : AnchorTransaction} {t : Transaction}
    (h : p.transactions = l₁ ++ .anchor a :: l₂) (ht : t ∈ p.txpool) : .plasma t ∈ l₁ := by
  rcases List.append_eq_append_iff.mp h with ⟨l, hl, -⟩ | ⟨l, hl, hr⟩
  · rw [hl]
    exact List.mem_append_left _ (List.mem_map.mpr ⟨t, ht, rfl⟩)
  · rcases l with _ | ⟨x, l⟩
    · rw [List.append_nil] at hl
      rw [← hl]
      exact List.mem_map.mpr ⟨t, ht, rfl⟩
    · -- otherwise the anchor would be one of the token transactions
      obtain ⟨rfl, -⟩ := List.cons.inj hr
      have hx : Tx.anchor a ∈ p.txpool.map .plasma := by
        rw [hl]
        exact List.mem_append_right _ List.mem_cons_self
      obtain ⟨t', -, ht'⟩ := List.mem_map.mp hx
      cases ht'

/-- The outcomes of a mint: no block, and the pool is without what was rejected, or a block, and the
pool is without its transactions too, if the mint returns nil. -/
theorem mintNewBlockOn_cases {input : MintInput σ} {r : MintResult} (hp : p.Distinct C)
    (h : mintNewBlockOn C input p = .ok r) :
    (r.block = none ∧ p.Shrinks C (input.Rejects C p) r.pool) ∨
    ∃ block, r.block = some block ∧
      p.Shrinks C (fun x => x ∈ block.map (Tx.hash C) ∨ input.Rejects C p x) r.pool ∧
      (r.err = none → ∀ tx ∈ block, r.pool.Without C tx) := by
  unfold mintNewBlockOn at h
  split_ifs at h
  · cases h
    exact .inl ⟨rfl, Pool.Shrinks.refl p⟩
  rcases hstate : input.errs.stateAt with _ | err
  · rw [hstate] at h
    obtain ⟨s, hs, h⟩ := bind_eq_ok.mp h
    have hshrinks : p.Shrinks C (input.Rejects C p) s.pool :=
      (commitTransactions_shrinks hs).mono fun x hx => ⟨s, hs, hx⟩
    split_ifs at h
    · cases h
      exact .inl ⟨rfl, hshrinks⟩
    -- there is a block if nothing fails after `commitTransactions`
    rcases hafter : input.errs.afterCommit with _ | err
    · rw [hafter] at h
      cases h
      refine .inr ⟨s.committed, rfl, (hshrinks.mono fun _ hx => .inr hx).trans
        ((s.pool.removeAll_shrinks s.committed).mono fun _ hx => .inl hx), fun herr => ?_⟩
      refine Pool.removeAll_without (hshrinks.distinct hp) (fun l₁ l₂ a ha t ht _ => ?_)
        (Prod.ext rfl herr)
      obtain ⟨rest, hrest⟩ := commitTransactions_prefix hs
      rw [List.nil_append, ha, List.append_assoc, List.cons_append] at hrest
      exact ⟨t, Pool.mem_before_anchor hrest.symm (hshrinks.txpool.subset ht), rfl⟩
    · rw [hafter] at h
      cases h
      exact .inl ⟨rfl, hshrinks⟩
  · rw [hstate] at h
    cases h
    exact .inl ⟨rfl, Pool.Shrinks.refl p⟩

/-- A mint in which no call fails. -/
theorem mintNewBlockOn_noErrors {S : Storage σ} {n : ℕ} {env : Env σ} {s : Minting σ}
    (h : commitTransactions C S n p.transactions.length p.transactions ⟨[], p, env, []⟩ = .ok s) :
    mintNewBlockOn C ⟨S, n, env, ⟨none, none, none, none, none⟩⟩ p =
      if s.committed = [] then .ok ⟨s.pool, none, none⟩
      else .ok ⟨(s.pool.removeAll C s.committed).1, (s.pool.removeAll C s.committed).2,
        some s.committed⟩ := by
  unfold mintNewBlockOn
  split_ifs with hp hs
  · rw [hp] at h
    cases h
    rfl
  · rw [hp] at h
    cases h
    exact absurd rfl hs
  · simp only [h, bind, Except.bind, if_pos ‹s.committed = []›]
  · simp only [h, bind, Except.bind, if_neg ‹¬ s.committed = []›]
    rfl

/-- The minter of the node does the same to its pool, unless its choices are not possible ones. -/
theorem mintNewBlock_pool {c : MintChoice} {s s' : Node} (h : mintNewBlock C c s = .ok s') :
    s' = s ∨ s.pool.SortedAs ⟨c.txs, c.anchors⟩ ∧ ∃ r, mintNewBlockOn C
      ⟨mapStorage (stateAt s.currentBlock), s.blockNumber, ⟨newStateDB, ()⟩,
        ⟨none, none, none, none, none⟩⟩ ⟨c.txs, c.anchors⟩ = .ok r ∧ s'.pool = r.pool := by
  unfold mintNewBlock at h
  split_ifs at h with hs
  · obtain ⟨m, hm, h⟩ := bind_eq_ok.mp h
    have hmint := mintNewBlockOn_noErrors (p := ⟨c.txs, c.anchors⟩) hm
    -- nothing was committed, a block was, or the choice has the wrong order of the maps
    split_ifs at h with hempty hvalid
    · rw [if_pos hempty] at hmint
      cases h
      exact .inr ⟨hs, _, hmint, rfl⟩
    · rw [if_neg hempty] at hmint
      obtain ⟨T, -, h⟩ := bind_eq_ok.mp h
      cases h
      exact .inr ⟨hs, _, hmint, rfl⟩
    · exact .inl (Except.ok.inj h).symm
  · exact .inl (Except.ok.inj h).symm

/-! ## Runs -/

theorem Pool.SortedAs.perm {q : Pool} (h : p.SortedAs q) : q.transactions.Perm p.transactions :=
  (h.1.1.map _).append (h.2.1.map _)

theorem Pool.SortedAs.distinct {q : Pool} (h : p.SortedAs q) (hp : p.Distinct C) : q.Distinct C :=
  ⟨(h.1.1.map _).nodup_iff.mpr hp.1, (h.2.1.map _).nodup_iff.mpr hp.2⟩

theorem nodup_map_concat {α β : Type} [DecidableEq β] {f : α → β} {l : List α} {a : α}
    (h : (l.map f).Nodup) (ha : ¬ l.any fun x => decide (f x = f a)) :
    ((l ++ [a]).map f).Nodup := by
  rw [List.map_append, List.map_singleton, ← List.concat_eq_append, List.nodup_concat]
  refine ⟨fun hmem => ha ?_, h⟩
  obtain ⟨x, hx, hxa⟩ := List.mem_map.mp hmem
  exact List.any_eq_true.mpr ⟨x, hx, decide_eq_true hxa⟩

theorem Pool.addTransaction_keeps (hp : p.Distinct C) (tx : Transaction) :
    (p.addTransaction C tx).Distinct C ∧ p.transactions ⊆ (p.addTransaction C tx).transactions := by
  unfold Pool.addTransaction
  split_ifs with hany
  · exact ⟨hp, fun _ h => h⟩
  · refine ⟨⟨nodup_map_concat hp.1 hany, hp.2⟩, fun tx' htx' => ?_⟩
    cases tx' <;> simp_all

theorem Pool.addAnchorTransaction_keeps (hp : p.Distinct C) (tx : AnchorTransaction) :
    (p.addAnchorTransaction C tx).Distinct C ∧
      p.transactions ⊆ (p.addAnchorTransaction C tx).transactions := by
  unfold Pool.addAnchorTransaction
  split_ifs with hany
  · exact ⟨hp, fun _ h => h⟩
  · refine ⟨⟨hp.1, nodup_map_concat hp.2 hany⟩, fun tx' htx' => ?_⟩
    cases tx' <;> simp_all

/-- Why a transaction with this hash may leave the pool. -/
def PoolOp.Takes (C : Crypto) (txhash : Hash) : PoolOp σ → Prop
  | .removeTransaction h => txhash = h
  | .processPlasmaBlock b => txhash ∈ covered C b
  | .mint sorted input =>
      (∃ r block, mintNewBlockOn C input sorted = .ok r ∧ r.block = some block ∧
        txhash ∈ block.map (Tx.hash C)) ∨ input.Rejects C sorted txhash
  | _ => False

/-- What a call leaves and takes. -/
theorem Pool.step_keeps {op : PoolOp σ} (hp : p.Distinct C) (h : p.step C op = some p') :
    p'.Distinct C ∧ ∀ tx ∈ p.transactions, tx ∉ p'.transactions → op.Takes C (tx.hash C) := by
  cases op with
  | addTransaction tx =>
    cases h
    obtain ⟨hd, hsub⟩ := Pool.addTransaction_keeps hp tx
    exact ⟨hd, fun tx' htx' hlost => absurd (hsub htx') hlost⟩
  | addAnchorTransaction tx =>
    cases h
    obtain ⟨hd, hsub⟩ := Pool.addAnchorTransaction_keeps hp tx
    exact ⟨hd, fun tx' htx' hlost => absurd (hsub htx') hlost⟩
  | getTransactions sorted =>
    rw [Pool.step] at h
    split_ifs at h with hs
    cases h
    exact ⟨hs.distinct hp, fun tx htx hlost => absurd (hs.perm.mem_iff.mpr htx) hlost⟩
  | removeTransaction txhash =>
    rw [Pool.step] at h
    rcases hr : p.removeTransaction C txhash with e | p₁
    · rw [hr] at h
      cases h
      exact ⟨hp, fun tx htx hlost => absurd htx hlost⟩
    · rw [hr] at h
      cases h
      have hs := Pool.removeTransaction_shrinks hr
      exact ⟨hs.distinct hp, hs.lost⟩
  | processPlasmaBlock b =>
    cases h
    have hs := processPlasmaBlock_shrinks (C := C) b p
    exact ⟨hs.distinct hp, hs.lost⟩
  | mint sorted input =>
    rw [Pool.step] at h
    split_ifs at h with hs
    obtain ⟨r, hr, rfl⟩ := toOption_map_eq_some.mp h
    have hd := hs.distinct hp
    -- sorting keeps the transactions; the mint takes out what it rejects and what is in its block
    rcases mintNewBlockOn_cases hd hr with ⟨-, hshrinks⟩ | ⟨block, hblock, hshrinks, -⟩
    · exact ⟨hshrinks.distinct hd, fun tx htx hlost =>
        .inr (hshrinks.lost tx (hs.perm.mem_iff.mpr htx) hlost)⟩
    · refine ⟨hshrinks.distinct hd, fun tx htx hlost => ?_⟩
      exact (hshrinks.lost tx (hs.perm.mem_iff.mpr htx) hlost).imp_left fun hmem =>
        ⟨r, block, hr, hblock, hmem⟩

theorem runPool_distinct {ops : List (PoolOp σ)} (h : runPool C ops = some p) : p.Distinct C := by
  induction ops using List.reverseRecOn generalizing p with
  | nil =>
    cases h
    exact ⟨List.nodup_nil, List.nodup_nil⟩
  | append_singleton ops op ih =>
    rw [runPool, List.foldlM_append, Option.bind_eq_bind, Option.bind_eq_some_iff] at h
    obtain ⟨p₁, h₁, h⟩ := h
    rw [List.foldlM_cons, Option.bind_eq_bind, Option.bind_eq_some_iff] at h
    obtain ⟨p₂, h₂, h⟩ := h
    cases h
    exact (Pool.step_keeps (ih h₁) h₂).1

/-! ## The order of `GetTransactions` -/

/-- By `TokenID` and `PrevBlock`. -/
def Transaction.le (s t : Transaction) : Prop :=
  s.tokenID < t.tokenID ∨ (s.tokenID = t.tokenID ∧ s.prevBlock ≤ t.prevBlock)

/-- By `BlockChainID` and `BlockNumber`. -/
def AnchorTransaction.le (s t : AnchorTransaction) : Prop :=
  s.blockChainID < t.blockChainID ∨
    (s.blockChainID = t.blockChainID ∧ s.blockNumber ≤ t.blockNumber)

theorem Transaction.not_less {s t : Transaction} : ¬ t.less s ↔ s.le t := by
  unfold Transaction.less Transaction.le
  simp only [UInt64.lt_iff_toNat_lt, UInt64.le_iff_toNat_le, ← UInt64.toNat_inj]
  omega

theorem AnchorTransaction.not_less {s t : AnchorTransaction} : ¬ t.less s ↔ s.le t := by
  unfold AnchorTransaction.less AnchorTransaction.le
  simp only [UInt64.lt_iff_toNat_lt, UInt64.le_iff_toNat_le, ← UInt64.toNat_inj]
  omega

/-- A list can be sorted by a comparison of which the other direction is total and transitive. -/
theorem exists_sorts {α : Type} {less : α → α → Prop} [DecidableRel less]
    (htotal : ∀ a b, ¬ less b a ∨ ¬ less a b)
    (htrans : ∀ a b c, ¬ less b a → ¬ less c b → ¬ less c a) (l : List α) :
    ∃ l', Sorts less l l' := by
  refine ⟨l.mergeSort fun a b => decide (¬ less b a), List.mergeSort_perm _ _, ?_⟩
  refine (List.pairwise_mergeSort ?_ ?_ l).imp fun h => of_decide_eq_true h
  · intro a b c hab hbc
    exact decide_eq_true (htrans a b c (of_decide_eq_true hab) (of_decide_eq_true hbc))
  · intro a b
    rw [Bool.or_eq_true, decide_eq_true_iff, decide_eq_true_iff]
    exact htotal a b

theorem Pool.exists_sortedAs (p : Pool) : ∃ q, p.SortedAs q := by
  obtain ⟨txs, htxs⟩ : ∃ l, Sorts Transaction.less p.txpool l := by
    refine exists_sorts (fun a b => ?_) (fun a b c => ?_) p.txpool
    · simp only [Transaction.less, UInt64.lt_iff_toNat_lt, ← UInt64.toNat_inj]
      omega
    · simp only [Transaction.less, UInt64.lt_iff_toNat_lt, ← UInt64.toNat_inj]
      omega
  obtain ⟨anchors, hanchors⟩ : ∃ l, Sorts AnchorTransaction.less p.wtxpool l := by
    refine exists_sorts (fun a b => ?_) (fun a b c => ?_) p.wtxpool
    · simp only [AnchorTransaction.less, UInt64.lt_iff_toNat_lt, ← UInt64.toNat_inj]
      omega
    · simp only [AnchorTransaction.less, UInt64.lt_iff_toNat_lt, ← UInt64.toNat_inj]
      omega
  exact ⟨⟨txs, anchors⟩, htxs, hanchors⟩

/-! ## Result -/

/-- In every state of the pool, no two transactions of one kind have the same hash; a transaction
leaves only because a call takes it; the transactions of a block are gone after a mint that returns
nil; and `GetTransactions` can sort the pool, and returns what is in it, sorted. -/
theorem pool_sound (ops : List (PoolOp σ)) (p : Pool) (hrun : runPool C ops = some p) :
    p.Distinct C ∧
    (∀ (op : PoolOp σ) p', p.step C op = some p' → ∀ tx ∈ p.transactions, tx ∉ p'.transactions →
      op.Takes C (tx.hash C)) ∧
    (∀ sorted (input : MintInput σ) r block, p.SortedAs sorted →
      mintNewBlockOn C input sorted = .ok r → r.err = none → r.block = some block →
      ∀ tx ∈ block, r.pool.Without C tx) ∧
    (∃ sorted, p.SortedAs sorted) ∧
    ∀ sorted, p.SortedAs sorted → sorted.transactions.Perm p.transactions ∧
      sorted.txpool.Pairwise Transaction.le ∧ sorted.wtxpool.Pairwise AnchorTransaction.le := by
  have hp := runPool_distinct hrun
  refine ⟨hp, fun op p' hstep => (Pool.step_keeps hp hstep).2, ?_, p.exists_sortedAs, ?_⟩
  · intro sorted input r block hs hr herr hblock tx htx
    rcases mintNewBlockOn_cases (hs.distinct hp) hr with ⟨hnone, -⟩ | ⟨block', hblock', -, hgone⟩
    · rw [hblock] at hnone
      cases hnone
    · rw [hblock] at hblock'
      exact hgone herr tx (Option.some.inj hblock' ▸ htx)
  · intro sorted hs
    exact ⟨hs.perm, hs.1.2.imp fun h => Transaction.not_less.mp h,
      hs.2.2.imp fun h => AnchorTransaction.not_less.mp h⟩

/-- A mint on a new node in which nothing fails. -/
def firstMint : MintInput Unit :=
  ⟨mapStorage (stateAt genesis), 0, ⟨newStateDB, ()⟩, ⟨none, none, none, none, none⟩⟩

/-- A deposit is added twice and minted. -/
theorem pool_sound_deposit : ∃ p r, runPool byteCrypto
      ([.addTransaction oneDeposit, .addTransaction oneDeposit] : List (PoolOp Unit)) = some p ∧
    p.Distinct byteCrypto ∧ mintNewBlockOn byteCrypto firstMint p = .ok r ∧
    r.pool.Without byteCrypto (.plasma oneDeposit) := by
  have hp : (runPool byteCrypto
      ([.addTransaction oneDeposit, .addTransaction oneDeposit] : List (PoolOp Unit))).map
        (fun p => (p.txpool, p.wtxpool)) = some ([oneDeposit], []) := by decide +kernel
  obtain ⟨⟨txs, anchors⟩, hrun, hpool⟩ := Option.map_eq_some_iff.mp hp
  obtain ⟨rfl, rfl⟩ := Prod.mk.inj hpool
  have hr : (mintNewBlockOn byteCrypto firstMint ⟨[oneDeposit], []⟩).toOption.map
      (fun r => (r.err, r.block)) = some (none, some [.plasma oneDeposit]) := by decide +kernel
  obtain ⟨r, hr, hresult⟩ := toOption_map_eq_some.mp hr
  obtain ⟨herr, hblock⟩ := Prod.mk.inj hresult
  obtain ⟨hdistinct, -, hmint, -⟩ := pool_sound _ _ hrun
  have hsorted : (⟨[oneDeposit], []⟩ : Pool).SortedAs ⟨[oneDeposit], []⟩ := by decide +kernel
  exact ⟨_, r, hrun, hdistinct, hr, hmint _ _ r _ hsorted hr herr hblock _ List.mem_cons_self⟩

end GoPlasma.Plasma
