import GoPlasma.Contract.ExitTheorems
import GoPlasma.Contract.SparseMerkleTheorems
import GoPlasma.Contract.TransactionTheorems
import GoPlasma.Plasma.HistoryTheorems

/-!
# Membership in the child chain

What the contract can be shown when the roots that it is given are those of the blocks of a child
chain. Where no two of the strings that are hashed collide, a transaction that is proved to be in a
block is one of its transactions (`mem_of_checkMembership`), and each of them can be proved to be
there (`exists_proof`). Over a run that publishes nothing else, what is shown for a block is in the
history of its token (`Published.included`).

The last section computes the trees of blocks with one transaction.
-/

namespace GoPlasma.Contract

open Plasma (Address Block Transaction forToken included Linked zeroAddress)
open Smt (Contents FlushedTree hashPair hashedPairs keyOf num treeDepth)

variable {E : Evm} {msg : Msg} {s s' : RootChain} {log : List Event} {now : UInt64}
  {blocks : List Block}

/-! ## The tree of a block -/

/-- The contents of the tree of a block: the hashes of its transactions under their tokens. -/
def blockContents (keccak : Bytes → Hash) (b : Block) : Contents := fun k =>
  (forToken (UInt64.ofNat (num k)) b.transactions).getLast?.map fun tx =>
    ⟨(keccak tx.bytes).1, 0, 0⟩

/-- The `TransactionRoot` of a block. -/
def TransactionRoot (keccak : Bytes → Hash) (b : Block) (root : Hash) : Prop :=
  ∃ tree, FlushedTree keccak tree (blockContents keccak b) ∧
    Smt.SparseMerkleTree.merkleRoot tree = root

section
variable {keccak : Bytes → Hash} {b : Block}

theorem blockContents_values32 : (blockContents keccak b).Values32 := by
  intro k e he
  obtain ⟨tx, -, rfl⟩ := Option.map_eq_some_iff.mp he
  exact (keccak tx.bytes).2

theorem TransactionRoot.eq {root : Hash} (h : TransactionRoot keccak b root) :
    root.1 = (blockContents keccak b).root keccak := by
  obtain ⟨tree, ht, rfl⟩ := h
  exact (ht.spec fun _ => .notFound).1

/-- The leaf of a token. -/
theorem leaf_blockContents (t : UInt64) :
    (blockContents keccak b).leaf keccak t.toNat =
      match (forToken t b.transactions).getLast? with
      | none => (keccak []).1
      | some tx => (keccak tx.bytes).1 := by
  rw [Contents.leaf, blockContents, Smt.num_keyOf t.toNat_lt, UInt64.ofNat_toNat]
  cases (forToken t b.transactions).getLast? with
  | none => rfl
  | some tx => rfl

end

/-! ## Membership -/

/-- The strings that are hashed for the child chain: the empty string, the transactions, and the
pairs in the trees of the blocks. -/
def chainInputs (keccak : Bytes → Hash) (blocks : List Block) : Set Bytes :=
  {x | x = [] ∨ (∃ b ∈ blocks, ∃ tx ∈ b.transactions, x = tx.bytes) ∨
    ∃ b ∈ blocks, x ∈ hashedPairs keccak (blockContents keccak b) treeDepth}

/-- The strings that are hashed to check a transaction that a caller shows: the transaction, and
the pairs on the way to the root. -/
def memberInputs (E : Evm) (smt : SparseMerkle) (behind : Memory) (txBytes proof : Bytes) :
    Set Bytes :=
  {x | x = txBytes ∨ ∃ tx, parseTx behind txBytes = .ok tx ∧ ∃ i < treeDepth, ∃ y,
    y = BinTree.climbPair (hashPair E.keccak) (siblingOf smt proof) tx.tokenID.toNat
      (E.keccak txBytes).1 i ∧ x = y.1 ++ y.2}

/-- What a successful check computes. -/
theorem climb_of_checkMembership {smt : SparseMerkle} {leaf root : Hash} {t : UInt64}
    {proof : Bytes} (h : checkMembership E smt leaf root t proof = .ok true) :
    BinTree.climb (hashPair E.keccak) (siblingOf smt proof) t.toNat leaf.1 64 = root.1 := by
  obtain ⟨r, hr, hroot⟩ := bind_eq_ok.mp h
  have hspec := getRoot_spec (E := E) smt leaf t proof
  split_ifs at hspec with hlen
  · obtain ⟨r', hr', hclimb⟩ := hspec
    obtain rfl := Except.ok.inj (hr.symm.trans hr')
    rw [← hclimb, of_decide_eq_true (Except.ok.inj hroot)]
  · rw [hspec] at hr
    cases hr

/-- A root is a hash. -/
theorem root_ne_zero (hzero : ∀ x, E.keccak x ≠ zeroHash) {smt : SparseMerkle} {leaf root : Hash}
    {t : UInt64} {proof : Bytes} (h : checkMembership E smt leaf root t proof = .ok true) :
    root ≠ zeroHash := by
  rintro rfl
  have hclimb := climb_of_checkMembership h
  rw [show 64 = 63 + 1 from rfl, BinTree.climb_succ] at hclimb
  exact hzero _ (Subtype.ext hclimb)

/-- A transaction that is shown to be in a block is one of the block's. -/
theorem mem_of_checkMembership {H : Set Bytes} (hinj : Set.InjOn E.keccak H)
    (hchain : chainInputs E.keccak blocks ⊆ H) {smt : SparseMerkle} {behind : Memory}
    {txBytes proof : Bytes} (hsup : memberInputs E smt behind txBytes proof ⊆ H) {p : PlasmaTx}
    (hparse : parseTx behind txBytes = .ok p) {b : Block} (hb : b ∈ blocks) {root : Hash}
    (hroot : TransactionRoot E.keccak b root)
    (h : checkMembership E smt (E.keccak txBytes) root p.tokenID proof = .ok true) :
    ∃ tx ∈ forToken p.tokenID b.transactions, txBytes = tx.bytes := by
  have hclimb := climb_of_checkMembership h
  rw [hroot.eq] at hclimb
  have hleaf := Smt.leaf_of_climb blockContents_values32 (length_siblingOf smt proof)
    (E.keccak txBytes).2 p.tokenID.toNat_lt hinj (fun x hx => hchain (.inr (.inr ⟨b, hb, hx⟩)))
    (fun i hi => hsup (.inr ⟨p, hparse, i, hi, _, rfl, rfl⟩)) hclimb
  rw [leaf_blockContents] at hleaf
  have hmem : txBytes ∈ H := hsup (.inl rfl)
  rcases hlast : (forToken p.tokenID b.transactions).getLast? with _ | tx
  · -- the empty string, which is no transaction
    simp only [hlast] at hleaf
    have hnil := hinj hmem (hchain (.inl rfl)) (Subtype.ext hleaf)
    rw [hnil, parseTx_nil] at hparse
    cases hparse
  · simp only [hlast] at hleaf
    have htx := List.mem_of_getLast? hlast
    refine ⟨tx, htx, hinj hmem ?_ (Subtype.ext hleaf)⟩
    exact hchain (.inr (.inl ⟨b, hb, tx, List.mem_of_mem_filter htx, rfl⟩))

theorem setBelow_ones {i : ℕ} (hi : i ≤ 64) : BinTree.setBelow (2 ^ 64 - 1) i = i := by
  induction i with
  | zero => rfl
  | succ i ih =>
    rw [BinTree.setBelow, ih (by omega), Nat.testBit_two_pow_sub_one, decide_eq_true (by omega)]
    rfl

/-- The last transaction of a token in a block can be shown to be there: with all siblings on the
way to the root. -/
theorem exists_proof {b : Block} {root : Hash} (hroot : TransactionRoot E.keccak b root)
    {t : UInt64} {tx : Transaction} (htx : (forToken t b.transactions).getLast? = some tx)
    (smt : SparseMerkle) :
    ∃ proof, checkMembership E smt (E.keccak tx.bytes) root t proof = .ok true := by
  set leaf := (blockContents E.keccak b).leaf E.keccak with hleaf
  -- the proof that gives every sibling, the default ones too
  let p : Smt.Proof := ⟨keyOf t.toNat, (List.range 64).map (Smt.siblingAt E.keccak leaf t.toNat),
    UInt64.ofNat (2 ^ 64 - 1)⟩
  have h32 : ∀ x ∈ p.proof, x.length = 32 := by
    intro x hx
    obtain ⟨i, -, rfl⟩ := List.mem_map.mp hx
    exact Smt.length_root blockContents_values32.length_leaf _ _
  have hbits : p.proofBits.toNat = 2 ^ 64 - 1 := UInt64.toNat_ofNat_of_lt' (by norm_num)
  have hcount : p.proof.length = BinTree.setBelow p.proofBits.toNat 64 := by
    rw [hbits, setBelow_ones le_rfl, List.length_map, List.length_range]
  obtain ⟨r, hr, hclimb⟩ := getRoot_bytes (E := E) h32 smt (E.keccak tx.bytes) t hcount
  have hstart : (E.keccak tx.bytes).1 = leaf t.toNat := by
    rw [hleaf, leaf_blockContents, htx]
  have hsib : ∀ i < 64, BinTree.proofSibling p.proofBits.toNat p.proof
      (fun i => (smt.defaultHashes i).1) i = Smt.siblingAt E.keccak leaf t.toNat i := by
    intro i hi
    rw [BinTree.proofSibling, hbits, setBelow_ones hi.le, Nat.testBit_two_pow_sub_one,
      if_pos (decide_eq_true hi), List.getElem?_map, List.getElem?_range hi]
    rfl
  have heq : r = root := by
    apply Subtype.ext
    rw [hclimb, hstart, BinTree.climb_eq_root _ leaf hsib, hroot.eq,
      Nat.div_eq_of_lt t.toNat_lt]
    rfl
  refine ⟨p.bytes, bind_eq_ok.mpr ⟨r, hr, ?_⟩⟩
  rw [heq, decide_eq_true rfl]

/-! ## Published blocks -/

/-- Only transaction roots of the child chain are published. -/
def Publishes (E : Evm) (blocks : List Block) (call : Call) : Prop :=
  ∀ root blknum, call = .submitBlock root blknum →
    ∃ b ∈ blocks, b.number = blknum.toNat ∧ TransactionRoot E.keccak b root

/-- The child chain as the contract knows it: nothing, or the root of the block. -/
def Published (E : Evm) (blocks : List Block) (s : RootChain) : Prop :=
  ∀ blknum, s.childChain blknum ≠ zeroHash →
    ∃ b ∈ blocks, b.number = blknum.toNat ∧ TransactionRoot E.keccak b (s.childChain blknum)

/-- A round does not change the roots. -/
theorem Round.childChain {m : ℕ} {q : PriorityQueue} {shown : List Event}
    (h : Round msg s m q s' shown) : s'.childChain = s.childChain := by
  rcases h.effect with ⟨-, rfl, -⟩ | ⟨-, -, rfl, -⟩
  · rfl
  · rfl

/-- A property of the roots holds in every run if publishing keeps it. -/
theorem RunWith.childChain {P : RootChain → Msg → Call → Prop} {I : (UInt64 → Hash) → Prop}
    (hnew : I fun _ => zeroHash)
    (hpublish : ∀ s msg root blknum, P s msg (.submitBlock root blknum) → I s.childChain →
      I (Function.update s.childChain blknum root))
    (h : RunWith E P s now log) : I s.childChain := by
  refine h.keeps (I := fun s _ => I s.childChain) ?_ ?_
  · intro s sender hs
    obtain ⟨smt, -, rfl⟩ := newRootChain_ok hs
    exact hnew
  · intro s now msg call s' log shown _ hi hp heff
    cases heff with
    | published hcall => exact hpublish s msg _ _ (hcall ▸ hp) hi
    | deposited _ hd =>
      rw [hd.state]
      exact hi
    | opened _ _ ho =>
      obtain ⟨q, -, rfl⟩ := ho.state
      exact hi
    | cancelled => exact hi
    | finalized _ hr =>
      refine hr.keeps (I := fun s _ => I s.childChain) ?_ log hi
      intro s m q s' _ _ hi hround
      rwa [hround.childChain]

theorem RunWith.published {P : RootChain → Msg → Call → Prop}
    (hP : ∀ s msg call, P s msg call → Publishes E blocks call) (h : RunWith E P s now log) :
    Published E blocks s := by
  refine h.childChain (I := fun roots => ∀ blknum, roots blknum ≠ zeroHash → ∃ b ∈ blocks,
    b.number = blknum.toNat ∧ TransactionRoot E.keccak b (roots blknum)) ?_ ?_
  · exact fun _ hne => absurd rfl hne
  · intro s msg root blknum hp hi n hn
    by_cases heq : n = blknum
    · subst heq
      rw [Function.update_self]
      exact hP s msg _ hp root n rfl
    · rw [Function.update_of_ne heq] at hn ⊢
      exact hi n hn

/-- A transaction that is shown to be in a published block is in the history of its token. -/
theorem Published.included (h : Published E blocks s) (hzero : ∀ x, E.keccak x ≠ zeroHash)
    {H : Set Bytes} (hinj : Set.InjOn E.keccak H) (hchain : chainInputs E.keccak blocks ⊆ H)
    {behind : Memory} {txBytes proof : Bytes}
    (hsup : memberInputs E s.smt behind txBytes proof ⊆ H) {p : PlasmaTx}
    (hparse : parseTx behind txBytes = .ok p) {blknum : UInt64}
    (hmember : checkMembership E s.smt (E.keccak txBytes) (s.childChain blknum) p.tokenID proof
      = .ok true) :
    ∃ tx, (blknum.toNat, tx) ∈ included p.tokenID blocks ∧ txBytes = tx.bytes ∧
      ∃ balance, p = parsed tx balance := by
  obtain ⟨b, hb, hnumber, hroot⟩ := h blknum (root_ne_zero hzero hmember)
  obtain ⟨tx, htx, rfl⟩ := mem_of_checkMembership hinj hchain hsup hparse hb hroot hmember
  refine ⟨tx, ?_, rfl, eq_parsed_of_parseTx hparse⟩
  refine List.mem_flatMap.mpr ⟨b, hb, List.mem_map.mpr ⟨tx, htx, ?_⟩⟩
  rw [hnumber]

/-! ## Linked histories -/

section
variable {h : List (ℕ × Transaction)} {i j : ℕ} {e e' : ℕ × Transaction}

theorem number_lt_of_lt (hl : Linked h) (hi : h[i]? = some e) (hj : h[j]? = some e')
    (hij : i < j) : e.1 < e'.1 := by
  obtain ⟨hi', rfl⟩ := List.getElem?_eq_some_iff.mp hi
  obtain ⟨hj', rfl⟩ := List.getElem?_eq_some_iff.mp hj
  exact List.pairwise_iff_getElem.mp hl.increasing i j hi' hj' hij

/-- The transaction that a later one names is the one before it. -/
theorem recipient_of_named (hl : Linked h) (he : e ∈ h) (he' : e' ∈ h)
    (hnamed : e'.2.prevBlock.toNat = e.1) (hpos : e.1 ≠ 0) : e'.2.prevOwner = e.2.recipient := by
  obtain ⟨j, hj⟩ := List.mem_iff_getElem?.mp he'
  rcases j with _ | j
  · rw [hl.first e' hj] at hnamed
    exact absurd hnamed.symm hpos
  · obtain ⟨e₀, he₀⟩ : ∃ e₀, h[j]? = some e₀ := by
      obtain ⟨hlt, -⟩ := List.getElem?_eq_some_iff.mp hj
      exact ⟨h[j], List.getElem?_eq_getElem (by omega)⟩
    obtain ⟨hblock, howner⟩ := hl.next j e₀ e' he₀ hj
    have hmem := List.mem_iff_getElem?.mpr ⟨j, he₀⟩
    rw [howner, ListRel.eq_of_increasing hl.increasing hmem he (hblock.symm.trans hnamed)]

end

/-! ## Blocks with one transaction -/

/-- A block with one transaction. -/
def oneTxBlock (n : ℕ) (tx : Transaction) : Block := ⟨n, [tx], [], Plasma.genesis.tries⟩

section
variable {keccak : Bytes → Hash} {n : ℕ} {tx : Transaction}

theorem forToken_singleton (t : UInt64) :
    forToken t [tx] = if tx.tokenID = t then [tx] else [] := by
  by_cases h : tx.tokenID = t
  · simp [forToken, h]
  · simp [forToken, h]

theorem leaf_oneTxBlock (q : ℕ) : (blockContents keccak (oneTxBlock n tx)).leaf keccak q =
    if q % 2 ^ 64 = tx.tokenID.toNat then (keccak tx.bytes).1 else (keccak []).1 := by
  have hnum : num (keyOf q) = q % 2 ^ 64 := Bytes.ofBE_toBE 8 q
  have htoken : tx.tokenID = UInt64.ofNat (q % 2 ^ 64) ↔ q % 2 ^ 64 = tx.tokenID.toNat := by
    have hlt : q % 2 ^ 64 < 2 ^ 64 := Nat.mod_lt _ (by norm_num)
    rw [← UInt64.toNat_inj, UInt64.toNat_ofNat_of_lt' hlt]
    exact eq_comm
  rw [Contents.leaf, blockContents, hnum, oneTxBlock, forToken_singleton]
  simp only [htoken]
  split_ifs
  · rfl
  · rfl

/-- The tree of a block with one transaction, as the node builds it. -/
theorem after_insert : Contents.after [.insert (keyOf tx.tokenID.toNat) (keccak tx.bytes).1 0 0]
    Contents.empty = blockContents keccak (oneTxBlock n tx) := by
  funext k
  change Function.update Contents.empty (keyOf tx.tokenID.toNat)
    (some ⟨(keccak tx.bytes).1, 0, 0⟩) k
    = _
  rw [blockContents, oneTxBlock, forToken_singleton, Function.update_apply]
  by_cases hk : k = keyOf tx.tokenID.toNat
  · rw [if_pos hk, hk, Smt.num_keyOf tx.tokenID.toNat_lt, UInt64.ofNat_toNat, if_pos rfl]
    rfl
  · have hne : tx.tokenID ≠ UInt64.ofNat (num k) := by
      intro heq
      apply hk
      rw [heq, UInt64.toNat_ofNat_of_lt' (Smt.num_lt k), Smt.keyOf_num]
    rw [if_neg hk, if_neg hne]
    rfl

/-- The pairs of default hashes. -/
def emptyStrings (keccak : Bytes → Hash) : List Bytes :=
  (List.range 64).map fun i => Smt.defaultHashes keccak i ++ Smt.defaultHashes keccak i

/-- The pairs on the way from a transaction that is alone in its block to the root. -/
def pathStrings (keccak : Bytes → Hash) (tx : Transaction) : List Bytes :=
  (List.range 64).map fun i =>
    let x := BinTree.climbPair (hashPair keccak) (Smt.defaultHashes keccak) tx.tokenID.toNat
      (keccak tx.bytes).1 i
    x.1 ++ x.2

/-- All strings that are hashed for blocks with these transactions. -/
def chainStrings (keccak : Bytes → Hash) (txs : List Transaction) : List Bytes :=
  [] :: txs.map Transaction.bytes ++ emptyStrings keccak ++ txs.flatMap (pathStrings keccak)

theorem mem_chainStrings {txs : List Transaction} {x : Bytes} :
    x ∈ chainStrings keccak txs ↔ x = [] ∨ (∃ tx ∈ txs, tx.bytes = x) ∨ x ∈ emptyStrings keccak ∨
      ∃ tx ∈ txs, x ∈ pathStrings keccak tx := by
  simp [chainStrings]

theorem defaultHashes_eq :
    Smt.defaultHashes keccak = BinTree.empty (hashPair keccak) (keccak []).1 :=
  funext fun i => Smt.defaultHashes_eq_empty keccak i

theorem hashedPairs_oneTxBlock {x : Bytes}
    (hx : x ∈ hashedPairs keccak (blockContents keccak (oneTxBlock n tx)) treeDepth) :
    x ∈ emptyStrings keccak ∨ x ∈ pathStrings keccak tx := by
  obtain ⟨y, hy, rfl⟩ := hx
  obtain ⟨i, hi, rfl | rfl⟩ := BinTree.pairs_single (hashPair keccak) leaf_oneTxBlock hy
  · refine .inl (List.mem_map.mpr ⟨i, List.mem_range.mpr hi, ?_⟩)
    rw [defaultHashes_eq]
  · refine .inr (List.mem_map.mpr ⟨i, List.mem_range.mpr hi, ?_⟩)
    rw [defaultHashes_eq]

theorem chainInputs_oneTxBlocks {txs : List (ℕ × Transaction)} :
    chainInputs keccak (txs.map fun e => oneTxBlock e.1 e.2) ⊆
      {x | x ∈ chainStrings keccak (txs.map Prod.snd)} := by
  rintro x (rfl | ⟨b, hb, tx, htx, rfl⟩ | ⟨b, hb, hx⟩)
  · exact mem_chainStrings.mpr (.inl rfl)
  · obtain ⟨e, he, rfl⟩ := List.mem_map.mp hb
    obtain rfl := List.mem_singleton.mp htx
    exact mem_chainStrings.mpr (.inr (.inl ⟨e.2, List.mem_map_of_mem he, rfl⟩))
  · obtain ⟨e, he, rfl⟩ := List.mem_map.mp hb
    rcases hashedPairs_oneTxBlock hx with hx | hx
    · exact mem_chainStrings.mpr (.inr (.inr (.inl hx)))
    · exact mem_chainStrings.mpr (.inr (.inr (.inr ⟨e.2, List.mem_map_of_mem he, hx⟩)))

theorem included_oneTxBlocks (t : UInt64) (txs : List (ℕ × Transaction)) :
    included t (txs.map fun e => oneTxBlock e.1 e.2) = txs.filter fun e =>
      decide (e.2.tokenID = t) := by
  induction txs with
  | nil => rfl
  | cons e txs ih =>
    have hhead : included t ((e :: txs).map fun e => oneTxBlock e.1 e.2) =
        (forToken t [e.2]).map (fun tx => (e.1, tx)) ++
          included t (txs.map fun e => oneTxBlock e.1 e.2) := rfl
    rw [hhead, ih, forToken_singleton]
    by_cases h : e.2.tokenID = t
    · simp [h]
    · simp [h]

/-- Strings with different hashes. -/
theorem injOn_of_nodup {l : List Bytes} (h : (l.map fun x => Bytes.ofBE (keccak x).1).Nodup) :
    Set.InjOn keccak {x | x ∈ l} := by
  intro x hx y hy heq
  exact List.inj_on_of_nodup_map h hx hy (by rw [heq])

end

section
variable (hempty : E.keccak [] = emptyHash) {tx : Transaction}

theorem siblingOf_bare (smt : SparseMerkle) (i : ℕ) :
    siblingOf smt (Bytes.zeros 8) i = (smt.defaultHashes i).1 := by
  have hbits : (bitsOf (Bytes.zeros 8)).toNat = 0 := by decide
  rw [siblingOf, BinTree.proofSibling, hbits, Nat.zero_testBit]
  rfl

include hempty

/-- What is hashed to check a transaction that is alone in its block. -/
theorem memberInputs_bare {smt : SparseMerkle} (hsmt : newSparseMerkle E = .ok smt)
    (behind : Memory) {txs : List Transaction} (htx : tx ∈ txs) :
    memberInputs E smt behind tx.bytes (Bytes.zeros 8) ⊆ {x | x ∈ chainStrings E.keccak txs} := by
  obtain ⟨smt', hsmt', hdefault⟩ := newSparseMerkle_defaultHashes hempty
  obtain rfl := Except.ok.inj (hsmt.symm.trans hsmt')
  rintro x (rfl | ⟨p, hparse, i, hi, y, rfl, rfl⟩)
  · exact mem_chainStrings.mpr (.inr (.inl ⟨tx, htx, rfl⟩))
  · obtain ⟨balance, rfl⟩ := eq_parsed_of_parseTx hparse
    have hi' : i < 64 := hi
    refine mem_chainStrings.mpr (.inr (.inr (.inr ⟨tx, htx, List.mem_map.mpr
      ⟨i, List.mem_range.mpr hi, ?_⟩⟩)))
    have hsib : ∀ j ≤ 64, siblingOf smt (Bytes.zeros 8) j = Smt.defaultHashes E.keccak j := by
      intro j hj
      rw [siblingOf_bare, hdefault j hj]
    have hclimb := BinTree.climb_congr (hashPair E.keccak) (n := tx.tokenID.toNat)
      (v := (E.keccak tx.bytes).1) fun j (hj : j < i) => hsib j (by omega)
    simp only [BinTree.climbPair, parsed, hclimb, hsib i hi'.le]

/-- The root of a block with one transaction. -/
theorem transactionRoot_oneTxBlock (n : ℕ)
    (hflush : (match Smt.execAll E.keccak
      [.insert (keyOf tx.tokenID.toNat) (E.keccak tx.bytes).1 0 0]
        [] Smt.SparseMerkleTree.new with
      | .ok (t, s) => (Smt.SparseMerkleTree.flush E.keccak s.getChunk t).isOk
      | .error _ => false) = true) :
    TransactionRoot E.keccak (oneTxBlock n tx) (blockRoot E tx) := by
  rcases hcalls : Smt.execAll E.keccak [.insert (keyOf tx.tokenID.toNat) (E.keccak tx.bytes).1 0 0]
    [] Smt.SparseMerkleTree.new with e | ⟨t, s⟩
  · rw [hcalls] at hflush
    cases hflush
  rw [hcalls] at hflush
  change (Smt.SparseMerkleTree.flush E.keccak s.getChunk t).isOk = true at hflush
  rcases htree : Smt.SparseMerkleTree.flush E.keccak s.getChunk t with e | ⟨t', writes⟩
  · rw [htree] at hflush
    cases hflush
  -- a tree of one leaf: both roots climb from it along default hashes
  have hfresh := FlushedTree.fresh _ hcalls htree
  rw [after_insert] at hfresh
  refine ⟨t', hfresh, Subtype.ext ?_⟩
  obtain ⟨smt, hsmt, hdefault⟩ := newSparseMerkle_defaultHashes hempty
  have hspec := getRoot_spec (E := E) smt (E.keccak tx.bytes) tx.tokenID (Bytes.zeros 8)
  rw [if_pos (by decide)] at hspec
  obtain ⟨r, hr, hclimb⟩ := hspec
  have hroot : blockRoot E tx = r := by
    rw [blockRoot, hsmt, ok_bind, hr]
  have hzero : 0 % 2 ^ (64 - 64) = tx.tokenID.toNat / 2 ^ 64 :=
    (Nat.div_eq_of_lt tx.tokenID.toNat_lt).symm
  rw [(hfresh.spec fun _ => .notFound).1, hroot, hclimb]
  change BinTree.root (hashPair E.keccak) _ 64 0 = _
  rw [BinTree.root_single (hashPair E.keccak) leaf_oneTxBlock le_rfl, if_pos hzero]
  apply BinTree.climb_congr
  intro i hi
  rw [siblingOf_bare, hdefault i hi.le, defaultHashes_eq]

end

end GoPlasma.Contract
