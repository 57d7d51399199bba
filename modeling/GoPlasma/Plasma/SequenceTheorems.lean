import GoPlasma.Plasma.AnchorTheorems

/-!
# The sequence of anchors

The anchors of a layer 3 chain are accepted one after the other, without gaps, over rejected ones,
several in one block and block boundaries. `anchors_gap_free`: the numbers of the accepted anchors
of a chain are 0, 1, 2, …; the record of the chain has the range of the latest block with anchors of
the chain; and the anchor block that `Commit` sorts has exactly the anchors of the block.
-/

namespace GoPlasma.Plasma

open Act

variable {C : Crypto} {T : Tries} {n : ℕ} {w : Env Unit} {chainID : UInt64} {s s' : Node}

/-! ## What an accepted anchor does to the maps -/

/-- The maps that note the anchors of a block. -/
structure AnchorNoted (tx : AnchorTransaction) (o o' : Objects) : Prop where
  chainIsSet : o'.chainIsSet = o.chainIsSet.insert tx.blockChainID true
  atxList : o'.atxList = o.atxList.insert tx.blockChainID (addToAtxList tx o)

/-- The maps that note the anchors are as they were. -/
def SameNotes (o o' : Objects) : Prop := o'.chainIsSet = o.chainIsSet ∧ o'.atxList = o.atxList

theorem AnchorNoted.of_same {tx : AnchorTransaction} {o o₁ o' : Objects} (h : AnchorNoted tx o₁ o')
    (hs : SameNotes o o₁) : AnchorNoted tx o o' := by
  refine ⟨by rw [h.chainIsSet, hs.1], ?_⟩
  rw [h.atxList, hs.2, addToAtxList, addToAtxList, hs.2]

/-- A setter of a chain object leaves the notes alone. -/
theorem sat_updateChain_notes (entry : AnchorBlock → JournalEntry) (f : AnchorBlock → AnchorBlock)
    (p : Option (Ref AnchorBlock)) :
    Sat (updateChain chainID entry f p) w
      (fun _ w' => SameNotes w.db.objects w'.db.objects) (fun _ _ => False) := by
  refine (sat_updateChain chainID entry f p).mpr fun c _ => ?_
  rcases p with _ | _ | b
  · exact ⟨rfl, rfl⟩
  · exact ⟨rfl, rfl⟩
  · exact ⟨rfl, rfl⟩

theorem sat_appendAnchorObjects_notes (tx : AnchorTransaction) (p : Option (Ref AnchorBlock)) :
    Sat (appendAnchorObjects tx p) w
      (fun _ w' => AnchorNoted tx w.db.objects w'.db.objects) (fun _ _ => False) := by
  refine sat_appendAnchorObjects_of (fun _ => ⟨rfl, rfl⟩) (fun _ => sat_updateChain_notes _ _ p) ?_
  intro q w₁ hs
  refine (sat_updateChain_notes _ _ q).mono ?_ (fun _ _ h => h)
  intro q' w₂ hs₂ c _
  exact AnchorNoted.of_same ⟨rfl, rfl⟩ ⟨hs₂.1.trans hs.1, hs₂.2.trans hs.2⟩

theorem sat_updateAnchor_notes (tx : AnchorTransaction) :
    Sat (updateAnchor C (mapStorage T) tx) w
      (fun _ w' => AnchorNoted tx w.db.objects w'.db.objects) (fun _ _ => True) := by
  simp only [updateAnchor, updateOwners, sat_bind]
  refine (sat_getOrCreateChain (mapStorage T) tx.blockChainID).mono ?_ (fun _ _ _ => trivial)
  rintro q w₁ ⟨hdb, hok⟩
  rw [← hdb] at hok
  refine (sat_changeOwners C tx hok).mono ?_ (fun _ _ _ => trivial)
  rintro p₂ w₂ ⟨c, f, -, -, -, h₂⟩
  refine (sat_appendAnchorObjects_notes tx p₂).mono ?_ (fun _ _ h => h.elim)
  intro _ w₃ hn
  obtain ⟨m, hm⟩ := h₂.frame
  refine hn.of_same ?_
  rw [hm, hdb]
  exact ⟨rfl, rfl⟩

theorem sat_updatePlasma_notes {S : Storage Unit} (tx : Transaction) :
    Sat (updatePlasma C S n tx) w
      (fun _ w' => SameNotes w.db.objects w'.db.objects) (fun _ _ => True) := by
  refine (sat_updatePlasma_frame S tx).mono ?_ (fun _ _ h => h)
  rintro _ w' ⟨t, m, hobjects⟩
  rw [hobjects]
  exact ⟨rfl, rfl⟩

/-- What an accepted transaction of either kind has done to the chains and their anchors. -/
def AnchorsEffect (C : Crypto) (T : Tries) (tx : Tx) (o o' : Objects) : Prop :=
  ChainEffect C T tx o o' ∧ match tx with
    | .plasma _ => SameNotes o o'
    | .anchor tx => AnchorNoted tx o o'

theorem sat_commit_anchors {tx : Tx} (hgood : tx.Good C) (hw : w.db.Ordered) :
    Sat (commitTransaction C (mapStorage T) n tx) w
      (fun _ w' => w'.db.Ordered ∧ AnchorsEffect C T tx w.db.objects w'.db.objects)
      (fun _ w' => w'.db.Ordered ∧ w'.db.objects = w.db.objects) := by
  refine sat_commit_of_update (R := AnchorsEffect C T tx) hgood hw ?_
  cases tx with
  | plasma tx =>
    exact ((sat_updatePlasma_chains tx).and (sat_updatePlasma_notes tx)).mono
      (fun _ _ h => h) (fun _ _ _ => trivial)
  | anchor tx =>
    exact ((sat_updateAnchor_map tx).and (sat_updateAnchor_notes tx)).mono
      (fun _ _ h => h) (fun _ _ _ => trivial)

/-! ## The check of the sequence -/

/-- The number that the next anchor of a chain has to have. -/
def nextNumber : Option AnchorBlock → ℕ
  | none => 0
  | some c => c.endBlock.toNat + 1

/-- An accepted anchor has the next number, if a record without owners is the one of a new chain. -/
theorem number_of_chainError {tx : AnchorTransaction} {c : Option AnchorBlock}
    (h : chainError C tx (c.getD ⟨[], [], 0, 0⟩) = none) (hc : ∀ r, c = some r → r.owners ≠ []) :
    tx.blockNumber.toNat = nextNumber c := by
  -- block 0 registers the chain, and a later block follows the end of its range
  by_cases h0 : tx.blockNumber = 0
  · have howners := ((chainError_none h).1 h0).1
    rcases c with _ | r
    · rw [h0]
      rfl
    · exact absurd howners (hc r rfl)
  · rw [chainError, if_neg h0] at h
    have hnone : anchorError C tx (c.getD ⟨[], [], 0, 0⟩) = none := by
      rcases he : anchorError C tx (c.getD ⟨[], [], 0, 0⟩) with _ | e
      · rfl
      · rw [he] at h
        cases h
    unfold anchorError at hnone
    dsimp only at hnone
    split_ifs at hnone with hreg hsame hjump
    rcases c with _ | r
    · exact absurd rfl hreg
    · -- the successor does not wrap around, since block 0 is not anchored here
      have hnext : r.endBlock + 1 = tx.blockNumber := not_not.mp hjump
      have hlt := r.endBlock.toNat_lt
      have hne : tx.blockNumber.toNat ≠ 0 := fun h => h0 (UInt64.toNat_inj.mp h)
      rw [← hnext, UInt64.toNat_add] at hne ⊢
      change (r.endBlock.toNat + 1) % 2 ^ 64 = r.endBlock.toNat + 1
      change (r.endBlock.toNat + 1) % 2 ^ 64 ≠ 0 at hne
      omega

/-! ## The anchors of a block -/

/-- The anchors of a list for a chain. -/
def ofChain (chainID : UInt64) (l : List AnchorTransaction) : List AnchorTransaction :=
  l.filter fun tx => decide (tx.blockChainID = chainID)

theorem ofChain_append (chainID : UInt64) (l l' : List AnchorTransaction) :
    ofChain chainID (l ++ l') = ofChain chainID l ++ ofChain chainID l' := List.filter_append ..

theorem ofChain_singleton_self (tx : AnchorTransaction) : ofChain tx.blockChainID [tx] = [tx] := by
  simp [ofChain]

theorem ofChain_singleton_of_ne {tx : AnchorTransaction} (h : chainID ≠ tx.blockChainID) :
    ofChain chainID [tx] = [] := by
  simp [ofChain, h.symm]

/-- The numbers of anchors. -/
def numbers (l : List AnchorTransaction) : List ℕ := l.map fun tx => tx.blockNumber.toNat

/-- The record has the range of the anchors, if there are any. -/
def Ranges (l : List AnchorTransaction) (c : Option AnchorBlock) : Prop :=
  match l.head?, l.getLast? with
  | some first, some last => ∃ r, c = some r ∧ r.startBlock = first.blockNumber ∧
      r.endBlock = last.blockNumber
  | _, _ => c = none

/-- The anchor block that `Sort` leaves of anchors that are in order already. -/
def sortedBlock (l : List AnchorTransaction) : Option AnchorBlock :=
  match l.head?, l.getLast? with
  | some first, some last => some ⟨l, [], first.blockNumber, last.blockNumber⟩
  | _, _ => none

/-- What a block has noted of a chain, while it is made: nothing, or its anchors so far, and their
range in the object of the chain. -/
def Noted (l : List AnchorTransaction) (chainID : UInt64) (o : Objects) : Prop :=
  (l = [] ∧ o.chain chainID = none ∧ o.chainIsSet.lookup chainID = none ∧
    o.atxList.lookup chainID = none) ∨
  ∃ first last r, l.head? = some first ∧ l.getLast? = some last ∧ o.chain chainID = some r ∧
    r.owners ≠ [] ∧ r.startBlock = first.blockNumber ∧ r.endBlock = last.blockNumber ∧
    o.chainIsSet.lookup chainID = some true ∧
    o.atxList.lookup chainID = some ⟨l, [], first.blockNumber, first.blockNumber⟩

/-- The anchors of a chain that a block accepts go on from the record in the trie. -/
structure AnchorsInv (T : Tries) (chainID : UInt64) (txs : List Tx) (o : Objects) : Prop where
  numbers : numbers (ofChain chainID (anchorTxs txs)) =
    List.range' (nextNumber (T.chains.lookup chainID)) (ofChain chainID (anchorTxs txs)).length
  noted : Noted (ofChain chainID (anchorTxs txs)) chainID o

theorem Noted.congr {l : List AnchorTransaction} {o o' : Objects} (h : Noted l chainID o)
    (hc : o'.chain chainID = o.chain chainID)
    (hs : o'.chainIsSet.lookup chainID = o.chainIsSet.lookup chainID)
    (ha : o'.atxList.lookup chainID = o.atxList.lookup chainID) : Noted l chainID o' := by
  unfold Noted
  rw [hc, hs, ha]
  exact h

/-- The last number of anchors in sequence. -/
theorem last_of_numbers {l : List AnchorTransaction} {k : ℕ} {last : AnchorTransaction}
    (h : numbers l = List.range' k l.length) (hl : l.getLast? = some last) :
    last.blockNumber.toNat + 1 = k + l.length := by
  obtain ⟨l', rfl⟩ := List.getLast?_eq_some_iff.mp hl
  rw [numbers, List.map_append, List.length_append, List.length_singleton,
    List.range'_1_concat] at h
  have hlast := (List.append_inj' h rfl).2
  rw [List.map_singleton, List.cons.injEq] at hlast
  rw [List.length_append, List.length_singleton, hlast.1]
  omega

/-- One more accepted anchor of the chain. -/
theorem AnchorsInv.accept {txs : List Tx} {o o' : Objects} {tx : AnchorTransaction}
    (hi : AnchorsInv T tx.blockChainID txs o)
    (hT : ∀ r, T.chains.lookup tx.blockChainID = some r → r.owners ≠ [])
    (heff : AnchorEffect C T tx o o') (hn : AnchorNoted tx o o') :
    AnchorsInv T tx.blockChainID (txs ++ [.anchor tx]) o' := by
  have hl : ofChain tx.blockChainID (anchorTxs (txs ++ [.anchor tx])) =
      ofChain tx.blockChainID (anchorTxs txs) ++ [tx] := by
    rw [anchorTxs_concat, ofChain_append]
    exact congrArg _ (ofChain_singleton_self tx)
  have hnumbers := hi.numbers
  have howners := heff.checkedEntry.ne_nil
  have hcheck := heff.checked
  have hchain := heff.chain
  change (currentChain T o' tx.blockChainID).owners ≠ [] at howners
  rw [currentChain, hchain, Option.getD_some] at howners
  rcases hi.noted with ⟨hnil, hnone, hset, hatx⟩ | ⟨first, last, r, hf, hlast, hr, hro, hrs, hre,
    hset, hatx⟩
  · -- the first one in this block goes on from the record in the trie
    have hcur : currentChain T o tx.blockChainID =
        (T.chains.lookup tx.blockChainID).getD ⟨[], [], 0, 0⟩ := by
      rw [currentChain, hnone]
      rfl
    rw [hcur] at hcheck
    constructor
    · rw [hl, hnil]
      change [tx.blockNumber.toNat] = _
      rw [number_of_chainError hcheck hT]
      rfl
    · refine .inr ⟨tx, tx, _, by rw [hl, hnil]; rfl, by rw [hl, hnil]; rfl, hchain,
        howners, ?_, rfl,
        ?_, ?_⟩
      · change (if (o.chainIsSet.lookup tx.blockChainID).isSome then _ else _) = _
        rw [hset]
        rfl
      · rw [hn.chainIsSet, Finmap.lookup_insert]
      · rw [hn.atxList, Finmap.lookup_insert, addToAtxList, hatx, hl, hnil]
        rfl
  · -- a later one goes on from the object in the map
    have hcur : currentChain T o tx.blockChainID = (some r).getD ⟨[], [], 0, 0⟩ := by
      rw [currentChain, hr]
      rfl
    rw [hcur] at hcheck
    have hnum : tx.blockNumber.toNat = nextNumber (T.chains.lookup tx.blockChainID) +
        (ofChain tx.blockChainID (anchorTxs txs)).length := by
      rw [← last_of_numbers hnumbers hlast, ← hre]
      exact number_of_chainError hcheck fun r' hr' => Option.some.inj hr' ▸ hro
    constructor
    · rw [hl, List.length_append, List.length_singleton, List.range'_1_concat, ← hnumbers, ← hnum]
      exact List.map_append
    · refine .inr ⟨first, tx, _, ?_, ?_, hchain, howners, ?_, rfl, ?_, ?_⟩
      · rw [hl, List.head?_append, hf]
        rfl
      · rw [hl, List.getLast?_concat]
      · change (if (o.chainIsSet.lookup tx.blockChainID).isSome then _ else _) = _
        rw [hset, hcur]
        exact hrs
      · rw [hn.chainIsSet, Finmap.lookup_insert]
      · rw [hn.atxList, Finmap.lookup_insert, addToAtxList, hatx, hl]
        rfl

theorem AnchorsInv.step {txs : List Tx} {tx : Tx} {o o' : Objects} (hi : AnchorsInv T chainID txs o)
    (hT : ∀ r, T.chains.lookup chainID = some r → r.owners ≠ [])
      (heff : AnchorsEffect C T tx o o') :
    AnchorsInv T chainID (txs ++ [tx]) o' := by
  cases tx with
  | plasma tx =>
    obtain ⟨hc, hs⟩ := heff
    have hsame : o'.chainObjects = o.chainObjects := hc
    have hl : anchorTxs (txs ++ [.plasma tx]) = anchorTxs txs := by
      rw [anchorTxs_concat]
      exact List.append_nil _
    refine ⟨by rw [hl]; exact hi.numbers, ?_⟩
    rw [hl]
    exact hi.noted.congr (by rw [Objects.chain, Objects.chain, hsame]) (by rw [hs.1]) (by rw [hs.2])
  | anchor tx =>
    obtain ⟨he, hn⟩ := heff
    have heff : AnchorEffect C T tx o o' := he
    -- an anchor of another chain leaves alone what is noted for this one
    by_cases hid : chainID = tx.blockChainID
    · subst hid
      exact hi.accept hT heff hn
    · have hl : ofChain chainID (anchorTxs (txs ++ [.anchor tx])) =
          ofChain chainID (anchorTxs txs) := by
        rw [anchorTxs_concat, ofChain_append]
        exact (congrArg _ (ofChain_singleton_of_ne hid)).trans (List.append_nil _)
      refine ⟨by rw [hl]; exact hi.numbers, ?_⟩
      rw [hl]
      refine hi.noted.congr (heff.others chainID hid) ?_ ?_
      · rw [hn.chainIsSet, Finmap.lookup_insert_of_ne _ hid]
      · rw [hn.atxList, Finmap.lookup_insert_of_ne _ hid]

theorem anchorsInv_new : AnchorsInv T chainID [] newStateDB.objects :=
  ⟨rfl, .inl ⟨rfl, rfl, rfl, rfl⟩⟩

/-! ## Blocks -/

/-- The accepted anchors of a chain. -/
def anchorsOf (chainID : UInt64) (chain : List Block) : List AnchorTransaction :=
  ofChain chainID (chain.flatMap Block.anchors)

/-- The anchors of a chain in the latest block that has some. -/
def latestAnchors (chainID : UInt64) (chain : List Block) : List AnchorTransaction :=
  chain.foldl
    (fun l b => if ofChain chainID b.anchors = [] then l else ofChain chainID b.anchors) []

theorem anchorsOf_concat (chainID : UInt64) (chain : List Block) (b : Block) :
    anchorsOf chainID (chain ++ [b]) = anchorsOf chainID chain ++ ofChain chainID b.anchors := by
  rw [anchorsOf, List.flatMap_append, ofChain_append]
  simp [anchorsOf]

theorem latestAnchors_concat (chainID : UInt64) (chain : List Block) (b : Block) :
    latestAnchors chainID (chain ++ [b]) =
      if ofChain chainID b.anchors = [] then latestAnchors chainID chain
      else ofChain chainID b.anchors := by
  rw [latestAnchors, List.foldl_append]
  rfl

/-- The anchors of a chain in the chain of blocks, and its record. -/
structure SequenceInv (s : Node) (chainID : UInt64) : Prop where
  numbers : numbers (anchorsOf chainID s.chain) = List.range (anchorsOf chainID s.chain).length
  next : nextNumber (s.currentBlock.tries.chains.lookup chainID) =
    (anchorsOf chainID s.chain).length
  owners : ∀ r, s.currentBlock.tries.chains.lookup chainID = some r → r.owners ≠ []
  range : Ranges (latestAnchors chainID s.chain) (s.currentBlock.tries.chains.lookup chainID)

theorem sequenceInv_new : SequenceInv newNode chainID :=
  ⟨rfl, rfl, fun r hr => (by cases hr), rfl⟩

section
variable {c : MintChoice} {m : Minting Unit} {T' : Tries}

/-- What a block has noted when all its transactions are committed. -/
theorem Mints.anchors (h : Mints C c s s' m T') (hp : s.PoolChecked C)
    (hi : SequenceInv s chainID) :
    AnchorsInv (stateAt s.currentBlock) chainID m.committed m.env.db.objects :=
  h.rule hp (fun _ _ hgood hw => sat_commit_anchors hgood hw)
    (fun _ _ _ _ _ hI heff => hI.step hi.owners heff) anchorsInv_new

/-- The anchors of a chain in a block go on from those before it. -/
theorem Mints.numbers (h : Mints C c s s' m T') (hp : s.PoolChecked C)
    (hi : SequenceInv s chainID) :
    numbers (ofChain chainID s'.currentBlock.anchors) =
      List.range' (anchorsOf chainID s.chain).length
        (ofChain chainID s'.currentBlock.anchors).length := by
  have hnumbers := (h.anchors hp hi).numbers
  rw [h.block]
  rw [← hi.next]
  exact hnumbers

theorem SequenceInv.mint (hi : SequenceInv s chainID) (h : Mints C c s s' m T')
    (hp : s.PoolChecked C) : SequenceInv s' chainID := by
  have hnumbers := h.numbers hp hi
  have hrecord := commit_chain h.valid h.tries chainID
  have hold : (stateAt s.currentBlock).chains.lookup chainID =
      s.currentBlock.tries.chains.lookup chainID := rfl
  have hnew : s'.currentBlock.tries.chains.lookup chainID = T'.chains.lookup chainID := by
    rw [h.block]
  have hl : ofChain chainID s'.currentBlock.anchors = ofChain chainID (anchorTxs m.committed) := by
    rw [h.block]
  have hall : Plasma.numbers (anchorsOf chainID s'.chain) =
      List.range (anchorsOf chainID s'.chain).length := by
    rw [h.chain, anchorsOf_concat, Plasma.numbers, List.map_append, List.length_append,
      List.range_eq_range', ← List.range'_append_1, Nat.zero_add, ← hnumbers,
        ← List.range_eq_range',
      ← hi.numbers]
    rfl
  -- by whether the block has anchors of the chain
  rcases (h.anchors hp hi).noted with ⟨hnil, hnone, -, -⟩ | ⟨first, last, r, hf, hlast, hr, hro,
    hrs, hre, -, -⟩
  · -- no anchor of the chain in this block
    rw [hnone, Option.none_or, hold] at hrecord
    rw [hnil] at hl
    have hsame : anchorsOf chainID s'.chain = anchorsOf chainID s.chain := by
      rw [h.chain, anchorsOf_concat, hl, List.append_nil]
    refine ⟨hall, ?_, ?_, ?_⟩
    · rw [hnew, hrecord, hsame, hi.next]
    · rw [hnew, hrecord]
      exact hi.owners
    · rw [hnew, hrecord, h.chain, latestAnchors_concat, if_pos hl]
      exact hi.range
  · rw [hr, Option.some_or] at hrecord
    rw [← hl] at hf hlast
    have hne : ofChain chainID s'.currentBlock.anchors ≠ [] := by
      intro hnil
      rw [hnil] at hf
      cases hf
    refine ⟨hall, ?_, ?_, ?_⟩
    · rw [hnew, hrecord, h.chain, anchorsOf_concat, List.length_append]
      change r.endBlock.toNat + 1 = _
      rw [hre]
      exact last_of_numbers hnumbers hlast
    · intro r' hr'
      rw [hnew, hrecord] at hr'
      exact Option.some.inj hr' ▸ hro
    · rw [hnew, hrecord, h.chain, latestAnchors_concat, if_neg hne, Ranges, hf, hlast]
      exact ⟨r, rfl, hrs, hre⟩

end

theorem RunWith.sequenceInv {P : Node → Op → Prop} (h : RunWith C P s) (chainID : UInt64) :
    SequenceInv s chainID := by
  induction h with
  | new => exact sequenceInv_new
  | @step s s' op hrun _ hs ih =>
    rcases step_block hs with ⟨hb, -, hc⟩ | ⟨c, m, T', rfl, hm⟩
    · -- no block was made
      refine ⟨?_, ?_, ?_, ?_⟩
      · rw [hc]
        exact ih.numbers
      · rw [hb, hc]
        exact ih.next
      · rw [hb]
        exact ih.owners
      · rw [hb, hc]
        exact ih.range
    · exact ih.mint hm hrun.poolChecked

/-! ## The sorted anchor blocks -/

/-- The orders are ones in which `sort.Slice` can leave the anchors. -/
def SortsAnchors (o : Objects) (sorted : UInt64 → List AnchorTransaction) : Prop :=
  ∀ chainID aobj, o.atxList.lookup chainID = some aobj →
    Sorts (fun tx tx' => tx.blockNumber < tx'.blockNumber) aobj.anchors (sorted chainID)

/-- Anchors in sequence are sorted already. -/
theorem eq_of_sorts {l l' : List AnchorTransaction} {k : ℕ}
    (hn : numbers l = List.range' k l.length)
    (hs : Sorts (fun tx tx' => tx.blockNumber < tx'.blockNumber) l l') : l' = l := by
  have hlt : l.Pairwise fun tx tx' => tx.blockNumber.toNat < tx'.blockNumber.toNat := by
    have hrange : (numbers l).Pairwise (· < ·) := by
      rw [hn]
      exact List.pairwise_lt_range'
    exact List.pairwise_map.mp hrange
  refine hs.1.eq_of_pairwise ?_ hs.2 (hlt.imp fun h h' => ?_)
  · intro tx tx' htx htx' h h'
    simp only [UInt64.lt_iff_toNat_lt] at h h'
    exact ListRel.eq_of_increasing hlt (hs.1.mem_iff.mp htx) htx' (by omega)
  · simp only [UInt64.lt_iff_toNat_lt] at h'
    omega

theorem commitAnchors_lookup {o : Objects} {sorted : UInt64 → List AnchorTransaction}
    {f : UInt64 → AnchorBlock}
    (hf : ∀ chainID aobj, o.atxList.lookup chainID = some aobj →
      aobj.sort (sorted chainID) = .ok (f chainID))
    (l : List UInt64) (anchors : GoMap UInt64 AnchorBlock) :
    ∃ anchors', commitAnchors o sorted l anchors = .ok anchors' ∧ ∀ chainID,
      anchors'.lookup chainID = if chainID ∈ l ∧ (o.atxList.lookup chainID).isSome then
        some (f chainID) else anchors.lookup chainID := by
  induction l generalizing anchors with
  | nil => exact ⟨anchors, rfl, fun _ => by simp⟩
  | cons k l ih =>
    -- a chain without anchors in this block is passed over
    rcases hk : o.atxList.lookup k with _ | aobj
    · obtain ⟨anchors', hok, hlook⟩ := ih anchors
      refine ⟨anchors', by simp only [commitAnchors, hk, hok], fun chainID => ?_⟩
      rw [hlook]
      by_cases hid : chainID = k
      · subst hid
        simp [hk]
      · simp [hid]
    · obtain ⟨anchors', hok, hlook⟩ := ih (anchors.insert k (f k))
      refine ⟨anchors', ?_, fun chainID => ?_⟩
      · simp only [commitAnchors, hk, hf k aobj hk]
        exact hok
      · rw [hlook]
        by_cases hid : chainID = k
        · -- a second visit of the same key would write the same
          subst hid
          simp [hk, Finmap.lookup_insert]
        · simp [hid, Finmap.lookup_insert_of_ne]

/-- Sorting leaves the anchors of each chain in the block, with their range. -/
theorem Mints.sortedBlocks {c : MintChoice} {m : Minting Unit} {T' : Tries}
    (h : Mints C c s s' m T') (hrun : Run C s)
    {sorted : UInt64 → List AnchorTransaction} {order : List UInt64}
    (hs : SortsAnchors m.env.db.objects sorted) (hv : Visits order m.env.db.objects.atxList) :
    ∃ anchors, commitAnchors m.env.db.objects sorted order ∅ = .ok anchors ∧ ∀ chainID,
      anchors.lookup chainID = sortedBlock (ofChain chainID s'.currentBlock.anchors) := by
  have hinv := fun chainID => h.anchors hrun.poolChecked (hrun.sequenceInv chainID)
  have hl : ∀ chainID, ofChain chainID s'.currentBlock.anchors =
      ofChain chainID (anchorTxs m.committed) := fun chainID => by rw [h.block]
  -- what each visit of the loop writes
  let f : UInt64 → AnchorBlock := fun chainID =>
    (sortedBlock (ofChain chainID s'.currentBlock.anchors)).getD ⟨[], [], 0, 0⟩
  have hf : ∀ chainID aobj, m.env.db.objects.atxList.lookup chainID = some aobj →
      aobj.sort (sorted chainID) = .ok (f chainID) ∧
        sortedBlock (ofChain chainID s'.currentBlock.anchors) = some (f chainID) := by
    intro chainID aobj ha
    have hsort := hs chainID aobj ha
    rcases (hinv chainID).noted with ⟨-, -, -, hnone⟩ | ⟨first, last, r, hfirst,
      hlast, -, -, -, -, -, hatx⟩
    · rw [hnone] at ha
      cases ha
    · rw [hatx] at ha
      obtain rfl := Option.some.inj ha
      have hblock : sortedBlock (ofChain chainID s'.currentBlock.anchors) =
          some ⟨ofChain chainID (anchorTxs m.committed), [], first.blockNumber,
            last.blockNumber⟩ := by
        rw [hl, sortedBlock, hfirst, hlast]
      refine ⟨?_, by simp only [f, hblock, Option.getD_some]⟩
      rw [eq_of_sorts (hinv chainID).numbers hsort, AnchorBlock.sort, hfirst, hlast]
      simp only [f, hblock, Option.getD_some]
  obtain ⟨anchors, hok, hlook⟩ :=
    commitAnchors_lookup (fun chainID aobj ha => (hf chainID aobj ha).1) order ∅
  refine ⟨anchors, hok, fun chainID => ?_⟩
  rw [hlook]
  rcases ha : m.env.db.objects.atxList.lookup chainID with _ | aobj
  · rcases (hinv chainID).noted with ⟨hnil, -⟩ | ⟨_, _, _, -, -, -, -, -, -, -, hatx⟩
    · rw [hl, hnil]
      simp [sortedBlock]
    · rw [hatx] at ha
      cases ha
  · have hmem : chainID ∈ order := (hv.mem chainID).mpr (by rw [ha]; exact Option.some_ne_none _)
    rw [if_pos ⟨hmem, rfl⟩, (hf chainID aobj ha).2]

/-! ## Result -/

/-- Over every run, for every chain: the numbers of the accepted anchors are 0, 1, 2, …; the record
in the current block has the range of the latest block with anchors of the chain; and whatever block
is made next, in any order of the map, its sorted anchor block of the chain has exactly the anchors
of the block, which go on in sequence, with their range. -/
theorem anchors_gap_free (h : Run C s) (chainID : UInt64) :
    numbers (anchorsOf chainID s.chain) = List.range (anchorsOf chainID s.chain).length ∧
    Ranges (latestAnchors chainID s.chain) (s.currentBlock.tries.chains.lookup chainID) ∧
    ∀ c s' m T', Mints C c s s' m T' →
      numbers (ofChain chainID s'.currentBlock.anchors) = List.range'
        (anchorsOf chainID s.chain).length (ofChain chainID s'.currentBlock.anchors).length ∧
      ∀ sorted order, SortsAnchors m.env.db.objects sorted → Visits order m.env.db.objects.atxList →
        ∃ anchors, commitAnchors m.env.db.objects sorted order ∅ = .ok anchors ∧
          anchors.lookup chainID = sortedBlock (ofChain chainID s'.currentBlock.anchors) := by
  have hi := h.sequenceInv chainID
  refine ⟨hi.numbers, hi.range, fun c s' m T' hm => ⟨hm.numbers h.poolChecked hi, ?_⟩⟩
  intro sorted order hs hv
  obtain ⟨anchors, hok, hlook⟩ := hm.sortedBlocks h hs hv
  exact ⟨anchors, hok, hlook chainID⟩

/-- The anchor of block 1, signed by the first owner. -/
def secondAnchor : AnchorTransaction := ⟨1, 1, none, ⟨[], []⟩, sigOf 0⟩

/-- Two anchors in a block, and a third one in the next block. -/
theorem anchors_gap_free_threeAnchors : ∃ s, Run keyCrypto s ∧
    anchorsOf 1 s.chain = [registration, secondAnchor, extension] ∧
    latestAnchors 1 s.chain = [extension] ∧
    numbers (anchorsOf 1 s.chain) = [0, 1, 2] ∧
    Ranges [extension] (s.currentBlock.tries.chains.lookup 1) := by
  obtain ⟨s, hrun, hall, hlatest⟩ := exists_runWith keyCrypto (fun _ _ => True)
    [.sendAnchor registration [addressOf 2] [], .sendAnchor secondAnchor [] [],
      .mint ⟨[], [registration, secondAnchor], ⟨[], [], [1]⟩⟩,
      .sendAnchor extension [] [], .mint ⟨[], [extension], ⟨[], [], [1]⟩⟩]
    (fun s => anchorsOf 1 s.chain = [registration, secondAnchor, extension] ∧
      latestAnchors 1 s.chain = [extension]) (by decide +kernel)
  obtain ⟨hnumbers, hrange, -⟩ := anchors_gap_free hrun 1
  rw [hall] at hnumbers
  rw [hlatest] at hrange
  exact ⟨s, hrun, hall, hlatest, by rw [hall]; exact hnumbers, hrange⟩

end GoPlasma.Plasma
