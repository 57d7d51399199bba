import GoPlasma.Plasma.ValidationTheorems

/-!
# Editing the owners of an anchor

`AddOwner` and `RemoveOwner` collect the changes to the owners in two lists. For each address they
work like an automaton of their own: an edit cancels a pending edit of the other kind, otherwise it
becomes pending, and a repeated edit changes nothing. `edits_consistent`: after every sequence of
calls from an empty `Extra` the lists hold the pending edits of all addresses, without duplicates
and without contradiction, and `ValidateExtraData` accepts them.
-/

namespace GoPlasma.Plasma

/-! ## Removing an address -/

variable {l : List Address} {a addr : Address} {o : Ownership} {tx : AnchorTransaction}

theorem addressExist_eq_true : addressExist l addr = true ↔ addr ∈ l := by
  simp [addressExist]

/-- The loop of `remove`: what is behind the index has been filtered. -/
theorem foldl_removeAt (front back : List Address) :
    (List.range front.length).reverse.foldl (removeAt addr) (front ++ back)
      = front.filter (fun a => decide (a ≠ addr)) ++ back := by
  induction front using List.reverseRecOn generalizing back with
  | nil => rfl
  | append_singleton front a ih =>
    rw [List.length_append, List.length_singleton, List.range_succ, List.reverse_append,
      List.reverse_singleton, List.singleton_append, List.foldl_cons, removeAt]
    have hget : (front ++ [a] ++ back)[front.length]? = some a := by simp
    rw [hget, List.filter_append]
    by_cases ha : a = addr
    · rw [if_pos (by rw [ha])]
      have hcut : (front ++ [a] ++ back).take front.length
          ++ (front ++ [a] ++ back).drop (front.length + 1) = front ++ back := by simp
      rw [hcut, ih]
      simp [ha]
    · rw [if_neg (by simpa using ha), List.append_assoc, ih]
      simp [ha]

theorem remove_eq_filter (l : List Address) (addr : Address) :
    remove l addr = l.filter (fun a => decide (a ≠ addr)) := by
  have h := @foldl_removeAt addr l []
  rwa [List.append_nil, List.append_nil] at h

@[simp] theorem mem_remove : a ∈ remove l addr ↔ a ∈ l ∧ a ≠ addr := by
  simp [remove_eq_filter]

theorem nodup_remove (h : l.Nodup) : (remove l addr).Nodup := by
  rw [remove_eq_filter]
  exact h.filter _

/-! ## One call -/

/-- What the calls do to the list of their own kind and to the other one. -/
def editLists (mine other : List Address) (addr : Address) : List Address × List Address :=
  if addressExist other addr then (remove mine addr, remove other addr)
  else if !addressExist mine addr then (mine ++ [addr], other)
  else (mine, other)

theorem addOwner_extra (tx : AnchorTransaction) (addr : Address) :
    (tx.addOwner addr).extra = ⟨(editLists tx.extra.addedOwners tx.extra.removedOwners addr).1,
      (editLists tx.extra.addedOwners tx.extra.removedOwners addr).2⟩ := by
  unfold AnchorTransaction.addOwner editLists
  dsimp only
  split_ifs
  · rfl
  · rfl
  · rfl

theorem removeOwner_extra (tx : AnchorTransaction) (addr : Address) :
    (tx.removeOwner addr).extra = ⟨(editLists tx.extra.removedOwners tx.extra.addedOwners addr).2,
      (editLists tx.extra.removedOwners tx.extra.addedOwners addr).1⟩ := by
  unfold AnchorTransaction.removeOwner editLists
  dsimp only
  split_ifs
  · rfl
  · rfl
  · rfl

section
variable {mine other : List Address}

theorem nodup_editLists (hm : mine.Nodup) (ho : other.Nodup) :
    (editLists mine other addr).1.Nodup ∧ (editLists mine other addr).2.Nodup := by
  unfold editLists
  split_ifs with h₁ h₂
  · exact ⟨nodup_remove hm, nodup_remove ho⟩
  · rw [Bool.not_eq_true', ← Bool.not_eq_true, addressExist_eq_true] at h₂
    exact ⟨List.nodup_append.mpr ⟨hm, List.nodup_singleton addr,
      fun x hx y hy hxy => h₂ (by rwa [← List.mem_singleton.mp hy, ← hxy])⟩, ho⟩
  · exact ⟨hm, ho⟩

/-- The address is then in its own list, unless the call has only cancelled an edit of the other
kind, and it is not in the other list. Other addresses stay where they are. -/
theorem mem_editLists (hd : ∀ a ∈ mine, a ∉ other) :
    (a ∈ (editLists mine other addr).1 ↔ if addr = a then a ∉ other else a ∈ mine) ∧
    (a ∈ (editLists mine other addr).2 ↔ addr ≠ a ∧ a ∈ other) := by
  unfold editLists
  by_cases ho : addr ∈ other
  · have hm : addr ∉ mine := fun hm => hd addr hm ho
    rw [if_pos (addressExist_eq_true.mpr ho)]
    by_cases ha : addr = a
    · subst ha
      simp [ho]
    · simp [ha, Ne.symm ha]
  · rw [if_neg (by rwa [addressExist_eq_true])]
    by_cases hm : addr ∈ mine
    · rw [if_neg (by simpa [addressExist_eq_true] using hm)]
      by_cases ha : addr = a
      · subst ha
        simp [ho, hm]
      · simp [ha]
    · rw [if_pos (by simpa [← Bool.not_eq_true, addressExist_eq_true] using hm)]
      by_cases ha : addr = a
      · subst ha
        simp [ho]
      · simp [ha, Ne.symm ha]

end

/-! ## The automaton of an address -/

/-- The two kinds of calls. -/
inductive Edit where
  | add
  | remove
deriving DecidableEq, Repr

/-- One call. -/
def AnchorTransaction.edit (tx : AnchorTransaction) (c : Edit × Address) : AnchorTransaction :=
  match c.1 with
  | .add => tx.addOwner c.2
  | .remove => tx.removeOwner c.2

/-- What is pending after an edit: it cancels one of the other kind. -/
def Edit.pend (e : Edit) : Option Edit → Option Edit
  | none => some e
  | some pending => if pending = e then some e else none

theorem Edit.pend_eq_some {e other : Edit} (h : other ≠ e) (pending : Option Edit) :
    (e.pend pending = some e ↔ pending ≠ some other) ∧ e.pend pending ≠ some other := by
  cases e <;> cases other <;> rcases pending with _ | _ | _ <;> simp_all [Edit.pend]

/-- The calls on one address, replayed. -/
def replay (a : Address) (calls : List (Edit × Address)) : Option Edit :=
  (calls.filter fun c => decide (c.2 = a)).foldl (fun pending c => c.1.pend pending) none

theorem replay_concat (a : Address) (calls : List (Edit × Address)) (c : Edit × Address) :
    replay a (calls ++ [c]) = if c.2 = a then c.1.pend (replay a calls) else replay a calls := by
  rw [replay, List.filter_append, List.foldl_append]
  by_cases h : c.2 = a
  · simp [h, replay]
  · simp [h, replay]

/-- A call of kind `e` on two lists that hold the pending edits. -/
theorem mem_editLists_iff {e other : Edit} (hne : other ≠ e) {mine others : List Address}
    {pending : Address → Option Edit} (hmine : ∀ a, a ∈ mine ↔ pending a = some e)
    (hothers : ∀ a, a ∈ others ↔ pending a = some other) (addr a : Address) :
    (a ∈ (editLists mine others addr).1
      ↔ (if addr = a then e.pend (pending a) else pending a) = some e) ∧
    (a ∈ (editLists mine others addr).2
      ↔ (if addr = a then e.pend (pending a) else pending a) = some other) := by
  have hdisjoint : ∀ a ∈ mine, a ∉ others := by
    intro a ha ho
    rw [hothers, (hmine a).mp ha] at ho
    exact hne (Option.some.inj ho).symm
  have hmem := @mem_editLists a addr mine others hdisjoint
  obtain ⟨hsame, hother⟩ := Edit.pend_eq_some hne (pending a)
  rw [hmem.1, hmem.2, hmine, hothers]
  by_cases ha : addr = a
  · rw [if_pos ha, if_pos ha, hsame]
    exact ⟨Iff.rfl, iff_of_false (fun h => h.1 ha) hother⟩
  · rw [if_neg ha, if_neg ha]
    exact ⟨Iff.rfl, and_iff_right ha⟩

/-- The lists hold the pending edits, and each of them once. -/
structure Tracks (o : Ownership) (pending : Address → Option Edit) : Prop where
  added : o.addedOwners.Nodup
  removed : o.removedOwners.Nodup
  mem_added : ∀ a, a ∈ o.addedOwners ↔ pending a = some .add
  mem_removed : ∀ a, a ∈ o.removedOwners ↔ pending a = some .remove

theorem Tracks.disjoint {pending : Address → Option Edit} (h : Tracks o pending) :
    ∀ a ∈ o.addedOwners, a ∉ o.removedOwners := by
  intro a ha hr
  rw [h.mem_added] at ha
  rw [h.mem_removed, ha] at hr
  cases hr

/-- One call moves the automaton of its address, and no other. -/
theorem Tracks.edit {pending : Address → Option Edit} (h : Tracks tx.extra pending)
    (c : Edit × Address) :
    Tracks (tx.edit c).extra fun a => if c.2 = a then c.1.pend (pending a) else pending a := by
  obtain ⟨e, addr⟩ := c
  cases e with
  | add =>
    have hmem := mem_editLists_iff (by decide) h.mem_added h.mem_removed addr
    obtain ⟨hadded, hremoved⟩ := nodup_editLists h.added h.removed
    change Tracks (tx.addOwner addr).extra _
    rw [addOwner_extra]
    exact ⟨hadded, hremoved, fun a => (hmem a).1, fun a => (hmem a).2⟩
  | remove =>
    have hmem := mem_editLists_iff (by decide) h.mem_removed h.mem_added addr
    obtain ⟨hremoved, hadded⟩ := nodup_editLists h.removed h.added
    change Tracks (tx.removeOwner addr).extra _
    rw [removeOwner_extra]
    exact ⟨hadded, hremoved, fun a => (hmem a).2, fun a => (hmem a).1⟩

/-- A sequence of calls. -/
def AnchorTransaction.edits (calls : List (Edit × Address)) (tx : AnchorTransaction) :
    AnchorTransaction := calls.foldl AnchorTransaction.edit tx

/-- After any sequence of calls the lists hold what is pending. -/
theorem tracks_edits (tx : AnchorTransaction) (calls : List (Edit × Address)) :
    Tracks ({ tx with extra := ⟨[], []⟩ }.edits calls).extra fun a => replay a calls := by
  induction calls using List.reverseRecOn with
  | nil =>
    exact ⟨List.nodup_nil, List.nodup_nil, fun a => by simp [AnchorTransaction.edits, replay],
      fun a => by simp [AnchorTransaction.edits, replay]⟩
  | append_singleton calls c ih =>
    have hstep := ih.edit c
    simp only [← replay_concat] at hstep
    rwa [AnchorTransaction.edits, List.foldl_append]

/-- The edits of the owners stay consistent: whatever is called, from an empty `Extra`, and in
whatever order `removeDuplicates` returns the owners. -/
theorem edits_consistent (tx : AnchorTransaction) (calls : List (Edit × Address)) :
    ∃ tx', { tx with extra := ⟨[], []⟩ }.edits calls = tx' ∧
      tx'.extra.addedOwners.Nodup ∧ tx'.extra.removedOwners.Nodup ∧
      (∀ a ∈ tx'.extra.addedOwners, a ∉ tx'.extra.removedOwners) ∧
      (∀ added removed, Dedups tx'.extra.addedOwners added →
        Dedups tx'.extra.removedOwners removed →
        ∃ tx'', tx'.validateExtraData added removed = .ok tx'') ∧
      ∀ a, (a ∈ tx'.extra.addedOwners ↔ replay a calls = some .add) ∧
        (a ∈ tx'.extra.removedOwners ↔ replay a calls = some .remove) := by
  have h := tracks_edits tx calls
  refine ⟨_, rfl, h.added, h.removed, h.disjoint, ?_, fun a => ⟨h.mem_added a, h.mem_removed a⟩⟩
  intro added removed ha hr
  refine ⟨_, validateExtraData_eq_ok.mpr ⟨?_, rfl⟩⟩
  intro a hadded hremoved
  rw [← List.mem_toFinset, ha.2, List.mem_toFinset] at hadded
  rw [← List.mem_toFinset, hr.2, List.mem_toFinset] at hremoved
  exact h.disjoint a hadded hremoved

/-- A second call changes nothing, and the removal of an owner who was just added cancels it. -/
example : ((addsOwners []).edits [(.add, oneAddress), (.add, oneAddress), (.add, zeroAddress),
    (.remove, zeroAddress)]).extra = ⟨[oneAddress], []⟩ := by decide

end GoPlasma.Plasma
