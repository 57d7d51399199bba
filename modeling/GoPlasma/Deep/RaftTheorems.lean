import GoPlasma.Deep.Raft

/-!
# Every raft entry once

A batch with consecutive indices that starts at most one behind the applied index is cut where the
new entries begin, also where `lastApplied - first` wraps around; only when the applied index is the
largest `uint64` does `lastApplied + 1` wrap around as well. `Progress.exists_eventLoop` says what a
run of the loop does as long as this does not happen.
-/

namespace GoPlasma.Deep

variable {α : Type}

/-! ## Batches -/

/-- The indices of the entries are consecutive. -/
def Consecutive (l : List (Entry α)) : Prop :=
  l.IsChain fun a b => b.index.toNat = a.index.toNat + 1

theorem Consecutive.getElem {e : Entry α} {l : List (Entry α)} (h : Consecutive (e :: l)) {k : ℕ}
    {x : Entry α} (hx : (e :: l)[k]? = some x) : x.index.toNat = e.index.toNat + k := by
  induction k generalizing e l with
  | zero =>
    rw [List.getElem?_cons_zero, Option.some.injEq] at hx
    rw [← hx, Nat.add_zero]
  | succ k ih =>
    rw [List.getElem?_cons_succ] at hx
    rcases l with _ | ⟨e', l⟩
    · cases hx
    · obtain ⟨hstep, hrest⟩ := List.isChain_cons_cons.mp h
      rw [ih hrest hx, hstep]
      omega

/-- The applied index when the entries of a batch are looked at. -/
def Ready.base (a : ℕ) (rd : Ready α) : ℕ := if rd.snapshot ≠ 0 then rd.snapshot.toNat else a

/-- The largest index in a batch with consecutive indices. -/
def Ready.last (rd : Ready α) : ℕ :=
  match rd.committedEntries.getLast? with
  | none => 0
  | some e => e.index.toNat

/-- What the applied index should be after a round. -/
def Ready.next (a : ℕ) (rd : Ready α) : ℕ := max (rd.base a) rd.last

/-- The snapshot is not below the applied index, and the indices of the batch are consecutive and
start at most one behind it. -/
structure Ready.Legal (a : ℕ) (rd : Ready α) : Prop where
  snapshot : rd.snapshot ≠ 0 → a ≤ rd.snapshot.toNat
  consecutive : Consecutive rd.committedEntries
  first : ∀ e ∈ rd.committedEntries.head?, e.index.toNat ≤ rd.base a + 1

/-- The index behind the applied one is a `uint64`, if there is a batch. -/
def Ready.Room (a : ℕ) (rd : Ready α) : Prop := rd.committedEntries = [] ∨ rd.base a + 1 < 2 ^ 64

/-- Every round of a run is legal. -/
def LegalRun : ℕ → List (Ready α) → Prop
  | _, [] => True
  | a, rd :: rds => rd.Legal a ∧ LegalRun (rd.next a) rds

/-- Every round of a run has room. -/
def RoomRun : ℕ → List (Ready α) → Prop
  | _, [] => True
  | a, rd :: rds => rd.Room a ∧ RoomRun (rd.next a) rds

/-- The index is skipped by a snapshot. -/
def Covered : ℕ → List (Ready α) → ℕ → Prop
  | _, [], _ => False
  | a, rd :: rds, i => (rd.snapshot ≠ 0 ∧ a < i ∧ i ≤ rd.snapshot.toNat) ∨ Covered (rd.next a) rds i

/-- What the applied index should be after a run. -/
def final : ℕ → List (Ready α) → ℕ
  | a, [] => a
  | a, rd :: rds => final (rd.next a) rds

theorem Ready.Legal.le_base {a : ℕ} {rd : Ready α} (h : rd.Legal a) : a ≤ rd.base a := by
  unfold Ready.base
  split_ifs with hs
  · exact h.snapshot hs
  · exact le_rfl

theorem Ready.Legal.le_next {a : ℕ} {rd : Ready α} (h : rd.Legal a) : a ≤ rd.next a :=
  le_trans h.le_base (le_max_left _ _)

theorem LegalRun.le_final {a : ℕ} {rds : List (Ready α)} (h : LegalRun a rds) :
    a ≤ final a rds := by
  induction rds generalizing a with
  | nil => exact le_rfl
  | cons rd rds ih => exact le_trans h.1.le_next (ih h.2)

theorem Covered.lt {a i : ℕ} {rds : List (Ready α)} (hl : LegalRun a rds) (h : Covered a rds i) :
    a < i := by
  induction rds generalizing a with
  | nil => exact h.elim
  | cons rd rds ih =>
    rcases h with ⟨-, hlt, -⟩ | h
    · exact hlt
    · exact lt_of_le_of_lt hl.1.le_next (ih hl.2 h)

/-! ## One round -/

/-- The new entries of a legal batch: the offset is right also where it wraps around. -/
theorem entriesToApply_eq {applied : UInt64} {e : Entry α} {l : List (Entry α)}
    (hroom : applied.toNat + 1 < 2 ^ 64) (hfirst : e.index.toNat ≤ applied.toNat + 1) :
    entriesToApply applied (e :: l) = .ok ((e :: l).drop (applied.toNat + 1 - e.index.toNat)) := by
  have hsucc : (applied + 1).toNat = applied.toNat + 1 := by
    rw [UInt64.toNat_add, show (1 : UInt64).toNat = 1 from rfl, Nat.mod_eq_of_lt hroom]
  have hcheck : ¬ applied + 1 < e.index := by
    rw [UInt64.lt_iff_toNat_lt, hsucc]
    omega
  have hoffset : (applied - e.index + 1).toNat = applied.toNat + 1 - e.index.toNat := by
    rw [UInt64.toNat_add, UInt64.toNat_sub, show (1 : UInt64).toNat = 1 from rfl]
    omega
  rw [entriesToApply, if_neg hcheck]
  simp only [hoffset]
  split_ifs with hlen
  · rfl
  · rw [List.drop_eq_nil_of_le (not_lt.mp hlen)]

/-- The state in which the entries of a batch are looked at. -/
def Progress.advanceSnapshot (s : Progress α) (rd : Ready α) : Progress α :=
  if rd.snapshot ≠ 0 then s.advanceAppliedIndex rd.snapshot else s

/-- The values that the applied index takes because of a snapshot. -/
def Ready.jumps (rd : Ready α) : List UInt64 := if rd.snapshot ≠ 0 then [rd.snapshot] else []

theorem Progress.advanceSnapshot_eq (s : Progress α) (rd : Ready α) :
    (s.advanceSnapshot rd).appliedIndex.toNat = rd.base s.appliedIndex.toNat ∧
    (s.advanceSnapshot rd).applied = s.applied ∧
    (s.advanceSnapshot rd).advanced = s.advanced ++ rd.jumps := by
  unfold Progress.advanceSnapshot Ready.base Ready.jumps
  split_ifs
  · exact ⟨rfl, rfl, rfl⟩
  · exact ⟨rfl, rfl, (List.append_nil _).symm⟩

theorem Progress.advanceSnapshot_mem (s : Progress α) (rd : Ready α) :
    (s.advanceSnapshot rd).appliedIndex ∈ s.appliedIndex :: rd.jumps := by
  unfold Progress.advanceSnapshot Ready.jumps
  split_ifs
  · exact List.mem_cons_of_mem _ List.mem_cons_self
  · exact List.mem_cons_self

theorem Progress.round_eq_ok {s s' : Progress α} {rd : Ready α} :
    s.round rd = .ok s' ↔
      ∃ entries, entriesToApply (s.advanceSnapshot rd).appliedIndex rd.committedEntries
          = .ok entries ∧
        entries.foldl Progress.apply (s.advanceSnapshot rd) = s' := by
  unfold Progress.round
  change (do
    let entries ← entriesToApply (s.advanceSnapshot rd).appliedIndex rd.committedEntries
    Except.ok (entries.foldl Progress.apply (s.advanceSnapshot rd))) = .ok s' ↔ _
  cases entriesToApply (s.advanceSnapshot rd).appliedIndex rd.committedEntries with
  | error e => simp [bind, Except.bind]
  | ok entries => simp [bind, Except.bind]

theorem foldl_apply (l : List (Entry α)) (s : Progress α) :
    l.foldl Progress.apply s = ⟨(l.getLast?.map Entry.index).getD s.appliedIndex, s.applied ++ l,
      s.advanced ++ l.map Entry.index⟩ := by
  induction l using List.reverseRecOn with
  | nil => simp
  | append_singleton l e ih =>
    rw [List.foldl_append, ih]
    simp [Progress.apply, Progress.advanceAppliedIndex]

/-- The indices of entries. -/
def indices (l : List (Entry α)) : List ℕ := l.map fun e => e.index.toNat

theorem mem_indices {l : List (Entry α)} {i : ℕ} : i ∈ indices l ↔ ∃ e ∈ l, e.index.toNat = i :=
  List.mem_map

theorem indices_append (l l' : List (Entry α)) : indices (l ++ l') = indices l ++ indices l' :=
  List.map_append

/-- What a round adds: the new entries have the indices behind the applied one. -/
structure Round (rd : Ready α) (s s' : Progress α) (new : List (Entry α)) : Prop where
  applied : s'.applied = s.applied ++ new
  advanced : s'.advanced = s.advanced ++ (rd.jumps ++ new.map Entry.index)
  index : s'.appliedIndex.toNat = rd.next s.appliedIndex.toNat
  mem : ∀ e ∈ new, e ∈ rd.committedEntries
  range : indices new = List.range' (rd.base s.appliedIndex.toNat + 1) new.length
  length : rd.base s.appliedIndex.toNat + new.length = rd.next s.appliedIndex.toNat

/-- The new entries of a legal batch. -/
theorem entriesToApply_legal {applied : UInt64} {l : List (Entry α)} (hcons : Consecutive l)
    (hfirst : ∀ e ∈ l.head?, e.index.toNat ≤ applied.toNat + 1)
    (hroom : l = [] ∨ applied.toNat + 1 < 2 ^ 64) :
    ∃ new, entriesToApply applied l = .ok new ∧ (∀ e ∈ new, e ∈ l) ∧
      indices new = List.range' (applied.toNat + 1) new.length ∧
      applied.toNat + new.length =
        max applied.toNat ((l.getLast?.map fun e => e.index.toNat).getD 0) := by
  rcases l with _ | ⟨e, l⟩
  · exact ⟨[], rfl, fun _ h => h, rfl, by simp⟩
  have hfirst : e.index.toNat ≤ applied.toNat + 1 := hfirst e rfl
  have hroom : applied.toNat + 1 < 2 ^ 64 := hroom.resolve_left (List.cons_ne_nil _ _)
  -- what is left starts behind `applied` and ends where the batch ends
  refine ⟨_, entriesToApply_eq hroom hfirst, fun x hx => List.mem_of_mem_drop hx, ?_, ?_⟩
  · refine List.ext_getElem (by simp [indices]) fun k hk hk' => ?_
    have hk : applied.toNat + 1 - e.index.toNat + k < (e :: l).length := by
      simp only [indices, List.length_map, List.length_drop] at hk
      omega
    have hget := hcons.getElem (List.getElem?_eq_getElem hk)
    simp only [indices, List.getElem_map, List.getElem_drop, List.getElem_range', hget]
    omega
  · have hlast : (e :: l)[l.length]? = some ((e :: l).getLast (List.cons_ne_nil _ _)) := by
      rw [List.getLast_eq_getElem]
      simp
    rw [List.getLast?_eq_some_getLast (List.cons_ne_nil _ _), Option.map_some, Option.getD_some,
      hcons.getElem hlast, List.length_drop, List.length_cons]
    omega

/-- A round with room succeeds. -/
theorem Progress.exists_round (s : Progress α) {rd : Ready α} (hl : rd.Legal s.appliedIndex.toNat)
    (hroom : rd.Room s.appliedIndex.toNat) : ∃ s' new, s.round rd = .ok s' ∧ Round rd s s' new := by
  obtain ⟨hindex, happlied, hadvanced⟩ := s.advanceSnapshot_eq rd
  obtain ⟨new, hnew, hmem, hget, hlen⟩ := entriesToApply_legal hl.consecutive
    (hindex ▸ hl.first) (hindex ▸ hroom)
  rw [hindex] at hget hlen
  have hnext : rd.base s.appliedIndex.toNat + new.length = rd.next s.appliedIndex.toNat := by
    rw [hlen, Ready.next, Ready.last]
    cases rd.committedEntries.getLast? <;> rfl
  refine ⟨_, new, Progress.round_eq_ok.mpr ⟨new, hnew, rfl⟩, ?_⟩
  rw [foldl_apply]
  refine ⟨by rw [happlied], by rw [hadvanced, List.append_assoc], ?_, hmem, hget, hnext⟩
  -- the applied index is the index of the last new entry, if there is one
  rcases List.eq_nil_or_concat new with rfl | ⟨l, e, rfl⟩
  · exact hindex.trans hnext
  · have hlast := congrArg List.getLast? hget
    rw [List.concat_eq_append, List.getLast?_range', List.length_append, List.length_singleton,
      if_neg (Nat.succ_ne_zero _), indices, List.map_append, List.map_singleton,
      List.getLast?_concat, Option.some.injEq] at hlast
    rw [List.concat_eq_append, List.length_append, List.length_singleton] at hnext
    rw [List.concat_eq_append, List.getLast?_concat, Option.map_some, Option.getD_some, hlast]
    omega

/-! ## Runs -/

theorem Progress.eventLoop_cons {s s' : Progress α} {rd : Ready α} {rds : List (Ready α)} :
    s.eventLoop (rd :: rds) = .ok s' ↔ ∃ s₁, s.round rd = .ok s₁ ∧ s₁.eventLoop rds = .ok s' := by
  unfold Progress.eventLoop
  rw [List.foldlM_cons]
  cases s.round rd with
  | error e => simp [bind, Except.bind]
  | ok s₁ => simp [bind, Except.bind]

/-- What a run adds. -/
structure Outcome (rds : List (Ready α)) (s s' : Progress α) (new : List (Entry α))
    (values : List UInt64) : Prop where
  applied : s'.applied = s.applied ++ new
  advanced : s'.advanced = s.advanced ++ values
  index : s'.appliedIndex.toNat = final s.appliedIndex.toNat rds
  sorted : (indices new).Pairwise (· < ·)
  mem_indices : ∀ i, i ∈ indices new ↔ s.appliedIndex.toNat < i ∧
    i ≤ final s.appliedIndex.toNat rds ∧ ¬ Covered s.appliedIndex.toNat rds i
  mem : ∀ e ∈ new, ∃ rd ∈ rds, e ∈ rd.committedEntries
  values : (s.appliedIndex :: values).Pairwise (· ≤ ·)

theorem Ready.mem_jumps {a : ℕ} {rd : Ready α} {v : UInt64} (h : v ∈ rd.jumps) :
    v.toNat = rd.base a := by
  unfold Ready.jumps at h
  unfold Ready.base
  split_ifs at h ⊢
  · rw [List.mem_singleton.mp h]
  · exact absurd h List.not_mem_nil

/-- The values that the applied index takes in a round are between the old one and the new one, and
in increasing order. -/
theorem Round.values {rd : Ready α} {s s' : Progress α} {new : List (Entry α)}
    (h : Round rd s s' new) (hl : rd.Legal s.appliedIndex.toNat) :
    (∀ v ∈ rd.jumps ++ new.map Entry.index, s.appliedIndex ≤ v ∧ v ≤ s'.appliedIndex) ∧
      (rd.jumps ++ new.map Entry.index).Pairwise (· ≤ ·) := by
  have hbase := hl.le_base
  have hnew : ∀ v ∈ new.map Entry.index, rd.base s.appliedIndex.toNat < v.toNat ∧
      v.toNat ≤ rd.next s.appliedIndex.toNat := by
    intro v hv
    obtain ⟨e, he, rfl⟩ := List.mem_map.mp hv
    have hmem := mem_indices.mpr ⟨e, he, rfl⟩
    rw [h.range, List.mem_range'_1] at hmem
    have hlength := h.length
    omega
  -- a jump to the snapshot comes before the entries, which are behind it
  refine ⟨fun v hv => ?_, List.pairwise_append.mpr ⟨?_, ?_, ?_⟩⟩
  · rw [UInt64.le_iff_toNat_le, UInt64.le_iff_toNat_le, h.index]
    rcases List.mem_append.mp hv with hv | hv
    · rw [Ready.mem_jumps hv]
      exact ⟨hbase, le_max_left _ _⟩
    · have := hnew v hv
      omega
  · unfold Ready.jumps
    split_ifs
    · exact List.pairwise_singleton _ _
    · exact List.Pairwise.nil
  · have hsorted : (indices new).Pairwise (· < ·) := h.range ▸ List.pairwise_lt_range'
    rw [indices, List.pairwise_map] at hsorted
    rw [List.pairwise_map]
    exact hsorted.imp fun hlt => UInt64.le_iff_toNat_le.mpr (le_of_lt hlt)
  · intro v hv w hw
    rw [UInt64.le_iff_toNat_le, Ready.mem_jumps hv]
    exact le_of_lt (hnew w hw).1

/-- Every run with room does what it should. -/
theorem Progress.exists_eventLoop {rds : List (Ready α)} (s : Progress α)
    (hl : LegalRun s.appliedIndex.toNat rds) (hroom : RoomRun s.appliedIndex.toNat rds) :
    ∃ s' new values, s.eventLoop rds = .ok s' ∧ Outcome rds s s' new values := by
  induction rds generalizing s with
  | nil =>
    refine ⟨s, [], [], rfl, (List.append_nil _).symm, (List.append_nil _).symm, rfl,
      List.Pairwise.nil, fun i => ?_, fun e he => absurd he List.not_mem_nil,
      List.pairwise_singleton _ _⟩
    simp only [indices, List.map_nil, List.not_mem_nil, final, false_iff]
    omega
  | cons rd rds ih =>
    obtain ⟨s₁, new₁, hround, h₁⟩ := s.exists_round hl.1 hroom.1
    obtain ⟨s', new₂, values₂, hrun, h₂⟩ := ih s₁ (h₁.index ▸ hl.2) (h₁.index ▸ hroom.2)
    have hlegal : LegalRun (rd.next s.appliedIndex.toNat) rds := hl.2
    obtain ⟨hvalues, hsorted⟩ := h₁.values hl.1
    have hmem₁ : ∀ i, i ∈ indices new₁ ↔ rd.base s.appliedIndex.toNat < i ∧
        i ≤ rd.next s.appliedIndex.toNat := by
      intro i
      rw [h₁.range, List.mem_range'_1]
      have := h₁.length
      omega
    have hmem₂ := h₂.mem_indices
    rw [h₁.index] at hmem₂
    have hfinal := hlegal.le_final
    refine ⟨s', new₁ ++ new₂, rd.jumps ++ new₁.map Entry.index ++ values₂,
      Progress.eventLoop_cons.mpr ⟨s₁, hround, hrun⟩, ?_, ?_, ?_, ?_, ?_, ?_, ?_⟩
    · rw [h₂.applied, h₁.applied, List.append_assoc]
    · rw [h₂.advanced, h₁.advanced, List.append_assoc]
    · rw [h₂.index, h₁.index, final]
    · rw [indices_append, List.pairwise_append]
      refine ⟨h₁.range ▸ List.pairwise_lt_range', h₂.sorted, fun i hi j hj => ?_⟩
      exact lt_of_le_of_lt ((hmem₁ i).mp hi).2 ((hmem₂ j).mp hj).1
    · intro i
      -- an index is applied by this round, covered by its snapshot, or left to the later rounds
      have hjump : (rd.snapshot ≠ 0 ∧ s.appliedIndex.toNat < i ∧ i ≤ rd.snapshot.toNat) ↔
          s.appliedIndex.toNat < i ∧ i ≤ rd.base s.appliedIndex.toNat := by
        unfold Ready.base
        split_ifs with hs
        · exact and_iff_right hs
        · exact ⟨fun h => absurd h.1 hs, fun h => absurd h.1 (not_lt.mpr h.2)⟩
      have hcovered := fun hc : Covered (rd.next s.appliedIndex.toNat) rds i => hc.lt hlegal
      rw [indices_append, List.mem_append, hmem₁, hmem₂, final, Covered, hjump]
      have hbase := hl.1.le_base
      have hnext : rd.base s.appliedIndex.toNat ≤ rd.next s.appliedIndex.toNat := le_max_left _ _
      by_cases hc : Covered (rd.next s.appliedIndex.toNat) rds i
      · have := hcovered hc
        simp only [hc, not_true_eq_false, and_false, or_false, or_true, iff_false]
        omega
      · simp only [hc, not_false_eq_true, and_true, or_false]
        omega
    · intro e he
      rcases List.mem_append.mp he with he | he
      · exact ⟨rd, List.mem_cons_self, h₁.mem e he⟩
      · obtain ⟨rd', hrd', he⟩ := h₂.mem e he
        exact ⟨rd', List.mem_cons_of_mem _ hrd', he⟩
    · obtain ⟨hle, hsorted₂⟩ := List.pairwise_cons.mp h₂.values
      have hs₁ : s.appliedIndex ≤ s₁.appliedIndex := by
        rw [UInt64.le_iff_toNat_le, h₁.index]
        exact hl.1.le_next
      refine List.pairwise_cons.mpr ⟨fun v hv => ?_, List.pairwise_append.mpr ⟨hsorted, hsorted₂,
        fun v hv w hw => UInt64.le_trans (hvalues v hv).2 (hle w hw)⟩⟩
      rcases List.mem_append.mp hv with hv | hv
      · exact (hvalues v hv).1
      · exact UInt64.le_trans hs₁ (hle v hv)

theorem Consecutive.le_last {l : List (Entry α)} (h : Consecutive l) {e : Entry α} (he : e ∈ l)
    {x : Entry α} (hx : l.getLast? = some x) : e.index.toNat ≤ x.index.toNat := by
  rcases l with _ | ⟨e₀, l⟩
  · exact absurd he List.not_mem_nil
  obtain ⟨k, hk, hke⟩ := List.mem_iff_getElem.mp he
  rw [List.getLast?_eq_getElem?] at hx
  rw [h.getElem hx, h.getElem (List.getElem?_eq_some_iff.mpr ⟨hk, hke⟩)]
  omega

theorem LegalRun.index_le_final {a : ℕ} {rds : List (Ready α)} (h : LegalRun a rds) {rd : Ready α}
    (hrd : rd ∈ rds) {e : Entry α} (he : e ∈ rd.committedEntries) :
    e.index.toNat ≤ final a rds := by
  induction rds generalizing a with
  | nil => exact absurd hrd List.not_mem_nil
  | cons rd' rds ih =>
    rcases List.mem_cons.mp hrd with rfl | hrd
    · obtain ⟨x, hx⟩ := Option.ne_none_iff_exists'.mp
        (mt List.getLast?_eq_none_iff.mp (List.ne_nil_of_mem he))
      calc e.index.toNat ≤ x.index.toNat := h.1.consecutive.le_last he hx
        _ = rd.last := by rw [Ready.last, hx]
        _ ≤ rd.next a := le_max_right _ _
        _ ≤ final (rd.next a) rds := h.2.le_final
    · exact ih h.2 hrd

/-! ## Where `lastApplied + 1` wraps around -/

theorem Progress.round_advanced {s s' : Progress α} {rd : Ready α} (h : s.round rd = .ok s') :
    ∃ values, s'.advanced = s.advanced ++ values ∧ s'.appliedIndex ∈ s.appliedIndex :: values := by
  obtain ⟨entries, -, rfl⟩ := Progress.round_eq_ok.mp h
  rw [foldl_apply, (s.advanceSnapshot_eq rd).2.2, List.append_assoc]
  refine ⟨_, rfl, ?_⟩
  rcases entries.eq_nil_or_concat with rfl | ⟨l, e, rfl⟩
  · simpa using s.advanceSnapshot_mem rd
  · simp [List.concat_eq_append]

theorem Progress.eventLoop_advanced {s s' : Progress α} {rds : List (Ready α)}
    (h : s.eventLoop rds = .ok s') : s.advanced <+: s'.advanced := by
  induction rds generalizing s with
  | nil =>
    cases h
    exact List.prefix_refl _
  | cons rd rds ih =>
    obtain ⟨s₁, hround, hrun⟩ := Progress.eventLoop_cons.mp h
    obtain ⟨values, hvalues, -⟩ := Progress.round_advanced hround
    exact (hvalues ▸ List.prefix_append _ _ : s.advanced <+: s₁.advanced).trans (ih hrun)

/-- Without room a round is fatal, or it goes back to the index 0. -/
theorem Progress.round_no_room {s s' : Progress α} {rd : Ready α}
    (hroom : ¬ rd.Room s.appliedIndex.toNat) (h : s.round rd = .ok s') :
    ∃ v ∈ s.appliedIndex :: rd.jumps, ∃ values, v ≠ 0 ∧
      s'.advanced = s.advanced ++ rd.jumps ++ 0 :: values := by
  obtain ⟨hindex, -, hadvanced⟩ := s.advanceSnapshot_eq rd
  obtain ⟨entries, hentries, rfl⟩ := Progress.round_eq_ok.mp h
  rw [Ready.Room, not_or, not_lt, ← hindex] at hroom
  obtain ⟨hne, hmax⟩ := hroom
  have hlt := (s.advanceSnapshot rd).appliedIndex.toNat_lt
  have hlast : (s.advanceSnapshot rd).appliedIndex = 0xffffffffffffffff := by
    rw [← UInt64.toNat_inj, show (0xffffffffffffffff : UInt64).toNat = 2 ^ 64 - 1 from rfl]
    omega
  obtain ⟨e, l, hel⟩ := List.exists_cons_of_ne_nil hne
  rw [hlast, hel, entriesToApply, show (0xffffffffffffffff : UInt64) + 1 = 0 from rfl] at hentries
  split_ifs at hentries with hfirst
  have he : e.index = 0 := by
    rw [UInt64.not_lt, UInt64.le_iff_toNat_le] at hfirst
    exact UInt64.toNat_inj.mp (Nat.le_zero.mp hfirst)
  rw [he] at hentries
  cases hentries
  refine ⟨0xffffffffffffffff, hlast ▸ s.advanceSnapshot_mem rd, l.map Entry.index, by decide, ?_⟩
  rw [foldl_apply, hadvanced]
  simp [he]

/-- A run in which the applied index does not decrease has room in every round. -/
theorem Progress.roomRun {a₀ : UInt64} {s s' : Progress α} {rds : List (Ready α)}
    (hs : s.appliedIndex ∈ a₀ :: s.advanced) (hl : LegalRun s.appliedIndex.toNat rds)
    (h : s.eventLoop rds = .ok s') (hsorted : (a₀ :: s'.advanced).Pairwise (· ≤ ·)) :
    RoomRun s.appliedIndex.toNat rds := by
  induction rds generalizing s with
  | nil => trivial
  | cons rd rds ih =>
    obtain ⟨s₁, hround, hrun⟩ := Progress.eventLoop_cons.mp h
    -- without room the index wraps around to 0, below one that came before
    have hroom : rd.Room s.appliedIndex.toNat := by
      by_contra hroom
      obtain ⟨v, hv, values, hne, hvalues⟩ := Progress.round_no_room hroom hround
      obtain ⟨later, hlater⟩ := Progress.eventLoop_advanced hrun
      rw [← hlater, hvalues, List.append_assoc, List.append_assoc, ← List.cons_append,
        ← List.append_assoc, List.pairwise_append] at hsorted
      have hbefore : v ∈ a₀ :: s.advanced ++ rd.jumps := by
        rcases List.mem_cons.mp hv with rfl | hv
        · exact List.mem_append_left _ hs
        · exact List.mem_append_right _ hv
      have hle : v ≤ 0 := hsorted.2.2 v hbefore 0 List.mem_cons_self
      exact hne (UInt64.toNat_inj.mp (Nat.le_zero.mp (UInt64.le_iff_toNat_le.mp hle)))
    obtain ⟨s₂, new, hround', hnew⟩ := s.exists_round hl.1 hroom
    cases hround.symm.trans hround'
    have hs₁ : s₁.appliedIndex ∈ a₀ :: s₁.advanced := by
      obtain ⟨values, hvalues, hmem⟩ := Progress.round_advanced hround
      rw [hvalues]
      rcases List.mem_cons.mp hmem with heq | hmem
      · rw [heq, ← List.cons_append]
        exact List.mem_append_left _ hs
      · exact List.mem_cons_of_mem _ (List.mem_append_right _ hmem)
    exact ⟨hroom, hnew.index ▸ ih hs₁ (hnew.index ▸ hl.2) hrun⟩

/-! ## Every index once -/

/-- From the applied index `a₀`, each index above it that no snapshot covers has been applied once,
up to the last one that was committed, in increasing order, and the applied index has not
decreased. -/
structure AppliedOnce (a₀ : UInt64) (rds : List (Ready α)) (s : Progress α) : Prop where
  increasing : (indices s.applied).Pairwise (· < ·)
  committed : ∀ e ∈ s.applied, ∃ rd ∈ rds, e ∈ rd.committedEntries
  each : ∀ i, i ∈ indices s.applied ↔
    a₀.toNat < i ∧ i ≤ s.appliedIndex.toNat ∧ ¬ Covered a₀.toNat rds i
  caughtUp : ∀ rd ∈ rds, ∀ e ∈ rd.committedEntries, e.index ≤ s.appliedIndex
  monotone : (a₀ :: s.advanced).Pairwise (· ≤ ·)

/-- `eventLoop` applies each index once, unless a batch comes when the applied index is the largest
`uint64`. -/
theorem eventLoop_appliedOnce_iff (a₀ : UInt64) (rds : List (Ready α))
    (hl : LegalRun a₀.toNat rds) :
    (∃ s, (⟨a₀, [], []⟩ : Progress α).eventLoop rds = .ok s ∧ AppliedOnce a₀ rds s) ↔
      RoomRun a₀.toNat rds := by
  constructor
  · rintro ⟨s, hrun, h⟩
    exact Progress.roomRun List.mem_cons_self hl hrun h.monotone
  · intro hroom
    obtain ⟨s, new, values, hrun, h⟩ := Progress.exists_eventLoop ⟨a₀, [], []⟩ hl hroom
    have happlied : s.applied = new := h.applied
    have hadvanced : s.advanced = values := h.advanced
    refine ⟨s, hrun, happlied ▸ h.sorted, happlied ▸ h.mem, fun i => ?_, fun rd hrd e he => ?_,
      hadvanced ▸ h.values⟩
    · rw [happlied, h.mem_indices, h.index]
    · rw [UInt64.le_iff_toNat_le, h.index]
      exact hl.index_le_final hrd he

/-- An overlapping batch, a snapshot, and a batch behind it. -/
def overlappingRounds : List (Ready Unit) :=
  [⟨0, [⟨2, ()⟩, ⟨3, ()⟩, ⟨4, ()⟩, ⟨5, ()⟩]⟩, ⟨9, []⟩, ⟨0, [⟨9, ()⟩, ⟨10, ()⟩]⟩]

theorem eventLoop_appliedOnce_overlapping :
    LegalRun 3 overlappingRounds ∧ RoomRun 3 overlappingRounds ∧
      ∃ s, (⟨3, [], []⟩ : Progress Unit).eventLoop overlappingRounds = .ok s ∧
        AppliedOnce 3 overlappingRounds s := by
  have hl : LegalRun 3 overlappingRounds := by
    refine ⟨⟨by decide, ?_, ?_⟩, ⟨by decide, ?_, ?_⟩, ⟨by decide, ?_, ?_⟩, trivial⟩ <;>
      simp [Consecutive, Ready.base, Ready.next, Ready.last]
  have hroom : RoomRun 3 overlappingRounds := by
    simp [overlappingRounds, RoomRun, Ready.Room, Ready.base, Ready.next, Ready.last]
  exact ⟨hl, hroom, (eventLoop_appliedOnce_iff 3 overlappingRounds hl).mpr hroom⟩

/-- At the largest `uint64` the index 0 is applied again and the applied index goes back to it; a
stale batch that starts anywhere else is fatal. -/
theorem eventLoop_wraps_around :
    (LegalRun (2 ^ 64 - 1) [⟨0, [⟨0, ()⟩]⟩] ∧
      (⟨0xffffffffffffffff, [], []⟩ : Progress Unit).eventLoop [⟨0, [⟨0, ()⟩]⟩] =
        .ok ⟨0, [⟨0, ()⟩], [0]⟩ ∧
      ¬ AppliedOnce 0xffffffffffffffff [⟨0, [⟨0, ()⟩]⟩] ⟨0, [⟨0, ()⟩], [0]⟩) ∧
    LegalRun (2 ^ 64 - 1) [⟨0, [⟨0xffffffffffffffff, ()⟩]⟩] ∧
      (⟨0xffffffffffffffff, [], []⟩ : Progress Unit).eventLoop
          [⟨0, [⟨0xffffffffffffffff, ()⟩]⟩] =
        .error ("first index of committed entry[18446744073709551615] should <= " ++
          "appliedIndex[18446744073709551615] + 1") := by
  refine ⟨⟨⟨⟨by decide, ?_, ?_⟩, trivial⟩, rfl, fun h => ?_⟩, ⟨⟨by decide, ?_, ?_⟩, trivial⟩, ?_⟩
  · exact List.isChain_singleton _
  · simp
  · exact absurd h.monotone (by decide)
  · exact List.isChain_singleton _
  · simp [Ready.base]
  · rfl

end GoPlasma.Deep
