import GoPlasma.Deep.Raft

/-!
# The flag of the raft minter

`mineflag` keeps calls of `mintNewBlock` out while one is at work or its block waits to be proposed.
A call that has nothing to commit clears it, and so does `serveLocalProposals`; one whose `Flush`
fails does not. `Minter.Accounted` says that somebody is left who will clear it.
-/

namespace GoPlasma.Deep

/-- If `mineflag` is 1, a call is in progress, or a block that was posted has not been taken. -/
def Minter.Accounted (m : Minter) : Prop :=
  m.mineflag = 1 → (∃ i, m.calls i ≠ .idle) ∨ m.posted ≠ 0 ∨ m.taking = true

/-- A request is attempted when nothing is going on. -/
def Minter.Attempts (m : Minter) : Prop :=
  (∀ i, m.calls i = .idle) → m.posted = 0 → m.taking = false →
    ∀ i, m.step (.load i) = some (m.enter i .loaded)

/-- Two calls do not run at the same time. -/
def Minter.Exclusive (m : Minter) : Prop :=
  ∀ i j, m.calls i = .running → m.calls j = .running → i = j

/-- The call is not the only one who would clear the flag. -/
def Minter.Backed (m : Minter) (i : ℕ) : Prop :=
  m.mineflag = 1 → (∃ j, j ≠ i ∧ m.calls j ≠ .idle) ∨ m.posted ≠ 0 ∨ m.taking = true

theorem Minter.Accounted.attempts {m : Minter} (h : m.Accounted) : m.Attempts := by
  intro hidle hposted htaking i
  have hflag : m.mineflag ≠ 1 := by
    intro hflag
    rcases h hflag with ⟨j, hj⟩ | hne | htrue
    · exact hj (hidle j)
    · exact hne hposted
    · rw [htaking] at htrue
      cases htrue
  rw [Minter.step, if_neg (not_not.mpr (hidle i)), if_neg hflag]

theorem Minter.calls_enter (m : Minter) (i j : ℕ) (p : Phase) :
    (m.enter i p).calls j = if j = i then p else m.calls j := Function.update_apply _ _ _ _

/-- Only a call whose `Flush` fails can leave the flag to nobody. -/
theorem Minter.step_accounted {m m' : Minter} {e : MinterEvent} (h : m.step e = some m')
    (hm : m.Accounted) : m'.Accounted ↔ ∀ i, e = .flushFails i → m.Backed i := by
  cases e with
  | load i =>
    refine iff_of_true ?_ fun i hi => by cases hi
    rw [Minter.step] at h
    split_ifs at h
    · cases h
      exact hm
    · cases h
      exact fun _ => .inl ⟨i, by simp [Minter.calls_enter]⟩
  | store i =>
    refine iff_of_true ?_ fun i hi => by cases hi
    rw [Minter.step] at h
    split_ifs at h
    cases h
    exact fun _ => .inl ⟨i, by simp [Minter.calls_enter]⟩
  | lock i =>
    refine iff_of_true ?_ fun i hi => by cases hi
    rw [Minter.step] at h
    split_ifs at h
    cases h
    exact fun _ => .inl ⟨i, by simp [Minter.calls_enter]⟩
  | empty i =>
    refine iff_of_true ?_ fun i hi => by cases hi
    rw [Minter.step] at h
    split_ifs at h
    cases h
    exact fun hflag => absurd hflag (by decide : (0 : UInt32) ≠ 1)
  | flushFails i =>
    rw [Minter.step] at h
    split_ifs at h
    cases h
    -- the call leaves with the flag set, so another one has to be there
    have hothers : (∃ j, (m.enter i .idle).calls j ≠ .idle) ↔ ∃ j, j ≠ i ∧ m.calls j ≠ .idle := by
      refine exists_congr fun j => ?_
      rw [Minter.calls_enter]
      split_ifs with hj
      · exact iff_of_false (not_not.mpr rfl) fun h => h.1 hj
      · exact (and_iff_right hj).symm
    constructor
    · rintro h k hk
      cases hk
      exact fun hflag => (h hflag).imp_left hothers.mp
    · intro h hflag
      exact (h i rfl hflag).imp_left hothers.mpr
  | post i =>
    refine iff_of_true ?_ fun i hi => by cases hi
    rw [Minter.step] at h
    split_ifs at h
    cases h
    exact fun _ => .inr (.inl (Nat.succ_ne_zero _))
  | receive =>
    refine iff_of_true ?_ fun i hi => by cases hi
    rw [Minter.step] at h
    split_ifs at h
    cases h
    exact fun _ => .inr (.inr rfl)
  | reset =>
    refine iff_of_true ?_ fun i hi => by cases hi
    rw [Minter.step] at h
    split_ifs at h
    cases h
    exact fun hflag => absurd hflag (by decide : (0 : UInt32) ≠ 1)
  | start =>
    refine iff_of_true ?_ fun i hi => by cases hi
    cases h
    exact fun hflag => absurd hflag (by decide : (0 : UInt32) ≠ 1)

/-- A call that runs has the mutex, and no other call runs. -/
def Minter.Locked (m : Minter) : Prop :=
  ∀ i, m.calls i = .running → m.mu = true ∧ ∀ j, m.calls j = .running → j = i

theorem Minter.Locked.enter {m : Minter} (hm : m.Locked) {i : ℕ} {p : Phase} (hp : p ≠ .running) :
    (m.enter i p).Locked := by
  intro j hj
  rw [Minter.calls_enter] at hj
  split_ifs at hj
  · exact absurd hj hp
  · refine ⟨(hm j hj).1, fun k hk => (hm j hj).2 k ?_⟩
    rw [Minter.calls_enter] at hk
    split_ifs at hk
    · exact absurd hk hp
    · exact hk

/-- When the call that runs is over, none runs. -/
theorem Minter.Locked.calls_ne {m : Minter} (hm : m.Locked) {i : ℕ} (hi : m.calls i = .running)
    {p : Phase} (hp : p ≠ .running) (j : ℕ) : (m.enter i p).calls j ≠ .running := by
  rw [Minter.calls_enter]
  split_ifs with hj
  · exact hp
  · exact fun hrun => hj ((hm i hi).2 j hrun)

theorem Minter.step_locked {m m' : Minter} {e : MinterEvent} (h : m.step e = some m')
    (hm : m.Locked) : m'.Locked := by
  cases e with
  | load i =>
    rw [Minter.step] at h
    split_ifs at h
    · cases h
      exact hm
    · cases h
      exact hm.enter (by decide)
  | store i =>
    rw [Minter.step] at h
    split_ifs at h
    cases h
    exact hm.enter (p := .stored) (by decide)
  | lock i =>
    rw [Minter.step] at h
    split_ifs at h with hfree
    cases h
    -- nobody runs while the mutex is free
    have hnone : ∀ j, m.calls j ≠ .running := by
      intro j hj
      have hmu := (hm j hj).1
      rw [hfree.2] at hmu
      cases hmu
    have honly : ∀ j, (m.enter i .running).calls j = .running → j = i := by
      intro j hj
      rw [Minter.calls_enter] at hj
      split_ifs at hj with hji
      · exact hji
      · exact absurd hj (hnone j)
    exact fun j hj => ⟨rfl, fun k hk => (honly k hk).trans (honly j hj).symm⟩
  | empty i =>
    rw [Minter.step] at h
    split_ifs at h with hrun
    cases h
    exact fun j hj => absurd hj (hm.calls_ne hrun (by decide) j)
  | flushFails i =>
    rw [Minter.step] at h
    split_ifs at h with hrun
    cases h
    exact fun j hj => absurd hj (hm.calls_ne hrun (by decide) j)
  | post i =>
    rw [Minter.step] at h
    split_ifs at h with hrun
    cases h
    exact fun j hj => absurd hj (hm.calls_ne hrun (by decide) j)
  | receive =>
    rw [Minter.step] at h
    split_ifs at h
    cases h
    exact hm
  | reset =>
    rw [Minter.step] at h
    split_ifs at h
    cases h
    exact hm
  | start =>
    cases h
    exact hm

/-! ## Runs -/

theorem Minter.run_concat {m m' : Minter} {es : List MinterEvent} {e : MinterEvent} :
    m.run (es ++ [e]) = some m' ↔ ∃ m₁, m.run es = some m₁ ∧ m₁.step e = some m' := by
  unfold Minter.run
  rw [List.foldlM_append, Option.bind_eq_bind, Option.bind_eq_some_iff]
  simp

theorem Minter.run_locked {m : Minter} {es : List MinterEvent} (h : newMinter.run es = some m) :
    m.Locked := by
  induction es using List.reverseRecOn generalizing m with
  | nil =>
    cases h
    exact fun i hi => by cases hi
  | append_singleton es e ih =>
    obtain ⟨m₁, hrun, hstep⟩ := Minter.run_concat.mp h
    exact Minter.step_locked hstep (ih hrun)

/-- Every `Flush` that fails in a run is one of a call that is not alone. -/
def FlushesBacked (es : List MinterEvent) : Prop :=
  ∀ es' i m, es' ++ [.flushFails i] <+: es → newMinter.run es' = some m → m.calls i = .running →
    m.Backed i

theorem Minter.run_accounted {m : Minter} {es es' : List MinterEvent} (hb : FlushesBacked es)
    (hpre : es' <+: es) (h : newMinter.run es' = some m) : m.Accounted := by
  induction es' using List.reverseRecOn generalizing m with
  | nil =>
    cases h
    exact fun hflag => absurd hflag (by decide : (0 : UInt32) ≠ 1)
  | append_singleton es' e ih =>
    obtain ⟨m₁, hrun, hstep⟩ := Minter.run_concat.mp h
    refine (Minter.step_accounted hstep (ih ((List.prefix_append _ _).trans hpre) hrun)).mpr ?_
    rintro i rfl
    rw [Minter.step] at hstep
    split_ifs at hstep with hi
    exact hb es' i m₁ hpre hrun hi

/-- The minter never locks itself out and never mints twice at once, unless a `Flush` fails with
nobody left to clear the flag. -/
theorem minter_never_locked_out_iff (es : List MinterEvent) :
    (∀ es' m, es' <+: es → newMinter.run es' = some m →
      m.Accounted ∧ m.Attempts ∧ m.Exclusive) ↔ FlushesBacked es := by
  constructor
  · intro h es' i m hpre hrun hi
    have hm := (h es' m ((List.prefix_append _ _).trans hpre) hrun).1
    have hstep : m.step (.flushFails i) = some { m.enter i .idle with mu := false } := by
      rw [Minter.step, if_pos hi]
    have hm' := (h _ _ hpre (Minter.run_concat.mpr ⟨m, hrun, hstep⟩)).1
    exact (Minter.step_accounted hstep hm).mp hm' i rfl
  · intro hb es' m hpre hrun
    have hm := Minter.run_accounted hb hpre hrun
    exact ⟨hm, hm.attempts, fun i j hi hj => (Minter.run_locked hrun j hj).2 i hi⟩

/-- The flag is 1 and nothing is going on. -/
structure Minter.LockedOut (m : Minter) : Prop where
  mineflag : m.mineflag = 1
  idle : ∀ i, m.calls i = .idle
  posted : m.posted = 0
  taking : m.taking = false

/-- Only `start` changes anything then. -/
theorem Minter.LockedOut.step {m m' : Minter} {e : MinterEvent} (hm : m.LockedOut)
    (h : m.step e = some m') (hstart : e ≠ .start) : m' = m := by
  obtain ⟨hflag, hidle, hposted, htaking⟩ := hm
  cases e <;> simp_all [Minter.step]

theorem Minter.LockedOut.not_attempts {m : Minter} (hm : m.LockedOut) : ¬ m.Attempts := by
  intro h
  have hload := hm.step (h hm.idle hm.posted hm.taking 0) (by decide)
  have hphase := hm.idle 0
  rw [← hload, Minter.calls_enter, if_pos rfl] at hphase
  cases hphase

/-- After one call whose `Flush` fails the flag is 1 with nobody to clear it, and until the next
`start` nothing can happen. -/
theorem minter_locked_out :
    ∃ m, newMinter.run [.load 0, .store 0, .lock 0, .flushFails 0] = some m ∧
      ¬ m.Accounted ∧ ¬ m.Attempts ∧ ∀ e m', m.step e = some m' → e ≠ .start → m' = m := by
  have hidle : ∀ i, (Minter.enter 0 .idle (Minter.enter 0 .running (Minter.enter 0 .stored
      (Minter.enter 0 .loaded newMinter)))).calls i = .idle := by
    intro i
    simp only [Minter.calls_enter]
    split_ifs <;> rfl
  obtain ⟨m, hrun, hm⟩ : ∃ m, newMinter.run [.load 0, .store 0, .lock 0, .flushFails 0] = some m ∧
      m.LockedOut := ⟨_, rfl, rfl, hidle, rfl, rfl⟩
  exact ⟨m, hrun, fun h => hm.not_attempts h.attempts, hm.not_attempts, fun _ _ => hm.step⟩

end GoPlasma.Deep
