import GoPlasma.Lib.Bytes

/-!
# Go values and run-time panics

What the modelled packages share: the outcomes of a Go call that can panic, 32-byte hashes
(`common.Hash`), and the big-endian encoding of a `uint64` (`deep/util.go`, `smt/utils.go`).

`Keccak256` stays a parameter of everything below: the development uses no property of it
except the ones a theorem names.
-/

namespace GoPlasma

/-- The run-time panics that the modelled code can reach. -/
inductive Panic where
  | indexOutOfRange
  | nilDereference
  | stackOverflow
deriving DecidableEq, Repr

/-- A call that returns a value or panics. -/
abbrev Go (α : Type) := Except Panic α

theorem toOption_map_eq_some {α β : Type} {x : Go α} {f : α → β} {b : β} :
    x.toOption.map f = some b ↔ ∃ a, x = .ok a ∧ f a = b := by
  cases x <;> simp [Except.toOption]

/-- A call that returns after another one. -/
theorem bind_eq_ok {α β : Type} {x : Go α} {f : α → Go β} {b : β} :
    x >>= f = .ok b ↔ ∃ a, x = .ok a ∧ f a = .ok b := by
  rcases x with p | a
  · simp [bind, Except.bind]
  · simp [bind, Except.bind]

/-- What every step of a loop keeps holds after the loop. -/
theorem foldlM_invariant {α β : Type} {f : β → α → Go β} {P : β → Prop}
    (hstep : ∀ b a b', P b → f b a = .ok b' → P b') {l : List α} {b b' : β} (hb : P b)
    (h : l.foldlM f b = .ok b') : P b' := by
  induction l generalizing b with
  | nil =>
    rw [← Except.ok.inj h]
    exact hb
  | cons a l ih =>
    rw [List.foldlM_cons, bind_eq_ok] at h
    obtain ⟨b₁, h₁, h⟩ := h
    exact ih (hstep b a b₁ hb h₁) h

/-- A loop whose steps all return, from a state in which the elements before have been visited. -/
theorem foldlM_returns {α β : Type} {f : β → α → Go β} {P : List α → β → Prop} {l : List α}
    (hstep : ∀ done a b, a ∈ l → P done b → ∃ b', f b a = .ok b' ∧ P (done ++ [a]) b') {b : β}
    (hb : P [] b) : ∃ b', l.foldlM f b = .ok b' ∧ P l b' := by
  have hall : ∀ rest done b, (∀ a ∈ rest, a ∈ l) → P done b →
      ∃ b', rest.foldlM f b = .ok b' ∧ P (done ++ rest) b' := by
    intro rest
    induction rest with
    | nil =>
      intro done b _ hb
      rw [List.append_nil]
      exact ⟨b, rfl, hb⟩
    | cons a rest ih =>
      intro done b hmem hb
      obtain ⟨b₁, h₁, hb₁⟩ := hstep done a b (hmem a List.mem_cons_self) hb
      obtain ⟨b', h', hb'⟩ := ih _ b₁ (fun x hx => hmem x (List.mem_cons_of_mem _ hx)) hb₁
      rw [List.append_assoc, List.singleton_append] at hb'
      exact ⟨b', by rw [List.foldlM_cons, bind_eq_ok]; exact ⟨b₁, h₁, h'⟩, hb'⟩
  exact hall l [] b (fun _ h => h) hb

/-- A loop that returns has visited every element. -/
theorem foldlM_visits {α β : Type} {f : β → α → Go β} {l : List α} {b b' : β}
    (h : l.foldlM f b = .ok b') {a : α} (ha : a ∈ l) : ∃ b₁ b₂, f b₁ a = .ok b₂ := by
  induction l generalizing b with
  | nil => cases ha
  | cons x l ih =>
    rw [List.foldlM_cons, bind_eq_ok] at h
    obtain ⟨b₁, h₁, h⟩ := h
    rcases List.mem_cons.mp ha with rfl | ha
    · exact ⟨b, b₁, h₁⟩
    · exact ih h ha

/-- What a call returns if there is no error. -/
def returned {α : Type} : Go (Except String α) → Option α
  | .ok (.ok a) => some a
  | _ => none

theorem returned_eq_some {α : Type} {x : Go (Except String α)} {a : α} :
    returned x = some a ↔ x = .ok (.ok a) := by
  rcases x with p | e | b
  · simp [returned]
  · simp [returned]
  · simp [returned]

/-- A `common.Hash`: 32 bytes. -/
abbrev Hash := {b : Bytes // b.length = 32}

/-- The zero hash. -/
def zeroHash : Hash := ⟨Bytes.zeros 32, Bytes.length_zeros 32⟩

instance : Inhabited Hash := ⟨zeroHash⟩

/-- `common.BytesToHash`: the last 32 bytes, zero-extended on the left. -/
def bytesToHash (b : Bytes) : Hash :=
  ⟨Bytes.zeros (32 - b.length) ++ b.drop (b.length - 32), by
    simp only [List.length_append, Bytes.length_zeros, List.length_drop]; omega⟩

theorem bytesToHash_of_length {b : Bytes} (h : b.length = 32) : (bytesToHash b).1 = b := by
  simp [bytesToHash, h, Bytes.zeros]

/-! ## `uint64` in bytes -/

/-- `deep.UInt64ToByte`, `smt.UIntToByte`. -/
def uInt64ToByte (i : UInt64) : Bytes := Bytes.toBE 8 i.toNat

/-- `deep.BytesToUint64`: the number in the first eight bytes. -/
def bytesToUint64 (b : Bytes) : UInt64 := UInt64.ofNat (Bytes.ofBE (b.take 8))

@[simp] theorem length_uInt64ToByte (i : UInt64) : (uInt64ToByte i).length = 8 :=
  Bytes.length_toBE 8 _

@[simp] theorem bytesToUint64_uInt64ToByte (i : UInt64) : bytesToUint64 (uInt64ToByte i) = i := by
  have hi : i.toNat < 256 ^ 8 := i.toNat_lt
  rw [bytesToUint64, List.take_of_length_le (by simp), uInt64ToByte, Bytes.ofBE_toBE_of_lt hi,
    UInt64.ofNat_toNat]

/-! ## Running a call for every slot of an array -/

/-- Run `f` for every index in order; the first panic stops the loop. -/
def collect {α : Type} : {n : ℕ} → (Fin n → Go α) → Go (Fin n → α)
  | 0, _ => .ok Fin.elim0
  | _ + 1, f => do
      let a ← f 0
      let rest ← collect fun i => f i.succ
      .ok (Fin.cons a rest)

theorem collect_eq_ok {α : Type} {n : ℕ} {f : Fin n → Go α} {g : Fin n → α} :
    collect f = .ok g ↔ ∀ i, f i = .ok (g i) := by
  induction n with
  | zero => simp [collect, Subsingleton.elim Fin.elim0 g]
  | succ n ih =>
    rw [collect, Fin.forall_fin_succ]
    -- the first error stops the loop, so the rest counts only after an `ok`
    cases h0 : f 0 with
    | error e => simp [bind, Except.bind]
    | ok a =>
      cases hr : collect (fun i => f i.succ) with
      | error e =>
        simp only [bind, Except.bind, reduceCtorEq, false_iff, not_and]
        intro _ hall
        rw [ih.mpr hall] at hr
        cases hr
      | ok rest =>
        have hrest := ih.mp hr
        simp only [bind, Except.bind, Except.ok.injEq]
        constructor
        · rintro rfl
          exact ⟨by simp, fun i => by simpa using hrest i⟩
        · rintro ⟨rfl, hall⟩
          have : rest = fun i => g i.succ :=
            funext fun i => Except.ok.inj ((hrest i).symm.trans (hall i))
          rw [this]
          exact Fin.cons_self_tail g

end GoPlasma
