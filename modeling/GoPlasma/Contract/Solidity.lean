import GoPlasma.Plasma.Transaction

/-!
# Solidity calls

What the contracts share: how a call fails, the checked arithmetic of `SafeMath.sol`, the words
that the EVM reads from memory, and the primitives of the EVM that stay parameters. A call that
fails undoes everything it did. Gas is not modelled.
-/

namespace GoPlasma.Contract

open Plasma (Address)

/-- How a call fails. -/
inductive Revert where
  /-- A `require` with its message. -/
  | require (message : String)
  /-- A `require` without a message, or `revert()`. -/
  | revert
  /-- An array index out of range. -/
  | invalid
  /-- A `transfer` that the recipient does not accept, or that the balance does not cover. -/
  | transfer
deriving DecidableEq, Repr

/-- A call that returns a value or fails. -/
abbrev Sol (α : Type) := Except Revert α

/-- `require(c)` -/
def require (c : Prop) [Decidable c] : Sol Unit := if c then .ok () else .error .revert

/-- `require(c, message)` -/
def requireMsg (c : Prop) [Decidable c] (message : String) : Sol Unit :=
  if c then .ok () else .error (.require message)

section
variable {c : Prop} [Decidable c] {α : Type}

theorem require_eq_ok {u : Unit} : require c = .ok u ↔ c := by
  unfold require
  split_ifs with h
  · simp [h]
  · simp [h]

/-- A call that is seen to succeed has a result. -/
theorem exists_of_isOk {x : Sol α} (h : x.isOk = true) : ∃ a, x = .ok a := by
  cases x with
  | ok a => exact ⟨a, rfl⟩
  | error e => cases h

theorem requireMsg_eq_ok {message : String} {u : Unit} : requireMsg c message = .ok u ↔ c := by
  unfold requireMsg
  split_ifs with h
  · simp [h]
  · simp [h]

theorem ok_bind {β : Type} (a : α) (f : α → Sol β) : (Except.ok a >>= f) = f a := rfl

/-- A call that goes on after a first part. -/
theorem bind_eq_ok {β : Type} {x : Sol α} {f : α → Sol β} {b : β} :
    (x >>= f) = .ok b ↔ ∃ a, x = .ok a ∧ f a = .ok b := by
  rcases x with e | a
  · simp [bind, Except.bind]
  · simp [bind, Except.bind]

theorem require_bind_eq_ok {f : Unit → Sol α} {a : α} :
    (require c >>= f) = .ok a ↔ c ∧ f () = .ok a := by
  rw [bind_eq_ok]
  exact ⟨fun ⟨_, hc, h⟩ => ⟨require_eq_ok.mp hc, h⟩, fun ⟨hc, h⟩ => ⟨(), require_eq_ok.mpr hc, h⟩⟩

theorem require_bind_of_not {f : Unit → Sol α} (h : ¬ c) :
    (require c >>= f) = .error .revert := by
  rw [require, if_neg h]
  rfl

theorem requireMsg_bind_eq_ok {message : String} {f : Unit → Sol α} {a : α} :
    (requireMsg c message >>= f) = .ok a ↔ c ∧ f () = .ok a := by
  rw [bind_eq_ok]
  exact ⟨fun ⟨_, hc, h⟩ => ⟨requireMsg_eq_ok.mp hc, h⟩,
    fun ⟨hc, h⟩ => ⟨(), requireMsg_eq_ok.mpr hc, h⟩⟩

/-- `require(x, message)` for a call `x` that answers with a flag. -/
theorem checked_bind_eq_ok {x : Sol Bool} {message : String} {f : Sol α} {a : α} :
    (x >>= fun ok => requireMsg (ok = true) message >>= fun _ => f) = .ok a
      ↔ x = .ok true ∧ f = .ok a := by
  rw [bind_eq_ok]
  constructor
  · rintro ⟨ok, hx, h⟩
    obtain ⟨hok, h⟩ := requireMsg_bind_eq_ok.mp h
    exact ⟨by rw [hx, hok], h⟩
  · rintro ⟨hx, h⟩
    exact ⟨true, hx, requireMsg_bind_eq_ok.mpr ⟨rfl, h⟩⟩

end

/-! ## `SafeMath.sol` -/

/-- `uint64Sub` -/
def uint64Sub (a b : UInt64) : Sol UInt64 := do
  require (b ≤ a)
  .ok (a - b)

/-- `uint64Add` -/
def uint64Add (a b : UInt64) : Sol UInt64 := do
  let c := a + b
  require (a ≤ c)
  .ok c

theorem uint64Sub_eq_ok {a b c : UInt64} : uint64Sub a b = .ok c ↔ b ≤ a ∧ a - b = c := by
  rw [uint64Sub, require_bind_eq_ok]
  simp

/-! ## Byte arrays in memory -/

/-- Bytes by their offset from the start of a byte array. -/
abbrev Memory := ℕ → UInt8

/-- A byte array, and whatever the memory holds behind it. -/
def memoryOf (data : Bytes) (behind : Memory) : Memory := fun i =>
  if h : i < data.length then data.get ⟨i, h⟩ else behind (i - data.length)

/-- The `n` bytes at an offset. -/
def Memory.read (mem : Memory) (offset n : ℕ) : Bytes :=
  (List.range n).map fun i => mem (offset + i)

@[simp] theorem Memory.length_read (mem : Memory) (offset n : ℕ) :
    (mem.read offset n).length = n := by
  simp [Memory.read]

/-- The top `n` bytes of the word at an offset, as a number. -/
def Memory.number (mem : Memory) (offset n : ℕ) : ℕ := Bytes.ofBE (mem.read offset n)

/-- A read inside the byte array. -/
theorem read_memoryOf {data : Bytes} {behind : Memory} {offset n : ℕ}
    (h : offset + n ≤ data.length) :
    (memoryOf data behind).read offset n = Bytes.slice data offset n := by
  apply List.ext_getElem
  · rw [Memory.length_read, Bytes.length_slice h]
  · intro i hi _
    rw [Memory.length_read] at hi
    have hlt : offset + i < data.length := by omega
    simp [Memory.read, memoryOf, Bytes.slice, hlt]

/-! ## The EVM -/

/-- The primitives of the EVM that the contracts use. The precompile `ecrecover` answers with the
zero address where there is no signer. -/
structure Evm where
  keccak : Bytes → Hash
  ecrecover : Hash → UInt8 → Hash → Hash → Address

/-- A `bytes32` read from bytes. -/
def bytes32 (b : Bytes) : Hash := ⟨Bytes.fit 32 b, Bytes.length_fit 32 b⟩

/-- `uint64(uint256(h) % 2**64)` -/
def lowWord (h : Hash) : UInt64 := UInt64.ofNat (Bytes.ofBE h.1)

end GoPlasma.Contract
