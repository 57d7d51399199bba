import Mathlib.Tactic
import Mathlib.Data.List.OfFn

/-!
# Byte strings

Byte strings as lists of `UInt8`, with the three operations a fixed binary record layout is
read and written with: the big-endian digits of a number (`toBE`, `ofBE`), the window of a
string (`slice`), and what copying a string into a zeroed slot leaves there (`fit`).

The last section is about records: `n` rows of `w` bytes each, laid out one after the other,
give back row `j` at offset `j * w` (`slice_rows`).
-/

/-- A byte string. -/
abbrev Bytes := List UInt8

namespace Bytes

/-! ## Zeroed slots -/

/-- `n` zero bytes. -/
def zeros (n : ℕ) : Bytes := List.replicate n 0

@[simp] theorem length_zeros (n : ℕ) : (zeros n).length = n := List.length_replicate

/-- What a zeroed slot of `n` bytes holds after `b` has been copied into it. -/
def fit (n : ℕ) (b : Bytes) : Bytes := b.take n ++ zeros (n - b.length)

@[simp] theorem length_fit (n : ℕ) (b : Bytes) : (fit n b).length = n := by
  simp only [fit, List.length_append, List.length_take, length_zeros]
  omega

/-- A string of the slot's own length fills it. -/
theorem fit_of_length {n : ℕ} {b : Bytes} (h : b.length = n) : fit n b = b := by
  rw [fit, List.take_of_length_le (by omega), h, Nat.sub_self]
  simp [zeros]

/-! ## Windows -/

/-- The `n` bytes at offset `i`. -/
def slice (b : Bytes) (i n : ℕ) : Bytes := (b.drop i).take n

theorem length_slice {b : Bytes} {i n : ℕ} (h : i + n ≤ b.length) : (slice b i n).length = n := by
  simp only [slice, List.length_take, List.length_drop]
  omega

theorem slice_zero_self (b : Bytes) : slice b 0 b.length = b := by simp [slice]

/-- A window inside the first of two strings does not see the second. -/
theorem slice_append_left {a b : Bytes} {i n : ℕ} (h : i + n ≤ a.length) :
    slice (a ++ b) i n = slice a i n := by
  rw [slice, slice, List.drop_append_of_le_length (by omega),
    List.take_append_of_le_length (by simp only [List.length_drop]; omega)]

/-- A window behind the first of two strings is a window of the second. -/
theorem slice_append_right {a b : Bytes} {i n : ℕ} :
    slice (a ++ b) (a.length + i) n = slice b i n := by
  rw [slice, slice, List.drop_append, List.drop_of_length_le (by omega), List.nil_append]
  congr 2
  omega

/-- The field `f` of a record, behind the fields `a`. -/
theorem slice_field {a f b : Bytes} {i n : ℕ} (ha : a.length = i) (hf : f.length = n) :
    slice (a ++ (f ++ b)) i n = f := by
  have h := slice_append_right (a := a) (b := f ++ b) (i := 0) (n := n)
  rw [Nat.add_zero, ha] at h
  rw [h, slice_append_left (by omega), ← hf, slice_zero_self]

/-! ## Big-endian numbers -/

/-- The number a byte string denotes, most significant byte first. -/
def ofBE (b : Bytes) : ℕ := b.foldl (fun acc c => acc * 256 + c.toNat) 0

/-- The `n` low bytes of `x`, most significant byte first. -/
def toBE : ℕ → ℕ → Bytes
  | 0, _ => []
  | n + 1, x => toBE n (x / 256) ++ [UInt8.ofNat x]

@[simp] theorem length_toBE (n x : ℕ) : (toBE n x).length = n := by
  induction n generalizing x with
  | zero => rfl
  | succ n ih => simp [toBE, ih]

@[simp] theorem ofBE_nil : ofBE [] = 0 := rfl

theorem ofBE_append_singleton (b : Bytes) (c : UInt8) :
    ofBE (b ++ [c]) = ofBE b * 256 + c.toNat := by
  simp [ofBE, List.foldl_append]

theorem ofBE_append (a b : Bytes) : ofBE (a ++ b) = ofBE a * 256 ^ b.length + ofBE b := by
  induction b using List.reverseRecOn with
  | nil => simp
  | append_singleton b c ih =>
    rw [← List.append_assoc, ofBE_append_singleton, ih, ofBE_append_singleton, List.length_append,
      List.length_singleton, pow_succ]
    ring

theorem ofBE_lt (b : Bytes) : ofBE b < 256 ^ b.length := by
  induction b using List.reverseRecOn with
  | nil => simp
  | append_singleton b c ih =>
    have hc : c.toNat < 256 := c.toNat_lt
    rw [ofBE_append_singleton, List.length_append, List.length_singleton, pow_succ]
    omega

/-- Writing a number down and reading it back keeps its `n` low bytes. -/
theorem ofBE_toBE (n x : ℕ) : ofBE (toBE n x) = x % 256 ^ n := by
  induction n generalizing x with
  | zero => simp [toBE, Nat.mod_one]
  | succ n ih =>
    rw [toBE, ofBE_append_singleton, ih, UInt8.toNat_ofNat', pow_succ' 256 n, Nat.mod_mul]
    omega

theorem ofBE_toBE_of_lt {n x : ℕ} (h : x < 256 ^ n) : ofBE (toBE n x) = x := by
  rw [ofBE_toBE, Nat.mod_eq_of_lt h]

/-- Reading a string and writing it down again gives the string. -/
theorem toBE_ofBE (b : Bytes) : toBE b.length (ofBE b) = b := by
  induction b using List.reverseRecOn with
  | nil => rfl
  | append_singleton b c ih =>
    have hc : c.toNat < 256 := c.toNat_lt
    rw [List.length_append, List.length_singleton, toBE, ofBE_append_singleton]
    have hdiv : (ofBE b * 256 + c.toNat) / 256 = ofBE b := by omega
    have hmod : UInt8.ofNat (ofBE b * 256 + c.toNat) = c := by
      apply UInt8.toNat_inj.mp
      rw [UInt8.toNat_ofNat']
      omega
    rw [hdiv, hmod, ih]

/-- Strings of one length are equal when they denote the same number. -/
theorem ofBE_inj {a b : Bytes} (hl : a.length = b.length) (h : ofBE a = ofBE b) : a = b := by
  rw [← toBE_ofBE a, ← toBE_ofBE b, hl, h]

/-- The `j`-th byte of a string, read off the number it denotes. -/
theorem toNat_getElem (b : Bytes) (j : ℕ) (hj : j < b.length) :
    (b[j]).toNat = ofBE b / 256 ^ (b.length - 1 - j) % 256 := by
  induction b using List.reverseRecOn with
  | nil => simp at hj
  | append_singleton b c ih =>
    have hc : c.toNat < 256 := c.toNat_lt
    rw [List.length_append, List.length_singleton] at hj
    rw [List.getElem_append, ofBE_append_singleton]
    split
    · rename_i h
      rw [ih h, List.length_append, List.length_singleton,
        show b.length + 1 - 1 - j = (b.length - 1 - j) + 1 by omega, pow_succ',
          ← Nat.div_div_eq_div_mul]
      congr 2
      omega
    · rename_i h
      have hj' : j = b.length := by omega
      subst hj'
      simp only [Nat.sub_self, List.getElem_singleton, List.length_append, List.length_singleton]
      rw [show b.length + 1 - 1 - b.length = 0 by omega, pow_zero, Nat.div_one]
      omega

/-! ## Rows of a fixed width -/

/-- Rows laid out one after the other. -/
def rows {n : ℕ} (f : Fin n → Bytes) : Bytes := (List.ofFn f).flatten

theorem rows_succ {n : ℕ} (f : Fin (n + 1) → Bytes) : rows f = f 0 ++ rows (fun i => f i.succ) := by
  simp [rows, List.ofFn_succ]

theorem length_rows {n w : ℕ} {f : Fin n → Bytes} (hf : ∀ i, (f i).length = w) :
    (rows f).length = n * w := by
  induction n with
  | zero => simp [rows]
  | succ n ih =>
    rw [rows_succ, List.length_append, hf 0, ih fun i => hf i.succ]
    ring

/-- A window inside row `j`, found at offset `j * w`. -/
theorem slice_rows {n w : ℕ} {f : Fin n → Bytes} (hf : ∀ i, (f i).length = w) (pad : Bytes)
    (j : Fin n) {o m : ℕ} (h : o + m ≤ w) :
    slice (rows f ++ pad) (j * w + o) m = slice (f j) o m := by
  induction n with
  | zero => exact j.elim0
  | succ n ih =>
    rw [rows_succ, List.append_assoc]
    refine Fin.cases ?_ (fun j => ?_) j
    · simp only [Fin.val_zero, Nat.zero_mul, Nat.zero_add]
      exact slice_append_left (by rw [hf 0]; exact h)
    · have hoff : (j.succ : ℕ) * w + o = (f 0).length + (j * w + o) := by
        rw [hf 0, Fin.val_succ]
        ring
      rw [hoff, slice_append_right]
      exact ih (fun i => hf i.succ) j

/-- Rows of one length, laid out one after the other. -/
theorem length_flatten {w : ℕ} {l : List Bytes} (h : ∀ x ∈ l, x.length = w) :
    l.flatten.length = w * l.length := by
  rw [List.length_flatten, List.map_congr_left h, List.map_const', List.sum_replicate, smul_eq_mul,
    Nat.mul_comm]

/-- Row `k` of a list of rows that are laid out one after the other. -/
theorem slice_flatten {w : ℕ} {l : List Bytes} (hl : ∀ x ∈ l, x.length = w) {k : ℕ} {x : Bytes}
    (hx : l[k]? = some x) : slice l.flatten (k * w) w = x := by
  induction l generalizing k with
  | nil => simp at hx
  | cons y l ih =>
    have hy := hl y List.mem_cons_self
    rw [List.flatten_cons]
    cases k with
    | zero =>
      obtain rfl : y = x := by simpa using hx
      rw [Nat.zero_mul, slice_append_left (by omega), ← hy, slice_zero_self]
    | succ k =>
      rw [Nat.succ_mul, Nat.add_comm, ← hy, slice_append_right, hy]
      exact ih (fun z hz => hl z (List.mem_cons_of_mem _ hz)) (by simpa using hx)

end Bytes
