import GoPlasma.Smt.Tree
import GoPlasma.Lib.Trie

/-!
# Keys as numbers

An 8-byte key is the 64-bit number it denotes: its pieces are the hexadecimal digits of that
number, and the bit that the hashing loops test at height `i` is bit `i` of the number.
-/

namespace GoPlasma.Smt

/-- The number that a key denotes. -/
def num (k : Key) : ℕ := Bytes.ofBE k.1

theorem num_lt (k : Key) : num k < 2 ^ 64 := by
  have h := Bytes.ofBE_lt k.1
  rw [k.2] at h
  exact h

theorem num_inj {k k' : Key} (h : num k = num k') : k = k' := by
  apply Subtype.ext
  exact Bytes.ofBE_inj (k.2.trans k'.2.symm) h

theorem num_keyOf {n : ℕ} (h : n < 2 ^ 64) : num (keyOf n) = n := Bytes.ofBE_toBE_of_lt h

theorem keyOf_num (k : Key) : keyOf (num k) = k := by
  apply num_inj
  rw [num_keyOf (num_lt k)]

theorem num_zeroKey : num zeroKey = 0 := by decide

/-- Every key is below the root. -/
theorem num_div_top (k : Key) : num k / 16 ^ nkeypieces = 0 :=
  Nat.div_eq_of_lt (num_lt k)

/-- Byte `j` of a key. -/
theorem toNat_getD (k : Key) {j : ℕ} (hj : j < 8) :
    (k.1.getD j 0).toNat = num k / 256 ^ (7 - j) % 256 := by
  have hlen : j < k.1.length := by rw [k.2]; exact hj
  rw [List.getD_eq_getElem _ _ hlen, Bytes.toNat_getElem k.1 j hlen, k.2]
  rfl

/-- The pieces of a key are its hexadecimal digits. -/
theorem keypiece_eq_digit (k : Key) {r : ℕ} (hr : r < nkeypieces) :
    keypiece k (nkeypieces - (r + 1)) = Trie.digit r (num k) := by
  unfold nkeypieces at *
  apply Fin.ext
  rw [keypiece, Trie.digit, Fin.val_ofNat]
  rcases Nat.even_or_odd' r with ⟨m, hm | hm⟩
  · -- an odd index: the bottom half of byte `7 - m`
    have hodd : ¬ (16 - (r + 1)) % 2 = 0 := by omega
    have hbyte : (16 - (r + 1)) / 2 = 7 - m := by omega
    have hpow : 256 ^ (7 - (7 - m)) = 16 ^ r := by
      rw [show 7 - (7 - m) = m by omega, hm, pow_mul]
      norm_num
    rw [if_neg hodd, Fin.val_ofNat, hbyte, UInt8.toNat_and, toNat_getD k (by omega), hpow]
    change (_ &&& 2 ^ 4 - 1) % 16 = _
    rw [Nat.and_two_pow_sub_one_eq_mod]
    omega
  · -- an even index: the top half of byte `7 - m`
    have heven : (16 - (r + 1)) % 2 = 0 := by omega
    have hbyte : (16 - (r + 1)) / 2 = 7 - m := by omega
    have hpow : 16 ^ r = 256 ^ (7 - (7 - m)) * 16 := by
      rw [show 7 - (7 - m) = m by omega, hm, pow_succ, pow_mul]
      norm_num
    rw [if_pos heven, Fin.val_ofNat, hbyte, UInt8.toNat_and, UInt8.toNat_shiftRight,
      toNat_getD k (by omega), hpow, ← Nat.div_div_eq_div_mul]
    change (_ >>> 4 &&& 2 ^ 4 - 1) % 16 = _
    rw [Nat.and_two_pow_sub_one_eq_mod, Nat.shiftRight_eq_div_pow]
    omega

/-- Keys agree in their first 15 pieces when their numbers agree but for the last digit. -/
theorem pieces_eq_iff (k k' : Key) :
    (∀ i < nkeypieces - 1, keypiece k i = keypiece k' i) ↔ num k / 16 = num k' / 16 := by
  unfold nkeypieces
  refine ⟨fun h => ?_, fun h i hi => ?_⟩
  · -- put the digits back together, from the top down
    have hdown : ∀ m, m ≤ 15 → num k / 16 ^ (16 - m) = num k' / 16 ^ (16 - m) := by
      intro m hm
      induction m with
      | zero => exact (num_div_top k).trans (num_div_top k').symm
      | succ m ih =>
        have hpiece := h m (by omega)
        have hindex : m = nkeypieces - (15 - m + 1) := by unfold nkeypieces; omega
        rw [hindex, keypiece_eq_digit k (by unfold nkeypieces; omega),
          keypiece_eq_digit k' (by unfold nkeypieces; omega)] at hpiece
        have hup : 15 - m + 1 = 16 - m := by omega
        have hk := Trie.div_pow_eq (b := 16) (r := 15 - m) (k := num k) rfl
        have hk' := Trie.div_pow_eq (b := 16) (r := 15 - m) (k := num k') rfl
        rw [hup] at hk hk'
        rw [show 16 - (m + 1) = 15 - m by omega, hk, hk', ih (by omega), hpiece]
    simpa using hdown 15 le_rfl
  · have hindex : i = nkeypieces - (15 - i + 1) := by unfold nkeypieces; omega
    rw [hindex, keypiece_eq_digit k (by unfold nkeypieces; omega),
      keypiece_eq_digit k' (by unfold nkeypieces; omega), Trie.digit, Trie.digit,
      show 15 - i = (14 - i) + 1 by omega, pow_succ', ← Nat.div_div_eq_div_mul,
      ← Nat.div_div_eq_div_mul, h]

/-- The bits that the hashing loops test are those of the number. -/
theorem keyBit_eq_testBit (k : Key) {i : ℕ} (hi : i < 64) : keyBit k i = (num k).testBit i := by
  have hbyte : (treeDepth - 1 - i) / 8 = 7 - i / 8 := by unfold treeDepth; omega
  have hpow : 256 ^ (7 - (7 - i / 8)) = 2 ^ (8 * (i / 8)) := by
    rw [show 7 - (7 - i / 8) = i / 8 by omega, pow_mul]
    norm_num
  have hone : ((0x01 : UInt8) <<< UInt8.ofNat (i % 8)).toNat = 2 ^ (i % 8) := by
    have hlt : i % 8 < 8 := by omega
    interval_cases i % 8 <;> rfl
  have hbit : (num k / 2 ^ (8 * (i / 8)) % 2 ^ 8).testBit (i % 8) = (num k).testBit i := by
    rw [Nat.testBit_mod_two_pow, Nat.testBit_div_two_pow]
    have hsum : i % 8 + 8 * (i / 8) = i := by omega
    simp [hsum, show i % 8 < 8 by omega]
  rw [keyBit, hbyte, ← hbit]
  have hval : (((0x01 : UInt8) <<< UInt8.ofNat (i % 8)) &&& k.1.getD (7 - i / 8) 0).toNat
      = 2 ^ (i % 8) * ((num k / 2 ^ (8 * (i / 8)) % 2 ^ 8).testBit (i % 8)).toNat := by
    rw [UInt8.toNat_and, hone, toNat_getD k (by omega), hpow, Nat.two_pow_and]
    rfl
  simp only [gt_iff_lt, UInt8.lt_iff_toNat_lt, hval]
  cases (num k / 2 ^ (8 * (i / 8)) % 2 ^ 8).testBit (i % 8) <;> simp

end GoPlasma.Smt
