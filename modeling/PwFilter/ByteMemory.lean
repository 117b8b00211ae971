import Mathlib.Data.Nat.Bitwise
import Mathlib.Tactic

/-!
# Bytes in memory

Writing a block of bytes at an offset, numbers as little-endian bytes, and
bits addressed as in a bit array: bit `j` is bit `j % 8` of byte `j / 8`.
-/

namespace ByteMemory

/-! ## Writing blocks -/

variable {α : Type}

def store : List α → ℕ → List α → List α
  | memory, _, [] => memory
  | memory, off, b :: bytes => store (memory.set off b) (off + 1) bytes

@[simp] theorem store_length (memory : List α) (off : ℕ) (bytes : List α) :
    (store memory off bytes).length = memory.length := by
  induction bytes generalizing memory off with
  | nil => rfl
  | cons b bytes ih => rw [store, ih, List.length_set]

theorem store_append
    (memory : List α) (off : ℕ) (left right : List α) :
    store memory off (left ++ right) =
      store (store memory off left) (off + left.length) right := by
  induction left generalizing memory off with
  | nil => rfl
  | cons b left ih =>
      have hoff : off + 1 + left.length = off + (b :: left).length := by
        rw [List.length_cons]
        omega
      rw [List.cons_append, store, ih, store, hoff]

/-- A block that fits replaces the bytes under it and no others. -/
theorem store_eq
    {memory : List α} {off : ℕ} {bytes : List α}
    (hfit : off + bytes.length ≤ memory.length) :
    store memory off bytes =
      memory.take off ++ bytes ++ memory.drop (off + bytes.length) := by
  induction bytes generalizing memory off with
  | nil => simp [store]
  | cons b bytes ih =>
      rw [List.length_cons] at hfit
      have hlt : off < memory.length := by omega
      have hroom : off + 1 + bytes.length ≤ (memory.set off b).length := by
        rw [List.length_set]
        omega
      have hnext := ih hroom
      have htake : (memory.set off b).take (off + 1) =
          memory.take off ++ [b] := by
        rw [List.take_set, List.take_add_one, List.getElem?_eq_getElem hlt,
          List.set_append_right _ _ (by simp)]
        simp [Nat.min_eq_left (Nat.le_of_lt hlt)]
      have hdrop : (memory.set off b).drop (off + 1 + bytes.length) =
          memory.drop (off + (b :: bytes).length) := by
        rw [List.drop_set_of_lt (by omega), List.length_cons]
        congr 1
        omega
      rw [store, hnext, htake, hdrop]
      simp

theorem store_part
    (front old back : List α) (off : ℕ) (bytes : List α)
    (hoff : front.length = off) (hlength : bytes.length = old.length) :
    store (front ++ (old ++ back)) off bytes = front ++ bytes ++ back := by
  have hfit : off + bytes.length ≤ (front ++ (old ++ back)).length := by
    rw [List.length_append, List.length_append]
    omega
  rw [store_eq hfit, ← hoff, hlength, List.take_left, ← List.drop_drop,
    List.drop_left, List.drop_left]

/-! ## Little-endian numbers -/

def leValue : List UInt8 → ℕ
  | [] => 0
  | b :: bytes => b.toNat + 256 * leValue bytes

def leBytes : ℕ → ℕ → List UInt8
  | 0, _ => []
  | w + 1, n => UInt8.ofNat n :: leBytes w (n / 256)

@[simp] theorem leBytes_length (w n : ℕ) : (leBytes w n).length = w := by
  induction w generalizing n with
  | zero => rfl
  | succ w ih => rw [leBytes, List.length_cons, ih]

theorem leValue_leBytes {w n : ℕ} (hn : n < 256 ^ w) :
    leValue (leBytes w n) = n := by
  induction w generalizing n with
  | zero =>
      rw [pow_zero] at hn
      simp only [leBytes, leValue]
      omega
  | succ w ih =>
      have hrest : n / 256 < 256 ^ w := by
        rw [pow_succ] at hn
        omega
      have hlow : (UInt8.ofNat n).toNat = n % 256 := UInt8.toNat_ofNat'
      rw [leBytes, leValue, ih hrest, hlow]
      omega

theorem leBytes_leValue (bytes : List UInt8) :
    leBytes bytes.length (leValue bytes) = bytes := by
  induction bytes with
  | nil => rfl
  | cons b bytes ih =>
      have hb := b.toNat_lt
      have hlow : UInt8.ofNat (b.toNat + 256 * leValue bytes) = b := by
        rw [← UInt8.toNat_inj, UInt8.toNat_ofNat']
        omega
      have hrest : (b.toNat + 256 * leValue bytes) / 256 = leValue bytes := by
        omega
      rw [List.length_cons, leValue, leBytes, hlow, hrest, ih]

theorem shiftRight_and_toUInt8 (x : UInt64) {i : ℕ} (hi : i < 8) :
    ((x >>> (UInt64.ofNat i * 8)) &&& 0xFF).toUInt8 =
      UInt8.ofNat (x.toNat / 256 ^ i) := by
  have hshift : (UInt64.ofNat i * 8).toNat = 8 * i := by
    have height : UInt64.toNat 8 = 8 := rfl
    rw [UInt64.toNat_mul, UInt64.toNat_ofNat', height]
    omega
  have hmask : UInt64.toNat 0xFF = 2 ^ 8 - 1 := rfl
  have hpow : 2 ^ (8 * i) = 256 ^ i := by
    rw [pow_mul]
    norm_num
  have hmod : 8 * i % 64 = 8 * i := Nat.mod_eq_of_lt (by omega)
  rw [← UInt8.toNat_inj, UInt64.toNat_toUInt8, UInt64.toNat_and,
    UInt64.toNat_shiftRight, hshift, hmask, hmod, Nat.shiftRight_eq_div_pow,
    hpow, Nat.and_two_pow_sub_one_eq_mod, Nat.mod_mod, UInt8.toNat_ofNat']

theorem or_shiftLeft_of_lt {x s : ℕ} (hx : x < 2 ^ s) (b : ℕ) :
    x ||| b <<< s = x + 2 ^ s * b := by
  rw [Nat.shiftLeft_eq, Nat.mul_comm b, Nat.or_comm,
    ← Nat.two_pow_add_eq_or_of_lt hx, Nat.add_comm]

theorem and_high_mask {x n w : ℕ} (hx : x < 2 ^ w) (hn : n ≤ w) :
    x &&& (2 ^ w - 2 ^ n) = x / 2 ^ n * 2 ^ n := by
  have hlow : 2 ^ n - 1 < 2 ^ w := by
    have hle := Nat.pow_le_pow_right (show 0 < 2 by norm_num) hn
    have hpos := Nat.two_pow_pos n
    omega
  have hmask : 2 ^ w - 2 ^ n = 2 ^ w - ((2 ^ n - 1) + 1) := by
    have hpos := Nat.two_pow_pos n
    omega
  apply Nat.eq_of_testBit_eq
  intro i
  rw [hmask, Nat.testBit_and, Nat.testBit_two_pow_sub_succ hlow,
    Nat.testBit_two_pow_sub_one, Nat.testBit_mul_two_pow,
    Nat.testBit_div_two_pow]
  by_cases hi : n ≤ i
  · have hsub : i - n + n = i := by omega
    by_cases hw : i < w
    · simp [hi, hw]
    · have hzero : x.testBit i = false :=
        Nat.testBit_lt_two_pow (lt_of_lt_of_le hx
          (Nat.pow_le_pow_right (by norm_num) (by omega)))
      simp [hi, hzero]
  · have hlt : i < n := by omega
    simp [hi, hlt]

/-! ## Addressed bits -/

/-- Bit `j` of a byte array; bits outside it are clear. -/
def bit (bytes : List UInt8) (j : ℕ) : Bool :=
  (bytes.getD (j / 8) 0).toNat.testBit (j % 8)

def mask (j : ℕ) : UInt8 := UInt8.ofNat (2 ^ (j % 8))

def setBit (bytes : List UInt8) (j : ℕ) : List UInt8 :=
  bytes.modify (j / 8) (· ||| mask j)

@[simp] theorem setBit_length (bytes : List UInt8) (j : ℕ) :
    (setBit bytes j).length = bytes.length := by
  simp [setBit]

theorem mask_toNat (j : ℕ) : (mask j).toNat = 2 ^ (j % 8) := by
  have hlt : 2 ^ (j % 8) < 2 ^ 8 :=
    Nat.pow_lt_pow_right (by norm_num) (Nat.mod_lt _ (by norm_num))
  rw [mask, UInt8.toNat_ofNat', Nat.mod_eq_of_lt hlt]

theorem and_mask_eq_zero_iff (b : UInt8) (j : ℕ) :
    b &&& mask j = 0 ↔ b.toNat.testBit (j % 8) = false := by
  have hzero : (0 : UInt8).toNat = 0 := rfl
  rw [← UInt8.toNat_inj, UInt8.toNat_and, mask_toNat, hzero,
    Nat.and_comm, Nat.two_pow_and]
  cases b.toNat.testBit (j % 8) with
  | true => simp
  | false => simp

theorem testBit_or_mask (b : UInt8) (i j : ℕ) :
    (b ||| mask j).toNat.testBit i = (b.toNat.testBit i || decide (j % 8 = i)) := by
  rw [UInt8.toNat_or, mask_toNat, Nat.testBit_or, Nat.testBit_two_pow]

theorem bit_setBit
    {bytes : List UInt8} {j : ℕ} (hj : j < 8 * bytes.length) (i : ℕ) :
    bit (setBit bytes j) i = (bit bytes i || decide (i = j)) := by
  have hlt : j / 8 < bytes.length := by omega
  unfold bit setBit
  rw [List.getD_eq_getElem?_getD, List.getD_eq_getElem?_getD,
    List.getElem?_modify]
  by_cases hbyte : j / 8 = i / 8
  · have hget : bytes[i / 8]? = some bytes[i / 8] :=
      List.getElem?_eq_getElem (by omega)
    have hsame : (j % 8 = i % 8) ↔ i = j := by omega
    rw [hget]
    simp only [hbyte, if_true, Option.map_eq_map, Option.map_some,
      Option.getD_some, testBit_or_mask, hsame]
  · have hne : ¬ i = j := by
      intro h
      exact hbyte (by rw [h])
    simp [hbyte, hne]

theorem bit_replicate_zero (n j : ℕ) : bit (List.replicate n 0) j = false := by
  unfold bit
  rw [List.getD_eq_getElem?_getD, List.getElem?_replicate]
  split
  · simp
  · simp

theorem ext_bit
    {bytes bytes' : List UInt8} (hlength : bytes.length = bytes'.length)
    (hbit : ∀ j, bit bytes j = bit bytes' j) : bytes = bytes' := by
  apply List.ext_getElem hlength
  intro i hi hi'
  rw [← UInt8.toNat_inj]
  apply Nat.eq_of_testBit_eq
  intro b
  by_cases hb : b < 8
  · have hindex : (8 * i + b) / 8 = i := by omega
    have hlow : (8 * i + b) % 8 = b := by omega
    have h := hbit (8 * i + b)
    simp only [bit, hindex, hlow, List.getD_eq_getElem?_getD,
      List.getElem?_eq_getElem hi, List.getElem?_eq_getElem hi',
      Option.getD_some] at h
    exact h
  · have hwide : ∀ x : UInt8, x.toNat.testBit b = false := fun x =>
      Nat.testBit_lt_two_pow (lt_of_lt_of_le x.toNat_lt
        (Nat.pow_le_pow_right (by norm_num) (by omega)))
    rw [hwide, hwide]

end ByteMemory
