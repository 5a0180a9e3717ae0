import Mathlib.Data.Nat.Digits.Lemmas
import Mathlib.Data.Rat.Defs

/-!
# Decimal text

The decimal text of a number as bytes, without leading zeros, and the value of a string of digits.
-/

namespace Decimal

def zero : UInt8 := 48

def minus : UInt8 := 45

def isDigit (b : UInt8) : Bool :=
  48 ≤ b ∧ b ≤ 57

def byte (d : ℕ) : UInt8 :=
  (48 + d).toUInt8

def digit (b : UInt8) : ℕ :=
  b.toNat - 48

def text (n : ℕ) : List UInt8 :=
  if n = 0 then [zero] else ((Nat.digits 10 n).map byte).reverse

def canonical (n : ℤ) : List UInt8 :=
  if n < 0 then minus :: text n.natAbs else text n.natAbs

def value (s : List UInt8) : ℕ :=
  s.foldl (fun v b => 10 * v + digit b) 0

/-- A string of digits without its leading zeros; of zeros only, one is left. -/
def strip (s : List UInt8) : List UInt8 :=
  if s.dropWhile (fun b => decide (b = zero)) = [] then [zero]
  else s.dropWhile fun b => decide (b = zero)

def point : UInt8 := 46

/-- The value of `whole`, a point and `frac`. -/
def pointed (whole frac : List UInt8) : ℚ :=
  value whole + value frac / 10 ^ frac.length

variable {b : UInt8} {s t : List UInt8} {n d : ℕ}

theorem isDigit_iff : isDigit b ↔ 48 ≤ b.toNat ∧ b.toNat ≤ 57 := by
  rw [isDigit, decide_eq_true_eq, UInt8.le_iff_toNat_le, UInt8.le_iff_toNat_le]
  rfl

theorem toNat_byte (hd : d < 10) : (byte d).toNat = 48 + d := by
  change (UInt8.ofNat (48 + d)).toNat = 48 + d
  rw [UInt8.toNat_ofNat']
  omega

theorem digit_byte (hd : d < 10) : digit (byte d) = d := by
  rw [digit, toNat_byte hd, Nat.add_sub_cancel_left]

theorem isDigit_byte (hd : d < 10) : isDigit (byte d) := by
  rw [isDigit_iff, toNat_byte hd]
  omega

theorem digit_lt (hb : isDigit b) : digit b < 10 := by
  have hrange := isDigit_iff.mp hb
  unfold digit
  omega

theorem byte_digit (hb : isDigit b) : byte (digit b) = b := by
  have hrange := isDigit_iff.mp hb
  apply UInt8.toNat_inj.mp
  rw [toNat_byte (digit_lt hb), digit]
  omega

theorem digit_eq_zero_iff (hb : isDigit b) : digit b = 0 ↔ b = zero := by
  constructor
  · intro h
    rw [← byte_digit hb, h]
    rfl
  · rintro rfl
    rfl

@[simp] theorem value_nil : value [] = 0 := rfl

theorem value_snoc : value (s ++ [b]) = 10 * value s + digit b := by
  rw [value, List.foldl_append]
  rfl

theorem value_zero_cons : value (zero :: s) = value s := rfl

theorem value_replicate_zero (k : ℕ) : value (List.replicate k zero ++ s) = value s := by
  induction k with
  | zero => rfl
  | succ k ih => rw [List.replicate_succ, List.cons_append, value_zero_cons, ih]

theorem value_eq_ofDigits (s : List UInt8) : value s = Nat.ofDigits 10 (s.reverse.map digit) := by
  induction s using List.reverseRecOn with
  | nil => rfl
  | append_singleton s b ih =>
    rw [value_snoc, ih, List.reverse_append, List.reverse_singleton, List.singleton_append, List.map_cons,
      Nat.ofDigits_cons]
    omega

theorem map_digit_byte {ds : List ℕ} (hds : ∀ d ∈ ds, d < 10) : (ds.map byte).map digit = ds := by
  rw [List.map_map]
  calc
    ds.map (digit ∘ byte) = ds.map id := List.map_congr_left fun d hd => digit_byte (hds d hd)
    _ = ds := List.map_id ds

theorem map_byte_digit (hs : ∀ b ∈ s, isDigit b) : (s.map digit).map byte = s := by
  rw [List.map_map]
  calc
    s.map (byte ∘ digit) = s.map id := List.map_congr_left fun b hb => byte_digit (hs b hb)
    _ = s := List.map_id s

theorem digits_lt (n : ℕ) : ∀ d ∈ Nat.digits 10 n, d < 10 := fun _ hd =>
  Nat.digits_lt_base (by decide) hd

theorem text_of_pos (hn : n ≠ 0) : text n = ((Nat.digits 10 n).map byte).reverse := if_neg hn

theorem value_text (n : ℕ) : value (text n) = n := by
  by_cases hn : n = 0
  · rw [hn]
    rfl
  · rw [text_of_pos hn, value_eq_ofDigits, List.reverse_reverse, map_digit_byte (digits_lt n),
      Nat.ofDigits_digits]

theorem length_text_le_iff {k : ℕ} (hk : k ≠ 0) : (text n).length ≤ k ↔ n < 10 ^ k := by
  by_cases hn : n = 0
  · rw [hn]
    exact iff_of_true (Nat.one_le_iff_ne_zero.mpr hk) (Nat.pow_pos (by decide))
  · rw [text_of_pos hn, List.length_reverse, List.length_map, Nat.digits_length_le_iff (by decide)]

theorem length_text_pos (n : ℕ) : 0 < (text n).length := by
  by_cases hn : n = 0
  · rw [hn]
    exact Nat.one_pos
  · rw [text_of_pos hn, List.length_reverse, List.length_map]
    exact List.length_pos_of_ne_nil (Nat.digits_ne_nil_iff_ne_zero.mpr hn)

theorem isDigit_of_mem_text (hb : b ∈ text n) : isDigit b := by
  by_cases hn : n = 0
  · rw [hn] at hb
    obtain rfl := List.mem_singleton.mp hb
    rfl
  · rw [text_of_pos hn, List.mem_reverse] at hb
    obtain ⟨d, hd, rfl⟩ := List.mem_map.mp hb
    exact isDigit_byte (digits_lt n d hd)

theorem text_value_of_head (hs : ∀ b ∈ s, isDigit b) (hne : s ≠ []) (hhead : s.head hne ≠ zero) :
    text (value s) = s := by
  have hlt : ∀ d ∈ s.reverse.map digit, d < 10 := by
    intro d hd
    obtain ⟨b, hb, rfl⟩ := List.mem_map.mp hd
    exact digit_lt (hs b (List.mem_reverse.mp hb))
  have hlast : ∀ h : s.reverse.map digit ≠ [], (s.reverse.map digit).getLast h ≠ 0 := by
    intro h
    rw [List.getLast_map, List.getLast_reverse]
    intro h0
    exact hhead ((digit_eq_zero_iff (hs _ (List.head_mem hne))).mp h0)
  have hdigits : Nat.digits 10 (value s) = s.reverse.map digit := by
    rw [value_eq_ofDigits]
    exact Nat.digits_ofDigits 10 (by decide) _ hlt hlast
  have hpos : value s ≠ 0 := by
    rw [← Nat.digits_ne_nil_iff_ne_zero, hdigits]
    simpa using hne
  rw [text_of_pos hpos, hdigits, map_byte_digit fun b hb => hs b (List.mem_reverse.mp hb),
    List.reverse_reverse]

theorem value_dropWhile_zero (s : List UInt8) :
    value (s.dropWhile fun b => decide (b = zero)) = value s := by
  induction s with
  | nil => rfl
  | cons b s ih =>
    by_cases hb : b = zero
    · have hdrop : (b :: s).dropWhile (fun b => decide (b = zero)) =
          s.dropWhile fun b => decide (b = zero) := List.dropWhile_cons_of_pos (by simpa using hb)
      rw [hdrop, ih, hb, value_zero_cons]
    · have hdrop : (b :: s).dropWhile (fun b => decide (b = zero)) = b :: s :=
        List.dropWhile_cons_of_neg (by simpa using hb)
      rw [hdrop]

/-- The text of the value of a string of digits. -/
theorem text_value (hs : ∀ b ∈ s, isDigit b) : text (value s) = strip s := by
  unfold strip
  rw [← value_dropWhile_zero s]
  split_ifs with hnil
  · rw [hnil]
    rfl
  · apply text_value_of_head (fun b hb => hs b ((List.dropWhile_sublist _).subset hb)) hnil
    have hhead := List.head_dropWhile_not (fun b => decide (b = zero)) hnil
    simpa using hhead

end Decimal
