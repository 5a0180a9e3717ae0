import CIS415.P1FxnsNumber
import Mathlib.Algebra.Order.Ring.Rat
import Mathlib.Tactic.Ring

/-!
# The elapsed time that thv1.c, thv2.c and thv3.c report

The seconds are the elapsed microseconds over a million. The milliseconds are what is left of the elapsed
milliseconds after an `int` product that wraps around in a long run; the narrowing assignment wraps
around by the same amount.
-/

namespace CIS415.Thv

open P1Fxns Decimal

structure Timeval where
  tv_sec : Int64
  tv_usec : Int64
  usec_range : 0 ≤ tv_usec.toInt ∧ tv_usec.toInt < 1000000

def Timeval.micros (t : Timeval) : ℤ :=
  t.tv_sec.toInt * 1000000 + t.tv_usec.toInt

/-- The difference of the two times, which `main` computes in `long`. -/
def elapsed (start stop : Timeval) : Int64 :=
  (stop.tv_sec - start.tv_sec) * 1000000 + stop.tv_usec - start.tv_usec

def perLeft (start stop : Timeval) : Int32 :=
  (elapsed start stop / 1000000).toInt32

def perRight (start stop : Timeval) : Int32 :=
  (elapsed start stop / 1000 - (perLeft start stop * 1000).toInt64).toInt32

def padding (perRight : Int32) : List UInt8 :=
  if perRight < 100 then zero :: if perRight < 10 then [zero] else [] else []

def msSize : ℕ := 10

def secText : List UInt8 := [115, 101, 99, 10]

/-- What is printed after `processors is: `. -/
def printElapsed (start stop : Timeval) : Option (List UInt8) := do
  let left ← p1putint (perLeft start stop).toInt
  let ms ← p1itoa (perRight start stop).toInt
  if ms.length + 1 ≤ msSize then
    some (left ++ point :: (padding (perRight start stop) ++ ms) ++ secText)
  else none

variable {start stop : Timeval} {d : ℕ}

theorem toInt_elapsed (hd : stop.micros - start.micros = d) (hfits : d / 1000000 < 2 ^ 31) :
    (elapsed start stop).toInt = d := by
  have hmod : (elapsed start stop).toInt = (stop.micros - start.micros).bmod (2 ^ 64) := by
    have hfactor : (1000000 : Int64).toInt = 1000000 := by decide
    simp only [elapsed, Int64.toInt_sub, Int64.toInt_add, Int64.toInt_mul, hfactor,
      Int.bmod_mul_bmod, Int.bmod_add_bmod, Int.bmod_sub_bmod]
    congr 1
    unfold Timeval.micros
    omega
  rw [hmod, hd]
  apply Int.bmod_eq_of_le <;> omega

theorem toInt_perLeft (hd : stop.micros - start.micros = d) (hfits : d / 1000000 < 2 ^ 31) :
    (perLeft start stop).toInt = (d / 1000000 : ℕ) := by
  have hquot : (elapsed start stop / 1000000).toInt = (d / 1000000 : ℕ) := by
    rw [Int64.toInt_div_of_ne_right _ _ (by decide), toInt_elapsed hd hfits]
    exact Int.ofNat_tdiv d 1000000
  rw [perLeft, Int64.toInt_toInt32, hquot]
  apply Int.bmod_eq_of_le <;> omega

theorem toInt_perRight (hd : stop.micros - start.micros = d) (hfits : d / 1000000 < 2 ^ 31) :
    (perRight start stop).toInt = (d / 1000 % 1000 : ℕ) := by
  have hquot : (elapsed start stop / 1000).toInt = (d / 1000 : ℕ) := by
    rw [Int64.toInt_div_of_ne_right _ _ (by decide), toInt_elapsed hd hfits]
    exact Int.ofNat_tdiv d 1000
  have hprod : (perLeft start stop * 1000).toInt64.toInt =
      (((d / 1000000 : ℕ) : ℤ) * 1000).bmod (2 ^ 32) := by
    rw [Int32.toInt_toInt64, Int32.toInt_mul, toInt_perLeft hd hfits]
    rfl
  -- The product is taken modulo 2^32, and so is the difference that it is subtracted in.
  rw [perRight, Int64.toInt_toInt32, Int64.toInt_sub, hquot, hprod,
    Int.bmod_bmod_of_dvd (show 2 ^ 32 ∣ 2 ^ 64 by decide), Int.sub_bmod_bmod]
  have hsplit : ((d / 1000 : ℕ) : ℤ) - ((d / 1000000 : ℕ) : ℤ) * 1000 = (d / 1000 % 1000 : ℕ) := by
    omega
  rw [hsplit]
  apply Int.bmod_eq_of_le <;> omega

theorem padding_eq {r : Int32} {n : ℕ} (hr : r.toInt = n) (hn : n < 1000) :
    padding r = List.replicate (3 - (text n).length) zero := by
  have hpos := length_text_pos n
  have hone := length_text_le_iff (n := n) (k := 1) (by decide)
  have htwo := length_text_le_iff (n := n) (k := 2) (by decide)
  have hthree := (length_text_le_iff (n := n) (k := 3) (by decide)).mpr hn
  have hhundred : r < 100 ↔ n < 10 ^ 2 := by
    rw [Int32.lt_iff_toInt_lt, hr]
    exact Nat.cast_lt
  have hten : r < 10 ↔ n < 10 ^ 1 := by
    rw [Int32.lt_iff_toInt_lt, hr]
    exact Nat.cast_lt
  unfold padding
  by_cases h100 : r < 100
  · by_cases h10 : r < 10
    · have hlength : (text n).length = 1 := by
        have hle := hone.mpr (hten.mp h10)
        omega
      rw [if_pos h100, if_pos h10, hlength]
      rfl
    · have hlength : (text n).length = 2 := by
        have hle := htwo.mpr (hhundred.mp h100)
        have hgt : ¬ (text n).length ≤ 1 := fun h => h10 (hten.mpr (hone.mp h))
        omega
      rw [if_pos h100, if_neg h10, hlength]
      rfl
  · have hlength : (text n).length = 3 := by
      have hgt : ¬ (text n).length ≤ 2 := fun h => h100 (hhundred.mpr (htwo.mp h))
      omega
    rw [if_neg h100, hlength]
    rfl

theorem printElapsed_eq (hd : stop.micros - start.micros = d) (hfits : d / 1000000 < 2 ^ 31) :
    ∃ frac, printElapsed start stop = some (text (d / 1000000) ++ point :: frac ++ secText) ∧
      frac.length = 3 ∧ (∀ b ∈ frac, isDigit b) ∧ value frac = d / 1000 % 1000 := by
  have hmilli : d / 1000 % 1000 < 1000 := Nat.mod_lt _ (by decide)
  have hlength := (length_text_le_iff (n := d / 1000 % 1000) (k := 3) (by decide)).mpr hmilli
  have hpadding := padding_eq (toInt_perRight hd hfits) hmilli
  have hleft : p1putint (perLeft start stop).toInt = some (text (d / 1000000)) := by
    rw [toInt_perLeft hd hfits]
    exact p1putint_nat hfits
  have hms : p1itoa (perRight start stop).toInt = some (text (d / 1000 % 1000)) := by
    rw [toInt_perRight hd hfits]
    exact p1itoa_nat (hmilli.trans (by decide))
  have hroom : (text (d / 1000 % 1000)).length + 1 ≤ msSize :=
    Nat.succ_le_succ (hlength.trans (by decide))
  refine ⟨padding (perRight start stop) ++ text (d / 1000 % 1000), ?_, ?_, ?_, ?_⟩
  · rw [printElapsed, hleft, hms]
    simp only [Option.bind_eq_bind, Option.bind_some, if_pos hroom]
  · rw [hpadding, List.length_append, List.length_replicate]
    omega
  · intro b hb
    rw [hpadding] at hb
    rcases List.mem_append.mp hb with hzero | htext
    · rw [List.eq_of_mem_replicate hzero]
      decide
    · exact isDigit_of_mem_text htext
  · rw [hpadding, value_replicate_zero, value_text]

/-- For times whose difference in whole seconds fits in an `int`, the report is the whole seconds, a point
and three digits, and its value is the elapsed milliseconds, rounded down, over a thousand. -/
theorem printElapsed_spec (start stop : Timeval) (hle : start.micros ≤ stop.micros)
    (hfits : (stop.micros - start.micros) / 1000000 < 2 ^ 31) :
    ∃ whole frac, printElapsed start stop = some (whole ++ point :: frac ++ secText) ∧
      whole = canonical ((stop.micros - start.micros) / 1000000) ∧
      frac.length = 3 ∧ (∀ b ∈ frac, isDigit b) ∧
      pointed whole frac = ((stop.micros - start.micros) / 1000 : ℤ) / 1000 := by
  obtain ⟨d, hd⟩ := Int.eq_ofNat_of_zero_le (Int.sub_nonneg_of_le hle)
  rw [hd] at hfits ⊢
  have hseconds : d / 1000000 < 2 ^ 31 := by omega
  obtain ⟨frac, hprint, hlength, hdigits, hvalue⟩ := printElapsed_eq hd hseconds
  refine ⟨text (d / 1000000), frac, hprint, ?_, hlength, hdigits, ?_⟩
  · exact (canonical_nat _).symm
  · have hmilli : (d : ℤ) / 1000 = 1000 * (d / 1000000 : ℕ) + (d / 1000 % 1000 : ℕ) := by omega
    have hthousand : ((1000 : ℤ) : ℚ) = 1000 := rfl
    rw [pointed, value_text, hvalue, hlength, hmilli, Int.cast_add, Int.cast_mul, Int.cast_natCast,
      Int.cast_natCast, hthousand]
    ring

def launched : Timeval := ⟨1000, 999000, by decide⟩

def finished : Timeval := ⟨3001001, 6000, by decide⟩

theorem printElapsed_spec_long :
    ∃ whole frac, printElapsed launched finished = some (whole ++ point :: frac ++ secText) ∧
      whole = canonical ((finished.micros - launched.micros) / 1000000) ∧
      frac.length = 3 ∧ (∀ b ∈ frac, isDigit b) ∧
      pointed whole frac = ((finished.micros - launched.micros) / 1000 : ℤ) / 1000 :=
  printElapsed_spec launched finished (by decide) (by decide)

/-- The product wraps around here, and the text is 3000000.007. -/
example : printElapsed launched finished =
    some ([51, 48, 48, 48, 48, 48, 48, 46, 48, 48, 55] ++ secText) := by
  decide

end CIS415.Thv
