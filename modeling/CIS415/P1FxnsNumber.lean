import CIS415.Lib.Decimal
import CIS415.P1Fxns

/-!
# Numbers to text and back

`p1itoa` and `p1putint` run the same digit loop, but only `p1itoa` looks at the sign first. `p1atoi` reads
back what `p1itoa` writes.
-/

namespace CIS415.P1Fxns

open Decimal

variable {n : ℕ} {x : ℤ}

theorem int_of_nat (h : n < 2 ^ 31) : int n = some (n : ℤ) := by
  apply if_pos
  omega

theorem digitAt_nat {d : ℕ} (hd : d < 10) : digitAt d = some (byte d) := by
  rw [digitAt, if_pos (Int.natCast_nonneg d), Int.toNat_natCast]
  interval_cases d <;> rfl

theorem digitLoop_nat {room : ℕ} (h : n < 10 ^ room) :
    digitLoop room n = some ((Nat.digits 10 n).map byte) := by
  induction room generalizing n with
  | zero =>
    obtain rfl : n = 0 := by simpa using h
    rfl
  | succ room ih =>
    by_cases hn : n = 0
    · rw [hn]
      rfl
    · have hdiv : n / 10 < 10 ^ room := by
        rw [Nat.div_lt_iff_lt_mul (by decide)]
        rwa [pow_succ] at h
      have hmod : ((n : ℤ).tmod 10) = ((n % 10 : ℕ) : ℤ) := rfl
      have hquot : ((n : ℤ).tdiv 10) = ((n / 10 : ℕ) : ℤ) := rfl
      rw [digitLoop, if_neg (by exact_mod_cast hn), hmod, hquot, digitAt_nat (Nat.mod_lt n (by decide)),
        ih hdiv, Nat.digits_def' (by decide) (Nat.pos_of_ne_zero hn)]
      rfl

/-- Below zero a remainder is not positive, and the first that is not zero is no index. -/
theorem digitLoop_neg {room : ℕ} (h : x < 0) : digitLoop room x = none := by
  induction room generalizing x with
  | zero => exact if_neg h.ne
  | succ room ih =>
    rw [digitLoop, if_neg h.ne]
    by_cases hmod : 0 ≤ x.tmod 10
    · have heq := Int.mul_tdiv_add_tmod x 10
      have hquot : x.tdiv 10 < 0 := by omega
      rw [ih hquot]
      simp only [Option.bind_eq_bind, Option.bind_none, Option.bind_fun_none]
    · rw [digitAt, if_neg hmod]
      rfl

theorem digitLoop_text (hn : n ≠ 0) (h : n < 2 ^ 31) :
    digitLoop scratchSize n = some (text n).reverse := by
  have hroom : n < 10 ^ scratchSize := h.trans (by decide)
  rw [digitLoop_nat hroom, text_of_pos hn, List.reverse_reverse]

theorem p1putint_nat (h : n < 2 ^ 31) : p1putint n = some (text n) := by
  by_cases hn : n = 0
  · rw [hn]
    rfl
  · rw [p1putint, if_neg (by exact_mod_cast hn), digitLoop_text hn h]
    simp

theorem p1putint_neg (h : x < 0) : p1putint x = none := by
  rw [p1putint, if_neg h.ne, digitLoop_neg h]
  rfl

theorem p1itoa_nat (h : n < 2 ^ 31) : p1itoa n = some (text n) := by
  by_cases hn : n = 0
  · rw [hn]
    rfl
  · have hneg : ¬ (n : ℤ) < 0 := by omega
    rw [p1itoa, if_neg (by exact_mod_cast hn), if_neg hneg, digitLoop_text hn h]
    simp

theorem canonical_nat (n : ℕ) : canonical n = text n := by
  have hneg : ¬ (n : ℤ) < 0 := by omega
  rw [canonical, if_neg hneg, Int.natAbs_natCast]

theorem length_text_le (h : n < 2 ^ 31) : (text n).length ≤ 10 :=
  (length_text_le_iff (by decide)).mpr (h.trans (by decide))

/-- `p1itoa` fails on one number only, whose negative is no `int`. -/
theorem p1itoa_iff (number : Int32) :
    p1itoa number.toInt = some (canonical number.toInt) ↔ number.toInt ≠ -2 ^ 31 := by
  constructor
  · intro h hmin
    rw [hmin] at h
    revert h
    decide
  · intro hmin
    have hle := number.le_toInt
    have hlt := number.toInt_lt
    rcases Int.lt_or_le number.toInt 0 with hneg | hpos
    · obtain ⟨n, hn⟩ := Int.eq_ofNat_of_zero_le (show 0 ≤ -number.toInt by omega)
      have hn0 : n ≠ 0 := by omega
      have hn31 : n < 2 ^ 31 := by omega
      have hsign : putSign (text n).reverse = some ((text n).reverse ++ [minus]) := by
        have hlen := length_text_le hn31
        apply if_pos
        rw [List.length_reverse, scratchSize]
        omega
      have habs : number.toInt.natAbs = n := by omega
      rw [p1itoa, if_neg hneg.ne, if_pos hneg, hn, int_of_nat hn31]
      simp only [Option.bind_eq_bind, Option.bind_some, digitLoop_text hn0 hn31, hsign]
      rw [canonical, if_pos hneg, habs]
      simp
    · obtain ⟨n, hn⟩ := Int.eq_ofNat_of_zero_le hpos
      rw [hn, canonical_nat]
      exact p1itoa_nat (by omega)

/-- Both conversions give the decimal representation, and index nothing out of range, from zero on. -/
theorem itoa_putint_iff (number : Int32) :
    p1itoa number.toInt = some (canonical number.toInt) ∧
      p1putint number.toInt = some (canonical number.toInt) ↔ 0 ≤ number.toInt := by
  constructor
  · rintro ⟨-, hput⟩
    by_contra hneg
    rw [p1putint_neg (not_le.mp hneg)] at hput
    cases hput
  · intro hpos
    obtain ⟨n, hn⟩ := Int.eq_ofNat_of_zero_le hpos
    have hlt : n < 2 ^ 31 := by
      have h := number.toInt_lt
      omega
    rw [hn, canonical_nat]
    exact ⟨p1itoa_nat hlt, p1putint_nat hlt⟩

/-- `p1putint` indexes the table below its start. -/
theorem putint_not_canonical :
    ¬ ∀ number : Int32, p1itoa number.toInt = some (canonical number.toInt) ∧
      p1putint number.toInt = some (canonical number.toInt) := by
  intro h
  have hput := (h (-5)).2
  revert hput
  decide

theorem le_foldl_value (s : List UInt8) (v : ℕ) : v ≤ s.foldl (fun v b => 10 * v + digit b) v := by
  induction s generalizing v with
  | nil => exact Nat.le_refl v
  | cons b s ih =>
    calc
      v ≤ 10 * v + digit b := by omega
      _ ≤ s.foldl (fun v b => 10 * v + digit b) (10 * v + digit b) := ih _

/-- No step overflows when the value of the digits does not. -/
theorem atoiFrom_digits {s : List UInt8} (hs : ∀ b ∈ s, isDigit b) {rest : List UInt8}
    (hrest : ∀ b ∈ rest.head?, ¬ isDigit b) {v : ℕ}
    (h : s.foldl (fun v b => 10 * v + digit b) v < 2 ^ 31) :
    atoiFrom v (s ++ rest) = some ((s.foldl (fun v b => 10 * v + digit b) v : ℕ) : ℤ) := by
  induction s generalizing v with
  | nil =>
    cases rest with
    | nil => rfl
    | cons b rest =>
      have hb : ¬ (48 ≤ b ∧ b ≤ 57) := by simpa [isDigit] using hrest b rfl
      exact if_neg hb
  | cons b s ih =>
    obtain ⟨hb, hs⟩ := List.forall_mem_cons.mp hs
    have hrange := isDigit_iff.mp hb
    rw [List.foldl_cons] at h ⊢
    have hle := le_foldl_value s (10 * v + digit b)
    have htens : int (10 * (v : ℤ)) = some ((10 * v : ℕ) : ℤ) := by
      rw [← int_of_nat (n := 10 * v) (by omega)]
      push_cast
      rfl
    have hsum : ((10 * v : ℕ) : ℤ) + ((b.toNat : ℤ) - 48) = ((10 * v + digit b : ℕ) : ℤ) := by
      unfold digit
      omega
    rw [List.cons_append, atoiFrom, if_pos (of_decide_eq_true hb), htens]
    simp only [Option.bind_eq_bind, Option.bind_some, hsum, int_of_nat (n := 10 * v + digit b) (by omega)]
    exact ih hs h

theorem p1atoi_value {s : CString} {ds rest : List UInt8} (hs : s.bytes = ds ++ rest)
    (hds : ∀ b ∈ ds, isDigit b) (hrest : ∀ b ∈ rest.head?, ¬ isDigit b) (h : value ds < 2 ^ 31) :
    p1atoi s = some (value ds : ℤ) := by
  rw [p1atoi, hs]
  exact atoiFrom_digits (v := 0) hds hrest h

/-- `p1atoi` reads what `p1itoa` wrote, after any zeros and up to a byte that is no digit, and `p1itoa`
writes what `p1atoi` read, without its leading zeros. -/
theorem atoi_itoa_inverse :
    (∀ number : Int32, 0 ≤ number.toInt → ∃ t, p1itoa number.toInt = some t ∧
      ∀ (k : ℕ) (suffix : List UInt8), (∀ b ∈ suffix.head?, ¬ isDigit b) → ∀ s : CString,
        s.bytes = List.replicate k zero ++ t ++ suffix → p1atoi s = some number.toInt) ∧
    ∀ s : CString, (∀ b ∈ s.bytes, isDigit b) → value s.bytes < 2 ^ 31 →
      ∃ v, p1atoi s = some v ∧ p1itoa v = some (strip s.bytes) := by
  constructor
  · intro number hpos
    obtain ⟨n, hn⟩ := Int.eq_ofNat_of_zero_le hpos
    have hlt : n < 2 ^ 31 := by
      have h := number.toInt_lt
      omega
    rw [hn]
    refine ⟨text n, p1itoa_nat hlt, ?_⟩
    intro k suffix hsuffix s hs
    have hvalue : value (List.replicate k zero ++ text n) = n := by
      rw [value_replicate_zero, value_text]
    have hdigits : ∀ b ∈ List.replicate k zero ++ text n, isDigit b := by
      intro b hb
      rcases List.mem_append.mp hb with hb | hb
      · rw [List.eq_of_mem_replicate hb]
        rfl
      · exact isDigit_of_mem_text hb
    rw [p1atoi_value hs hdigits hsuffix (by rwa [hvalue]), hvalue]
  · intro s hs hlt
    refine ⟨value s.bytes, p1atoi_value (List.append_nil _).symm hs (by simp) hlt, ?_⟩
    rw [p1itoa_nat hlt, text_value hs]

theorem atoi_itoa_inverse_42 :
    p1atoi ⟨[48, 48, 52, 50, 59], by decide⟩ = some 42 ∧
      ∃ v, p1atoi ⟨[48, 48, 52, 50], by decide⟩ = some v ∧ p1itoa v = some [52, 50] := by
  constructor
  · obtain ⟨t, ht, hread⟩ := atoi_itoa_inverse.1 42 (by decide)
    have htext : p1itoa (42 : Int32).toInt = some [52, 50] := by decide
    have hsuffix : ∀ b ∈ ([59] : List UInt8).head?, ¬ isDigit b := by simp [isDigit]
    obtain rfl := Option.some.inj (ht.symm.trans htext)
    exact hread 2 [59] hsuffix _ rfl
  · have hdigits : ∀ b ∈ ([48, 48, 52, 50] : List UInt8), isDigit b := by simp [isDigit]
    exact atoi_itoa_inverse.2 ⟨[48, 48, 52, 50], by decide⟩ hdigits (by decide)

end CIS415.P1Fxns
