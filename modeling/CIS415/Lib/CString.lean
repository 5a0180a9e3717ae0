import CIS415.Lib.OrderedList

/-!
# NUL-terminated byte strings

A `CString` is what a `char *` argument denotes: the bytes before the terminating NUL, none of which
is NUL. `strcmp` compares the bytes as unsigned values and orders strings totally.
-/

structure CString where
  bytes : List UInt8
  noNul : 0 ∉ bytes
deriving DecidableEq

namespace CString

/-- The string a buffer holds: its bytes up to the first NUL. -/
def ofBuffer (buf : List UInt8) : CString where
  bytes := buf.takeWhile (fun b => decide (b ≠ 0))
  noNul := by
    intro h
    have h0 := List.mem_takeWhile_imp h
    simp at h0

theorem ofBuffer_bytes {buf : List UInt8} (h : 0 ∉ buf) : (ofBuffer buf).bytes = buf := by
  apply List.takeWhile_eq_self_iff.mpr
  intro b hb
  apply decide_eq_true
  rintro rfl
  exact h hb

/-- Everything from the first NUL on is ignored. -/
theorem ofBuffer_append_nul {buf : List UInt8} (h : 0 ∉ buf) (rest : List UInt8) :
    (ofBuffer (buf ++ 0 :: rest)).bytes = buf := by
  have hbuf : ∀ b ∈ buf, decide (b ≠ 0) = true := by
    intro b hb
    apply decide_eq_true
    rintro rfl
    exact h hb
  change (buf ++ 0 :: rest).takeWhile _ = buf
  rw [List.takeWhile_append_of_pos hbuf]
  simp

def append (s t : CString) : CString where
  bytes := s.bytes ++ t.bytes
  noNul := by
    rw [List.mem_append]
    exact not_or.mpr ⟨s.noNul, t.noNul⟩

instance : Append CString := ⟨append⟩

@[simp] theorem bytes_append (s t : CString) : (s ++ t).bytes = s.bytes ++ t.bytes := rfl

theorem ext_bytes {s t : CString} (h : s.bytes = t.bytes) : s = t := by
  cases s
  cases t
  cases h
  rfl

/-- The difference of the first two bytes that differ, the end of a string counting as 0. -/
def compareBytes : List UInt8 → List UInt8 → ℤ
  | [], [] => 0
  | [], b :: _ => -b.toNat
  | a :: _, [] => a.toNat
  | a :: as, b :: bs => if a = b then compareBytes as bs else a.toNat - b.toNat

def strcmp (s t : CString) : ℤ :=
  compareBytes s.bytes t.bytes

theorem compareBytes_neg (as bs : List UInt8) : compareBytes as bs = -compareBytes bs as := by
  induction as generalizing bs with
  | nil => cases bs <;> simp [compareBytes]
  | cons a as ih =>
    cases bs with
    | nil => simp [compareBytes]
    | cons b bs =>
      simp only [compareBytes]
      by_cases h : a = b
      · rw [if_pos h, if_pos h.symm]
        exact ih bs
      · rw [if_neg h, if_neg (fun he => h he.symm)]
        omega

theorem toNat_pos {b : UInt8} (h : b ≠ 0) : 0 < b.toNat := by
  apply Nat.pos_of_ne_zero
  intro h0
  apply h
  exact UInt8.toNat_inj.mp h0

theorem toNat_ne {a b : UInt8} (h : a ≠ b) : a.toNat ≠ b.toNat := fun he =>
  h (UInt8.toNat_inj.mp he)

theorem compareBytes_eq_zero {as bs : List UInt8} (ha : 0 ∉ as) (hb : 0 ∉ bs) :
    compareBytes as bs = 0 ↔ as = bs := by
  induction as generalizing bs with
  | nil =>
    cases bs with
    | nil => simp [compareBytes]
    | cons b bs =>
      have hpos := toNat_pos (fun h => hb (h ▸ List.mem_cons_self) : b ≠ 0)
      simp only [compareBytes, reduceCtorEq, iff_false]
      omega
  | cons a as ih =>
    cases bs with
    | nil =>
      have hpos := toNat_pos (fun h => ha (h ▸ List.mem_cons_self) : a ≠ 0)
      simp only [compareBytes, reduceCtorEq, iff_false]
      omega
    | cons b bs =>
      simp only [compareBytes]
      by_cases h : a = b
      · rw [if_pos h, ih (List.not_mem_of_not_mem_cons ha) (List.not_mem_of_not_mem_cons hb), h]
        simp
      · have hne := toNat_ne h
        rw [if_neg h]
        constructor
        · intro hz
          omega
        · intro he
          exact absurd (List.cons.inj he).1 h

theorem compareBytes_trans {as bs ds : List UInt8} (ha : 0 ∉ as) (hb : 0 ∉ bs) (hd : 0 ∉ ds)
    (hab : compareBytes as bs ≤ 0) (hbd : compareBytes bs ds ≤ 0) : compareBytes as ds ≤ 0 := by
  induction as generalizing bs ds with
  | nil => cases ds <;> simp [compareBytes]
  | cons a as ih =>
    cases bs with
    | nil =>
      have hpos := toNat_pos (fun h => ha (h ▸ List.mem_cons_self) : a ≠ 0)
      simp only [compareBytes] at hab
      omega
    | cons b bs =>
      cases ds with
      | nil =>
        have hpos := toNat_pos (fun h => hb (h ▸ List.mem_cons_self) : b ≠ 0)
        simp only [compareBytes] at hbd
        omega
      | cons d ds =>
        simp only [compareBytes] at hab hbd ⊢
        have ih' := ih (List.not_mem_of_not_mem_cons ha) (List.not_mem_of_not_mem_cons hb)
          (List.not_mem_of_not_mem_cons hd)
        by_cases h₁ : a = b
        · rw [if_pos h₁] at hab
          by_cases h₂ : b = d
          · rw [if_pos h₂] at hbd
            rw [if_pos (h₁.trans h₂)]
            exact ih' hab hbd
          · rw [if_neg h₂] at hbd
            rw [h₁, if_neg h₂]
            exact hbd
        · rw [if_neg h₁] at hab
          by_cases h₂ : b = d
          · rw [← h₂, if_neg h₁]
            exact hab
          · rw [if_neg h₂] at hbd
            have hne := toNat_ne h₁
            rw [if_neg]
            · omega
            · rintro rfl
              omega

theorem strcmp_eq_zero {s t : CString} : s.strcmp t = 0 ↔ s = t := by
  unfold strcmp
  rw [compareBytes_eq_zero s.noNul t.noNul]
  constructor
  · exact ext_bytes
  · rintro rfl
    rfl

def comparison : OrderedList.Comparison CString where
  cmp := strcmp
  swap := by
    intro s t
    have h := compareBytes_neg s.bytes t.bytes
    unfold strcmp
    omega
  trans := by
    intro s t u
    exact compareBytes_trans s.noNul t.noNul u.noNul

end CString
