import CIS415.Lib.Words
import CIS415.P1Fxns

/-!
# p1getword

`p1getword` from an index on reads the first word of what the buffer holds from there.
-/

namespace CIS415.P1Fxns

/-- Blanks and tabs separate words; a word may be in single or in double quotes. -/
def shell : Lexis UInt8 where
  blank b := b = 32 ∨ b = 9
  quote b := b = 39 ∨ b = 34
  quote_not_blank := by
    intro b hb
    rcases of_decide_eq_true hb with rfl | rfl
    · decide
    · decide

theorem p1strchrFrom_eq_neg_one (c : UInt8) (i : ℕ) (buf : List UInt8) :
    p1strchrFrom c i buf = -1 ↔ c ∉ buf := by
  induction buf generalizing i with
  | nil => exact iff_of_true rfl List.not_mem_nil
  | cons b buf ih =>
    rw [p1strchrFrom, List.mem_cons, not_or]
    by_cases hb : b = c
    · rw [if_pos hb]
      constructor
      · intro h
        omega
      · rintro ⟨hne, -⟩
        exact absurd hb.symm hne
    · rw [if_neg hb, ih]
      exact (and_iff_right (Ne.symm hb)).symm

theorem p1strchr_ne (buf : CString) (c : UInt8) : p1strchr buf c ≠ -1 ↔ c ∈ buf.bytes := by
  rw [p1strchr, Ne, p1strchrFrom_eq_neg_one, not_not]

theorem p1strchr_whitespace (b : UInt8) : p1strchr whitespace b ≠ -1 ↔ shell.blank b := by
  rw [p1strchr_ne]
  simp [whitespace, shell]

theorem skipWhite_eq (i : ℕ) (buf : List UInt8) :
    skipWhite i buf = (i + (buf.takeWhile shell.blank).length, buf.dropWhile shell.blank) := by
  induction buf generalizing i with
  | nil => rfl
  | cons b buf ih =>
    rw [skipWhite]
    by_cases hb : shell.blank b
    · rw [if_pos ((p1strchr_whitespace b).mpr hb), ih, List.dropWhile_cons_of_pos hb,
        List.takeWhile_cons_of_pos hb, List.length_cons, Nat.add_assoc, Nat.add_comm 1]
    · rw [if_neg (fun h => hb ((p1strchr_whitespace b).mp h)), List.dropWhile_cons_of_neg hb,
        List.takeWhile_cons_of_neg hb]
      rfl

theorem copyWord_eq {tc : CString} {inside : UInt8 → Bool} (htc : ∀ b, inside b ↔ b ∉ tc.bytes)
    (i : ℕ) (buf : List UInt8) :
    copyWord tc i buf =
      (buf.takeWhile inside, i + (buf.takeWhile inside).length, buf.dropWhile inside) := by
  induction buf generalizing i with
  | nil => rfl
  | cons b buf ih =>
    rw [copyWord]
    by_cases hb : inside b
    · have hmem := (htc b).mp hb
      rw [if_neg (fun h => hmem ((p1strchr_ne tc b).mp h)), ih, List.takeWhile_cons_of_pos hb,
        List.dropWhile_cons_of_pos hb, List.length_cons, Nat.add_assoc, Nat.add_comm 1]
    · have hmem : b ∈ tc.bytes := not_not.mp fun h => hb ((htc b).mpr h)
      rw [if_pos ((p1strchr_ne tc b).mpr hmem), List.takeWhile_cons_of_neg hb,
        List.dropWhile_cons_of_neg hb]
      rfl

theorem length_cut (p : UInt8 → Bool) (buf : List UInt8) :
    (buf.takeWhile p).length + (buf.dropWhile p).length = buf.length := by
  rw [← List.length_append, List.takeWhile_append_dropWhile]

theorem takeWord_quoted {tc : CString} {q : UInt8} (htc : tc.bytes = [q]) (hquote : tc ≠ whitespace)
    (i : ℕ) (rest : List UInt8) :
    takeWord tc i rest =
      (((i + rest.length - ((rest.dropWhile fun b => decide (b ≠ q)).drop 1).length : ℕ) : ℤ),
        some (rest.takeWhile fun b => decide (b ≠ q))) := by
  have hinside : ∀ b, (fun b => decide (b ≠ q)) b ↔ b ∉ tc.bytes := by
    intro b
    rw [htc, decide_eq_true_eq, List.mem_singleton]
  have hcopy := copyWord_eq hinside i rest
  have hcut := length_cut (fun b => decide (b ≠ q)) rest
  rw [takeWord, hcopy]
  cases hdrop : rest.dropWhile fun b => decide (b ≠ q) with
  | nil =>
    rw [hdrop, List.length_nil] at hcut
    simp only [ne_eq, not_true_eq_false, false_and, if_false, List.drop_nil, List.length_nil]
    rw [← hcut]
    rfl
  | cons b left =>
    rw [hdrop, List.length_cons] at hcut
    have hclosed : b :: left ≠ [] ∧ tc ≠ whitespace := ⟨List.cons_ne_nil _ _, hquote⟩
    rw [List.drop_one, List.tail_cons]
    simp only [if_pos hclosed]
    congr 1
    omega

theorem takeWord_bare (i : ℕ) (rest : List UInt8) :
    takeWord whitespace i rest =
      (((i + rest.length - (rest.dropWhile fun b => !shell.blank b).length : ℕ) : ℤ),
        some (rest.takeWhile fun b => !shell.blank b)) := by
  have hinside : ∀ b, (fun b => !shell.blank b) b ↔ b ∉ whitespace.bytes := by
    intro b
    simp [whitespace, shell]
  have hcopy := copyWord_eq hinside i rest
  have hcut := length_cut (fun b => !shell.blank b) rest
  rw [takeWord, hcopy]
  simp only [ne_eq, not_true_eq_false, and_false, if_false]
  congr 1
  omega

def fetched (buf : CString) : Option (List UInt8 × List UInt8) → ℤ × Option (List UInt8)
  | none => (-1, none)
  | some (word, rest) => (((p1strlen buf - rest.length : ℕ) : ℤ), some word)

theorem p1getword_eq (buf : CString) {i : ℕ} (hi : i ≤ p1strlen buf) :
    p1getword buf i = some (fetched buf (shell.nextWord (buf.bytes.drop i))) := by
  have hcut := length_cut shell.blank (buf.bytes.drop i)
  rw [List.length_drop] at hcut
  unfold p1strlen at hi
  rw [p1getword, if_neg (Nat.not_lt.mpr hi), skipWhite_eq, Lexis.nextWord]
  cases hdrop : (buf.bytes.drop i).dropWhile shell.blank with
  | nil => rfl
  | cons b rest =>
    rw [hdrop, List.length_cons] at hcut
    -- The copy starts behind an opening quote, or at the first byte of a bare word.
    have hstart : i + ((buf.bytes.drop i).takeWhile shell.blank).length + 1 + rest.length =
        p1strlen buf := by
      unfold p1strlen
      omega
    by_cases hquote : shell.quote b
    · have htake : ∃ tc, openWord (i + ((buf.bytes.drop i).takeWhile shell.blank).length) b rest =
          (tc, i + ((buf.bytes.drop i).takeWhile shell.blank).length + 1, rest) ∧
            tc.bytes = [b] ∧ tc ≠ whitespace := by
        rcases of_decide_eq_true hquote with rfl | rfl
        · exact ⟨singlequote, rfl, rfl, by decide⟩
        · exact ⟨doublequote, rfl, rfl, by decide⟩
      obtain ⟨tc, hopen, hbytes, hne⟩ := htake
      simp only [hopen, takeWord_quoted hbytes hne, hstart, hquote, if_true]
      rfl
    · have hopen : openWord (i + ((buf.bytes.drop i).takeWhile shell.blank).length) b rest =
          (whitespace, i + ((buf.bytes.drop i).takeWhile shell.blank).length, b :: rest) := by
        have hb : ¬ (b = 39 ∨ b = 34) := fun h => hquote (decide_eq_true h)
        rw [openWord, if_neg (not_or.mp hb).1, if_neg (not_or.mp hb).2]
      have hend : i + ((buf.bytes.drop i).takeWhile shell.blank).length + (b :: rest).length =
          p1strlen buf := by
        rw [List.length_cons]
        omega
      simp only [hopen, takeWord_bare, hend, hquote, Bool.false_eq_true, if_false]
      rfl

theorem blank_iff (b : UInt8) : shell.blank b ↔ b = 32 ∨ b = 9 :=
  decide_eq_true_iff

/-- `p1getword` returns -1 where only white space is left, and an index further on otherwise. -/
theorem p1getword_progress (buf : CString) {i : ℕ} (hi : i ≤ p1strlen buf) :
    ∃ r word, p1getword buf i = some (r, word) ∧
      (r = -1 ↔ ∀ b ∈ buf.bytes.drop i, b = 32 ∨ b = 9) ∧
      (r ≠ -1 → (i : ℤ) < r ∧ r ≤ (p1strlen buf : ℤ)) := by
  refine ⟨_, _, p1getword_eq buf hi, ?_⟩
  simp only [← blank_iff, ← Lexis.nextWord_eq_none_iff]
  cases hnext : shell.nextWord (buf.bytes.drop i) with
  | none => exact ⟨iff_of_true rfl rfl, fun h => absurd rfl h⟩
  | some next =>
    obtain ⟨word, rest⟩ := next
    have hlt := (Lexis.nextWord_suffix hnext).2.1
    rw [List.length_drop] at hlt
    have hrange : (i : ℤ) < ((p1strlen buf - rest.length : ℕ) : ℤ) := by
      unfold p1strlen
      omega
    refine ⟨iff_of_false ?_ (Option.some_ne_none _), fun _ => ⟨hrange, ?_⟩⟩
    · change ((p1strlen buf - rest.length : ℕ) : ℤ) ≠ -1
      omega
    · change ((p1strlen buf - rest.length : ℕ) : ℤ) ≤ _
      omega

end CIS415.P1Fxns
