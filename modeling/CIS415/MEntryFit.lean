import CIS415.MEntryStream

/-!
# What me_get stores

The copies of `me_get` do not check the sizes of their destinations. On three lines that fit the line
buffers its loops stop inside those buffers, so that it fails only at a store outside of a destination.
-/

namespace CIS415.MEntry

/-- Three lines that `me_get` reads whole, with a comma in the first. They may hold NULs. -/
structure Lines where
  line1 : List UInt8
  line2 : List UInt8
  line3 : List UInt8
  noNewline : newline ∉ line1 ∧ newline ∉ line2 ∧ newline ∉ line3
  hasComma : comma ∈ line1
  length_lt : (line1 ++ [newline]).length < lines ∧ (line2 ++ [newline]).length < lines ∧
    (line3 ++ [newline]).length < lines

namespace Lines

def bytes (r : Lines) : List UInt8 :=
  r.line1 ++ newline :: (r.line2 ++ newline :: (r.line3 ++ [newline]))

def name (r : Lines) : List UInt8 :=
  r.line1.takeWhile fun b => decide (b ≠ comma)

def zip (r : Lines) : List UInt8 :=
  r.line3.filter isalnum

def address (r : Lines) : CString :=
  .ofBuffer (r.line1 ++ [newline]) ++ .ofBuffer (r.line2 ++ [newline]) ++
    .ofBuffer (r.line3 ++ [newline])

structure Fit (r : Lines) : Prop where
  name_fits : r.name.length < nameSize
  zip_fits : r.zip.length < postalCode
  address_fits : r.address.bytes.length < lines

end Lines

theorem ofBuffer_buffer (line : List UInt8) :
    CString.ofBuffer (buffer line) = CString.ofBuffer line := by
  have hzeros (k : ℕ) : (List.replicate k (0 : UInt8)).takeWhile (fun b => decide (b ≠ 0)) = [] := by
    cases k with
    | zero => rfl
    | succ k => simp [List.replicate_succ]
  apply CString.ext_bytes
  change (line ++ List.replicate _ 0).takeWhile _ = line.takeWhile _
  rw [List.takeWhile_append, hzeros, List.append_nil]
  by_cases hall : (line.takeWhile fun b => decide (b ≠ 0)).length = line.length
  · rw [if_pos hall]
    exact (List.takeWhile_prefix _).eq_of_length hall |>.symm
  · rw [if_neg hall]

theorem scanSurname_append {l : List UInt8} (hcomma : comma ∈ l) (rest : List UInt8) :
    scanSurname (l ++ rest) = some (l.takeWhile fun b => decide (b ≠ comma)) := by
  induction l with
  | nil => exact absurd hcomma List.not_mem_nil
  | cons b l ih =>
    rw [List.cons_append, scanSurname]
    by_cases hb : b = comma
    · simp [hb]
    · have hl : comma ∈ l := (List.mem_cons.mp hcomma).resolve_left (Ne.symm hb)
      have htake : (b :: l).takeWhile (fun b => decide (b ≠ comma)) =
          b :: l.takeWhile fun b => decide (b ≠ comma) :=
        List.takeWhile_cons_of_pos (decide_eq_true hb)
      rw [if_neg hb, ih hl, htake]
      rfl

theorem scanZipcode_line {l : List UInt8} (hl : newline ∉ l) (rest : List UInt8) :
    scanZipcode (l ++ newline :: rest) = some l := by
  induction l with
  | nil => simp [scanZipcode]
  | cons b l ih =>
    obtain ⟨hb, hl⟩ := not_or.mp (fun h => hl (List.mem_cons.mpr h))
    rw [List.cons_append, scanZipcode, if_neg (Ne.symm hb), ih hl]
    rfl

namespace Lines

variable (r : Lines)

theorem copySurname_isSome_iff :
    (copySurname (buffer (r.line1 ++ [newline])) nameSize).isSome ↔ r.name.length < nameSize := by
  rw [copySurname_eq_scan, buffer, List.append_assoc, scanSurname_append r.hasComma,
    Option.bind_some]
  exact Option.isSome_ite

theorem copyZipcode_isSome_iff :
    (copyZipcode (buffer (r.line3 ++ [newline])) postalCode).isSome ↔ r.zip.length < postalCode := by
  rw [copyZipcode_eq_scan, buffer, List.append_assoc]
  change ((scanZipcode (r.line3 ++ newline :: List.replicate _ 0)).bind _).isSome ↔ _
  rw [scanZipcode_line r.noNewline.2.2, Option.bind_some]
  exact Option.isSome_ite

theorem copyAddress_isSome_iff :
    (copyAddress (.ofBuffer (buffer (r.line1 ++ [newline]))) (.ofBuffer (buffer (r.line2 ++ [newline])))
      (.ofBuffer (buffer (r.line3 ++ [newline])))).isSome ↔ r.address.bytes.length < lines := by
  rw [ofBuffer_buffer, ofBuffer_buffer, ofBuffer_buffer, copyAddress]
  exact Option.isSome_ite

theorem fgets_eq (rest : List UInt8) :
    fgets lines (r.bytes ++ rest) =
        (r.line1 ++ [newline], r.line2 ++ newline :: (r.line3 ++ newline :: rest)) ∧
      fgets lines (r.line2 ++ newline :: (r.line3 ++ newline :: rest)) =
        (r.line2 ++ [newline], r.line3 ++ newline :: rest) ∧
      fgets lines (r.line3 ++ newline :: rest) = (r.line3 ++ [newline], rest) := by
  obtain ⟨h1, h2, h3⟩ := r.noNewline
  obtain ⟨l1, l2, l3⟩ := r.length_lt
  rw [List.length_append, List.length_singleton] at l1 l2 l3
  exact fgets_three h1 h2 h3 l1 l2 l3 rest

theorem head_buffer_iff :
    (buffer (r.line1 ++ [newline])).head? = some 0 ↔ r.line1.head? = some 0 := by
  have hcomma := r.hasComma
  unfold buffer
  cases hl : r.line1 with
  | nil => exact absurd (hl ▸ hcomma) List.not_mem_nil
  | cons b l => simp

theorem scansInside (rest : List UInt8) : ScansInside (r.bytes ++ rest) := by
  obtain ⟨hread1, hread2, hread3⟩ := r.fgets_eq rest
  simp only [ScansInside, hread1, hread2, hread3, scanSurname_isSome_iff, scanZipcode_isSome_iff,
    mem_buffer (show comma ≠ 0 by decide), mem_buffer (show newline ≠ 0 by decide)]
  exact .inr ⟨List.mem_append_left _ r.hasComma, List.mem_append_right _ List.mem_cons_self⟩

/-- `me_get` does not fail exactly when it returns before the copies or every copy has room. -/
theorem meGet_isSome_iff (rest : List UInt8) :
    (meGet (r.bytes ++ rest)).isSome ↔ r.line1.head? = some 0 ∨ r.Fit := by
  obtain ⟨hread1, hread2, hread3⟩ := r.fgets_eq rest
  have hname := r.copySurname_isSome_iff
  have hzip := r.copyZipcode_isSome_iff
  have haddr := r.copyAddress_isSome_iff
  have hfit : r.Fit ↔ r.name.length < nameSize ∧ r.address.bytes.length < lines ∧
      r.zip.length < postalCode :=
    ⟨fun h => ⟨h.name_fits, h.address_fits, h.zip_fits⟩, fun h => ⟨h.1, h.2.2, h.2.1⟩⟩
  rw [meGet, hread1]
  simp only [hread2, hread3, r.head_buffer_iff]
  by_cases hnul : r.line1.head? = some 0
  · rw [if_pos hnul]
    exact iff_of_true rfl (.inl hnul)
  · rw [if_neg hnul, hfit, ← hname, ← hzip, ← haddr]
    cases copySurname (buffer (r.line1 ++ [newline])) nameSize with
    | none => simp [hnul]
    | some surname =>
      cases copyAddress (.ofBuffer (buffer (r.line1 ++ [newline])))
          (.ofBuffer (buffer (r.line2 ++ [newline]))) (.ofBuffer (buffer (r.line3 ++ [newline]))) with
      | none => simp [hnul]
      | some full_address =>
        cases copyZipcode (buffer (r.line3 ++ [newline])) postalCode with
        | none => simp [hnul]
        | some zipcode => simp

/-- Its loops read inside the line buffers, and it stores nothing outside of `surname`, `zipcode` and
`full_address` exactly when the first line starts with a NUL, so that it returns before the copies, or
the name, the alphanumeric characters of line 3 and the whole text have room. -/
theorem stores_fit_iff (rest : List UInt8) :
    ScansInside (r.bytes ++ rest) ∧
      ((meGet (r.bytes ++ rest)).isSome ↔ r.line1.head? = some 0 ∨ r.Fit) :=
  ⟨r.scansInside rest, r.meGet_isSome_iff rest⟩

def southSanFrancisco : Lines where
  line1 := [68, 111, 101, 44, 32, 74]
  line2 := [49, 32, 77, 97, 105, 110, 32, 83, 116]
  line3 := [83, 111, 117, 116, 104, 32, 83, 97, 110, 32, 70, 114, 97, 110, 99, 105, 115, 99, 111, 44,
    32, 67, 65, 32, 57, 52, 48, 56, 48]
  noNewline := by decide
  hasComma := by decide
  length_lt := by decide

theorem southSanFrancisco_overflows : ¬ (meGet (southSanFrancisco.bytes ++ [])).isSome := by
  rw [meGet_isSome_iff]
  rintro (hnul | hfit)
  · cases hnul
  · have hlt := hfit.zip_fits
    revert hlt
    decide

end Lines

end CIS415.MEntry
