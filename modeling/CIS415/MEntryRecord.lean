import CIS415.MEntry

/-!
# Well-formed records

A record is three lines that fit the buffers of `me_get`, with a comma in the first. `me_get` at the
start of a record reads exactly that record.
-/

namespace CIS415.MEntry

/-- The lines of a record without their newlines. -/
structure Record where
  line1 : List UInt8
  line2 : List UInt8
  line3 : List UInt8
  noNewline : newline ∉ line1 ∧ newline ∉ line2 ∧ newline ∉ line3
  noNul : 0 ∉ line1 ∧ 0 ∉ line2 ∧ 0 ∉ line3
  hasComma : comma ∈ line1
  name_lt : (line1.takeWhile fun b => decide (b ≠ comma)).length < nameSize
  zip_lt : (line3.filter isalnum).length < postalCode
  length_lt : line1.length + line2.length + line3.length + 3 < lines

namespace Record

def bytes (r : Record) : List UInt8 :=
  r.line1 ++ newline :: (r.line2 ++ newline :: (r.line3 ++ [newline]))

def name (r : Record) : List UInt8 :=
  r.line1.takeWhile fun b => decide (b ≠ comma)

/-- What the record means: the lower-cased name, the number that starts line 2, the alphanumeric
characters of line 3 and the whole text. -/
def entry (r : Record) : MEntry where
  surname := .ofBuffer (r.name.map tolower)
  house_number := Int32.ofInt (strtol (.ofBuffer (r.line2 ++ [newline])))
  zipcode := .ofBuffer (r.line3.filter isalnum)
  full_address := .ofBuffer r.bytes

end Record

theorem fgets_line {l : List UInt8} (hl : newline ∉ l) (rest : List UInt8) {n : ℕ}
    (hn : l.length + 2 ≤ n) : fgets n (l ++ newline :: rest) = (l ++ [newline], rest) := by
  induction l generalizing n with
  | nil =>
    obtain ⟨n, rfl⟩ := Nat.exists_eq_add_of_le' hn
    rfl
  | cons b l ih =>
    obtain ⟨n, rfl⟩ := Nat.exists_eq_add_of_le' (show 2 ≤ n by omega)
    obtain ⟨hb, hl⟩ := not_or.mp (fun h => hl (List.mem_cons.mpr h))
    have hrest := ih hl (show l.length + 2 ≤ n + 1 by rw [List.length_cons] at hn; omega)
    rw [List.cons_append, fgets, if_neg (fun h => hb h.symm), hrest]
    rfl

/-- Three calls of `fgets` on three lines that fit. -/
theorem fgets_three {l₁ l₂ l₃ : List UInt8} (h₁ : newline ∉ l₁) (h₂ : newline ∉ l₂)
    (h₃ : newline ∉ l₃) (n₁ : l₁.length + 2 ≤ lines) (n₂ : l₂.length + 2 ≤ lines)
    (n₃ : l₃.length + 2 ≤ lines) (rest : List UInt8) :
    fgets lines (l₁ ++ newline :: (l₂ ++ newline :: (l₃ ++ [newline])) ++ rest) =
        (l₁ ++ [newline], l₂ ++ newline :: (l₃ ++ newline :: rest)) ∧
      fgets lines (l₂ ++ newline :: (l₃ ++ newline :: rest)) =
        (l₂ ++ [newline], l₃ ++ newline :: rest) ∧
      fgets lines (l₃ ++ newline :: rest) = (l₃ ++ [newline], rest) := by
  refine ⟨?_, fgets_line h₂ _ n₂, fgets_line h₃ _ n₃⟩
  rw [List.append_assoc, List.cons_append, List.append_assoc, List.cons_append, List.append_assoc]
  exact fgets_line h₁ _ n₁

theorem buffer_line {l : List UInt8} (h : l.length + 1 < lines) :
    ∃ k, buffer (l ++ [newline]) = (l ++ [newline]) ++ 0 :: List.replicate k 0 := by
  refine ⟨lines - l.length - 2, ?_⟩
  have hk : lines - (l ++ [newline]).length = (lines - l.length - 2) + 1 := by
    rw [List.length_append, List.length_singleton]
    omega
  rw [buffer, hk, List.replicate_succ]

theorem noNul_line {l : List UInt8} (h : 0 ∉ l) : 0 ∉ l ++ [newline] := by
  rw [List.mem_append]
  rintro (h' | h')
  · exact h h'
  · cases List.mem_singleton.mp h'

theorem ofBuffer_line {l : List UInt8} (h0 : 0 ∉ l) (h : l.length + 1 < lines) :
    CString.ofBuffer (buffer (l ++ [newline])) = CString.ofBuffer (l ++ [newline]) := by
  obtain ⟨k, hk⟩ := buffer_line h
  apply CString.ext_bytes
  rw [hk, CString.ofBuffer_append_nul (noNul_line h0), CString.ofBuffer_bytes (noNul_line h0)]

theorem copySurname_eq {name : List UInt8} (hname : comma ∉ name) (rest : List UInt8) {room : ℕ}
    (hroom : name.length < room) :
    copySurname (name ++ comma :: rest) room = some (name.map tolower) := by
  induction name generalizing room with
  | nil =>
    obtain ⟨room, rfl⟩ := Nat.exists_eq_succ_of_ne_zero (Nat.ne_zero_of_lt hroom)
    rfl
  | cons b name ih =>
    obtain ⟨room, rfl⟩ := Nat.exists_eq_succ_of_ne_zero (Nat.ne_zero_of_lt hroom)
    obtain ⟨hb, hname⟩ := not_or.mp (fun h => hname (List.mem_cons.mpr h))
    rw [List.cons_append, copySurname, if_neg (fun h => hb h.symm),
      ih hname (Nat.lt_of_succ_lt_succ hroom)]
    rfl

theorem copyZipcode_eq {l : List UInt8} (hl : newline ∉ l) (rest : List UInt8) {room : ℕ}
    (hroom : (l.filter isalnum).length < room) :
    copyZipcode (l ++ newline :: rest) room = some (l.filter isalnum) := by
  induction l generalizing room with
  | nil =>
    rw [List.nil_append, copyZipcode, if_pos rfl, if_neg (Nat.ne_zero_of_lt hroom)]
    rfl
  | cons b l ih =>
    obtain ⟨hb, hl⟩ := not_or.mp (fun h => hl (List.mem_cons.mpr h))
    rw [List.cons_append, copyZipcode, if_neg (fun h => hb h.symm)]
    by_cases hal : isalnum b = true
    · rw [List.filter_cons_of_pos hal, List.length_cons] at hroom
      have hrest := ih hl (show (l.filter isalnum).length < room - 1 by omega)
      rw [if_pos hal, if_neg (Nat.ne_zero_of_lt hroom), hrest, List.filter_cons_of_pos hal]
      rfl
    · rw [List.filter_cons_of_neg hal] at hroom ⊢
      rw [if_neg hal]
      exact ih hl hroom

theorem tolower_ne_zero {b : UInt8} (h : b ≠ 0) : tolower b ≠ 0 := by
  unfold tolower
  by_cases hb : (65 ≤ b && b ≤ 90) = true
  · rw [if_pos hb]
    rw [Bool.and_eq_true, decide_eq_true_eq, decide_eq_true_eq] at hb
    intro h0
    have h32 := congrArg UInt8.toNat h0
    have h65 : (65 : UInt8).toNat ≤ b.toNat := UInt8.le_iff_toNat_le.mp hb.1
    have h90 : b.toNat ≤ (90 : UInt8).toNat := UInt8.le_iff_toNat_le.mp hb.2
    rw [UInt8.toNat_add] at h32
    change (b.toNat + 32) % 2 ^ 8 = 0 at h32
    change 65 ≤ b.toNat at h65
    change b.toNat ≤ 90 at h90
    omega
  · rw [if_neg hb]
    exact h

namespace Record

variable (r : Record)

theorem noNul_bytes : 0 ∉ r.bytes := by
  obtain ⟨h1, h2, h3⟩ := r.noNul
  have hnl : (0 : UInt8) ≠ newline := by decide
  simp [bytes, h1, h2, h3, hnl]

/-- Nothing is cut off when the record is stored. -/
theorem full_address_bytes : r.entry.full_address.bytes = r.bytes :=
  CString.ofBuffer_bytes r.noNul_bytes

theorem surname_bytes : r.entry.surname.bytes = r.name.map tolower := by
  apply CString.ofBuffer_bytes
  intro hmem
  obtain ⟨b, hb, h0⟩ := List.mem_map.mp hmem
  apply tolower_ne_zero _ h0
  rintro rfl
  exact r.noNul.1 ((List.takeWhile_sublist _).subset hb)

theorem zipcode_bytes : r.entry.zipcode.bytes = r.line3.filter isalnum := by
  apply CString.ofBuffer_bytes
  intro hmem
  exact r.noNul.2.2 (List.mem_of_mem_filter hmem)

theorem line1_eq : ∃ rest, r.line1 = r.name ++ comma :: rest ∧ comma ∉ r.name := by
  have hsplit := List.takeWhile_append_dropWhile (p := fun b => decide (b ≠ comma)) (l := r.line1)
  have hname : comma ∉ r.name := by
    intro h
    have hc := List.mem_takeWhile_imp h
    simp at hc
  cases hd : r.line1.dropWhile fun b => decide (b ≠ comma) with
  | nil =>
    rw [hd, List.append_nil] at hsplit
    have hc := r.hasComma
    rw [← hsplit] at hc
    exact absurd hc hname
  | cons b rest =>
    have hb := List.head?_dropWhile_not (fun b => decide (b ≠ comma)) r.line1
    rw [hd] at hb hsplit
    have hbc : b = comma := by simpa using hb
    refine ⟨rest, ?_, hname⟩
    rw [← hbc]
    exact hsplit.symm

end Record

/-- `me_get` at the start of a record reads the record and nothing more. -/
theorem meGet_record (r : Record) (rest : List UInt8) :
    meGet (r.bytes ++ rest) = some (some r.entry, rest) := by
  obtain ⟨n1, n2, n3⟩ := r.noNewline
  obtain ⟨z1, z2, z3⟩ := r.noNul
  have hlen := r.length_lt
  obtain ⟨hread1, hread2, hread3⟩ :=
    fgets_three n1 n2 n3 (by omega) (by omega) (by omega) rest
  obtain ⟨tail, hline1, hname⟩ := r.line1_eq
  have hfirst : (buffer (r.line1 ++ [newline])).head? ≠ some 0 := by
    rw [buffer]
    cases hl : r.line1 with
    | nil => simp [newline]
    | cons b l =>
      intro h
      apply z1
      have hb : b = 0 := by simpa using h
      rw [hl, hb]
      exact List.mem_cons_self
  have hsurname : copySurname (buffer (r.line1 ++ [newline])) nameSize =
      some (r.name.map tolower) := by
    rw [buffer, hline1, List.append_assoc, List.append_assoc, List.cons_append]
    exact copySurname_eq hname _ r.name_lt
  have hzip : copyZipcode (buffer (r.line3 ++ [newline])) postalCode =
      some (r.line3.filter isalnum) := by
    rw [buffer, List.append_assoc]
    exact copyZipcode_eq n3 _ r.zip_lt
  have haddr : CString.ofBuffer (r.line1 ++ [newline]) ++ CString.ofBuffer (r.line2 ++ [newline]) ++
      CString.ofBuffer (r.line3 ++ [newline]) = r.entry.full_address := by
    apply CString.ext_bytes
    rw [r.full_address_bytes, CString.bytes_append, CString.bytes_append,
      CString.ofBuffer_bytes (noNul_line z1), CString.ofBuffer_bytes (noNul_line z2),
      CString.ofBuffer_bytes (noNul_line z3), Record.bytes]
    simp
  have hcopy : copyAddress (.ofBuffer (r.line1 ++ [newline])) (.ofBuffer (r.line2 ++ [newline]))
      (.ofBuffer (r.line3 ++ [newline])) = some r.entry.full_address := by
    have hlt : r.entry.full_address.bytes.length < lines := by
      rw [r.full_address_bytes, Record.bytes]
      simp only [List.length_append, List.length_cons, List.length_nil]
      omega
    rw [copyAddress, haddr, if_pos hlt]
  rw [meGet, Record.bytes, hread1]
  simp only [hread2, hread3, if_neg hfirst, hsurname, hzip,
    ofBuffer_line z1 (show r.line1.length + 1 < lines by omega),
    ofBuffer_line z2 (show r.line2.length + 1 < lines by omega),
    ofBuffer_line z3 (show r.line3.length + 1 < lines by omega), hcopy,
    Option.bind_eq_bind, Option.bind_some]
  rfl

theorem meGet_nil : meGet [] = some (none, []) := by
  have hread : fgets lines [] = ([], []) := rfl
  have hfirst : (buffer []).head? = some 0 := rfl
  rw [meGet, hread]
  simp only [hread, if_pos hfirst]

theorem length_le_bytes (rs : List Record) : rs.length ≤ (rs.flatMap Record.bytes).length := by
  induction rs with
  | nil => exact Nat.le_refl 0
  | cons r rs ih =>
    rw [List.flatMap_cons, List.length_append, List.length_cons, Record.bytes]
    simp only [List.length_append, List.length_cons]
    omega

end CIS415.MEntry
