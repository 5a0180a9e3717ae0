import CIS415.MEntryRecord

/-!
# me_get on a whole stream

The driver of mentry.c copies a stream of records. On a stream that is not made of records the two
loops of `me_get` that scan a line may miss the byte that stops them; they stay inside the line buffer
when the line has that byte.
-/

namespace CIS415.MEntry

/-- The loop of `main`, which runs at most `fuel` times: the strings printed, one for each entry that
`me_get` returns, and the rest of the stream. -/
def testDriverLoop : ℕ → List UInt8 → Option (List (List UInt8) × List UInt8)
  | 0, _ => none
  | fuel + 1, fd => do
    match ← meGet fd with
    | (none, fd) => some ([], fd)
    | (some me, fd) => do
      let (out, fd) ← testDriverLoop fuel fd
      some (mePrint me :: out, fd)

def testDriver (fd : List UInt8) : Option (List (List UInt8) × List UInt8) :=
  testDriverLoop (fd.length + 1) fd

theorem testDriverLoop_records (rs : List Record) {fuel : ℕ} (hfuel : rs.length < fuel) :
    testDriverLoop fuel (rs.flatMap Record.bytes) = some (rs.map Record.bytes, []) := by
  induction rs generalizing fuel with
  | nil =>
    obtain ⟨fuel, rfl⟩ := Nat.exists_eq_succ_of_ne_zero (Nat.ne_zero_of_lt hfuel)
    rw [List.flatMap_nil, testDriverLoop, meGet_nil]
    rfl
  | cons r rs ih =>
    obtain ⟨fuel, rfl⟩ := Nat.exists_eq_succ_of_ne_zero (Nat.ne_zero_of_lt hfuel)
    have hprint : mePrint r.entry = r.bytes := r.full_address_bytes
    rw [List.flatMap_cons, testDriverLoop, meGet_record]
    simp only [ih (Nat.lt_of_succ_lt_succ hfuel), hprint, Option.bind_eq_bind, Option.bind_some,
      List.map_cons]

/-- Each call of `me_get` reads one record, its `me_print` writes that record, and together they write
the stream. -/
theorem testDriver_records (rs : List Record) :
    ∃ out, testDriver (rs.flatMap Record.bytes) = some (out, []) ∧ out = rs.map Record.bytes ∧
      out.flatten = rs.flatMap Record.bytes := by
  refine ⟨_, testDriverLoop_records rs ?_, rfl, rfl⟩
  exact Nat.lt_succ_of_le (length_le_bytes rs)

/-- The bytes that the surname loop reads before it stops; past the end of the buffer it fails. -/
def scanSurname : List UInt8 → Option (List UInt8)
  | [] => none
  | b :: buf => if b = comma then some [] else (scanSurname buf).map (b :: ·)

def scanZipcode : List UInt8 → Option (List UInt8)
  | [] => none
  | b :: buf => if b = newline then some [] else (scanZipcode buf).map (b :: ·)

theorem copySurname_eq_scan (buf : List UInt8) (room : ℕ) :
    copySurname buf room = (scanSurname buf).bind fun s =>
      if s.length < room then some (s.map tolower) else none := by
  induction buf generalizing room with
  | nil => rfl
  | cons b buf ih =>
    cases room with
    | zero => cases hs : scanSurname (b :: buf) <;> simp [copySurname]
    | succ room =>
      unfold copySurname scanSurname
      by_cases hb : b = comma
      · simp [hb]
      · rw [if_neg hb, if_neg hb, ih]
        cases hs : scanSurname buf with
        | none => rfl
        | some s =>
          by_cases hlt : s.length < room <;> simp [hlt]

theorem copyZipcode_eq_scan (buf : List UInt8) (room : ℕ) :
    copyZipcode buf room = (scanZipcode buf).bind fun s =>
      if (s.filter isalnum).length < room then some (s.filter isalnum) else none := by
  induction buf generalizing room with
  | nil => rfl
  | cons b buf ih =>
    unfold copyZipcode scanZipcode
    by_cases hb : b = newline
    · cases room <;> simp [hb]
    · rw [if_neg hb, if_neg hb]
      by_cases hal : isalnum b = true
      · rw [if_pos hal, ih]
        cases room with
        | zero => cases hs : scanZipcode buf <;> simp
        | succ room =>
          cases hs : scanZipcode buf with
          | none => simp
          | some s =>
            by_cases hlt : (s.filter isalnum).length < room <;> simp [hlt, hal]
      · rw [if_neg hal, ih]
        cases hs : scanZipcode buf <;> simp [hal]

theorem scanSurname_isSome_iff (buf : List UInt8) : (scanSurname buf).isSome ↔ comma ∈ buf := by
  induction buf with
  | nil => simp [scanSurname]
  | cons b buf ih =>
    unfold scanSurname
    by_cases hb : b = comma
    · simp [hb]
    · simp [hb, Ne.symm hb, ih]

theorem scanZipcode_isSome_iff (buf : List UInt8) : (scanZipcode buf).isSome ↔ newline ∈ buf := by
  induction buf with
  | nil => simp [scanZipcode]
  | cons b buf ih =>
    unfold scanZipcode
    by_cases hb : b = newline
    · simp [hb]
    · simp [hb, Ne.symm hb, ih]

/-- `me_get` returns before its loops, or both of them stop inside the buffer they scan. -/
def ScansInside (fd : List UInt8) : Prop :=
  let (nameLine, fd) := fgets lines fd
  let (_, fd) := fgets lines fd
  let (stateZip, _) := fgets lines fd
  (buffer nameLine).head? = some 0 ∨
    ((scanSurname (buffer nameLine)).isSome ∧ (scanZipcode (buffer stateZip)).isSome)

/-- A call of `me_get` that makes no access outside a buffer scans inside the line buffers. -/
theorem scansInside_of_meGet {fd : List UInt8} {r : Option MEntry × List UInt8}
    (h : meGet fd = some r) : ScansInside fd := by
  unfold meGet at h
  by_cases hend : (buffer (fgets lines fd).1).head? = some 0
  · exact .inl hend
  · simp only [if_neg hend, Option.bind_eq_bind, Option.bind_eq_some_iff, copySurname_eq_scan,
      copyZipcode_eq_scan] at h
    obtain ⟨-, ⟨name, hname, -⟩, -, -, -, ⟨zip, hzip, -⟩, -⟩ := h
    exact .inr ⟨by rw [hname]; rfl, by rw [hzip]; rfl⟩

/-- The next line of the stream with its newline, as far as it fits a line buffer. -/
def nextLine (fd : List UInt8) : List UInt8 :=
  (fd.take (lines - 1)).take ((fd.take (lines - 1)).idxOf newline + 1)

def afterLine (fd : List UInt8) : List UInt8 :=
  fd.drop (nextLine fd).length

theorem fgets_eq (n : ℕ) (fd : List UInt8) :
    fgets (n + 1) fd = ((fd.take n).take ((fd.take n).idxOf newline + 1),
      fd.drop ((fd.take n).take ((fd.take n).idxOf newline + 1)).length) := by
  induction fd generalizing n with
  | nil => cases n <;> rfl
  | cons b fd ih =>
    cases n with
    | zero => rfl
    | succ n =>
      unfold fgets
      by_cases hb : b = newline
      · simp [hb]
      · rw [if_neg hb, ih]
        simp [List.idxOf_cons_ne _ (Ne.symm (Ne.symm hb))]

theorem fgets_lines (fd : List UInt8) : fgets lines fd = (nextLine fd, afterLine fd) :=
  fgets_eq (lines - 1) fd

theorem mem_buffer {b : UInt8} (hb : b ≠ 0) (line : List UInt8) : b ∈ buffer line ↔ b ∈ line := by
  simp [buffer, hb]

theorem head_buffer {line : List UInt8} (h : line.length < lines) :
    (buffer line).head? = some 0 ↔ line.head?.getD 0 = 0 := by
  cases line with
  | nil => exact iff_of_true rfl rfl
  | cons b line => simp [buffer]

theorem length_nextLine (fd : List UInt8) : (nextLine fd).length < lines := by
  simp only [nextLine, List.length_take, lines]
  omega

theorem scansInside_lines (fd : List UInt8) :
    ScansInside fd ↔ (nextLine fd).head?.getD 0 = 0 ∨
      (comma ∈ nextLine fd ∧ newline ∈ nextLine (afterLine (afterLine fd))) := by
  simp only [ScansInside, fgets_lines, scanSurname_isSome_iff, scanZipcode_isSome_iff,
    mem_buffer (show comma ≠ 0 by decide), mem_buffer (show newline ≠ 0 by decide),
    head_buffer (length_nextLine fd)]

/-- The loops stay inside their buffers exactly when the stream is at its end or starts with a NUL, or
its first line has a comma and its third line a newline, where a line ends after 999 bytes at most. -/
theorem scansInside_iff (fd : List UInt8) :
    ScansInside fd ↔ fd.head?.getD 0 = 0 ∨
      (comma ∈ nextLine fd ∧ newline ∈ nextLine (afterLine (afterLine fd))) := by
  have hhead : (nextLine fd).head? = fd.head? := by
    cases fd with
    | nil => rfl
    | cons b fd => rfl
  rw [scansInside_lines, hhead]

/-- A line without a comma, and a record whose last line lacks its newline. -/
theorem not_scansInside :
    ¬ ScansInside [97, newline] ∧ ¬ ScansInside [97, comma, newline, 49, newline, 57] := by
  rw [scansInside_lines, scansInside_lines]
  decide

end CIS415.MEntry
