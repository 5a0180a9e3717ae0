import CIS415.Lib.EreSyntax

/-!
# Expressions and subjects of a single line

In a subject without newline the anchors hold at its ends only. Pieces between two anchors then match the
whole subject, one part of it each. For any expression, `spell` reads off the part that matches, and
`pass` forgets of that part all but whether it has begun and whether it has ended, which decides whether
any subject of a single line has a match.
-/

namespace Ere

variable {s w : List UInt8} {r : Re} {i j : ℕ}

theorem getElem?_ne_newline (hs : newline ∉ s) : s[i]? ≠ some newline := fun h =>
  hs (List.mem_of_getElem? h)

theorem mem_next_bol_line (hs : newline ∉ s) : j ∈ next s .bol i ↔ i = 0 ∧ j = 0 := by
  rw [mem_next_bol]
  constructor
  · rintro ⟨hi | hi, rfl⟩
    · exact ⟨hi, hi⟩
    · exact absurd hi (getElem?_ne_newline hs)
  · rintro ⟨rfl, rfl⟩
    exact ⟨.inl rfl, rfl⟩

theorem mem_next_eol_line (hs : newline ∉ s) : j ∈ next s .eol i ↔ i = s.length ∧ j = s.length := by
  rw [mem_next_eol]
  constructor
  · rintro ⟨hi | hi, rfl⟩
    · exact ⟨hi, hi⟩
    · exact absurd hi (getElem?_ne_newline hs)
  · rintro ⟨rfl, rfl⟩
    exact ⟨.inl rfl, rfl⟩

section Anchored

variable {a : Atom} {p : Piece} {ps : List Piece}

def Piece.Takes (p : Piece) (w : List UInt8) : Prop :=
  match p.dup with
  | none => ∃ c, w = [c] ∧ p.atom.accepts c
  | some d => d.1 ≤ w.length ∧ (∀ m ∈ d.2, w.length ≤ m) ∧ ∀ c ∈ w, p.atom.accepts c

/-- The word is cut into one part for each piece. -/
def Take : List Piece → List UInt8 → Prop
  | [], w => w = []
  | p :: ps, w => ∃ pre post, w = pre ++ post ∧ p.Takes pre ∧ Take ps post

/-- Position `j` is where `w`, read from position `i`, ends. -/
def Reads (s : List UInt8) (i : ℕ) (w : List UInt8) (j : ℕ) : Prop :=
  s.drop i = w ++ s.drop j ∧ j = i + w.length

theorem reads_nil : Reads s i [] j ↔ j = i := by
  constructor
  · exact And.right
  · rintro rfl
    exact ⟨rfl, rfl⟩

theorem reads_singleton {c : UInt8} : Reads s i [c] j ↔ s[i]? = some c ∧ j = i + 1 := by
  rw [Reads, List.length_singleton, List.singleton_append]
  constructor
  · rintro ⟨hdrop, hj⟩
    have hhead := List.head?_drop (l := s) (i := i)
    rw [hdrop, List.head?_cons] at hhead
    exact ⟨hhead.symm, hj⟩
  · rintro ⟨hc, rfl⟩
    obtain ⟨hlt, hget⟩ := List.getElem?_eq_some_iff.mp hc
    rw [List.drop_eq_getElem_cons hlt, hget]
    exact ⟨rfl, rfl⟩

theorem reads_append {v : List UInt8} : Reads s i (v ++ w) j ↔ ∃ k, Reads s i v k ∧ Reads s k w j := by
  constructor
  · rintro ⟨hdrop, hj⟩
    have hk : s.drop (i + v.length) = w ++ s.drop j := by
      rw [← List.drop_drop, hdrop, List.append_assoc, List.drop_left]
    rw [List.length_append] at hj
    exact ⟨i + v.length, ⟨by rw [hdrop, hk, List.append_assoc], rfl⟩, hk, by omega⟩
  · rintro ⟨k, ⟨hv, rfl⟩, hw, rfl⟩
    exact ⟨by rw [hv, hw, List.append_assoc], by rw [List.length_append]; omega⟩

theorem matches_atom : (Re.leaf (.atom a)).Matches s i j ↔ ∃ c, Reads s i [c] j ∧ a.accepts c := by
  simp only [reads_singleton]
  constructor
  · intro h
    obtain ⟨⟨c, hc, hacc⟩, hj⟩ := mem_next_atom.mp h
    exact ⟨c, ⟨hc, hj⟩, hacc⟩
  · rintro ⟨c, ⟨hc, hj⟩, hacc⟩
    exact mem_next_atom.mpr ⟨⟨c, hc, hacc⟩, hj⟩

theorem iter_atom {n : ℕ} : Iter ((Re.leaf (.atom a)).Matches s) n i j ↔
    ∃ w, Reads s i w j ∧ w.length = n ∧ ∀ c ∈ w, a.accepts c := by
  induction n generalizing i with
  | zero =>
    constructor
    · rintro rfl
      exact ⟨[], reads_nil.mpr rfl, rfl, by simp⟩
    · rintro ⟨w, hw, hlen, -⟩
      obtain rfl := List.length_eq_zero_iff.mp hlen
      exact (reads_nil.mp hw).symm
  | succ n ih =>
    simp only [Iter, ih, matches_atom]
    constructor
    · rintro ⟨k, ⟨c, hc, hacc⟩, w, hw, rfl, hall⟩
      exact ⟨c :: w, reads_append.mpr ⟨k, hc, hw⟩, rfl, List.forall_mem_cons.mpr ⟨hacc, hall⟩⟩
    · rintro ⟨w, hw, hlen, hall⟩
      obtain ⟨c, w, rfl⟩ := List.exists_cons_of_length_eq_add_one hlen
      obtain ⟨k, hc, hw⟩ := (reads_append (v := [c])).mp hw
      obtain ⟨hacc, hall⟩ := List.forall_mem_cons.mp hall
      exact ⟨k, ⟨c, hc, hacc⟩, w, hw, Nat.succ.inj hlen, hall⟩

theorem matches_piece : p.re.Matches s i j ↔ ∃ w, Reads s i w j ∧ p.Takes w := by
  rcases p with ⟨a, _ | ⟨lo, hi⟩⟩
  · change (Re.leaf (.atom a)).Matches s i j ↔ ∃ w, Reads s i w j ∧ ∃ c, w = [c] ∧ a.accepts c
    rw [matches_atom]
    constructor
    · rintro ⟨c, hc, hacc⟩
      exact ⟨[c], hc, c, rfl, hacc⟩
    · rintro ⟨-, hc, c, rfl, hacc⟩
      exact ⟨c, hc, hacc⟩
  · constructor
    · rintro ⟨n, hlo, hhi, hn⟩
      obtain ⟨w, hw, rfl, hall⟩ := iter_atom.mp hn
      exact ⟨w, hw, hlo, hhi, hall⟩
    · rintro ⟨w, hw, hlo, hhi, hall⟩
      exact ⟨w.length, hlo, hhi, iter_atom.mpr ⟨w, hw, rfl, hall⟩⟩

theorem matches_sequence :
    (sequence r ps).Matches s i j ↔ ∃ k w, r.Matches s i k ∧ Reads s k w j ∧ Take ps w := by
  induction ps generalizing r with
  | nil =>
    constructor
    · intro h
      exact ⟨j, [], h, reads_nil.mpr rfl, rfl⟩
    · rintro ⟨k, w, h, hw, rfl⟩
      obtain rfl := reads_nil.mp hw
      exact h
  | cons p ps ih =>
    change (sequence (.cat r p.re) ps).Matches s i j ↔ _
    rw [ih]
    constructor
    · rintro ⟨k, post, ⟨m, hr, hp⟩, hpost, htake⟩
      obtain ⟨pre, hpre, htakes⟩ := matches_piece.mp hp
      exact ⟨m, pre ++ post, hr, reads_append.mpr ⟨k, hpre, hpost⟩, pre, post, rfl, htakes, htake⟩
    · rintro ⟨m, w, hr, hw, pre, post, rfl, htakes, htake⟩
      obtain ⟨k, hpre, hpost⟩ := reads_append.mp hw
      exact ⟨k, post, ⟨m, hr, matches_piece.mpr ⟨pre, hpre, htakes⟩⟩, hpost, htake⟩

/-- Between anchors, pieces match a subject of one line when they take all of it. -/
theorem regexec_anchored (hs : newline ∉ s) :
    regexec (.cat (sequence (.cat .empty (.leaf .bol)) ps) (.leaf .eol)) s ↔ Take ps s := by
  rw [regexec_iff]
  constructor
  · rintro ⟨i, -, j, m, hseq, heol⟩
    obtain ⟨k, w, ⟨i', rfl, hbol⟩, hw, htake⟩ := matches_sequence.mp hseq
    obtain ⟨rfl, rfl⟩ := (mem_next_bol_line hs).mp hbol
    obtain ⟨rfl, rfl⟩ := (mem_next_eol_line hs).mp heol
    have hsw : s = w := by
      have hdrop := hw.1
      rwa [List.drop_zero, List.drop_length, List.append_nil] at hdrop
    rwa [hsw]
  · intro htake
    have hread : Reads s 0 s s.length := ⟨by simp, by simp⟩
    refine ⟨0, Nat.zero_le _, s.length, s.length, ?_, (mem_next_eol_line hs).mpr ⟨rfl, rfl⟩⟩
    exact matches_sequence.mpr ⟨0, s, ⟨0, rfl, (mem_next_bol_line hs).mpr ⟨rfl, rfl⟩⟩, hread, htake⟩

end Anchored

section Spelling

/-- Reading off a match: the bytes read so far, and whether the end of the line has been seen. -/
def spell : Leaf → List UInt8 × Bool → List UInt8 × Bool → Prop
  | .atom a, (w, ended), q => ended = false ∧ ∃ c, c ≠ newline ∧ a.accepts c ∧ q = (w ++ [c], false)
  | .bol, (w, ended), q => w = [] ∧ q = (w, ended)
  | .eol, (w, _), q => q = (w, true)

/-- A match in a subject of one line spells the bytes that match. -/
theorem Re.Matches.spell (hs : newline ∉ s) (hi : i ≤ s.length) (h : r.Matches s i j) :
    ∃ w e, Reads s i w j ∧ r.Walk spell ([], false) (w, e) := by
  have hsim : ∃ q, r.Walk Ere.spell ([], false) q ∧
      j ≤ s.length ∧ Reads s i q.1 j ∧ (q.2 = true → j = s.length) := by
    refine Walk.simulate
      (E := fun k (q : List UInt8 × Bool) => k ≤ s.length ∧ Reads s i q.1 k ∧ (q.2 = true → k = s.length))
      ?_ ⟨hi, reads_nil.mpr rfl, by simp⟩ h
    rintro l - k k' ⟨w, e⟩ ⟨hk, hw, he⟩ hmove
    cases l with
    | atom a =>
      obtain ⟨⟨c, hc, hacc⟩, rfl⟩ := mem_next_atom.mp hmove
      have hlt := (List.getElem?_eq_some_iff.mp hc).1
      have hopen : e = false := by
        cases e with
        | false => rfl
        | true => exact absurd (he rfl) hlt.ne
      have hline : c ≠ newline := by
        rintro rfl
        exact getElem?_ne_newline hs hc
      exact ⟨(w ++ [c], false), ⟨hopen, c, hline, hacc, rfl⟩, hlt,
        reads_append.mpr ⟨k, hw, reads_singleton.mpr ⟨hc, rfl⟩⟩, by simp⟩
    | bol =>
      obtain ⟨rfl, rfl⟩ := (mem_next_bol_line hs).mp hmove
      have hnil : w = [] := by
        have hlen : 0 = i + w.length := hw.2
        exact List.length_eq_zero_iff.mp (by omega)
      exact ⟨(w, e), ⟨hnil, rfl⟩, hk, hw, he⟩
    | eol =>
      obtain ⟨rfl, rfl⟩ := (mem_next_eol_line hs).mp hmove
      exact ⟨(w, true), rfl, hk, hw, fun _ => rfl⟩
  obtain ⟨⟨w, e⟩, hwalk, -, hread, -⟩ := hsim
  exact ⟨w, e, hread, hwalk⟩

theorem regexec_of_spell {e : Bool} (h : r.Walk spell ([], false) (w, e)) : regexec r w := by
  have hsim : ∃ i, r.Matches w i w.length ∧ i = 0 ∧ ([] : List UInt8) <+: w ∧
      (false = true → [] = w) := by
    refine Re.Walk.simulate_back (E := fun q k => k = q.1.length ∧ q.1 <+: w ∧ (q.2 = true → q.1 = w))
      ?_ ⟨rfl, List.prefix_refl w, fun _ => rfl⟩ h
    rintro l - ⟨v, e⟩ ⟨v', e'⟩ - ⟨rfl, hprefix, hend⟩ hmove
    cases l with
    | atom a =>
      obtain ⟨rfl, c, -, hacc, heq⟩ := hmove
      obtain ⟨rfl, rfl⟩ := Prod.mk.inj heq
      obtain ⟨post, rfl⟩ := hprefix
      refine ⟨v.length, mem_next_atom.mpr ⟨⟨c, ?_, hacc⟩, by simp⟩, rfl, ⟨[c] ++ post, by simp⟩, by simp⟩
      simp
    | bol =>
      obtain ⟨rfl, heq⟩ := hmove
      obtain ⟨rfl, rfl⟩ := Prod.mk.inj heq
      exact ⟨0, mem_next_bol.mpr ⟨.inl rfl, rfl⟩, rfl, hprefix, hend⟩
    | eol =>
      obtain ⟨rfl, rfl⟩ := Prod.mk.inj hmove
      obtain rfl := hend rfl
      exact ⟨v'.length, mem_next_eol.mpr ⟨.inl rfl, rfl⟩, rfl, hprefix, fun _ => rfl⟩
  obtain ⟨i, hmatch, rfl, -⟩ := hsim
  exact regexec_iff.mpr ⟨0, Nat.zero_le _, w.length, hmatch⟩

/-- Every byte that is spelled is accepted by an atom of the expression. -/
theorem accepts_of_spell {e : Bool} (h : r.Walk spell ([], false) (w, e)) :
    newline ∉ w ∧ ∀ c ∈ w, ∃ a, .atom a ∈ r.leaves ∧ a.accepts c := by
  refine h.invariant (I := fun q => newline ∉ q.1 ∧ ∀ c ∈ q.1, ∃ a, .atom a ∈ r.leaves ∧ a.accepts c)
    ?_ ⟨List.not_mem_nil, by simp⟩
  rintro l hl ⟨v, e⟩ ⟨v', e'⟩ ⟨hline, hall⟩ hmove
  cases l with
  | atom a =>
    obtain ⟨-, c, hc, hacc, heq⟩ := hmove
    obtain ⟨rfl, -⟩ := Prod.mk.inj heq
    constructor
    · simpa [hline] using hc.symm
    · intro d hd
      rcases List.mem_append.mp hd with hd | hd
      · exact hall d hd
      · obtain rfl := List.mem_singleton.mp hd
        exact ⟨a, hl, hacc⟩
  | bol =>
    obtain ⟨-, heq⟩ := hmove
    obtain ⟨rfl, -⟩ := Prod.mk.inj heq
    exact ⟨hline, hall⟩
  | eol =>
    obtain ⟨rfl, -⟩ := Prod.mk.inj hmove
    exact ⟨hline, hall⟩

/-- The part of a single line that matches does so by itself. -/
theorem exists_part (hs : newline ∉ s) (h : regexec r s) :
    ∃ w, w <:+: s ∧ regexec r w ∧ ∀ c ∈ w, ∃ a, .atom a ∈ r.leaves ∧ a.accepts c := by
  obtain ⟨i, hi, j, hmatch⟩ := regexec_iff.mp h
  obtain ⟨w, e, hread, hwalk⟩ := hmatch.spell hs hi
  have hpart : w <:+: s := by
    have hdrop : w <:+: s.drop i := by
      rw [hread.1]
      exact (List.prefix_append w _).isInfix
    exact hdrop.trans (List.drop_suffix i s).isInfix
  exact ⟨w, hpart, regexec_of_spell hwalk, (accepts_of_spell hwalk).2⟩

end Spelling

section Passing

def Atom.inLine (a : Atom) : Bool :=
  (List.range 256).any fun n => n.toUInt8 ≠ newline ∧ a.accepts n.toUInt8

theorem Atom.inLine_iff {a : Atom} : a.inLine ↔ ∃ c, c ≠ newline ∧ a.accepts c := by
  simp only [inLine, List.any_eq_true, List.mem_range, decide_eq_true_eq]
  constructor
  · rintro ⟨n, -, hn⟩
    exact ⟨n.toUInt8, hn⟩
  · rintro ⟨c, hc⟩
    have hround : c.toNat.toUInt8 = c := UInt8.ofNat_toNat
    exact ⟨c.toNat, c.toNat_lt, by rwa [hround]⟩

/-- Whether a byte has been read, and whether the end of the line has been seen. -/
def pass : Leaf → Bool × Bool → List (Bool × Bool)
  | .atom a, (_, ended) => if ¬ ended ∧ a.inLine then [(true, false)] else []
  | .bol, (begun, ended) => if begun then [] else [(begun, ended)]
  | .eol, (begun, _) => [(begun, true)]

/-- There is a way through the expression that passes no newline, no `^` after a byte and no byte after
`$`. -/
def Re.passable (r : Re) : Bool :=
  r.ends pass 2 (false, false) ≠ []

theorem pass_rises (l : Leaf) : Rises (fun q => q.1.toNat + q.2.toNat) 2 fun q q' => q' ∈ pass l q := by
  rintro ⟨begun, ended⟩ q' hq'
  cases l with
  | atom a => cases begun <;> cases ended <;> simp_all [pass]
  | bol => cases begun <;> cases ended <;> simp_all [pass]
  | eol => cases begun <;> cases ended <;> simp_all [pass]

theorem passable_iff : r.passable ↔ ∃ q, r.Walk (fun l q q' => q' ∈ pass l q) (false, false) q := by
  rw [Re.passable, decide_eq_true_iff]
  constructor
  · intro hne
    obtain ⟨q, hq⟩ := List.exists_mem_of_ne_nil _ hne
    exact ⟨q, (mem_ends pass_rises).mp hq⟩
  · rintro ⟨q, hq⟩
    exact List.ne_nil_of_mem ((mem_ends pass_rises).mpr hq)

theorem passable_of_spell {q : List UInt8 × Bool} (h : r.Walk spell ([], false) q) : r.passable := by
  rw [passable_iff]
  have hsim : ∃ p, r.Walk (fun l q q' => q' ∈ pass l q) (false, false) p ∧
      p.2 = q.2 ∧ (p.1 = true ↔ q.1 ≠ []) := by
    refine Re.Walk.simulate
      (E := fun (q : List UInt8 × Bool) (p : Bool × Bool) => p.2 = q.2 ∧ (p.1 = true ↔ q.1 ≠ []))
      ?_ ⟨rfl, by simp⟩ h
    rintro l - ⟨w, e⟩ q' ⟨begun, ended⟩ ⟨rfl, hbegun⟩ hmove
    cases l with
    | atom a =>
      obtain ⟨rfl, c, hc, hacc, rfl⟩ := hmove
      exact ⟨(true, false), by simp [pass, Atom.inLine_iff.mpr ⟨c, hc, hacc⟩], rfl, by simp⟩
    | bol =>
      obtain ⟨rfl, rfl⟩ := hmove
      have hfalse : begun = false := by simpa using hbegun
      exact ⟨(begun, _), by simp [pass, hfalse], rfl, hbegun⟩
    | eol =>
      obtain rfl := hmove
      exact ⟨(begun, true), by simp [pass], rfl, hbegun⟩
  obtain ⟨p, hp, -⟩ := hsim
  exact ⟨p, hp⟩

theorem spell_of_passable (h : r.passable) : ∃ q, r.Walk spell ([], false) q := by
  obtain ⟨p, hp⟩ := passable_iff.mp h
  have hsim : ∃ q, r.Walk spell ([], false) q ∧ p.2 = q.2 ∧ (p.1 = true ↔ q.1 ≠ []) := by
    refine Re.Walk.simulate
      (E := fun (p : Bool × Bool) (q : List UInt8 × Bool) => p.2 = q.2 ∧ (p.1 = true ↔ q.1 ≠ []))
      ?_ ⟨rfl, by simp⟩ hp
    rintro l - ⟨begun, ended⟩ p' ⟨w, e⟩ ⟨rfl, hbegun⟩ hmove
    cases l with
    | atom a =>
      simp only [pass] at hmove
      split_ifs at hmove with hcan
      · obtain rfl := List.mem_singleton.mp hmove
        obtain ⟨c, hc, hacc⟩ := Atom.inLine_iff.mp hcan.2
        exact ⟨(w ++ [c], false), ⟨by simpa using hcan.1, c, hc, hacc, rfl⟩, rfl, by simp⟩
      · cases hmove
    | bol =>
      cases begun with
      | true => cases hmove
      | false =>
        obtain rfl := List.mem_singleton.mp hmove
        have hnil : w = [] := by simpa using hbegun
        exact ⟨(w, _), ⟨hnil, rfl⟩, rfl, hbegun⟩
    | eol =>
      obtain rfl := List.mem_singleton.mp hmove
      exact ⟨(w, true), rfl, rfl, hbegun⟩
  obtain ⟨q, hq, -⟩ := hsim
  exact ⟨q, hq⟩

theorem exists_line_of_passable (h : r.passable) :
    ∃ w, newline ∉ w ∧ regexec r w ∧ ∀ c ∈ w, ∃ a, .atom a ∈ r.leaves ∧ a.accepts c := by
  obtain ⟨⟨w, e⟩, hw⟩ := spell_of_passable h
  obtain ⟨hline, hall⟩ := accepts_of_spell hw
  exact ⟨w, hline, regexec_of_spell hw, hall⟩

/-- An expression that is not passable matches in no single line. -/
theorem passable_of_regexec (hs : newline ∉ s) (h : regexec r s) : r.passable := by
  obtain ⟨i, hi, j, hmatch⟩ := regexec_iff.mp h
  obtain ⟨w, e, -, hwalk⟩ := hmatch.spell hs hi
  exact passable_of_spell hwalk

end Passing

end Ere
