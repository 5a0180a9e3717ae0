import Mathlib.Data.List.Dedup
import Mathlib.Order.Nat

/-!
# Extended regular expressions

The extended regular expressions of POSIX, over bytes, and what they match. An expression walks over
positions: `Walk` says from where to where it can take one, given what its leaves can do. The positions
of a subject are the numbers up to its length; other types of positions serve to reason about
expressions, by simulation of one walk by another. `ends` computes a walk whose moves rise, and `regexec`
with it whether a subject has a match.
-/

namespace Ere

def newline : UInt8 := 10

/-- What matches one byte. The bytes of a `set` are those in its ranges, or with `negated` the others. -/
inductive Atom
  | char (c : UInt8)
  | any
  | set (negated : Bool) (ranges : List (UInt8 × UInt8))
deriving DecidableEq

/-- Newline is matched by itself and by sets that list it, not by `.` and not by negated sets. -/
def Atom.accepts : Atom → UInt8 → Bool
  | char c, b => b = c
  | any, b => b ≠ newline
  | set false ranges, b => ranges.any fun p => p.1 ≤ b ∧ b ≤ p.2
  | set true ranges, b => b ≠ newline ∧ ¬ ranges.any fun p => p.1 ≤ b ∧ b ≤ p.2

inductive Leaf
  | atom (a : Atom)
  | bol
  | eol
deriving DecidableEq

/-- `rep r lo hi` is `r` from `lo` to `hi` times, or any number of times from `lo` on. -/
inductive Re
  | empty
  | leaf (l : Leaf)
  | cat (r t : Re)
  | alt (r t : Re)
  | rep (r : Re) (lo : ℕ) (hi : Option ℕ)
deriving DecidableEq

def Re.leaves : Re → List Leaf
  | empty => []
  | leaf l => [l]
  | cat r t => r.leaves ++ t.leaves
  | alt r t => r.leaves ++ t.leaves
  | rep r _ _ => r.leaves

section Walk

variable {Q P : Type*}

def Iter (R : Q → Q → Prop) : ℕ → Q → Q → Prop
  | 0, q, q' => q = q'
  | n + 1, q, q' => ∃ p, R q p ∧ Iter R n p q'

def Re.Walk (move : Leaf → Q → Q → Prop) : Re → Q → Q → Prop
  | empty, q, q' => q = q'
  | leaf l, q, q' => move l q q'
  | cat r t, q, q' => ∃ p, r.Walk move q p ∧ t.Walk move p q'
  | alt r t, q, q' => r.Walk move q q' ∨ t.Walk move q q'
  | rep r lo hi, q, q' => ∃ n, lo ≤ n ∧ (∀ m ∈ hi, n ≤ m) ∧ Iter (r.Walk move) n q q'

theorem Iter.simulate {R : Q → Q → Prop} {S : P → P → Prop} {E : Q → P → Prop}
    (h : ∀ q q' p, E q p → R q q' → ∃ p', S p p' ∧ E q' p') {n : ℕ} {q q' : Q} {p : P} (hE : E q p)
    (hi : Iter R n q q') : ∃ p', Iter S n p p' ∧ E q' p' := by
  induction n generalizing q p with
  | zero =>
    obtain rfl := hi
    exact ⟨p, rfl, hE⟩
  | succ n ih =>
    obtain ⟨m, hm, hrest⟩ := hi
    obtain ⟨pm, hpm, hEm⟩ := h q m p hE hm
    obtain ⟨p', hp', hE'⟩ := ih hEm hrest
    exact ⟨p', ⟨pm, hpm, hp'⟩, hE'⟩

theorem Iter.simulate_back {R : Q → Q → Prop} {S : P → P → Prop} {E : Q → P → Prop}
    (h : ∀ q q' p', E q' p' → R q q' → ∃ p, S p p' ∧ E q p) {n : ℕ} {q q' : Q} {p' : P} (hE : E q' p')
    (hi : Iter R n q q') : ∃ p, Iter S n p p' ∧ E q p := by
  induction n generalizing q with
  | zero =>
    obtain rfl := hi
    exact ⟨p', rfl, hE⟩
  | succ n ih =>
    obtain ⟨m, hm, hrest⟩ := hi
    obtain ⟨pm, hpm, hEm⟩ := ih hrest
    obtain ⟨p, hp, hEp⟩ := h q m pm hEm hm
    exact ⟨p, ⟨pm, hp, hpm⟩, hEp⟩

variable {move : Leaf → Q → Q → Prop} {move' : Leaf → P → P → Prop} {E : Q → P → Prop}

/-- A walk is simulated when the moves of its leaves are. -/
theorem Re.Walk.simulate {r : Re}
    (h : ∀ l ∈ r.leaves, ∀ q q' p, E q p → move l q q' → ∃ p', move' l p p' ∧ E q' p') {q q' : Q} {p : P}
    (hE : E q p) (hw : r.Walk move q q') : ∃ p', r.Walk move' p p' ∧ E q' p' := by
  induction r generalizing q q' p with
  | empty =>
    obtain rfl := hw
    exact ⟨p, rfl, hE⟩
  | leaf l => exact h l List.mem_cons_self q q' p hE hw
  | cat r t ihr iht =>
    obtain ⟨m, hm, hw⟩ := hw
    obtain ⟨pm, hpm, hEm⟩ := ihr (fun l hl => h l (List.mem_append_left _ hl)) hE hm
    obtain ⟨p', hp', hE'⟩ := iht (fun l hl => h l (List.mem_append_right _ hl)) hEm hw
    exact ⟨p', ⟨pm, hpm, hp'⟩, hE'⟩
  | alt r t ihr iht =>
    rcases hw with hw | hw
    · obtain ⟨p', hp', hE'⟩ := ihr (fun l hl => h l (List.mem_append_left _ hl)) hE hw
      exact ⟨p', .inl hp', hE'⟩
    · obtain ⟨p', hp', hE'⟩ := iht (fun l hl => h l (List.mem_append_right _ hl)) hE hw
      exact ⟨p', .inr hp', hE'⟩
  | rep r lo hi ih =>
    obtain ⟨n, hlo, hhi, hn⟩ := hw
    have hround : ∀ q q' p, E q p → r.Walk move q q' → ∃ p', r.Walk move' p p' ∧ E q' p' :=
      fun _ _ _ hE hw => ih h hE hw
    obtain ⟨p', hp', hE'⟩ := Iter.simulate hround hE hn
    exact ⟨p', ⟨n, hlo, hhi, hp'⟩, hE'⟩

/-- The same from the end of the walk back to its start. -/
theorem Re.Walk.simulate_back {r : Re}
    (h : ∀ l ∈ r.leaves, ∀ q q' p', E q' p' → move l q q' → ∃ p, move' l p p' ∧ E q p) {q q' : Q} {p' : P}
    (hE : E q' p') (hw : r.Walk move q q') : ∃ p, r.Walk move' p p' ∧ E q p := by
  induction r generalizing q q' p' with
  | empty =>
    obtain rfl := hw
    exact ⟨p', rfl, hE⟩
  | leaf l => exact h l List.mem_cons_self q q' p' hE hw
  | cat r t ihr iht =>
    obtain ⟨m, hm, hw⟩ := hw
    obtain ⟨pm, hpm, hEm⟩ := iht (fun l hl => h l (List.mem_append_right _ hl)) hE hw
    obtain ⟨p, hp, hEp⟩ := ihr (fun l hl => h l (List.mem_append_left _ hl)) hEm hm
    exact ⟨p, ⟨pm, hp, hpm⟩, hEp⟩
  | alt r t ihr iht =>
    rcases hw with hw | hw
    · obtain ⟨p, hp, hEp⟩ := ihr (fun l hl => h l (List.mem_append_left _ hl)) hE hw
      exact ⟨p, .inl hp, hEp⟩
    · obtain ⟨p, hp, hEp⟩ := iht (fun l hl => h l (List.mem_append_right _ hl)) hE hw
      exact ⟨p, .inr hp, hEp⟩
  | rep r lo hi ih =>
    obtain ⟨n, hlo, hhi, hn⟩ := hw
    have hround : ∀ q q' p', E q' p' → r.Walk move q q' → ∃ p, r.Walk move' p p' ∧ E q p :=
      fun _ _ _ hE hw => ih h hE hw
    obtain ⟨p, hp, hEp⟩ := Iter.simulate_back hround hE hn
    exact ⟨p, ⟨n, hlo, hhi, hp⟩, hEp⟩

/-- What holds at the start of a walk and is kept by the moves of its leaves holds at its end. -/
theorem Re.Walk.invariant {I : Q → Prop} {r : Re} (h : ∀ l ∈ r.leaves, ∀ q q', I q → move l q q' → I q')
    {q q' : Q} (hq : I q) (hw : r.Walk move q q') : I q' := by
  have hsim : ∃ p', r.Walk (fun _ (_ _ : Unit) => True) () p' ∧ I q' :=
    Walk.simulate (E := fun q _ => I q) (fun l hl q q' _ hI hm => ⟨(), trivial, h l hl q q' hI hm⟩) hq hw
  exact hsim.choose_spec.2

/-- Every step of `R` either stays or rises, to `bound` at most. -/
def Rises (rank : Q → ℕ) (bound : ℕ) (R : Q → Q → Prop) : Prop :=
  ∀ q q', R q q' → q' = q ∨ rank q < rank q' ∧ rank q' ≤ bound

variable {rank : Q → ℕ} {bound : ℕ} {R : Q → Q → Prop}

theorem Re.Walk.rises {r : Re} (h : ∀ l, Rises rank bound (move l)) : Rises rank bound (r.Walk move) := by
  intro q q'
  apply Walk.invariant (I := fun p => p = q ∨ rank q < rank p ∧ rank p ≤ bound) _ (.inl rfl)
  intro l _ p p' hp hm
  rcases h l p p' hm with rfl | hp'
  · exact hp
  · rcases hp with rfl | hp
    · exact .inr hp'
    · exact .inr ⟨hp.1.trans hp'.1, hp'.2⟩

theorem Iter.rises (h : Rises rank bound R) {n : ℕ} : Rises rank bound (Iter R n) := by
  induction n with
  | zero => exact fun q q' hi => .inl hi.symm
  | succ n ih =>
    rintro q q' ⟨p, hp, hi⟩
    rcases ih p q' hi with rfl | hq'
    · exact h q q' hp
    · rcases h q p hp with rfl | hp
      · exact .inr hq'
      · exact .inr ⟨hp.1.trans hq'.1, hq'.2⟩

theorem Iter.shorten (h : Rises rank bound R) {n : ℕ} {q q' : Q} (hi : Iter R (n + 1) q q') :
    Iter R n q q' ∨ rank q + (n + 1) ≤ rank q' := by
  induction n generalizing q with
  | zero =>
    obtain ⟨p, hp, rfl⟩ := hi
    rcases h q p hp with rfl | hp
    · exact .inl rfl
    · exact .inr hp.1
  | succ n ih =>
    obtain ⟨p, hp, hi⟩ := hi
    rcases h q p hp with rfl | hlt
    · exact .inl hi
    · rcases ih hi with hi | hle
      · exact .inl ⟨p, hp, hi⟩
      · right
        omega

/-- More than `bound` steps over `lo` are not needed. -/
theorem Iter.cap (h : Rises rank bound R) {lo n : ℕ} {q q' : Q} (hi : Iter R (lo + n) q q') :
    ∃ k ≤ n, k ≤ bound ∧ Iter R (lo + k) q q' := by
  induction n with
  | zero => exact ⟨0, Nat.le_refl 0, Nat.zero_le bound, hi⟩
  | succ n ih =>
    by_cases hn : n + 1 ≤ bound
    · exact ⟨n + 1, Nat.le_refl _, hn, hi⟩
    · have hi : Iter R (lo + n + 1) q q' := hi
      have hshort : Iter R (lo + n) q q' := by
        rcases hi.shorten h with hi' | hle
        · exact hi'
        · rcases Iter.rises h q q' hi with rfl | hrank
          · omega
          · omega
      obtain ⟨k, hkn, hkb, hk⟩ := ih hshort
      exact ⟨k, hkn.trans (Nat.le_succ n), hkb, hk⟩

variable [DecidableEq Q]

def iterate (f : Q → List Q) : ℕ → List Q → List Q
  | 0, qs => qs
  | n + 1, qs => iterate f n (qs.flatMap f).dedup

/-- How many counts of rounds `ends` tries, from `lo` on. -/
def rounds (bound lo : ℕ) : Option ℕ → ℕ
  | none => bound + 1
  | some hi => min (bound + 1) (hi + 1 - lo)

def Re.ends (next : Leaf → Q → List Q) (bound : ℕ) : Re → Q → List Q
  | empty, q => [q]
  | leaf l, q => next l q
  | cat r t, q => (r.ends next bound q).flatMap (t.ends next bound)
  | alt r t, q => r.ends next bound q ++ t.ends next bound q
  | rep r lo hi, q =>
    (List.range (rounds bound lo hi)).flatMap fun k => iterate (r.ends next bound) (lo + k) [q]

theorem mem_iterate {f : Q → List Q} {n : ℕ} {qs : List Q} {q' : Q} :
    q' ∈ iterate f n qs ↔ ∃ q ∈ qs, Iter (fun p p' => p' ∈ f p) n q q' := by
  induction n generalizing qs with
  | zero => simp [iterate, Iter]
  | succ n ih =>
    simp only [iterate, ih, List.mem_dedup, List.mem_flatMap, Iter]
    constructor
    · rintro ⟨p, ⟨q, hq, hp⟩, hi⟩
      exact ⟨q, hq, p, hp, hi⟩
    · rintro ⟨q, hq, p, hp, hi⟩
      exact ⟨p, ⟨q, hq, hp⟩, hi⟩

theorem lt_rounds {lo k : ℕ} {hi : Option ℕ} :
    k < rounds bound lo hi ↔ k ≤ bound ∧ ∀ m ∈ hi, lo + k ≤ m := by
  cases hi with
  | none =>
    constructor
    · intro hk
      exact ⟨Nat.le_of_lt_succ hk, by simp⟩
    · intro hk
      exact Nat.lt_succ_of_le hk.1
  | some m =>
    simp only [rounds, Option.mem_some_iff, forall_eq']
    omega

theorem mem_ends {next : Leaf → Q → List Q} (h : ∀ l, Rises rank bound fun q q' => q' ∈ next l q) {r : Re}
    {q q' : Q} : q' ∈ r.ends next bound q ↔ r.Walk (fun l q q' => q' ∈ next l q) q q' := by
  induction r generalizing q q' with
  | empty => simp [Re.ends, Re.Walk, eq_comm]
  | leaf l => rfl
  | cat r t ihr iht => simp only [Re.ends, Re.Walk, List.mem_flatMap, ihr, iht]
  | alt r t ihr iht => simp only [Re.ends, Re.Walk, List.mem_append, ihr, iht]
  | rep r lo hi ih =>
    simp only [Re.ends, Re.Walk, List.mem_flatMap, List.mem_range, mem_iterate, List.mem_singleton,
      exists_eq_left, lt_rounds, ih]
    constructor
    · rintro ⟨k, ⟨-, hhi⟩, hi⟩
      exact ⟨lo + k, Nat.le_add_right lo k, hhi, hi⟩
    · rintro ⟨n, hlo, hhi, hi⟩
      obtain ⟨d, rfl⟩ := Nat.exists_eq_add_of_le hlo
      obtain ⟨k, hkd, hkb, hk⟩ := hi.cap (Re.Walk.rises h)
      exact ⟨k, ⟨hkb, fun m hm => (Nat.add_le_add_left hkd lo).trans (hhi m hm)⟩, hk⟩

end Walk

section Subject

def lineStart (s : List UInt8) (i : ℕ) : Bool :=
  i = 0 ∨ s[i - 1]? = some newline

def lineEnd (s : List UInt8) (i : ℕ) : Bool :=
  i = s.length ∨ s[i]? = some newline

/-- What a leaf can do at a position of the subject. -/
def next (s : List UInt8) : Leaf → ℕ → List ℕ
  | .atom a, i => if s[i]?.any a.accepts then [i + 1] else []
  | .bol, i => if lineStart s i then [i] else []
  | .eol, i => if lineEnd s i then [i] else []

/-- The bytes of `s` from position `i` to position `j` match. -/
def Re.Matches (r : Re) (s : List UInt8) : ℕ → ℕ → Prop :=
  r.Walk fun l i j => j ∈ next s l i

def regexec (r : Re) (s : List UInt8) : Bool :=
  (List.range (s.length + 1)).any fun i => r.ends (next s) s.length i ≠ []

variable {s : List UInt8} {r : Re} {i j : ℕ}

theorem mem_next_atom {a : Atom} :
    j ∈ next s (.atom a) i ↔ (∃ c, s[i]? = some c ∧ a.accepts c) ∧ j = i + 1 := by
  simp [next, Option.any_eq_true]

theorem mem_next_bol : j ∈ next s .bol i ↔ (i = 0 ∨ s[i - 1]? = some newline) ∧ j = i := by
  simp [next, lineStart]

theorem mem_next_eol : j ∈ next s .eol i ↔ (i = s.length ∨ s[i]? = some newline) ∧ j = i := by
  simp [next, lineEnd]

theorem next_rises (s : List UInt8) (l : Leaf) : Rises id s.length fun i j => j ∈ next s l i := by
  intro i j hj
  cases l with
  | atom a =>
    obtain ⟨⟨c, hc, -⟩, rfl⟩ := mem_next_atom.mp hj
    have hlt := (List.getElem?_eq_some_iff.mp hc).1
    exact .inr ⟨Nat.lt_succ_self i, hlt⟩
  | bol => exact .inl (mem_next_bol.mp hj).2
  | eol => exact .inl (mem_next_eol.mp hj).2

theorem Re.Matches.le (h : r.Matches s i j) : i ≤ j := by
  rcases Re.Walk.rises (next_rises s) i j h with rfl | hlt
  · exact Nat.le_refl j
  · exact hlt.1.le

theorem regexec_iff : regexec r s ↔ ∃ i ≤ s.length, ∃ j, r.Matches s i j := by
  simp only [regexec, List.any_eq_true, List.mem_range, Nat.lt_succ_iff, decide_eq_true_eq]
  constructor
  · rintro ⟨i, hi, hne⟩
    obtain ⟨j, hj⟩ := List.exists_mem_of_ne_nil _ hne
    exact ⟨i, hi, j, (mem_ends (next_rises s)).mp hj⟩
  · rintro ⟨i, hi, j, hj⟩
    exact ⟨i, hi, List.ne_nil_of_mem ((mem_ends (next_rises s)).mpr hj)⟩

end Subject

end Ere
