import CIS415.FindduplTable

/-!
# What finddupl prints

The program should print one block for each record whose key an earlier record has, with the first
such record. It does so as long as no record comes with a key whose entry an earlier resize of the
table has dropped. A dropped entry makes the output shorter, since nothing is ever printed that should
not be.
-/

namespace CIS415.Finddupl

open Pointer MEntry MList

abbrev Key := CString × CString × Int32

/-- The block that a record asks for after the records `seen`. -/
def expectedBlock (seen : List MEntry) (e : MEntry) : List (List UInt8) :=
  match seen.find? fun f => decide (key f = key e) with
  | some f => block e f
  | none => []

def expected (seen : List MEntry) : List MEntry → List (List UInt8)
  | [] => []
  | e :: es => expectedBlock seen e ++ expected (seen ++ [e]) es

/-- The table, the keys of the entries that resizes have dropped, and the number of records read. -/
structure Trace where
  table : Table
  lost : List Key
  count : ℕ

namespace Trace

def start : Trace :=
  ⟨.empty buckets, [], 0⟩

def droppedKeys (t : Table) : List Key :=
  (t.entries.filter fun e => decide (t.Dropped e)).map keyOf

/-- The record has a new key, and its bucket is full, so that `ml_add` calls `resize`. -/
def Overfull (s : Trace) (e : MEntry) : Prop :=
  s.table.lookup e = none ∧ s.table.size < (s.table.bucket (meHash e s.table.size)).length

instance (s : Trace) (e : MEntry) : Decidable (s.Overfull e) :=
  inferInstanceAs (Decidable (_ ∧ _))

def read (s : Trace) (e : MEntry) : Trace where
  table := s.table.add ⟨s.count, e⟩
  lost := if s.Overfull e then s.lost ++ droppedKeys (s.table.push ⟨s.count, e⟩) else s.lost
  count := s.count + 1

def printed (s : Trace) (e : MEntry) : List (List UInt8) :=
  match s.table.lookup e with
  | some f => block e f.deref
  | none => []

def output (s : Trace) : List MEntry → List (List UInt8)
  | [] => []
  | e :: es => s.printed e ++ (s.read e).output es

end Trace

/-- The keys that the resizes caused by the records `es` have dropped. -/
def lostKeys (es : List MEntry) : List Key :=
  (es.foldl Trace.read .start).lost

structure Follows (v : Memory.Trace (Table × ℕ)) (u : Trace) : Prop where
  table : v.table.1 = u.table
  lost : v.lost = u.lost.length
  count : v.count = u.count
  nodes : v.table.2 + buckets = u.lost.length + u.table.size

section

open Memory

variable {v : Memory.Trace (Table × ℕ)} {u : Trace} {e : MEntry}

theorem Follows.read_found (h : Follows v u) {q : MEntryPtr} (hfound : u.table.lookup e = some q) :
    Follows (tables.read v e) (u.read e) := by
  have hadd : u.table.add ⟨u.count, e⟩ = u.table := by
    rw [Table.add, hfound]
    rfl
  have hroom : ¬ u.Overfull e := by
    rintro ⟨hnone, -⟩
    rw [hfound] at hnone
    cases hnone
  have hfound' : tables.lookup v.table e = some q := by
    rw [← h.table] at hfound
    exact hfound
  rw [tables.read_found hfound', Trace.read, hadd, if_neg hroom]
  exact ⟨h.table, h.lost, congrArg (· + 1) h.count, h.nodes⟩

theorem Follows.read_new (h : Follows v u) (hnone : u.table.lookup e = none) :
    Follows (tables.read v e) (u.read e) := by
  obtain ⟨⟨table, nodes⟩, lost, count⟩ := v
  obtain ⟨rfl, rfl, rfl, hnodes⟩ := h
  rw [tables.read_new (u := ⟨(u.table, nodes), u.lost.length, u.count⟩) hnone, Trace.read]
  change Follows ⟨(u.table.add ⟨u.count, e⟩, nodes + strayed u.table ⟨u.count, e⟩),
    u.lost.length + (dropped u.table ⟨u.count, e⟩).length, _⟩ _
  rw [strayed, Table.add_of_lookup_none (p := ⟨u.count, e⟩) hnone, dropped]
  by_cases hfull : u.table.size < (u.table.bucket (meHash e u.table.size)).length
  · rw [if_pos hfull, if_pos hfull, if_pos hfull, if_pos (show u.Overfull e from ⟨hnone, hfull⟩)]
    have hlost : (u.lost ++ Trace.droppedKeys (u.table.push ⟨u.count, e⟩)).length = u.lost.length +
        (((u.table.push ⟨u.count, e⟩).entries.filter
          fun e' => decide ((u.table.push ⟨u.count, e⟩).Dropped e')).length) := by
      rw [List.length_append, Trace.droppedKeys, List.length_map]
    refine ⟨rfl, hlost.symm, rfl, ?_⟩
    change nodes + (u.table.size + _) + buckets = (u.lost ++ _).length + u.table.size * 2
    change nodes + buckets = u.lost.length + u.table.size at hnodes
    rw [hlost]
    omega
  · rw [if_neg hfull, if_neg hfull, if_neg hfull, if_neg fun hover : u.Overfull e => hfull hover.2]
    exact ⟨rfl, rfl, rfl, hnodes⟩

theorem Follows.read (h : Follows v u) (e : MEntry) : Follows (tables.read v e) (u.read e) := by
  cases hfound : u.table.lookup e with
  | some q => exact h.read_found hfound
  | none => exact h.read_new hfound

theorem Follows.output_eq (h : Follows v u) (es : List MEntry) :
    tables.output v es = u.output es ∧
      Follows (es.foldl tables.read v) (es.foldl Trace.read u) := by
  induction es generalizing v u with
  | nil => exact ⟨rfl, h⟩
  | cons e es ih =>
    obtain ⟨hout, hfollows⟩ := ih (h.read e)
    have hprinted : tables.printed v e = u.printed e := by
      rw [Trace.printed, ← h.table]
      rfl
    rw [Keeping.output, Trace.output, hprinted, hout]
    exact ⟨rfl, hfollows⟩

theorem follows_start : Follows noEntries .start :=
  ⟨rfl, rfl, rfl, rfl⟩

end

theorem finddupl_eq (rs : List Record) :
    finddupl Schedule.always (rs.flatMap Record.bytes) =
      some (Trace.start.output (rs.map Record.entry)) := by
  rw [Memory.finddupl_output, (follows_start.output_eq _).1]

variable {seen es : List MEntry} {s : Trace} {e : MEntry} {k : Key}

theorem mem_keys_snoc : k ∈ (seen ++ [e]).map key ↔ k ∈ seen.map key ∨ k = key e := by
  simp

theorem find?_key_none : seen.find? (fun f => decide (key f = k)) = none ↔ k ∉ seen.map key := by
  rw [List.find?_eq_none]
  constructor
  · intro h hk
    obtain ⟨f, hf, hkf⟩ := List.mem_map.mp hk
    exact h f hf (decide_eq_true hkf)
  · intro h f hf hd
    exact h (List.mem_map.mpr ⟨f, hf, of_decide_eq_true hd⟩)

structure Keeps (seen : List MEntry) (s : Trace) : Prop where
  wellFormed : s.table.WellFormed
  mem_seen : ∀ x ∈ s.table.entries, keyOf x ∈ seen.map key

theorem Keeps.read (h : Keeps seen s) (e : MEntry) : Keeps (seen ++ [e]) (s.read e) := by
  refine ⟨h.wellFormed.add _, ?_⟩
  intro x hx
  rw [mem_keys_snoc]
  rcases h.wellFormed.mem_of_mem_add hx with hx | rfl
  · exact Or.inl (h.mem_seen x hx)
  · exact Or.inr rfl

theorem Keeps.printed_le (h : Keeps seen s) (e : MEntry) :
    (s.printed e).length ≤ (expectedBlock seen e).length := by
  unfold Trace.printed
  cases hfound : s.table.lookup e with
  | none => exact Nat.zero_le _
  | some x =>
    obtain ⟨hx, hk⟩ := h.wellFormed.lookup_eq_some.mp hfound
    have hseen := hk ▸ h.mem_seen x hx
    unfold expectedBlock
    cases hfirst : seen.find? fun f => decide (key f = key e) with
    | none => exact absurd hseen (find?_key_none.mp hfirst)
    | some f => exact Nat.le_refl _

theorem Keeps.output_le (h : Keeps seen s) (es : List MEntry) :
    (s.output es).length ≤ (expected seen es).length := by
  induction es generalizing seen s with
  | nil => exact Nat.le_refl 0
  | cons e es ih =>
    rw [Trace.output, expected, List.length_append, List.length_append]
    exact Nat.add_le_add (h.printed_le e) (ih (h.read e))

/-- As long as no lost key came again: the table has the first record of every other key seen. -/
structure First (seen : List MEntry) (s : Trace) : Prop where
  wellFormed : s.table.WellFormed
  first : ∀ x ∈ s.table.entries, seen.find? (fun f => decide (key f = keyOf x)) = some x.deref
  cover : ∀ k ∈ seen.map key, k ∈ s.lost ∨ ∃ x ∈ s.table.entries, keyOf x = k
  apart : ∀ x ∈ s.table.entries, keyOf x ∉ s.lost
  lost_seen : ∀ k ∈ s.lost, k ∈ seen.map key

theorem first_start : First [] .start := by
  have hnone : ∀ x, x ∉ Trace.start.table.entries := by
    intro x hx
    simp [Trace.start, Table.entries, Table.empty] at hx
  constructor
  · exact Table.wellFormed_empty (by decide)
  · intro x hx
    exact absurd hx (hnone x)
  · intro k hk
    cases hk
  · intro x hx
    exact absurd hx (hnone x)
  · intro k hk
    cases hk

theorem First.keeps (h : First seen s) : Keeps seen s := by
  refine ⟨h.wellFormed, ?_⟩
  intro x hx
  by_contra hn
  have hfirst := h.first x hx
  rw [find?_key_none.mpr hn] at hfirst
  cases hfirst

theorem First.first_snoc (h : First seen s) (e : MEntry) {x : MEntryPtr}
    (hx : x ∈ s.table.entries) :
    (seen ++ [e]).find? (fun f => decide (key f = keyOf x)) = some x.deref := by
  rw [List.find?_append, h.first x hx]
  rfl

theorem mem_droppedKeys {t : Table} {x : MEntryPtr} (ht : t.WellFormed) (hx : x ∈ t.entries) :
    keyOf x ∈ Trace.droppedKeys t ↔ t.Dropped x := by
  unfold Trace.droppedKeys
  rw [List.mem_map]
  constructor
  · rintro ⟨d, hd, hk⟩
    rw [List.mem_filter, decide_eq_true_eq] at hd
    rw [← List.inj_on_of_nodup_map ht.entries_nodup hd.1 hx hk]
    exact hd.2
  · intro hd
    exact ⟨x, List.mem_filter.mpr ⟨hx, decide_eq_true hd⟩, rfl⟩

theorem First.not_seen (h : First seen s) (he : key e ∉ s.lost) (hnone : s.table.lookup e = none) :
    key e ∉ seen.map key := by
  intro hmem
  rcases h.cover _ hmem with hl | ⟨x, hx, hk⟩
  · exact he hl
  · exact h.wellFormed.lookup_eq_none.mp hnone x hx hk

theorem First.push (h : First seen s) (he : key e ∉ s.lost) (hnone : s.table.lookup e = none) :
    First (seen ++ [e]) ⟨s.table.push ⟨s.count, e⟩, s.lost, s.count + 1⟩ := by
  have hmem := fun x : MEntryPtr => h.wellFormed.mem_entries_push (p := ⟨s.count, e⟩) (e := x) hnone
  refine ⟨h.wellFormed.push hnone, ?_, ?_, ?_, ?_⟩
  · intro x hx
    rcases (hmem x).mp hx with hx | rfl
    · exact h.first_snoc e hx
    · have hnew := find?_key_none.mpr (h.not_seen he hnone)
      change List.find? (fun f => decide (key f = key e)) _ = some e
      rw [List.find?_append, hnew]
      simp
  · intro k hk
    rcases mem_keys_snoc.mp hk with hk | rfl
    · rcases h.cover k hk with hl | ⟨x, hx, hkx⟩
      · exact Or.inl hl
      · exact Or.inr ⟨x, (hmem x).mpr (Or.inl hx), hkx⟩
    · exact Or.inr ⟨_, (hmem _).mpr (Or.inr rfl), rfl⟩
  · intro x hx
    rcases (hmem x).mp hx with hx | rfl
    · exact h.apart x hx
    · exact he
  · intro k hk
    exact mem_keys_snoc.mpr (Or.inl (h.lost_seen k hk))

theorem First.grow (h : First seen s) :
    First seen ⟨s.table.grow, s.lost ++ Trace.droppedKeys s.table, s.count⟩ := by
  have hmem := fun x : MEntryPtr => h.wellFormed.mem_entries_grow (e := x)
  refine ⟨h.wellFormed.grow, ?_, ?_, ?_, ?_⟩
  · intro x hx
    exact h.first x ((hmem x).mp hx).1
  · intro k hk
    rcases h.cover k hk with hl | ⟨x, hx, rfl⟩
    · exact Or.inl (List.mem_append_left _ hl)
    · by_cases hd : s.table.Dropped x
      · exact Or.inl (List.mem_append_right _ ((mem_droppedKeys h.wellFormed hx).mpr hd))
      · exact Or.inr ⟨x, (hmem x).mpr ⟨hx, hd⟩, rfl⟩
  · intro x hx hl
    obtain ⟨hx, hd⟩ := (hmem x).mp hx
    rcases List.mem_append.mp hl with hl | hl
    · exact h.apart x hx hl
    · exact hd ((mem_droppedKeys h.wellFormed hx).mp hl)
  · intro k hk
    rcases List.mem_append.mp hk with hk | hk
    · exact h.lost_seen k hk
    · obtain ⟨x, hx, rfl⟩ := List.mem_map.mp hk
      exact h.keeps.mem_seen x (List.mem_of_mem_filter hx)

theorem First.read (h : First seen s) (he : key e ∉ s.lost) :
    First (seen ++ [e]) (s.read e) := by
  cases hfound : s.table.lookup e with
  | some x =>
    obtain ⟨hx, hk⟩ := h.wellFormed.lookup_eq_some.mp hfound
    have hread : s.read e = ⟨s.table, s.lost, s.count + 1⟩ := by
      have hover : ¬ s.Overfull e := fun ho => by
        rw [Trace.Overfull, hfound] at ho
        cases ho.1
      rw [Trace.read, if_neg hover, Table.add, hfound]
      rfl
    rw [hread]
    refine ⟨h.wellFormed, fun y hy => h.first_snoc e hy, ?_, h.apart, ?_⟩
    · intro k hk'
      rcases mem_keys_snoc.mp hk' with hk' | rfl
      · exact h.cover k hk'
      · exact Or.inr ⟨x, hx, hk⟩
    · intro k hk'
      exact mem_keys_snoc.mpr (Or.inl (h.lost_seen k hk'))
  | none =>
    have hpush := h.push he hfound
    by_cases hover : s.Overfull e
    · have hread : s.read e = ⟨(s.table.push ⟨s.count, e⟩).grow,
          s.lost ++ Trace.droppedKeys (s.table.push ⟨s.count, e⟩), s.count + 1⟩ := by
        rw [Trace.read, if_pos hover, Table.add, hfound, if_pos hover.2]
        rfl
      rw [hread]
      exact hpush.grow
    · have hfull : ¬ s.table.size < (s.table.bucket (meHash e s.table.size)).length :=
        fun hlt => hover ⟨hfound, hlt⟩
      have hread : s.read e = ⟨s.table.push ⟨s.count, e⟩, s.lost, s.count + 1⟩ := by
        rw [Trace.read, if_neg hover, Table.add, hfound, if_neg hfull]
        rfl
      rw [hread]
      exact hpush

/-- A record whose key is not lost gets the block it asks for. -/
theorem First.printed_eq (h : First seen s) (he : key e ∉ s.lost) :
    s.printed e = expectedBlock seen e := by
  unfold Trace.printed expectedBlock
  cases hfound : s.table.lookup e with
  | some x =>
    obtain ⟨hx, hk⟩ := h.wellFormed.lookup_eq_some.mp hfound
    rw [← hk, h.first x hx]
  | none => rw [find?_key_none.mpr (h.not_seen he hfound)]

/-- A record whose key is lost gets no block, although it asks for one. -/
theorem First.printed_lt (h : First seen s) (he : key e ∈ s.lost) :
    (s.printed e).length < (expectedBlock seen e).length := by
  have hnone : s.table.lookup e = none := by
    rw [h.wellFormed.lookup_eq_none]
    intro x hx hk
    exact h.apart x hx (hk ▸ he)
  have hseen := h.lost_seen _ he
  unfold Trace.printed expectedBlock
  rw [hnone]
  cases hfirst : seen.find? fun f => decide (key f = key e) with
  | none => exact absurd hseen (find?_key_none.mp hfirst)
  | some f => exact Nat.succ_pos _

theorem First.output_eq_iff (h : First seen s) (es : List MEntry) :
    s.output es = expected seen es ↔
      ∀ pre e post, es = pre ++ e :: post → key e ∉ (pre.foldl Trace.read s).lost := by
  induction es generalizing seen s with
  | nil =>
    constructor
    · intro _ pre e post heq
      cases pre <;> cases heq
    · intro _
      rfl
  | cons e es ih =>
    rw [Trace.output, expected]
    by_cases he : key e ∈ s.lost
    · constructor
      · intro heq
        have hlt := h.printed_lt he
        have hle := (h.keeps.read e).output_le es
        have hlen := congrArg List.length heq
        rw [List.length_append, List.length_append] at hlen
        omega
      · intro hall
        exact absurd he (hall [] e es rfl)
    · rw [h.printed_eq he, List.append_cancel_left_eq, ih (h.read he)]
      constructor
      · intro hall pre e' post heq
        cases pre with
        | nil =>
          obtain ⟨rfl, -⟩ := List.cons.inj heq
          exact he
        | cons e₀ pre =>
          obtain ⟨rfl, htail⟩ := List.cons.inj heq
          exact hall pre e' post htail
      · intro hall pre e' post heq
        exact hall (e :: pre) e' post (by rw [heq]; rfl)

/-- On a stream of well-formed records the program prints what they ask for exactly when no record
comes with a key whose entry an earlier resize dropped. -/
theorem finddupl_eq_expected_iff (rs : List Record) :
    finddupl Schedule.always (rs.flatMap Record.bytes) = some (expected [] (rs.map Record.entry)) ↔
      ∀ pre r post, rs = pre ++ r :: post → key r.entry ∉ lostKeys (pre.map Record.entry) := by
  rw [finddupl_eq, Option.some.injEq, first_start.output_eq_iff]
  constructor
  · rintro hall pre r post rfl
    exact hall _ _ (post.map Record.entry) (by rw [List.map_append, List.map_cons])
  · intro hall pre e post heq
    obtain ⟨pre', rest, rfl, rfl, hrest⟩ := List.map_eq_append_iff.mp heq
    obtain ⟨r, post', rfl, rfl, -⟩ := List.map_eq_cons_iff.mp hrest
    exact hall pre' r post' rfl

/-- A record without a name and with the house number `20 * i`. -/
def colliding (i : Fin 22) : Record where
  line1 := [comma]
  line2 := [UInt8.ofNat (48 + 2 * i / 10), UInt8.ofNat (48 + 2 * i % 10), 48]
  line3 := []
  noNewline := by revert i; decide
  noNul := by revert i; decide
  hasComma := by decide
  name_lt := by decide
  zip_lt := by decide
  length_lt := by simp [lines]

/-- The last of 22 such records is dropped at once, so its repetition is not reported. -/
theorem finddupl_misses_repetition :
    finddupl Schedule.always
        (((List.finRange 22).map colliding ++ [colliding 21]).flatMap Record.bytes) ≠
      some (expected [] (((List.finRange 22).map colliding ++ [colliding 21]).map Record.entry)) := by
  rw [finddupl_eq]
  decide +kernel

end CIS415.Finddupl
