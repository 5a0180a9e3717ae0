import CIS415.MListResize

/-!
# Tables with distinct keys

Every table that `ml_add` builds holds each entry in the bucket of its hash value and no key twice.
Such a table is the set of its entries: `lookup` finds an entry by its key, `push` adds one, and
`grow` drops the last entry of every new bucket.
-/

namespace CIS415.MList

open MEntry

/-- Finding by a key that no two members share. -/
theorem find?_key_eq_some {V κ : Type} [DecidableEq κ] {f : V → κ} {l : List V}
    (hn : (l.map f).Nodup) (k : κ) (v : V) :
    l.find? (fun e => decide (f e = k)) = some v ↔ v ∈ l ∧ f v = k := by
  constructor
  · intro h
    exact ⟨List.mem_of_find?_eq_some h, of_decide_eq_true (List.find?_some h :)⟩
  · rintro ⟨hv, rfl⟩
    cases h : l.find? fun e => decide (f e = f v) with
    | none =>
      have hnone := List.find?_eq_none.mp h v hv
      simp at hnone
    | some w =>
      have hw : f w = f v := of_decide_eq_true (List.find?_some h :)
      rw [List.inj_on_of_nodup_map hn (List.mem_of_find?_eq_some h) hv hw]

theorem mem_dropLast_iff {V : Type} {l : List V} (hn : l.Nodup) (v : V) :
    v ∈ l.dropLast ↔ v ∈ l ∧ l.getLast? ≠ some v := by
  rcases List.eq_nil_or_concat l with rfl | ⟨l, w, rfl⟩
  · simp
  · rw [List.concat_eq_append] at hn ⊢
    have hw : w ∉ l := fun hw => (List.nodup_append.mp hn).2.2 w hw w (by simp) rfl
    rw [List.dropLast_concat, List.getLast?_concat, List.mem_append, List.mem_singleton]
    constructor
    · intro hv
      refine ⟨Or.inl hv, ?_⟩
      intro he
      obtain rfl := Option.some.inj he
      exact hw hv
    · rintro ⟨hv | rfl, hne⟩
      · exact hv
      · exact absurd rfl hne

def keyOf (e : MEntryPtr) : CString × CString × Int32 :=
  key e.deref

variable {t : Table} {me : MEntry} {p e : MEntryPtr} {n : ℕ}

namespace Table

structure WellFormed (t : Table) : Prop where
  pos : 0 < t.size
  hash : ∀ j, ∀ e ∈ t.bucket j, meHash e.deref t.size = j
  nodup : ∀ j, ((t.bucket j).map keyOf).Nodup

theorem wellFormed_empty (h : 0 < n) : WellFormed (empty n) := by
  constructor
  · exact h
  · intro j e he
    cases he
  · intro j
    exact List.nodup_nil

theorem WellFormed.mem_entries (h : WellFormed t) :
    e ∈ t.entries ↔ e ∈ t.bucket (meHash e.deref t.size) := by
  unfold entries
  rw [List.mem_flatMap]
  constructor
  · rintro ⟨j, -, he⟩
    rw [h.hash j e he]
    exact he
  · intro he
    exact ⟨_, List.mem_range.mpr (meHash_lt e.deref h.pos), he⟩

theorem WellFormed.entries_nodup (h : WellFormed t) : (t.entries.map keyOf).Nodup := by
  unfold entries
  rw [List.map_flatMap, List.nodup_flatMap]
  constructor
  · intro j _
    exact h.nodup j
  · apply List.Pairwise.imp_of_mem _ List.nodup_range
    intro i j _ _ hij k hi hj
    obtain ⟨e, he, rfl⟩ := List.mem_map.mp hi
    obtain ⟨d, hd, hk⟩ := List.mem_map.mp hj
    apply hij
    rw [← h.hash i e he, ← h.hash j d hd]
    exact (meHash_congr hk t.size).symm

theorem meCompare_decide (e : MEntryPtr) (me : MEntry) :
    decide (meCompare e.deref me = 0) = decide (keyOf e = key me) := by
  rw [Bool.eq_iff_iff, decide_eq_true_eq, decide_eq_true_eq]
  exact meCompare_eq_zero

theorem WellFormed.lookup_eq_some (h : WellFormed t) :
    t.lookup me = some e ↔ e ∈ t.entries ∧ keyOf e = key me := by
  unfold lookup
  simp only [meCompare_decide]
  rw [find?_key_eq_some (h.nodup _), h.mem_entries]
  constructor
  · rintro ⟨he, hk⟩
    rw [meHash_congr hk t.size]
    exact ⟨he, hk⟩
  · rintro ⟨he, hk⟩
    rw [meHash_congr hk t.size] at he
    exact ⟨he, hk⟩

theorem WellFormed.lookup_eq_none (h : WellFormed t) :
    t.lookup me = none ↔ ∀ e ∈ t.entries, keyOf e ≠ key me := by
  constructor
  · intro hnone e he hk
    have hsome := h.lookup_eq_some.mpr ⟨he, hk⟩
    rw [hnone] at hsome
    cases hsome
  · intro hall
    cases hf : t.lookup me with
    | none => rfl
    | some e =>
      obtain ⟨he, hk⟩ := h.lookup_eq_some.mp hf
      exact absurd hk (hall e he)

theorem bucket_push_self (t : Table) (p : MEntryPtr) :
    (t.push p).bucket (meHash p.deref t.size) = t.bucket (meHash p.deref t.size) ++ [p] :=
  Function.update_self _ _ _

theorem bucket_push_of_ne {j : ℕ} (t : Table) (p : MEntryPtr) (hj : j ≠ meHash p.deref t.size) :
    (t.push p).bucket j = t.bucket j :=
  Function.update_of_ne hj _ _

theorem mem_bucket_push {j : ℕ} :
    e ∈ (t.push p).bucket j ↔ e ∈ t.bucket j ∨ (e = p ∧ j = meHash p.deref t.size) := by
  by_cases hj : j = meHash p.deref t.size
  · subst hj
    rw [bucket_push_self]
    simp
  · rw [bucket_push_of_ne t p hj]
    simp [hj]

theorem WellFormed.push (h : WellFormed t) (hp : t.lookup p.deref = none) :
    WellFormed (t.push p) := by
  constructor
  · exact h.pos
  · intro j e he
    change meHash e.deref t.size = j
    rcases mem_bucket_push.mp he with he | ⟨rfl, rfl⟩
    · exact h.hash j e he
    · rfl
  · intro j
    by_cases hj : j = meHash p.deref t.size
    · subst hj
      rw [bucket_push_self, List.map_append, List.nodup_append]
      refine ⟨h.nodup _, List.nodup_singleton _, ?_⟩
      intro k hk k' hk' he
      obtain ⟨e, hmem, rfl⟩ := List.mem_map.mp hk
      rw [List.map_singleton, List.mem_singleton] at hk'
      have hent : e ∈ t.entries := by
        rw [h.mem_entries, h.hash _ e hmem]
        exact hmem
      exact h.lookup_eq_none.mp hp e hent (he.trans hk')
    · rw [bucket_push_of_ne t p hj]
      exact h.nodup j

theorem WellFormed.mem_entries_push (h : WellFormed t) (hp : t.lookup p.deref = none) :
    e ∈ (t.push p).entries ↔ e ∈ t.entries ∨ e = p := by
  rw [(h.push hp).mem_entries, mem_bucket_push, h.mem_entries]
  change _ ∨ (_ ∧ meHash e.deref t.size = _) ↔ _
  constructor
  · rintro (he | ⟨rfl, -⟩)
    · exact Or.inl he
    · exact Or.inr rfl
  · rintro (he | rfl)
    · exact Or.inl he
    · exact Or.inr ⟨rfl, rfl⟩

theorem WellFormed.nodup_entries (h : WellFormed t) : t.entries.Nodup :=
  List.Nodup.of_map keyOf h.entries_nodup

theorem WellFormed.entries_push (h : WellFormed t) (hp : t.lookup p.deref = none) :
    (t.push p).entries.Perm (p :: t.entries) := by
  have hnew : p ∉ t.entries := fun hmem => h.lookup_eq_none.mp hp p hmem rfl
  rw [List.perm_ext_iff_of_nodup (h.push hp).nodup_entries
    (List.nodup_cons.mpr ⟨hnew, h.nodup_entries⟩)]
  intro e
  rw [h.mem_entries_push hp, List.mem_cons, or_comm]

/-- The entries that `resize` moves to bucket `j` of the new table. -/
def moved (t : Table) (j : ℕ) : List MEntryPtr :=
  t.entries.filter fun e => decide (meHash e.deref (t.size * 2) = j)

theorem mem_moved {j : ℕ} : e ∈ t.moved j ↔ e ∈ t.entries ∧ meHash e.deref (t.size * 2) = j := by
  unfold moved
  rw [List.mem_filter, decide_eq_true_eq]

theorem bucket_grow (t : Table) (j : ℕ) : t.grow.bucket j = (t.moved j).dropLast := rfl

theorem WellFormed.moved_nodup (h : WellFormed t) (j : ℕ) : ((t.moved j).map keyOf).Nodup :=
  h.entries_nodup.sublist (List.filter_sublist.map keyOf)

theorem WellFormed.grow (h : WellFormed t) : WellFormed t.grow := by
  constructor
  · exact Nat.mul_pos h.pos Nat.two_pos
  · intro j e he
    exact (mem_moved.mp ((List.dropLast_sublist _).subset he)).2
  · intro j
    exact (h.moved_nodup j).sublist ((List.dropLast_sublist _).map keyOf)

/-- `resize` loses the last entry it moves to each bucket. -/
def Dropped (t : Table) (e : MEntryPtr) : Prop :=
  (t.moved (meHash e.deref (t.size * 2))).getLast? = some e

instance (t : Table) (e : MEntryPtr) : Decidable (t.Dropped e) :=
  inferInstanceAs (Decidable (_ = _))

theorem WellFormed.mem_entries_grow (h : WellFormed t) :
    e ∈ t.grow.entries ↔ e ∈ t.entries ∧ ¬ t.Dropped e := by
  rw [h.grow.mem_entries, bucket_grow]
  change e ∈ (t.moved (meHash e.deref (t.size * 2))).dropLast ↔ _
  rw [mem_dropLast_iff (List.Nodup.of_map keyOf (h.moved_nodup _)), mem_moved]
  constructor
  · rintro ⟨⟨he, -⟩, hd⟩
    exact ⟨he, hd⟩
  · rintro ⟨he, hd⟩
    exact ⟨⟨he, rfl⟩, hd⟩

/-- Growing splits the entries into those that stay and those that are lost. -/
theorem WellFormed.entries_grow (h : WellFormed t) :
    t.entries.Perm (t.grow.entries ++ t.entries.filter fun e => decide (t.Dropped e)) := by
  have hstay : t.grow.entries.Perm (t.entries.filter fun e => !decide (t.Dropped e)) := by
    refine (List.perm_ext_iff_of_nodup h.grow.nodup_entries (h.nodup_entries.filter _)).mpr ?_
    intro e
    rw [h.mem_entries_grow, List.mem_filter, Bool.not_eq_true', decide_eq_false_iff_not]
  have hsplit := List.filter_append_perm (fun e => decide (t.Dropped e)) t.entries
  exact hsplit.symm.trans (List.perm_append_comm.trans (hstay.symm.append_right _))

theorem exists_dropped (h : e ∈ t.entries) : ∃ d ∈ t.entries, t.Dropped d := by
  have hmem : e ∈ t.moved (meHash e.deref (t.size * 2)) := mem_moved.mpr ⟨h, rfl⟩
  obtain ⟨d, hd⟩ : ∃ d, (t.moved (meHash e.deref (t.size * 2))).getLast? = some d :=
    ⟨_, List.getLast?_eq_some_getLast (List.ne_nil_of_mem hmem)⟩
  obtain ⟨hd', hh⟩ := mem_moved.mp (List.mem_of_getLast? hd)
  refine ⟨d, hd', ?_⟩
  unfold Dropped
  rw [hh]
  exact hd

theorem add_of_lookup_none (h : t.lookup p.deref = none) :
    t.add p = if t.size < (t.bucket (meHash p.deref t.size)).length then (t.push p).grow
      else t.push p := by
  rw [Table.add, h, Option.isSome_none, if_neg Bool.false_ne_true]

theorem WellFormed.add (h : WellFormed t) (p : MEntryPtr) : WellFormed (t.add p) := by
  unfold Table.add
  by_cases hp : (t.lookup p.deref).isSome
  · rw [if_pos hp]
    exact h
  · rw [if_neg hp]
    have hpush := h.push (Option.not_isSome_iff_eq_none.mp hp)
    split
    · exact hpush.grow
    · exact hpush

/-- Adding brings in nothing but the new entry. -/
theorem WellFormed.mem_of_mem_add (h : WellFormed t) (he : e ∈ (t.add p).entries) :
    e ∈ t.entries ∨ e = p := by
  unfold Table.add at he
  by_cases hp : (t.lookup p.deref).isSome
  · rw [if_pos hp] at he
    exact Or.inl he
  · rw [if_neg hp] at he
    have hnone := Option.not_isSome_iff_eq_none.mp hp
    apply (h.mem_entries_push hnone).mp
    split at he
    · exact ((h.push hnone).mem_entries_grow.mp he).1
    · exact he

end Table

end CIS415.MList
