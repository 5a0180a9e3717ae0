import CIS415.MListKeys
import CIS415.MListLL
import Mathlib.Data.List.Dedup

/-!
# When the two implementations of mlist.h agree

As long as no call of `ml_add` takes the resize branch, the hash table and the linked list hold the
same entries and answer alike. The first resize loses an entry that the linked list keeps. Which
sequences of calls get there depends on the added entries alone: a bucket of the first table has to
receive its 22nd key.
-/

namespace CIS415.MList

open Pointer MEntry MListLL

variable {t : Table} {l : List MEntryPtr} {p e : MEntryPtr} {ops pre : List Op}

def tableStep (t : Table) : Op → Ret × Table
  | .add me => (.value 1, t.add me)
  | .lookup me => (.entry (t.lookup me.deref), t)

def entriesStep (l : List MEntryPtr) : Op → Ret × List MEntryPtr
  | .add me => (.value 1, listAdd l me)
  | .lookup me => (.entry (listLookup l me.deref), l)

def tableSimulation : Machine.Simulation MList.step tableStep (fun _ _ => True) where
  rel s t := ∃ chain, Stores s.1.nodes s.2 t chain ∧ s.1.sched = Schedule.always
  obs := id
  simulates := by
    rintro ⟨m, ml⟩ t o ⟨chain, h, hsched⟩ -
    cases o with
    | add me =>
      obtain ⟨ml', m', chain', hadd, h', hsched', -⟩ := mlAdd_spec h hsched me
      exact ⟨.value 1, (m', ml'), by simp [MList.step, hadd], rfl, chain', h', hsched'⟩
    | lookup me =>
      have hlookup := mlLookup_spec h me.deref
      exact ⟨_, (m, ml), by rw [MList.step, hlookup]; rfl, rfl, chain, h, hsched⟩

def entriesSimulation : Machine.Simulation MListLL.step entriesStep (fun _ _ => True) where
  rel s l := ∃ as, MListLL.Stores s.1 s.2 as l
  obs := id
  simulates := by
    rintro ⟨m, ml⟩ l o ⟨as, h⟩ -
    cases o with
    | add me =>
      obtain ⟨ml', m', as', hadd, h'⟩ := MListLL.mlAdd_spec h me
      exact ⟨.value 1, (m', ml'), by simp [MListLL.step, hadd], rfl, as', h'⟩
    | lookup me =>
      have hlookup := MListLL.mlLookup_spec h me.deref
      exact ⟨_, (m, ml), by rw [MListLL.step, hlookup]; rfl, rfl, as, h⟩

theorem run_results (ops : List Op) :
    (MList.run Schedule.always ops).map Prod.fst =
      some (Machine.specRun tableStep (.empty buckets) ops).1 := by
  obtain ⟨ml, m, chain, hcreate, hstores, hsched, -⟩ := stores_create
  have h₀ : tableSimulation.rel (m, ml) (.empty buckets) := ⟨chain, hstores, hsched⟩
  obtain ⟨rs, s, hrun, hobs, -⟩ := tableSimulation.run h₀ (Machine.legal_true _ _ ops)
  change rs.map id = _ at hobs
  rw [List.map_id] at hobs
  simp only [MList.run, hcreate, Option.bind_eq_bind, Option.bind_some, hrun, Option.map_some, hobs]

theorem runLL_results (ops : List Op) :
    (MListLL.run Schedule.always ops).map Prod.fst =
      some (Machine.specRun entriesStep [] ops).1 := by
  have h₀ : entriesSimulation.rel
      ((⟨Heap.empty, Schedule.always.rest⟩ : MListLL.Mem), (⟨none, none⟩ : MListLL)) [] :=
    ⟨[], rfl, List.nodup_nil, rfl, rfl⟩
  obtain ⟨rs, s, hrun, hobs, -⟩ := entriesSimulation.run h₀ (Machine.legal_true _ _ ops)
  change rs.map id = _ at hobs
  rw [List.map_id] at hobs
  change ((Machine.run MListLL.step _ ops).map Prod.fst) = _
  rw [hrun, Option.map_some, hobs]

/-- Both implementations run through `ops` and return the same results. -/
def Agree (ops : List Op) : Prop :=
  ∃ rs, (MList.run Schedule.always ops).map Prod.fst = some rs ∧
    (MListLL.run Schedule.always ops).map Prod.fst = some rs

theorem agree_iff (ops : List Op) :
    Agree ops ↔ (Machine.specRun tableStep (.empty buckets) ops).1 =
      (Machine.specRun entriesStep [] ops).1 := by
  unfold Agree
  rw [run_results, runLL_results]
  constructor
  · rintro ⟨rs, ht, hl⟩
    rw [Option.some.inj ht, Option.some.inj hl]
  · intro h
    exact ⟨_, rfl, by rw [h]⟩

def DistinctKeys (l : List MEntryPtr) : Prop :=
  (l.map keyOf).Nodup

theorem listLookup_eq_some (hl : DistinctKeys l) (me : MEntry) :
    listLookup l me = some e ↔ e ∈ l ∧ keyOf e = key me := by
  have hdecide : ∀ e : MEntryPtr,
      decide (meCompare me e.deref = 0) = decide (keyOf e = key me) := by
    intro e
    rw [Bool.eq_iff_iff, decide_eq_true_eq, decide_eq_true_eq, meCompare_eq_zero]
    exact eq_comm
  unfold listLookup
  simp only [hdecide]
  exact find?_key_eq_some hl _ _

theorem listLookup_eq_none (hl : DistinctKeys l) (me : MEntry) :
    listLookup l me = none ↔ ∀ e ∈ l, keyOf e ≠ key me := by
  constructor
  · intro hnone e he hk
    have hsome := (listLookup_eq_some hl me).mpr ⟨he, hk⟩
    rw [hnone] at hsome
    cases hsome
  · intro hall
    cases hf : listLookup l me with
    | none => rfl
    | some e =>
      obtain ⟨he, hk⟩ := (listLookup_eq_some hl me).mp hf
      exact absurd hk (hall e he)

theorem listAdd_distinctKeys (hl : DistinctKeys l) (p : MEntryPtr) :
    DistinctKeys (listAdd l p) := by
  unfold listAdd
  by_cases hp : (listLookup l p.deref).isSome
  · rw [if_pos hp]
    exact hl
  · rw [if_neg hp]
    apply List.nodup_cons.mpr
    refine ⟨?_, hl⟩
    intro hmem
    obtain ⟨e, he, hk⟩ := List.mem_map.mp hmem
    exact (listLookup_eq_none hl p.deref).mp (Option.not_isSome_iff_eq_none.mp hp) e he hk

theorem mem_keys_listAdd (hl : DistinctKeys l) (p : MEntryPtr) (k : CString × CString × Int32) :
    k ∈ (listAdd l p).map keyOf ↔ k ∈ l.map keyOf ∨ k = keyOf p := by
  unfold listAdd
  cases hp : listLookup l p.deref with
  | none => simp [or_comm]
  | some e =>
    obtain ⟨he, hk⟩ := (listLookup_eq_some hl p.deref).mp hp
    rw [Option.isSome_some, if_pos rfl]
    constructor
    · exact Or.inl
    · rintro (h | rfl)
      · exact h
      · exact List.mem_map.mpr ⟨e, he, hk⟩

/-- The table has its first size and the entries of the list. -/
structure Same (t : Table) (l : List MEntryPtr) : Prop where
  wellFormed : t.WellFormed
  size : t.size = buckets
  distinct : DistinctKeys l
  mem : ∀ e, e ∈ t.entries ↔ e ∈ l

theorem same_empty : Same (.empty buckets) [] := by
  refine ⟨Table.wellFormed_empty (by decide), rfl, List.nodup_nil, ?_⟩
  intro e
  simp [Table.entries, Table.empty]

theorem Same.lookup_eq (h : Same t l) (me : MEntry) : t.lookup me = listLookup l me := by
  apply Option.ext
  intro e
  rw [h.wellFormed.lookup_eq_some, listLookup_eq_some h.distinct, h.mem]

theorem Same.add (h : Same t l) (p : MEntryPtr)
    (hp : listLookup l p.deref = none → (t.bucket (meHash p.deref buckets)).length ≤ buckets) :
    Same (t.add p) (listAdd l p) := by
  have hlookup := h.lookup_eq p.deref
  cases hfound : listLookup l p.deref with
  | some d =>
    rw [Table.add, listAdd, hlookup, hfound]
    exact h
  | none =>
    rw [hfound] at hlookup
    have hadd : t.add p = t.push p := by
      rw [Table.add, hlookup, h.size, if_neg (Nat.not_lt.mpr (hp hfound))]
      rfl
    have hl : listAdd l p = p :: l := by
      rw [listAdd, hfound]
      rfl
    refine ⟨h.wellFormed.add p, ?_, listAdd_distinctKeys h.distinct p, ?_⟩
    · rw [hadd]
      exact h.size
    · intro e
      rw [hadd, hl, h.wellFormed.mem_entries_push hlookup, h.mem, List.mem_cons, or_comm]

def added (ops : List Op) : List MEntryPtr :=
  ops.filterMap fun
    | .add me => some me
    | .lookup _ => none

/-- The distinct keys among the added entries whose hash value in a table of `BUCKETS` is `j`. -/
def classKeys (ops : List Op) (j : ℕ) : List (CString × CString × Int32) :=
  (((added ops).filter fun e => decide (meHash e.deref buckets = j)).map keyOf).dedup

/-- No bucket of the first table has to take more than `BUCKETS + 1` entries. -/
def FewPerClass (ops : List Op) : Prop :=
  ∀ j < buckets, (classKeys ops j).length ≤ buckets + 1

instance (ops : List Op) : Decidable (FewPerClass ops) :=
  inferInstanceAs (Decidable (∀ j < buckets, _))

theorem added_append (ops : List Op) (o : Op) : added (ops ++ [o]) = added ops ++ added [o] :=
  List.filterMap_append

theorem classKeys_nodup (ops : List Op) (j : ℕ) : (classKeys ops j).Nodup :=
  List.nodup_dedup _

theorem mem_classKeys {j : ℕ} {k : CString × CString × Int32} :
    k ∈ classKeys ops j ↔ ∃ e ∈ added ops, meHash e.deref buckets = j ∧ keyOf e = k := by
  unfold classKeys
  rw [List.mem_dedup, List.mem_map]
  constructor
  · rintro ⟨e, he, hk⟩
    rw [List.mem_filter, decide_eq_true_eq] at he
    exact ⟨e, he.1, he.2, hk⟩
  · rintro ⟨e, he, hj, hk⟩
    exact ⟨e, List.mem_filter.mpr ⟨he, decide_eq_true hj⟩, hk⟩

theorem classKeys_length_le {pre : List Op} (h : added pre ⊆ added ops) (j : ℕ) :
    (classKeys pre j).length ≤ (classKeys ops j).length := by
  apply List.Subperm.length_le
  apply List.subperm_of_subset (classKeys_nodup _ _)
  intro k hk
  obtain ⟨e, he, hj, hke⟩ := mem_classKeys.mp hk
  exact mem_classKeys.mpr ⟨e, h he, hj, hke⟩

theorem FewPerClass.of_subset {pre : List Op} (h : FewPerClass ops)
    (hpre : added pre ⊆ added ops) : FewPerClass pre := by
  intro j hj
  exact (classKeys_length_le hpre j).trans (h j hj)

theorem FewPerClass.of_append {o : Op} (h : FewPerClass (ops ++ [o])) : FewPerClass ops := by
  apply h.of_subset
  rw [added_append]
  exact List.subset_append_left _ _

theorem FewPerClass.lookup (h : FewPerClass ops) (me : MEntryPtr) :
    FewPerClass (ops ++ [.lookup me]) := by
  apply h.of_subset
  rw [added_append]
  exact fun e he => by simpa [added] using he

def SameKeys (ops : List Op) (l : List MEntryPtr) : Prop :=
  ∀ k, k ∈ l.map keyOf ↔ k ∈ (added ops).map keyOf

theorem SameKeys.add (h : SameKeys ops l) (hl : DistinctKeys l) (p : MEntryPtr) :
    SameKeys (ops ++ [.add p]) (listAdd l p) := by
  intro k
  rw [mem_keys_listAdd hl, h k, added_append, List.map_append, List.mem_append]
  change _ ↔ _ ∨ k ∈ [keyOf p]
  rw [List.mem_singleton]

theorem SameKeys.lookup (h : SameKeys ops l) (me : MEntryPtr) :
    SameKeys (ops ++ [.lookup me]) l := by
  intro k
  rw [h k, added_append]
  change _ ↔ k ∈ (added ops ++ []).map keyOf
  rw [List.append_nil]

/-- A bucket of the first table holds one entry for each key of its class. -/
theorem Same.bucket_length (h : Same t l) (hk : SameKeys ops l) (j : ℕ) :
    (t.bucket j).length = (classKeys ops j).length := by
  have hperm : ((t.bucket j).map keyOf).Perm (classKeys ops j) := by
    apply (List.perm_ext_iff_of_nodup (h.wellFormed.nodup j) (classKeys_nodup _ _)).mpr
    intro k
    rw [mem_classKeys, List.mem_map]
    constructor
    · rintro ⟨e, he, rfl⟩
      have hj := h.wellFormed.hash j e he
      have hent : e ∈ t.entries := by
        rw [h.wellFormed.mem_entries, hj]
        exact he
      obtain ⟨d, hd, hkey⟩ := List.mem_map.mp ((hk (keyOf e)).mp
        (List.mem_map_of_mem ((h.mem e).mp hent)))
      refine ⟨d, hd, ?_, hkey⟩
      rw [meHash_congr hkey, ← h.size]
      exact hj
    · rintro ⟨d, hd, hj, rfl⟩
      obtain ⟨e, he, hkey⟩ := List.mem_map.mp ((hk (keyOf d)).mpr (List.mem_map_of_mem hd))
      have hent := h.wellFormed.mem_entries.mp ((h.mem e).mpr he)
      rw [meHash_congr hkey, h.size, hj] at hent
      exact ⟨e, hent, hkey⟩
  rw [← hperm.length_eq, List.length_map]

theorem classKeys_add_length {p : MEntryPtr} (hp : keyOf p ∉ (added ops).map keyOf) :
    (classKeys (ops ++ [.add p]) (meHash p.deref buckets)).length =
      (classKeys ops (meHash p.deref buckets)).length + 1 := by
  have hnew : keyOf p ∉ classKeys ops (meHash p.deref buckets) := by
    intro hmem
    obtain ⟨e, he, -, hk⟩ := mem_classKeys.mp hmem
    exact hp (hk ▸ List.mem_map_of_mem he)
  have hperm : (classKeys (ops ++ [.add p]) (meHash p.deref buckets)).Perm
      (keyOf p :: classKeys ops (meHash p.deref buckets)) := by
    apply (List.perm_ext_iff_of_nodup (classKeys_nodup _ _)
      (List.nodup_cons.mpr ⟨hnew, classKeys_nodup _ _⟩)).mpr
    intro k
    rw [List.mem_cons, mem_classKeys, mem_classKeys, added_append]
    change (∃ e ∈ added ops ++ [p], _) ↔ _
    constructor
    · rintro ⟨e, he, hj, hk⟩
      rcases List.mem_append.mp he with he | he
      · exact Or.inr ⟨e, he, hj, hk⟩
      · obtain rfl := List.mem_singleton.mp he
        exact Or.inl hk.symm
    · rintro (rfl | ⟨e, he, hj, hk⟩)
      · exact ⟨p, by simp, rfl, rfl⟩
      · exact ⟨e, List.mem_append_left _ he, hj, hk⟩
  rw [hperm.length_eq, List.length_cons]

theorem classKeys_add_length_le {p : MEntryPtr} {j : ℕ}
    (h : keyOf p ∈ (added ops).map keyOf ∨ meHash p.deref buckets ≠ j) :
    (classKeys (ops ++ [.add p]) j).length ≤ (classKeys ops j).length := by
  apply List.Subperm.length_le
  apply List.subperm_of_subset (classKeys_nodup _ _)
  intro k hk
  obtain ⟨e, he, hj, hke⟩ := mem_classKeys.mp hk
  rw [added_append] at he
  rcases List.mem_append.mp he with he | he
  · exact mem_classKeys.mpr ⟨e, he, hj, hke⟩
  · obtain rfl : e = p := List.mem_singleton.mp he
    rcases h with h | h
    · obtain ⟨d, hd, hkd⟩ := List.mem_map.mp h
      exact mem_classKeys.mpr ⟨d, hd, (meHash_congr hkd buckets).trans hj, hkd.trans hke⟩
    · exact absurd hj h

/-- The state after `ops`, while the condition holds, and the results up to there. -/
theorem same_of_fewPerClass (h : FewPerClass ops) :
    Same (Machine.specRun tableStep (.empty buckets) ops).2 (Machine.specRun entriesStep [] ops).2 ∧
      SameKeys ops (Machine.specRun entriesStep [] ops).2 ∧
      (Machine.specRun tableStep (.empty buckets) ops).1 =
        (Machine.specRun entriesStep [] ops).1 := by
  induction ops using List.reverseRecOn with
  | nil => exact ⟨same_empty, fun _ => Iff.rfl, rfl⟩
  | append_singleton ops o ih =>
    obtain ⟨hsame, hkeys, hres⟩ := ih h.of_append
    rw [Machine.specRun_append, Machine.specRun_append, hres]
    cases o with
    | add p =>
      refine ⟨?_, hkeys.add hsame.distinct p, rfl⟩
      apply hsame.add
      intro hnone
      rw [hsame.bucket_length hkeys]
      have hnew : keyOf p ∉ (added ops).map keyOf := by
        rw [← hkeys]
        intro hmem
        obtain ⟨e, he, hk⟩ := List.mem_map.mp hmem
        exact (listLookup_eq_none hsame.distinct p.deref).mp hnone e he hk
      have hle := h (meHash p.deref buckets) (meHash_lt _ (by decide))
      rw [classKeys_add_length hnew] at hle
      exact Nat.le_of_succ_le_succ hle
    | lookup me =>
      refine ⟨hsame, hkeys.lookup me, ?_⟩
      have hlookup := hsame.lookup_eq me.deref
      change _ ++ [Ret.entry _] = _ ++ [Ret.entry _]
      rw [hlookup]

/-- The add that overfills a bucket makes `resize` lose an entry that the linked list keeps. -/
theorem differ_of_overfull (hsame : Same t l) {p : MEntryPtr}
    (hnone : listLookup l p.deref = none)
    (hfull : buckets < (t.bucket (meHash p.deref buckets)).length) :
    ∃ d : MEntryPtr, (t.add p).lookup d.deref = none ∧ listLookup (listAdd l p) d.deref = some d := by
  have hlookup := hsame.lookup_eq p.deref
  rw [hnone] at hlookup
  have hadd : t.add p = (t.push p).grow := by
    rw [Table.add, hlookup, hsame.size, if_pos hfull]
    rfl
  have hl : listAdd l p = p :: l := by
    rw [listAdd, hnone]
    rfl
  have hpush := hsame.wellFormed.push hlookup
  have hmem : ∀ e, e ∈ (t.push p).entries ↔ e ∈ p :: l := by
    intro e
    rw [hsame.wellFormed.mem_entries_push hlookup, hsame.mem, List.mem_cons, or_comm]
  obtain ⟨d, hd, hdrop⟩ := Table.exists_dropped ((hmem p).mpr List.mem_cons_self)
  refine ⟨d, ?_, ?_⟩
  · rw [hadd, hpush.grow.lookup_eq_none]
    intro e he hk
    obtain ⟨he', hkeep⟩ := hpush.mem_entries_grow.mp he
    have hed : e = d := List.inj_on_of_nodup_map hpush.entries_nodup he' hd hk
    exact hkeep (hed ▸ hdrop)
  · rw [listLookup_eq_some (listAdd_distinctKeys hsame.distinct p), hl]
    exact ⟨(hmem d).mp hd, rfl⟩

theorem exists_not_agree (h : ¬ FewPerClass ops) :
    ∃ pre me, pre <+: ops ∧ ¬ Agree (pre ++ [.lookup me]) := by
  induction ops using List.reverseRecOn with
  | nil => exact absurd (fun j _ => Nat.zero_le _) h
  | append_singleton ops o ih =>
    by_cases hfew : FewPerClass ops
    · obtain ⟨hsame, hkeys, -⟩ := same_of_fewPerClass hfew
      cases o with
      | lookup me => exact absurd (hfew.lookup me) h
      | add p =>
        obtain ⟨j, hj, hlt⟩ : ∃ j, j < buckets ∧
            buckets + 1 < (classKeys (ops ++ [.add p]) j).length := by
          unfold FewPerClass at h
          push Not at h
          exact h
        have hle := hfew j hj
        have hnew : keyOf p ∉ (added ops).map keyOf := by
          intro hmem
          have hle' := classKeys_add_length_le (j := j) (Or.inl hmem)
          omega
        have hjp : meHash p.deref buckets = j := by
          by_contra hne
          have hle' : (classKeys (ops ++ [.add p]) j).length ≤ (classKeys ops j).length :=
            classKeys_add_length_le (Or.inr hne)
          omega
        subst hjp
        rw [classKeys_add_length hnew] at hlt
        have hnone : listLookup (Machine.specRun entriesStep [] ops).2 p.deref = none := by
          rw [listLookup_eq_none hsame.distinct]
          intro e he hk
          exact hnew ((hkeys _).mp (List.mem_map.mpr ⟨e, he, hk⟩))
        have hfull : buckets < ((Machine.specRun tableStep (.empty buckets) ops).2.bucket
            (meHash p.deref buckets)).length := by
          rw [hsame.bucket_length hkeys]
          omega
        obtain ⟨d, htable, hlist⟩ := differ_of_overfull hsame hnone hfull
        refine ⟨ops ++ [.add p], d, List.prefix_rfl, ?_⟩
        rw [agree_iff]
        simp only [Machine.specRun_append]
        intro heq
        have hlast := (List.append_inj' heq rfl).2
        change [Ret.entry (Table.lookup _ _)] = [Ret.entry (listLookup _ _)] at hlast
        change [Ret.entry (((Machine.specRun tableStep (.empty buckets) ops).2.add p).lookup d.deref)] =
          [Ret.entry (listLookup (listAdd (Machine.specRun entriesStep [] ops).2 p) d.deref)] at hlast
        rw [htable, hlist] at hlast
        cases hlast
    · obtain ⟨pre, me, hpre, hne⟩ := ih hfew
      exact ⟨pre, me, hpre.trans (List.prefix_append _ _), hne⟩

theorem agree_of_fewPerClass (h : FewPerClass ops) : Agree ops :=
  (agree_iff ops).mpr (same_of_fewPerClass h).2.2

/-- The implementations return the same results for `ops`, and a lookup made at any point of it
would not tell them apart either, exactly when no bucket of the first table overflows. -/
theorem agree_iff_fewPerClass (ops : List Op) :
    (Agree ops ∧ ∀ pre me, pre <+: ops → Agree (pre ++ [.lookup me])) ↔ FewPerClass ops := by
  constructor
  · rintro ⟨-, hpre⟩
    by_contra hfew
    obtain ⟨pre, me, hprefix, hne⟩ := exists_not_agree hfew
    exact hne (hpre pre me hprefix)
  · intro h
    refine ⟨agree_of_fewPerClass h, ?_⟩
    rintro pre me ⟨rest, rfl⟩
    apply agree_of_fewPerClass
    apply FewPerClass.lookup
    apply h.of_subset
    rw [added, added, List.filterMap_append]
    exact List.subset_append_left _ _

/-- An entry without a name whose house number is `20 * i`, so that all of them share a bucket of
the first table. -/
def colliding (i : ℕ) : MEntryPtr :=
  ⟨i, ⟨.ofBuffer [], Int32.ofNat (20 * i), .ofBuffer [], .ofBuffer []⟩⟩

/-- After 22 such entries the hash table has lost the last one. -/
theorem not_agree_colliding :
    ¬ Agree ((List.range 22).map (fun i => .add (colliding i)) ++ [.lookup (colliding 21)]) := by
  rw [agree_iff]
  decide +kernel

end CIS415.MList
