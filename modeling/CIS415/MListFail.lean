import CIS415.MListsSpec
import CIS415.MListShape

/-!
# Calls that survive a failed allocation

`ml_create` checks its first allocation only, and `ml_add` only that of its node: where another one
fails, a NULL pointer is handed out or followed. A `resize` loses the very entry it was called for, which
is the last one of its bucket, so that no outcome of its allocations is a good one.
-/

namespace CIS415.MList

open Pointer MEntry System

variable {nodes : Heap Bucket} {ml : MList} {t : Table} {m m' : Mem} {w : World}
  {chain : ℕ → List Addr} {i n : ℕ} {me : MEntryPtr}

/-- `ml_create` follows no NULL pointer and returns NULL or a complete list without entries. -/
def CreatesOk (m : Mem) : Prop :=
  ∃ r m', mlCreate m = some (r, m') ∧
    ∀ ml, r = some ml → ∃ chain, Stores m'.nodes ml (.empty m.size) chain

theorem createBuckets_isSome :
    (createBuckets n m).isSome ↔ ∀ k < n, m.sched k = true := by
  induction n generalizing m with
  | zero => simp [createBuckets]
  | succ n ih =>
    rw [Nat.forall_lt_succ_left]
    by_cases h₀ : m.sched 0 = true
    · have hrest := ih (m := ⟨(m.nodes.malloc ⟨none, none, some 0⟩).2, m.size, m.sched.rest⟩)
      have hstep : (createBuckets (n + 1) m).isSome =
          (createBuckets n ⟨(m.nodes.malloc ⟨none, none, some 0⟩).2, m.size, m.sched.rest⟩).isSome := by
        rw [createBuckets, if_pos h₀]
        change (Option.bind (createBuckets n ⟨(m.nodes.malloc ⟨none, none, some 0⟩).2, m.size,
          m.sched.rest⟩) _).isSome = _
        generalize createBuckets n ⟨(m.nodes.malloc ⟨none, none, some 0⟩).2, m.size, m.sched.rest⟩ = r
        cases r <;> rfl
      rw [hstep, hrest, and_iff_right h₀]
      rfl
    · rw [createBuckets, if_neg h₀]
      simp [h₀]

/-- The allocations of `ml_create`: the list, the table, and a node for each bucket. -/
theorem createsOk_iff (hpos : 0 < m.size) :
    CreatesOk m ↔ m.sched 0 = false ∨ ∀ k < m.size + 2, m.sched k = true := by
  rw [show m.size + 2 = m.size + 1 + 1 from rfl, Nat.forall_lt_succ_left, Nat.forall_lt_succ_left]
  have hbuckets := createBuckets_isSome (n := m.size) (m := { m with sched := m.sched.rest.rest })
  by_cases h₀ : m.sched 0 = true
  · simp only [h₀, true_and, Bool.true_eq_false, false_or]
    by_cases h₁ : m.sched.rest 0 = true
    · rw [and_iff_right (show m.sched (0 + 1) = true from h₁)]
      refine Iff.trans ⟨?_, fun h => ?_⟩ hbuckets
      · rintro ⟨r, m', hcreate, -⟩
        rw [mlCreate, if_pos h₀, if_pos h₁] at hcreate
        obtain ⟨p, hp, -⟩ := Option.bind_eq_some_iff.mp hcreate
        rw [hp]
        rfl
      · obtain ⟨⟨hash, m'⟩, hp⟩ := Option.isSome_iff_exists.mp h
        have hcreate : mlCreate m = some (some ⟨m.size, some hash⟩, m') := by
          rw [mlCreate, if_pos h₀, if_pos h₁, hp]
          rfl
        obtain ⟨-, ⟨-, hr⟩ | ⟨chain, ⟨ml, hml, hstores⟩, -⟩⟩ := mlCreate_any hpos hcreate
        · rcases hr with hr | hr <;> cases hr
        · exact ⟨_, m', hcreate, fun ml' hml' => ⟨chain, Option.some.inj (hml.symm.trans hml') ▸ hstores⟩⟩
    · -- the list has no table
      refine ⟨fun ⟨r, m', hcreate, hstores⟩ => ?_, fun h => absurd h.1 h₁⟩
      rw [mlCreate, if_pos h₀, if_neg h₁] at hcreate
      obtain ⟨rfl, -⟩ := Prod.mk.inj (Option.some.inj hcreate)
      obtain ⟨chain, hnull⟩ := hstores _ rfl
      obtain ⟨hash, hhash, -⟩ := hnull.heads
      cases hhash
  · have h₀' : m.sched 0 = false := by simpa using h₀
    simp only [h₀', true_or, iff_true]
    refine ⟨none, _, by rw [mlCreate, if_neg h₀], ?_⟩
    rintro ml ⟨⟩

/-- `ml_add` follows no NULL pointer, and either returns 1 with an equal entry to be found in the list, or
returns 0 with nothing changed for `ml_lookup`. -/
def AddsOk (m : Mem) (ml : MList) (me : MEntryPtr) : Prop :=
  ∃ v ml' m', mlAdd m ml me = some (v, ml', m') ∧
    ((v = 1 ∧ ∃ e, mlLookup m' ml' me.deref = some (some e)) ∨
      (v = 0 ∧ ∀ x, mlLookup m' ml' x = mlLookup m ml x))

def Present (m : Mem) (ml : MList) (me : MEntryPtr) : Prop :=
  ∃ e, mlLookup m ml me.deref = some (some e)

/-- The bucket of the entry is short enough for `ml_add` not to resize the list. -/
def HasRoom (m : Mem) (ml : MList) (me : MEntryPtr) : Prop :=
  ∃ first cur bucket_size, bucketAt ml (meHash me.deref ml.size) = some first ∧
    tailFrom m.nodes m.nodes.brk first = some (cur, bucket_size) ∧ bucket_size ≤ ml.size

theorem Stores.hasRoom_iff (h : Stores m.nodes ml t chain) :
    HasRoom m ml me ↔ (t.bucket (meHash me.deref t.size)).length ≤ t.size := by
  obtain ⟨p, as, s, hp, -, hseg, hs, hent, hlt⟩ := h.bucketAt (meHash_lt me.deref h.pos)
  have htail := tailFrom_seg hseg hs hlt
  have hlen : as.length = (t.bucket (meHash me.deref t.size)).length := by
    have hl := congrArg List.length hent
    rwa [List.length_map, List.length_map] at hl
  unfold HasRoom
  rw [h.size]
  constructor
  · rintro ⟨first, cur, k, hfirst, hcur, hle⟩
    obtain rfl := Option.some.inj (hp.symm.trans hfirst)
    obtain ⟨-, rfl⟩ := Prod.mk.inj (Option.some.inj (htail.symm.trans hcur))
    omega
  · intro hle
    exact ⟨p, s, as.length, hp, htail, by omega⟩

theorem Stores.present_iff (h : Stores m.nodes ml t chain) :
    Present m ml me ↔ (t.lookup me.deref).isSome := by
  unfold Present
  rw [mlLookup_spec h, Option.isSome_iff_exists]
  simp only [Option.some.injEq]

/-- The entry that makes a bucket overflow is the one `resize` loses. -/
theorem Table.WellFormed.lookup_grow_push (h : t.WellFormed) (hnone : t.lookup me.deref = none) :
    (t.push me).grow.lookup me.deref = none := by
  have hpush := h.push hnone
  have hdropped : (t.push me).Dropped me := by
    have hmod := meHash_mul_two_mod me.deref t.size
    rw [Table.Dropped, hpush.moved_eq]
    change (((t.push me).bucket (meHash me.deref (t.size * 2) % t.size)).filter _).getLast? = _
    rw [hmod, Table.bucket_push_self, List.filter_append, List.filter_cons_of_pos (by simp),
      List.filter_nil, List.getLast?_concat]
  rw [hpush.grow.lookup_eq_none]
  intro e he hk
  obtain ⟨he', hkeep⟩ := hpush.mem_entries_grow.mp he
  have hme : me ∈ (t.push me).entries := (h.mem_entries_push hnone).mpr (Or.inr rfl)
  obtain rfl : e = me := List.inj_on_of_nodup_map hpush.entries_nodup he' hme hk
  exact hkeep hdropped

/-- `ml_add` with room in the bucket and a new node. -/
theorem Stores.mlAdd_push (h : Stores m.nodes ml t chain) (hnone : t.lookup me.deref = none)
    (hs : m.sched 0 = true) (hle : (t.bucket (meHash me.deref t.size)).length ≤ t.size) :
    ∃ m' chain', mlAdd m ml me = some (1, ml, m') ∧ Stores m'.nodes ml (t.push me) chain' := by
  obtain ⟨first, cur, n₁, n₂, chain', hfirst, htail, hset₁, hset₂, h', -⟩ := h.push me
  refine ⟨{ m with nodes := n₂, sched := m.sched.rest }, chain', ?_, h'⟩
  simp only [mlAdd, mlLookup_spec h, hnone, hs, h.size, Heap.malloc_fst, Heap.malloc_brk, hfirst,
    htail, hset₁, hset₂, Option.bind_eq_bind, Option.bind_some, if_true, if_neg (Nat.not_lt.mpr hle)]

theorem Stores.mlAdd_value (h : Stores m.nodes ml t chain) (hnone : t.lookup me.deref = none)
    (hs : m.sched 0 = true) {v : ℤ} {ml' : MList} (hadd : mlAdd m ml me = some (v, ml', m')) :
    v = 1 := by
  simp only [mlAdd, mlLookup_spec h, hnone, hs, Option.bind_eq_bind, Option.bind_some, if_true,
    Option.bind_eq_some_iff] at hadd
  obtain ⟨first, -, ⟨cur, k⟩, -, n₁, -, n₂, -, hadd⟩ := hadd
  split_ifs at hadd
  · obtain ⟨r, -, hr⟩ := Option.bind_eq_some_iff.mp hadd
    exact (Prod.mk.inj (Option.some.inj hr)).1.symm
  · exact (Prod.mk.inj (Option.some.inj hadd)).1.symm

theorem Stores.addsOk_iff (h : Stores m.nodes ml t chain) (hw : t.WellFormed) :
    AddsOk m ml me ↔ Present m ml me ∨ m.sched 0 = false ∨ HasRoom m ml me := by
  rw [h.present_iff, h.hasRoom_iff]
  have hlookup := mlLookup_spec h me.deref
  cases hfound : t.lookup me.deref with
  | some e =>
    simp only [Option.isSome_some, true_or, iff_true]
    refine ⟨1, ml, m, ?_, Or.inl ⟨rfl, e, by rw [hlookup, hfound]⟩⟩
    simp only [mlAdd, hlookup, hfound, Option.bind_eq_bind, Option.bind_some]
  | none =>
    simp only [Option.isSome_none, Bool.false_eq_true, false_or]
    by_cases hs : m.sched 0 = true
    · simp only [hs, Bool.true_eq_false, false_or]
      constructor
      · rintro ⟨v, ml', m', hadd, hres⟩
        by_contra hfull
        have htable : t.add me = (t.push me).grow := by
          rw [Table.add, hfound, if_pos (Nat.lt_of_not_le hfull)]
          rfl
        have hgrow := hw.lookup_grow_push hfound
        obtain rfl : v = 1 := h.mlAdd_value hfound hs hadd
        obtain ⟨hv, -⟩ | ⟨-, -, chain', h', -⟩ := mlAdd_any h hadd
        · exact absurd hv one_ne_zero
        · obtain ⟨-, e, he⟩ | ⟨hv, -⟩ := hres
          · rw [mlLookup_spec h', htable, hgrow] at he
            cases he
          · exact absurd hv one_ne_zero
      · intro hle
        obtain ⟨m', chain', hadd, h'⟩ := h.mlAdd_push hfound hs hle
        refine ⟨1, ml, m', hadd, Or.inl ⟨rfl, me, ?_⟩⟩
        rw [mlLookup_spec h', ((hw.push hfound).lookup_eq_some.mpr
          ⟨(hw.mem_entries_push hfound).mpr (Or.inr rfl), rfl⟩)]
    · simp only [hs, true_or, iff_true]
      refine ⟨0, ml, { m with sched := m.sched.rest }, ?_, Or.inr ⟨rfl, fun x => rfl⟩⟩
      simp only [mlAdd, hlookup, hfound, if_neg hs, Option.bind_eq_bind, Option.bind_some]

/-- In every state that any interleaving of calls reaches under any schedule of allocations, `ml_create`
keeps its contract exactly when its first allocation fails or all of them succeed, and `ml_add` exactly
when the list has a table and the call does not get as far as `resize`. -/
theorem calls_ok_iff {sched : Schedule} {cs : List Call}
    (h : exec World.step (.initial sched) cs = some w) :
    (CreatesOk w.mem ↔ w.mem.sched 0 = false ∨ ∀ k < w.mem.size + 2, w.mem.sched k = true) ∧
      ∀ i ml me, w.list i = some ml →
        (AddsOk w.mem ml me ↔ ml.hash ≠ none ∧
          (Present w.mem ml me ∨ w.mem.sched 0 = false ∨ HasRoom w.mem ml me)) := by
  obtain ⟨table, chain, hapart⟩ := apart_run h
  refine ⟨createsOk_iff hapart.size, fun i ml me hl => ?_⟩
  by_cases hhash : ml.hash = none
  · simp only [hhash, ne_eq, not_true_eq_false, false_and, iff_false]
    rintro ⟨v, ml', m', hadd, -⟩
    exact mlAdd_hash hadd hhash
  · obtain ⟨hstores, hacc⟩ := hapart.stores i ml hl hhash
    rw [and_iff_right hhash]
    exact hstores.addsOk_iff hacc.wellFormed

theorem calls_ok_iff_one :
    ∃ w ml, exec World.step (.initial Schedule.always) [.create, .add 0 (colliding 0)] = some w ∧
      w.list 0 = some ml ∧ CreatesOk w.mem ∧ AddsOk w.mem ml (colliding 1) := by
  have heval : ((exec World.step (.initial Schedule.always) [.create, .add 0 (colliding 0)]).bind
      fun w => (w.list 0).bind fun ml =>
        (bucketAt ml (meHash (colliding 1).deref ml.size)).bind fun first =>
          (tailFrom w.mem.nodes w.mem.nodes.brk first).map fun r =>
            (ml.hash.isSome, decide (r.2 ≤ ml.size),
              decide (∀ k < w.mem.size + 2, w.mem.sched k = true))) = some (true, true, true) := by
    decide +kernel
  obtain ⟨w, hw, hlist⟩ := Option.bind_eq_some_iff.mp heval
  obtain ⟨ml, hl, hrest⟩ := Option.bind_eq_some_iff.mp hlist
  obtain ⟨first, hfirst, hrest⟩ := Option.bind_eq_some_iff.mp hrest
  obtain ⟨⟨cur, k⟩, htail, heq⟩ := Option.map_eq_some_iff.mp hrest
  obtain ⟨hhash, heq⟩ := Prod.mk.inj heq
  obtain ⟨hle, hsched⟩ := Prod.mk.inj heq
  obtain ⟨hcreate, hadd⟩ := calls_ok_iff hw
  exact ⟨w, ml, hw, hl, hcreate.mpr (Or.inr (of_decide_eq_true hsched)),
    (hadd 0 ml (colliding 1) hl).mpr ⟨Option.isSome_iff_ne_none.mp hhash,
      Or.inr (Or.inr ⟨first, cur, k, hfirst, htail, of_decide_eq_true hle⟩)⟩⟩

/-- When `calloc` fails, `ml_create` returns a list without a table; and with no failure at all, the
`ml_add` that brings a bucket to 22 entries stores an entry that cannot be found. -/
theorem calls_not_ok :
    ¬ CreatesOk (.initial fun k => decide (k ≠ 1)) ∧
      ∃ w ml, exec World.step (.initial Schedule.always)
          (.create :: (List.range 21).map fun i => .add 0 (colliding i)) = some w ∧
        w.list 0 = some ml ∧ ¬ AddsOk w.mem ml (colliding 21) := by
  constructor
  · rintro ⟨r, m', hcreate, hstores⟩
    have hnull : (mlCreate (.initial fun k => decide (k ≠ 1))).map (fun r => r.1.map MList.hash) =
        some (some none) := by decide +kernel
    rw [hcreate, Option.map_some, Option.some.injEq] at hnull
    obtain ⟨ml, rfl, hhash⟩ := Option.map_eq_some_iff.mp hnull
    obtain ⟨chain, hstores⟩ := hstores ml rfl
    obtain ⟨hash, hsome, -⟩ := hstores.heads
    exact nomatch hhash.symm.trans hsome
  · have heval : ((exec World.step (.initial Schedule.always)
        (.create :: (List.range 21).map fun i => .add 0 (colliding i))).bind fun w =>
          (w.list 0).bind fun ml => (mlAdd w.mem ml (colliding 21)).map fun r =>
            (r.1, mlLookup r.2.2 r.2.1 (colliding 21).deref)) = some (1, some none) := by
      decide +kernel
    obtain ⟨w, hw, hlist⟩ := Option.bind_eq_some_iff.mp heval
    obtain ⟨ml, hl, hrest⟩ := Option.bind_eq_some_iff.mp hlist
    obtain ⟨⟨v, ml', m'⟩, hadd, heq⟩ := Option.map_eq_some_iff.mp hrest
    obtain ⟨rfl, hlost⟩ := Prod.mk.inj heq
    refine ⟨w, ml, hw, hl, ?_⟩
    rintro ⟨v, ml'', m'', hadd', hres⟩
    obtain ⟨rfl, rfl, rfl⟩ : 1 = v ∧ ml' = ml'' ∧ m' = m'' := by simpa using hadd.symm.trans hadd'
    rcases hres with ⟨-, e, he⟩ | ⟨hv, -⟩
    · exact nomatch hlost.symm.trans he
    · exact absurd hv one_ne_zero

end CIS415.MList
