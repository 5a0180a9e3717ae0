import CIS415.MLists
import CIS415.MListAlloc
import CIS415.MListAgree

/-!
# Which lists ml_destroy destroys

The lists of a program never share a node, so a call on one of them leaves the tables of the others as
they are. What `ml_destroy` does depends on the list alone and on the global `size`: it keeps its
contract if and only if the list has a table, `size` is the number of its buckets, and it has not been
resized. Every `resize` loses an entry of its list and changes `size` under the other lists.
-/

namespace CIS415.MList

open Pointer MEntry System

variable {nodes nodes' : Heap Bucket} {ml ml' : MList} {t : Table} {m m' : Mem} {w w' : World}
  {chain₀ : ℕ → List Addr} {es : List Stored} {i j : ℕ} {me p : MEntryPtr}

/-- `resize` loses an entry. -/
theorem Table.WellFormed.entries_grow_length_lt (h : t.WellFormed) (hne : t.entries ≠ []) :
    t.grow.entries.length < t.entries.length := by
  obtain ⟨e, he⟩ := List.exists_mem_of_ne_nil _ hne
  obtain ⟨d, hd, hdrop⟩ := Table.exists_dropped he
  have hmem : d ∈ t.entries.filter fun e => decide (t.Dropped e) :=
    List.mem_filter.mpr ⟨hd, decide_eq_true hdrop⟩
  have hlost := List.length_pos_of_mem hmem
  have hlength := h.entries_grow.length_eq
  rw [List.length_append] at hlength
  omega

theorem entriesOf_append (i : ℕ) (es fs : List Stored) :
    entriesOf i (es ++ fs) = entriesOf i es ++ entriesOf i fs := by
  unfold entriesOf
  rw [List.filter_append, List.map_append]

theorem resized_append (i : ℕ) (es fs : List Stored) :
    Resized i (es ++ fs) ↔ Resized i es ∨ Resized i fs := by
  unfold Resized
  simp only [List.mem_append, or_and_right, exists_or]

theorem entriesOf_of_ne {fs : List Stored} (h : ∀ e ∈ fs, e.list ≠ i) : entriesOf i fs = [] := by
  unfold entriesOf
  rw [List.filter_eq_nil_iff.mpr fun e he => by simpa using h e he, List.map_nil]

theorem not_resized_of_ne {fs : List Stored} (h : ∀ e ∈ fs, e.list ≠ i) : ¬ Resized i fs := by
  rintro ⟨e, he, hi, -⟩
  exact h e he hi

/-- The entries of list `i` that count, compared with those that were stored in it. -/
structure Account (t : Table) (i : ℕ) (es : List Stored) : Prop where
  wellFormed : t.WellFormed
  kept : ¬ Resized i es → t.entries.Perm (entriesOf i es)
  lost : Resized i es → t.entries.length < (entriesOf i es).length

theorem Account.length_le (h : Account t i es) : t.entries.length ≤ (entriesOf i es).length := by
  by_cases hr : Resized i es
  · exact (h.lost hr).le
  · exact (h.kept hr).length_eq.le

theorem account_empty {n : ℕ} (hn : 0 < n) (h : ∀ e ∈ es, e.list ≠ i) :
    Account (.empty n) i es where
  wellFormed := Table.wellFormed_empty hn
  kept _ := by
    have hnil : (Table.empty n).entries = [] := List.flatMap_eq_nil_iff.mpr fun _ _ => rfl
    rw [entriesOf_of_ne h, hnil]
  lost hr := absurd hr (not_resized_of_ne h)

theorem Account.append_of_ne {fs : List Stored} (h : Account t i es) (hfs : ∀ e ∈ fs, e.list ≠ i) :
    Account t i (es ++ fs) := by
  have hentries : entriesOf i (es ++ fs) = entriesOf i es := by
    rw [entriesOf_append, entriesOf_of_ne hfs, List.append_nil]
  have hresized : Resized i (es ++ fs) ↔ Resized i es := by
    rw [resized_append, or_iff_left (not_resized_of_ne hfs)]
  refine ⟨h.wellFormed, ?_, ?_⟩
  · rw [hentries, hresized]
    exact h.kept
  · rw [hentries, hresized]
    exact h.lost

theorem Account.add (h : Account t i es) (hp : t.lookup p.deref = none) :
    Account (t.add p) i (es ++ [⟨i, p, decide ((t.add p).size ≠ t.size)⟩]) := by
  have hpush := h.wellFormed.entries_push hp
  have hlen := h.length_le
  have hplen := hpush.length_eq
  have hentries {r : Bool} : entriesOf i (es ++ [⟨i, p, r⟩]) = entriesOf i es ++ [p] := by
    rw [entriesOf_append]
    simp [entriesOf]
  have hadd : t.add p = if t.size < (t.bucket (meHash p.deref t.size)).length
      then (t.push p).grow else t.push p := by
    rw [Table.add, hp]
    rfl
  rw [List.length_cons] at hplen
  refine ⟨h.wellFormed.add p, ?_, ?_⟩
  · intro hno
    rw [hentries]
    by_cases hfull : t.size < (t.bucket (meHash p.deref t.size)).length
    · rw [if_pos hfull] at hadd
      have hsize : (t.add p).size ≠ t.size := by
        have hpos := h.wellFormed.pos
        rw [hadd]
        change t.size * 2 ≠ t.size
        omega
      exact absurd ⟨_, List.mem_append_right _ (List.mem_singleton_self _), rfl,
        decide_eq_true hsize⟩ hno
    · rw [if_neg hfull] at hadd
      have hold : ¬ Resized i es := fun hr => hno ((resized_append _ _ _).mpr (Or.inl hr))
      rw [hadd]
      exact (hpush.trans ((h.kept hold).cons p)).trans (List.perm_append_singleton p _).symm
  · intro hr
    rw [hentries, List.length_append, List.length_singleton]
    by_cases hfull : t.size < (t.bucket (meHash p.deref t.size)).length
    · rw [if_pos hfull] at hadd
      have hlost := (h.wellFormed.push hp).entries_grow_length_lt
        (entries_push_ne_nil h.wellFormed.pos p)
      rw [hadd]
      omega
    · rw [if_neg hfull] at hadd
      have hsize : (t.add p).size = t.size := by rw [hadd]; rfl
      have hold : Resized i es := by
        rcases (resized_append _ _ _).mp hr with hr | ⟨e, he, -, hre⟩
        · exact hr
        · rw [List.mem_singleton.mp he, hsize] at hre
          simp at hre
      have hlost := h.lost hold
      rw [hadd]
      omega

theorem Stores.frame (h : Stores nodes ml t chain₀) {own : Addr → Prop}
    (hf : nodes.Frame nodes' own) (hown : ∀ k, ∀ a ∈ chain₀ k, ¬ own a) :
    Stores nodes' ml t chain₀ := by
  have hload : ∀ k, ∀ a ∈ chain₀ k, nodes'.load a = nodes.load a :=
    fun k a ha => hf.load a (h.lt_brk k a ha) (hown k a ha)
  refine ⟨h.size, h.pos, h.heads, ?_, ?_, ?_⟩
  · apply h.chains.congr
    intro k a ha
    rw [nextOf, Heap.field, hload k a ha]
    rfl
  · intro k
    rw [← h.entries k]
    apply List.map_congr_left
    intro a ha
    rw [entryOf, Heap.field, hload k a ((List.dropLast_sublist _).subset ha)]
    rfl
  · intro k a ha
    rw [hload k a ha]
    exact h.alloc k a ha

/-- The lists with a table, each with the nodes of its chains, after the stores `es`. -/
structure Apart (w : World) (es : List Stored) (table : ℕ → Table)
    (chain : ℕ → ℕ → List Addr) : Prop where
  size : 0 < w.mem.size
  stores : ∀ i ml, w.list i = some ml → ml.hash ≠ none →
    Stores w.mem.nodes ml (table i) (chain i) ∧ Account (table i) i es
  allocated : ∀ i k, ∀ a : ℕ, a ∈ chain i k → a < w.mem.nodes.brk
  disjoint : ∀ i j k l a, a ∈ chain i k → a ∈ chain j l → i = j
  numbered : ∀ e ∈ es, e.list < w.lists.length

variable {table : ℕ → Table} {chain : ℕ → ℕ → List Addr}

theorem World.list_lt {w : World} (h : w.list i = some ml) : i < w.lists.length := by
  by_contra hi
  rw [World.list, List.getElem?_eq_none (Nat.le_of_not_lt hi)] at h
  cases h

theorem World.list_append {w : World} {r : Option MList} {mem : Mem}
    (h : World.list ⟨mem, w.lists ++ [r]⟩ i = some ml) :
    w.list i = some ml ∨ (i = w.lists.length ∧ r = some ml) := by
  unfold World.list at h ⊢
  rcases Nat.lt_trichotomy i w.lists.length with hi | rfl | hi
  · rw [List.getElem?_append_left hi] at h
    exact Or.inl h
  · rw [List.getElem?_append_right le_rfl, Nat.sub_self] at h
    exact Or.inr ⟨rfl, h⟩
  · rw [List.getElem?_eq_none (by rw [List.length_append, List.length_singleton]; omega)] at h
    cases h

theorem World.list_set {w : World} {r : Option MList} {mem : Mem}
    (h : World.list ⟨mem, w.lists.set i r⟩ j = some ml) :
    (j ≠ i ∧ w.list j = some ml) ∨ (j = i ∧ r = some ml) := by
  unfold World.list at h ⊢
  rw [List.getElem?_set] at h
  by_cases hij : i = j
  · rw [if_pos hij] at h
    split at h
    · exact Or.inr ⟨hij.symm, h⟩
    · cases h
  · rw [if_neg hij] at h
    exact Or.inl ⟨fun he => hij he.symm, h⟩

theorem apart_initial (sched : Schedule) :
    Apart (.initial sched) [] (fun _ => .empty 0) fun _ _ => [] where
  size := (by decide : 0 < buckets)
  stores _ _ h := by cases h
  allocated _ _ _ h := by cases h
  disjoint _ _ _ _ _ h := by cases h
  numbered _ h := by cases h

/-- A call on list `i` that gives it the chains `chain₀` and changes no other node. -/
theorem Apart.replace (h : Apart w es table chain) (t : Table) (chain₀ : ℕ → List Addr)
    {w' : World} {fs : List Stored}
    (hsize : 0 < w'.mem.size) (hconf : Confined w.mem.nodes w'.mem.nodes (chain i) chain₀)
    (hbrk : ∀ k, ∀ a : ℕ, a ∈ chain₀ k → a < w'.mem.nodes.brk)
    (hother : ∀ j ml, j ≠ i → w'.list j = some ml → w.list j = some ml)
    (hself : ∀ ml, w'.list i = some ml → ml.hash ≠ none →
      Stores w'.mem.nodes ml t chain₀ ∧ Account t i (es ++ fs))
    (hfs : ∀ e ∈ fs, e.list = i) (hlen : w.lists.length ≤ w'.lists.length)
    (hi : i < w'.lists.length) :
    Apart w' (es ++ fs) (Function.update table i t) (Function.update chain i chain₀) := by
  have hold : ∀ j k (a : ℕ), a ∈ Function.update chain i chain₀ j k →
      a ∈ chain j k ∨ (j = i ∧ ((∃ l, a ∈ chain i l) ∨ w.mem.nodes.brk ≤ a)) := by
    intro j k a ha
    by_cases hj : j = i
    · subst hj
      rw [Function.update_self] at ha
      exact Or.inr ⟨rfl, hconf.mem k a ha⟩
    · rw [Function.update_of_ne hj] at ha
      exact Or.inl ha
  refine ⟨hsize, ?_, ?_, ?_, ?_⟩
  · intro j ml hj hhash
    by_cases hji : j = i
    · subst hji
      rw [Function.update_self, Function.update_self]
      exact hself ml hj hhash
    · rw [Function.update_of_ne hji, Function.update_of_ne hji]
      obtain ⟨hstores, hacc⟩ := h.stores j ml (hother j ml hji hj) hhash
      refine ⟨hstores.frame hconf.frame ?_, hacc.append_of_ne ?_⟩
      · rintro k a ha ⟨l, hl⟩
        exact hji (h.disjoint j i k l a ha hl)
      · intro e he heq
        exact hji (heq.symm.trans (hfs e he))
  · intro j k a ha
    by_cases hji : j = i
    · subst hji
      rw [Function.update_self] at ha
      exact hbrk k a ha
    · rw [Function.update_of_ne hji] at ha
      exact (h.allocated j k a ha).trans_le hconf.frame.brk
  · -- a node of list `i` was one before or is new, and no other list has such a node
    have hne : ∀ j k l (a : ℕ), a ∈ Function.update chain i chain₀ i k → a ∈ chain j l → j = i := by
      intro j k l a hai haj
      rcases hold i k a hai with ha | ⟨-, ⟨x, hx⟩ | hge⟩
      · exact h.disjoint j i l k a haj ha
      · exact h.disjoint j i l x a haj hx
      · exact absurd (h.allocated j l a haj) (Nat.not_lt.mpr hge)
    intro j j' k l a hj hj'
    by_cases hji : j = i <;> by_cases hji' : j' = i
    · rw [hji, hji']
    · subst hji
      rw [Function.update_of_ne hji'] at hj'
      exact (hne j' k l a hj hj').symm
    · subst hji'
      rw [Function.update_of_ne hji] at hj
      exact hne j l k a hj' hj
    · rw [Function.update_of_ne hji] at hj
      rw [Function.update_of_ne hji'] at hj'
      exact h.disjoint j j' k l a hj hj'
  · intro e he
    rcases List.mem_append.mp he with he | he
    · exact (h.numbered e he).trans_le hlen
    · rw [hfs e he]
      exact hi

theorem mlAdd_hash {v : ℤ} (h : mlAdd m ml me = some (v, ml', m')) : ml.hash ≠ none := by
  intro hnull
  simp [mlAdd, mlLookup, bucketAt, hnull] at h

theorem mlDestroy_hash {r : List MEntryPtr × Mem} (hpos : 0 < m.size)
    (h : mlDestroy m ml = some r) : ml.hash ≠ none := by
  intro hnull
  rw [mlDestroy_eq_none hpos (by simp [bucketAt, hnull])] at h
  cases h

theorem Stores.size_le_of_mlDestroy (h : Stores m.nodes ml t chain₀)
    {r : List MEntryPtr × Mem} (hr : mlDestroy m ml = some r) : m.size ≤ t.size := by
  by_contra hlt
  rw [mlDestroy_eq_none (Nat.lt_of_not_le hlt) (h.bucketAt_eq_none le_rfl)] at hr
  cases hr

theorem apart_create (h : Apart w es table chain) (hs : w.step .create = some w') :
    ∃ table' chain', Apart w' (es ++ []) table' chain' := by
  obtain ⟨⟨r, mem⟩, hcreate, heq⟩ := Option.bind_eq_some_iff.mp hs
  obtain rfl := Option.some.inj heq
  obtain ⟨hsize, hr⟩ := mlCreate_any h.size hcreate
  have hpos : 0 < mem.size := hsize ▸ h.size
  have hlen : w.lists.length < (w.lists ++ [r]).length := by
    rw [List.length_append, List.length_singleton]
    exact Nat.lt_succ_self _
  have hother : ∀ j ml, j ≠ w.lists.length → World.list ⟨mem, w.lists ++ [r]⟩ j = some ml →
      w.list j = some ml :=
    fun j ml hj hl => (World.list_append hl).resolve_right fun hnew => hj hnew.1
  have hself : ∀ ml, World.list ⟨mem, w.lists ++ [r]⟩ w.lists.length = some ml → r = some ml :=
    fun ml hl => (World.list_append hl).elim
      (fun hold => absurd (World.list_lt hold) (lt_irrefl _)) fun hnew => hnew.2
  have hnone : ∀ e ∈ es, e.list ≠ w.lists.length := fun e he => (h.numbered e he).ne
  rcases hr with ⟨hnodes, hr⟩ | ⟨chain₀, ⟨ml, rfl, hstores⟩, hconf⟩
  · refine ⟨_, _, h.replace (.empty 0) (fun _ => []) (i := w.lists.length) hpos ?_ ?_
      hother ?_ (by simp) hlen.le hlen⟩
    · change Confined w.mem.nodes mem.nodes _ _
      rw [hnodes]
      exact ⟨.refl _ _, fun _ _ ha => by cases ha⟩
    · intro k a ha
      cases ha
    · intro ml hl hhash
      rcases hr with rfl | rfl
      · cases hself ml hl
      · obtain rfl := Option.some.inj (hself ml hl)
        exact absurd rfl hhash
  · refine ⟨_, _, h.replace (.empty w.mem.size) chain₀ (i := w.lists.length) hpos ?_ hstores.lt_brk
      hother ?_ (by simp) hlen.le hlen⟩
    · refine ⟨hconf.frame.mono ?_, ?_⟩
      · rintro a ⟨k, ha⟩
        cases ha
      · intro k a ha
        rcases hconf.mem k a ha with ⟨l, hl⟩ | hge
        · cases hl
        · exact Or.inr hge
    · intro ml' hl _
      obtain rfl := Option.some.inj (hself ml' hl)
      refine ⟨hstores, account_empty h.size ?_⟩
      rw [List.append_nil]
      exact hnone

theorem apart_destroy (h : Apart w es table chain) (hs : w.step (.destroy i) = some w') :
    ∃ table' chain', Apart w' (es ++ []) table' chain' := by
  obtain ⟨ml, hl, hs⟩ := Option.bind_eq_some_iff.mp hs
  obtain ⟨⟨ds, mem⟩, hdestroy, heq⟩ := Option.bind_eq_some_iff.mp hs
  obtain rfl := Option.some.inj heq
  obtain ⟨hstores, -⟩ := h.stores i ml hl (mlDestroy_hash h.size hdestroy)
  obtain ⟨nodes', hdestroy', hframe⟩ :=
    mlDestroy_of_le hstores (hstores.size_le_of_mlDestroy hdestroy)
  obtain ⟨-, rfl⟩ := Prod.mk.inj (Option.some.inj (hdestroy.symm.trans hdestroy'))
  have hlen : w.lists.length = (w.lists.set i none).length := List.length_set.symm
  refine ⟨_, _, h.replace (table i) (chain i) (i := i) h.size
    ⟨hframe, fun k a ha => Or.inl ⟨k, ha⟩⟩ ?_ ?_ ?_ (by simp) hlen.le (hlen ▸ World.list_lt hl)⟩
  · intro k a ha
    exact (h.allocated i k a ha).trans_le hframe.brk
  · intro j ml' hj hl'
    exact ((World.list_set hl').resolve_right fun hself => hj hself.1).2
  · intro ml' hl' _
    rcases World.list_set hl' with ⟨hne, -⟩ | ⟨-, hnone⟩
    · exact absurd rfl hne
    · cases hnone

theorem apart_add (h : Apart w es table chain) (hs : w.step (.add i me) = some w') :
    ∃ table' chain', Apart w' (es ++ (w.stored (.add i me)).toList) table' chain' := by
  obtain ⟨ml, hl, hs⟩ := Option.bind_eq_some_iff.mp hs
  obtain ⟨⟨v, ml', mem⟩, hadd, heq⟩ := Option.bind_eq_some_iff.mp hs
  obtain rfl := Option.some.inj heq
  obtain ⟨hstores, hacc⟩ := h.stores i ml hl (mlAdd_hash hadd)
  have hlookup := mlLookup_spec hstores me.deref
  have hlen : w.lists.length = (w.lists.set i (some ml')).length := List.length_set.symm
  have hother : ∀ j ml, j ≠ i → World.list ⟨mem, w.lists.set i (some ml')⟩ j = some ml →
      w.list j = some ml :=
    fun j ml hj hl => ((World.list_set hl).resolve_right fun hself => hj hself.1).2
  have hself : ∀ ml, World.list ⟨mem, w.lists.set i (some ml')⟩ i = some ml → ml' = ml := by
    intro ml hl
    rcases World.list_set hl with ⟨hne, -⟩ | ⟨-, hsome⟩
    · exact absurd rfl hne
    · exact Option.some.inj hsome
  rcases mlAdd_any hstores hadd with ⟨rfl, rfl, hnodes, hsize⟩ | ⟨rfl, hsize, chain₀, hstores', hconf⟩
  · have hnone : (w.stored (.add i me)).toList = [] := by
      simp only [World.stored, hl, hlookup, hadd, Option.bind_eq_bind, Option.bind_some]
      cases (table i).lookup me.deref <;> rfl
    rw [hnone]
    refine ⟨_, _, h.replace (table i) (chain i) (i := i) (hsize ▸ h.size) ?_ ?_ hother
      ?_ (by simp) hlen.le (hlen ▸ World.list_lt hl)⟩
    · change Confined w.mem.nodes mem.nodes _ _
      rw [hnodes]
      exact .refl _ _
    · intro k a ha
      change a < mem.nodes.brk
      rw [hnodes]
      exact h.allocated i k a ha
    · intro ml₁ hl₁ _
      obtain rfl := hself ml₁ hl₁
      rw [List.append_nil]
      exact ⟨hnodes ▸ hstores, hacc⟩
  · cases hfound : (table i).lookup me.deref with
    | some e =>
      have hnone : (w.stored (.add i me)).toList = [] := by
        simp only [World.stored, hl, hlookup, hfound, Option.bind_eq_bind, Option.bind_some]
        rfl
      have htable : (table i).add me = table i := by
        rw [Table.add, hfound]
        rfl
      rw [hnone]
      refine ⟨_, _, h.replace ((table i).add me) chain₀ (i := i) (hsize h.size) hconf hstores'.lt_brk
        hother ?_ (by simp) hlen.le (hlen ▸ World.list_lt hl)⟩
      intro ml₁ hl₁ _
      obtain rfl := hself ml₁ hl₁
      refine ⟨hstores', ?_⟩
      rw [List.append_nil, htable]
      exact hacc
    | none =>
      have hsome : (w.stored (.add i me)).toList =
          [⟨i, me, decide (((table i).add me).size ≠ (table i).size)⟩] := by
        simp only [World.stored, hl, hlookup, hfound, hadd, Option.bind_eq_bind, Option.bind_some,
          if_true, hstores.size, hstores'.size]
        rfl
      rw [hsome]
      refine ⟨_, _, h.replace ((table i).add me) chain₀ (i := i) (hsize h.size) hconf hstores'.lt_brk
        hother ?_ (by simp) hlen.le (hlen ▸ World.list_lt hl)⟩
      intro ml₁ hl₁ _
      obtain rfl := hself ml₁ hl₁
      exact ⟨hstores', hacc.add hfound⟩

theorem apart_run {sched : Schedule} {cs : List Call}
    (h : exec World.step (.initial sched) cs = some w) :
    ∃ table chain, Apart w (observe World.step World.stored (.initial sched) cs) table chain := by
  refine observe_invariant (I := fun w es => ∃ table chain, Apart w es table chain) ?_
    ⟨_, _, apart_initial sched⟩ h
  rintro w es c w' ⟨table, chain, h⟩ hs
  cases c with
  | create => exact apart_create h hs
  | add i me => exact apart_add h hs
  | destroy i => exact apart_destroy h hs

theorem Apart.destroys_iff (h : Apart w es table chain) (hl : w.list i = some ml) :
    Destroys w.mem ml (entriesOf i es) ↔
      ml.hash ≠ none ∧ w.mem.size = ml.size ∧ ¬ Resized i es := by
  constructor
  · rintro ⟨hvisits, ds, m', hdestroy, hperm⟩
    have hhash := mlDestroy_hash h.size hdestroy
    have hsize : w.mem.size = ml.size := by
      have hlen := congrArg List.length hvisits
      rwa [visits, List.length_range, List.length_range] at hlen
    refine ⟨hhash, hsize, fun hr => ?_⟩
    obtain ⟨hstores, hacc⟩ := h.stores i ml hl hhash
    obtain ⟨m'', hdestroy'⟩ := mlDestroy_spec hstores (hsize.trans hstores.size)
    obtain ⟨rfl, -⟩ := Prod.mk.inj (Option.some.inj (hdestroy.symm.trans hdestroy'))
    have hlost := hacc.lost hr
    have hlen := hperm.length_eq
    omega
  · rintro ⟨hhash, hsize, hr⟩
    obtain ⟨hstores, hacc⟩ := h.stores i ml hl hhash
    obtain ⟨m', hdestroy⟩ := mlDestroy_spec hstores (hsize.trans hstores.size)
    exact ⟨by rw [visits, hsize], _, m', hdestroy, hacc.kept hr⟩

/-- In every state that any interleaving of calls reaches, `ml_destroy` keeps its contract on a list
exactly when `size` is the number of its buckets and it has not been resized. -/
theorem destroys_iff_not_resized {sched : Schedule} {cs : List Call}
    (h : exec World.step (.initial sched) cs = some w) (hl : w.list i = some ml) :
    Destroys w.mem ml (entriesOf i (observe World.step World.stored (.initial sched) cs)) ↔
      ml.hash ≠ none ∧ w.mem.size = ml.size ∧
        ¬ Resized i (observe World.step World.stored (.initial sched) cs) := by
  obtain ⟨table, chain, hapart⟩ := apart_run h
  exact hapart.destroys_iff hl

def oneEach : List Call :=
  [.create, .create, .add 0 (colliding 1), .add 1 (colliding 2), .destroy 1]

theorem destroys_iff_not_resized_one :
    ∃ w ml, exec World.step (.initial Schedule.always) oneEach = some w ∧ w.list 0 = some ml ∧
      Destroys w.mem ml [colliding 1] := by
  have heval : ((exec World.step (.initial Schedule.always) oneEach).bind fun w =>
      (w.list 0).map fun ml => (ml.hash.isSome, w.mem.size, ml.size)) = some (true, 20, 20) := by
    decide +kernel
  obtain ⟨w, hw, hlist⟩ := Option.bind_eq_some_iff.mp heval
  obtain ⟨ml, hl, heq⟩ := Option.map_eq_some_iff.mp hlist
  obtain ⟨hhash, hsizes⟩ := Prod.mk.inj heq
  obtain ⟨hsize, hmsize⟩ := Prod.mk.inj hsizes
  have hentries : entriesOf 0 (observe World.step World.stored (.initial Schedule.always) oneEach) =
      [colliding 1] := by decide +kernel
  have hdestroys := (destroys_iff_not_resized hw hl).mpr
    ⟨Option.isSome_iff_ne_none.mp hhash, hsize.trans hmsize.symm, by decide +kernel⟩
  rw [hentries] at hdestroys
  exact ⟨w, ml, hw, hl, hdestroys⟩

def overfull : List Call :=
  .create :: .create :: (List.range 22).map fun i => .add 0 (colliding i)

/-- The first list has 20 of its 22 entries left to destroy, and destroying the second one reads its
table of 20 buckets at index 20. -/
theorem not_destroys_overfull :
    ∃ w ml₀ ml₁, exec World.step (.initial Schedule.always) overfull = some w ∧
      w.list 0 = some ml₀ ∧ w.list 1 = some ml₁ ∧
      ¬ Destroys w.mem ml₀
        (entriesOf 0 (observe World.step World.stored (.initial Schedule.always) overfull)) ∧
      mlDestroy w.mem ml₁ = none := by
  have heval : ((exec World.step (.initial Schedule.always) overfull).bind fun w =>
      (w.list 0).bind fun ml₀ => (w.list 1).map fun ml₁ =>
        ((mlDestroy w.mem ml₀).map fun r => r.1.length, (mlDestroy w.mem ml₁).isNone)) =
      some (some 20, true) := by decide +kernel
  obtain ⟨w, hw, h₀⟩ := Option.bind_eq_some_iff.mp heval
  obtain ⟨ml₀, hl₀, h₁⟩ := Option.bind_eq_some_iff.mp h₀
  obtain ⟨ml₁, hl₁, heq⟩ := Option.map_eq_some_iff.mp h₁
  obtain ⟨hlen, hnone⟩ := Prod.mk.inj heq
  refine ⟨w, ml₀, ml₁, hw, hl₀, hl₁, ?_, Option.isNone_iff_eq_none.mp hnone⟩
  rintro ⟨-, ds, m', hdestroy, hperm⟩
  rw [hdestroy, Option.map_some] at hlen
  have hstored : (entriesOf 0
      (observe World.step World.stored (.initial Schedule.always) overfull)).length = 22 := by
    decide +kernel
  have hds := hperm.length_eq
  rw [Option.some.inj hlen, hstored] at hds
  omega

end CIS415.MList
