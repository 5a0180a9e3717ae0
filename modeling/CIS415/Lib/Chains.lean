import CIS415.Lib.Linked

/-!
# Families of disjoint chains

A table of linked chains is a family `chain : K → List Addr`: the nodes of each chain in link order,
the last one with a NULL link, and no node in two chains. The lemmas say what relinking one node
does to the family.
-/

namespace Pointer

variable {K L : Type} {nx nx' : Addr → Option Addr} {chain : K → List Addr} {k j : K}
  {a b p : Addr} {as bs : List Addr}

structure Chains (nx : Addr → Option Addr) (chain : K → List Addr) : Prop where
  seg : ∀ k, Seg nx (chain k).head? (chain k) none
  nodup : ∀ k, (chain k).Nodup
  disjoint : ∀ k j a, a ∈ chain k → a ∈ chain j → k = j

theorem Chains.seg_of_eq (h : Chains nx chain) (hk : chain k = as) : Seg nx as.head? as none := by
  rw [← hk]
  exact h.seg k

theorem Chains.comp (h : Chains nx chain) {f : L → K} (hf : Function.Injective f) :
    Chains nx (chain ∘ f) := by
  constructor
  · intro l
    exact h.seg (f l)
  · intro l
    exact h.nodup (f l)
  · intro l m a hl hm
    exact hf (h.disjoint (f l) (f m) a hl hm)

theorem Chains.congr (h : Chains nx chain) (hnx : ∀ k, ∀ a ∈ chain k, nx' a = nx a) :
    Chains nx' chain := by
  refine ⟨?_, h.nodup, h.disjoint⟩
  intro k
  exact (seg_congr (hnx k)).mpr (h.seg k)

theorem Chains.update_of_notMem (h : Chains nx chain) (ha : ∀ k, a ∉ chain k) (v : Option Addr) :
    Chains (Function.update nx a v) chain := by
  apply h.congr
  intro k b hb
  apply Function.update_of_ne
  rintro rfl
  exact ha k hb

variable {N : Type} {h h' h'' : Heap N} {chain' : L → List Addr}

/-- A step from one family to another that works on the nodes of the family and on new ones only. -/
structure Confined (h h' : Heap N) (chain : K → List Addr) (chain' : L → List Addr) : Prop where
  frame : h.Frame h' fun a => ∃ k, a ∈ chain k
  mem : ∀ l, ∀ a : ℕ, a ∈ chain' l → (∃ k, a ∈ chain k) ∨ h.brk ≤ a

theorem Confined.refl (h : Heap N) (chain : K → List Addr) : Confined h h chain chain :=
  ⟨.refl h _, fun k _ ha => Or.inl ⟨k, ha⟩⟩

theorem Confined.trans {J : Type} {chain'' : J → List Addr} (h₁ : Confined h h' chain chain')
    (h₂ : Confined h' h'' chain' chain'') : Confined h h'' chain chain'' := by
  refine ⟨h₁.frame.trans h₂.frame ?_, ?_⟩
  · rintro a ha ⟨l, hl⟩
    rcases h₁.mem l a hl with hk | hge
    · exact hk
    · exact absurd ha (Nat.not_lt.mpr hge)
  · intro j a ha
    rcases h₂.mem j a ha with ⟨l, hl⟩ | hge
    · exact h₁.mem l a hl
    · exact Or.inr (Nat.le_trans h₁.frame.brk hge)

theorem Confined.comp {J : Type} (hc : Confined h h' chain chain') (f : J → L) :
    Confined h h' chain (chain' ∘ f) :=
  ⟨hc.frame, fun j a ha => hc.mem (f j) a ha⟩

variable [DecidableEq K]

theorem head?_update (h : as.head? = (chain k).head?) (j : K) :
    (Function.update chain k as j).head? = (chain j).head? := by
  rw [Function.apply_update (fun _ => List.head?), h, Function.update_eq_self]

theorem Confined.update (hf : h.Frame h' fun a => ∃ k, a ∈ chain k)
    (has : ∀ a : ℕ, a ∈ as → (∃ k, a ∈ chain k) ∨ h.brk ≤ a) :
    Confined h h' chain (Function.update chain k as) := by
  refine ⟨hf, ?_⟩
  intro j a ha
  by_cases hj : j = k
  · subst hj
    rw [Function.update_self] at ha
    exact has a ha
  · rw [Function.update_of_ne hj] at ha
    exact Or.inl ⟨j, ha⟩

/-- A node `a` of the family that was taken out goes back into it. -/
theorem Confined.putBack {chain' : K → List Addr} (hc : Confined h h' chain chain')
    (ha : ∃ k, a ∈ chain k) (hf : h'.Frame h'' fun b => b = a ∨ b ∈ chain' k)
    (has : ∀ b : ℕ, b ∈ as → b = a ∨ b ∈ chain' k) :
    Confined h h'' chain (Function.update chain' k as) := by
  have hold : ∀ b : ℕ, b = a ∨ b ∈ chain' k → (∃ j, b ∈ chain j) ∨ h.brk ≤ b := by
    rintro b (rfl | hb)
    · exact Or.inl ha
    · exact hc.mem k b hb
  refine ⟨hc.frame.trans hf ?_, ?_⟩
  · intro b hlt hb
    exact (hold b hb).resolve_right (Nat.not_le.mpr hlt)
  · intro j b hb
    by_cases hj : j = k
    · subst hj
      rw [Function.update_self] at hb
      exact hold b (has b hb)
    · rw [Function.update_of_ne hj] at hb
      exact hc.mem j b hb

theorem Chains.cut (h : Chains nx chain) (hk : chain k = a :: as) :
    Chains (Function.update nx a none) (Function.update chain k as) ∧
      ∀ j, a ∉ Function.update chain k as j := by
  have hn := h.nodup k
  rw [hk] at hn
  obtain ⟨ha, has⟩ := List.nodup_cons.mp hn
  have hsub : ∀ j b, b ∈ Function.update chain k as j → b ∈ chain j := by
    intro j b hb
    by_cases hj : j = k
    · subst hj
      rw [Function.update_self] at hb
      rw [hk]
      exact List.mem_cons_of_mem a hb
    · rwa [Function.update_of_ne hj] at hb
  have hfree : ∀ j, a ∉ Function.update chain k as j := by
    intro j hj
    have hjk : j = k := h.disjoint j k a (hsub j a hj) (hk ▸ List.mem_cons_self)
    rw [hjk, Function.update_self] at hj
    exact ha hj
  refine ⟨Chains.update_of_notMem ⟨?_, ?_, ?_⟩ hfree none, hfree⟩
  · intro j
    by_cases hj : j = k
    · subst hj
      rw [Function.update_self]
      have hseg := (h.seg_of_eq hk).2
      cases as with
      | nil => rfl
      | cons b as => exact ⟨rfl, hseg.2⟩
    · rw [Function.update_of_ne hj]
      exact h.seg j
  · intro j
    by_cases hj : j = k
    · subst hj
      rwa [Function.update_self]
    · rw [Function.update_of_ne hj]
      exact h.nodup j
  · intro i j b hi hj
    exact h.disjoint i j b (hsub i b hi) (hsub j b hj)

/-- A chain is replaced by a list of nodes that links to NULL and meets no other chain. -/
theorem Chains.replace (h : Chains nx chain) (hseg : Seg nx as.head? as none) (hn : as.Nodup)
    (hfree : ∀ j, j ≠ k → ∀ a ∈ as, a ∉ chain j) : Chains nx (Function.update chain k as) := by
  constructor
  · intro j
    by_cases hj : j = k
    · subst hj
      rwa [Function.update_self]
    · rw [Function.update_of_ne hj]
      exact h.seg j
  · intro j
    by_cases hj : j = k
    · subst hj
      rwa [Function.update_self]
    · rw [Function.update_of_ne hj]
      exact h.nodup j
  · intro i j b hi hj
    by_cases hik : i = k <;> by_cases hjk : j = k
    · rw [hik, hjk]
    · subst hik
      rw [Function.update_self] at hi
      rw [Function.update_of_ne hjk] at hj
      exact absurd hj (hfree j hjk b hi)
    · subst hjk
      rw [Function.update_self] at hj
      rw [Function.update_of_ne hik] at hi
      exact absurd hi (hfree i hik b hj)
    · rw [Function.update_of_ne hik] at hi
      rw [Function.update_of_ne hjk] at hj
      exact h.disjoint i j b hi hj

theorem Chains.put (h : Chains nx chain) (ha : ∀ j, a ∉ chain j) (hnx : nx a = none) :
    Chains nx (Function.update chain k [a]) := by
  apply h.replace
  · exact ⟨rfl, hnx⟩
  · exact List.nodup_singleton a
  · intro j _ b hb
    rw [List.mem_singleton.mp hb]
    exact ha j

/-- A node outside the family is linked behind the last node of `k`. -/
theorem Chains.snoc (h : Chains nx chain) (hk : chain k = bs ++ [b]) (ha : ∀ j, a ∉ chain j)
    (hnx : nx a = none) :
    Chains (Function.update nx b (some a)) (Function.update chain k (bs ++ [b, a])) := by
  have hn := h.nodup k
  rw [hk] at hn
  have hb : b ∉ bs := by
    intro hb
    exact (List.nodup_append.mp hn).2.2 b hb b (List.mem_singleton_self b) rfl
  have hak : a ∉ bs ++ [b] := hk ▸ ha k
  have hab : a ≠ b := by
    rintro rfl
    exact hak (by simp)
  have hothers : ∀ j, j ≠ k → b ∉ chain j := by
    intro j hj hbj
    exact hj (h.disjoint j k b hbj (by rw [hk]; simp))
  constructor
  · intro j
    by_cases hj : j = k
    · subst hj
      rw [Function.update_self]
      have hhead : (bs ++ [b, a]).head? = (bs ++ [b]).head? := by cases bs <;> rfl
      obtain ⟨r, hbs, hr, _⟩ := seg_append.mp (h.seg_of_eq hk)
      rw [hhead, seg_append]
      refine ⟨r, (seg_update hb).mpr hbs, hr, ?_⟩
      rw [Function.update_self]
      refine ⟨rfl, ?_⟩
      rw [Function.update_of_ne hab]
      exact hnx
    · rw [Function.update_of_ne hj, seg_update (hothers j hj)]
      exact h.seg j
  · intro j
    by_cases hj : j = k
    · subst hj
      rw [Function.update_self]
      have hperm : (bs ++ [b, a]).Perm (a :: (bs ++ [b])) := by
        have hp := List.perm_append_singleton a (bs ++ [b])
        rwa [List.append_assoc] at hp
      exact hperm.nodup_iff.mpr (List.nodup_cons.mpr ⟨hak, hn⟩)
    · rw [Function.update_of_ne hj]
      exact h.nodup j
  · intro i j d hi hj
    have hmem : ∀ x, d ∈ Function.update chain k (bs ++ [b, a]) x →
        (d ∈ chain x) ∨ (d = a ∧ x = k) := by
      intro x hx
      by_cases hxk : x = k
      · subst hxk
        rw [Function.update_self] at hx
        have hx' : d ∈ bs ++ [b] ∨ d = a := by simpa [or_assoc] using hx
        exact hx'.imp (fun h' => hk ▸ h') (fun h' => ⟨h', rfl⟩)
      · rw [Function.update_of_ne hxk] at hx
        exact Or.inl hx
    rcases hmem i hi with hi' | ⟨rfl, rfl⟩
    · rcases hmem j hj with hj' | ⟨rfl, rfl⟩
      · exact h.disjoint i j d hi' hj'
      · exact absurd hi' (ha i)
    · rcases hmem j hj with hj' | ⟨_, rfl⟩
      · exact absurd hj' (ha j)
      · rfl

end Pointer
