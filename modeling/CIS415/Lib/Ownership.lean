import Mathlib.Logic.Function.Basic

/-!
# Each thing in one place

`Placed holds place` says that the place of `v` is the one place that holds `v`. A step that moves one
thing keeps this if the new place, and no other, holds it and every other thing is held as before.
`Locks owner lock` says that the one who is recorded as the owner of a lock, and no other, is where it
has the lock.
-/

namespace Ownership

variable {P V : Type*} {holds holds' : P → V → Prop} {place : V → P} {p q : P} {v : V}

def Placed (holds : P → V → Prop) (place : V → P) : Prop :=
  ∀ p v, holds p v ↔ place v = p

theorem Placed.congr (h : Placed holds place) (heq : ∀ p v, holds' p v ↔ holds p v) :
    Placed holds' place := by
  intro p v
  rw [heq, h p v]

theorem Placed.move [DecidableEq V] (h : Placed holds place) (hq : ∀ p, holds' p v ↔ p = q)
    (hframe : ∀ p w, w ≠ v → (holds' p w ↔ holds p w)) :
    Placed holds' (Function.update place v q) := by
  intro p w
  by_cases hw : w = v
  · subst hw
    rw [hq, Function.update_self]
    exact eq_comm
  · rw [hframe p w hw, Function.update_of_ne hw]
    exact h p w

section Locks

variable {O L : Type*} {owner owner' : L → Option O} {lock lock' : O → Option L} {l : L} {o : O}

def Locks (owner : L → Option O) (lock : O → Option L) : Prop :=
  ∀ l o, owner l = some o ↔ lock o = some l

/-- What a step of `o` does to the locks: nothing, or it takes a free lock, or it lets go of its own. -/
inductive LockStep (owner owner' : L → Option O) (lock lock' : O → Option L) (o : O) : Prop
  | keep (hown : ∀ l, owner' l = owner l) (hlock : lock' o = lock o)
  | acquire (l : L) (hown : owner' l = some o) (hne : ∀ m, m ≠ l → owner' m = owner m)
      (hfree : owner l = none) (hnone : lock o = none) (hlock : lock' o = some l)
  | release (l : L) (hown : owner' l = none) (hne : ∀ m, m ≠ l → owner' m = owner m)
      (hheld : lock o = some l) (hlock : lock' o = none)

theorem LockStep.held (hs : LockStep owner owner' lock lock' o) (h : Locks owner lock) {p : O}
    (hp : p ≠ o) (hl : owner l = some p) : owner' l = some p := by
  cases hs with
  | keep hown _ => rw [hown, hl]
  | acquire m _ hne hfree _ _ =>
    have hlm : l ≠ m := by
      rintro rfl
      cases hfree.symm.trans hl
    rw [hne l hlm, hl]
  | release m _ hne hheld _ =>
    have hlm : l ≠ m := by
      rintro rfl
      exact hp (Option.some.inj (hl.symm.trans ((h l o).mpr hheld)))
    rw [hne l hlm, hl]

theorem LockStep.acquired (hs : LockStep owner owner' lock lock' o) {p : O} (hfree : owner l = none)
    (hl : owner' l = some p) : p = o ∧ lock o = none := by
  cases hs with
  | keep hown _ =>
    rw [hown, hfree] at hl
    cases hl
  | acquire m hown hne _ hnone _ =>
    by_cases hlm : l = m
    · subst hlm
      rw [hown] at hl
      exact ⟨(Option.some.inj hl).symm, hnone⟩
    · rw [hne l hlm, hfree] at hl
      cases hl
  | release m hown hne _ _ =>
    by_cases hlm : l = m
    · subst hlm
      rw [hown] at hl
      cases hl
    · rw [hne l hlm, hfree] at hl
      cases hl

theorem Locks.step (h : Locks owner lock) (hs : LockStep owner owner' lock lock' o)
    (hframe : ∀ p, p ≠ o → lock' p = lock p) : Locks owner' lock' := by
  intro m p
  by_cases hp : p = o
  · subst hp
    cases hs with
    | keep hown hlock => rw [hown, hlock, h m p]
    | acquire l hown hne hfree hnone hlock =>
      by_cases hml : m = l
      · rw [hml, hown, hlock]
        exact iff_of_true rfl rfl
      · rw [hne m hml, h m p, hnone, hlock, Option.some.injEq]
        exact iff_of_false (Option.some_ne_none m).symm (Ne.symm hml)
    | release l hown hne hheld hlock =>
      rw [hlock]
      refine iff_of_false (fun hm => ?_) (Option.some_ne_none m).symm
      by_cases hml : m = l
      · rw [hml, hown] at hm
        cases hm
      · rw [hne m hml, h m p, hheld] at hm
        exact hml (Option.some.inj hm).symm
  · rw [hframe p hp, ← h m p]
    refine ⟨fun hm => ?_, hs.held h hp⟩
    cases hs with
    | keep hown _ => rwa [hown] at hm
    | acquire l hown hne _ _ _ =>
      by_cases hml : m = l
      · rw [hml, hown] at hm
        exact absurd (Option.some.inj hm).symm hp
      · rwa [hne m hml] at hm
    | release l hown hne _ _ =>
      by_cases hml : m = l
      · rw [hml, hown] at hm
        cases hm
      · rwa [hne m hml] at hm

end Locks

end Ownership
