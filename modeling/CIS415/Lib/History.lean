import CIS415.Lib.Machine
import CIS415.Lib.System
import Mathlib.Data.List.Induction

/-!
# Histories of operations on an object

An operation is called, takes effect on an object that it shares with the others, and returns the
answer that it got there; a history lists these events in the order in which they happen. The
operations of a history linearize when there is one order of those that took effect in which a
sequential object gives all the answers, and in which an operation that had returned before another
was called comes first. A system uses an object when some of its steps are operations on it.
-/

namespace History

variable {O R X Y S A : Type}

inductive Event (O R : Type) where
  | call (o : O)
  | effect (o : O) (r : R)
  | ret (o : O) (r : R)

def Event.operation : Event O R → Option (O × R)
  | .effect o r => some (o, r)
  | _ => none

/-- The operations that took effect, with their answers. -/
def effects (es : List (Event O R)) : List (O × R) :=
  es.filterMap Event.operation

@[simp] theorem mem_effects {es : List (Event O R)} {o : O} {r : R} :
    (o, r) ∈ effects es ↔ .effect o r ∈ es := by
  rw [effects, List.mem_filterMap]
  constructor
  · rintro ⟨e, he, heq⟩
    cases e with
    | effect o' r' =>
      obtain ⟨rfl, rfl⟩ := Prod.mk.inj (Option.some.inj heq)
      exact he
    | call o' => cases heq
    | ret o' r' => cases heq
  · exact fun h => ⟨_, h, rfl⟩

theorem effects_append (es fs : List (Event O R)) : effects (es ++ fs) = effects es ++ effects fs :=
  List.filterMap_append

/-- What must have gone before an event: an operation is called once, takes effect once and after its
call, and returns what it got there. -/
def Allowed (es : List (Event O R)) : Event O R → Prop
  | .call o => .call o ∉ es
  | .effect o _ => .call o ∈ es ∧ ∀ r, .effect o r ∉ es
  | .ret o r => .effect o r ∈ es

def WellFormed (es : List (Event O R)) : Prop :=
  ∀ xs e ys, es = xs ++ e :: ys → Allowed xs e

section

variable {es fs : List (Event O R)} {e : Event O R} {o : O} {r : R}

theorem wellFormed_nil : WellFormed ([] : List (Event O R)) := by
  intro xs e ys heq
  cases xs <;> cases heq

theorem WellFormed.of_append (h : WellFormed (es ++ fs)) : WellFormed es := by
  rintro xs e ys rfl
  exact h xs e (ys ++ fs) (by rw [List.append_assoc, List.cons_append])

theorem WellFormed.allowed (h : WellFormed (es ++ [e])) : Allowed es e :=
  h es e [] rfl

theorem WellFormed.snoc (h : WellFormed es) (he : Allowed es e) : WellFormed (es ++ [e]) := by
  intro xs f ys heq
  rcases List.eq_nil_or_concat ys with rfl | ⟨zs, z, rfl⟩
  · obtain ⟨rfl, hlast⟩ := List.append_inj' heq rfl
    cases hlast
    exact he
  · rw [List.concat_eq_append, ← List.cons_append, ← List.append_assoc] at heq
    exact h xs f zs (List.append_inj' heq rfl).1

theorem WellFormed.effect_of_ret (h : WellFormed es) (hr : .ret o r ∈ es) : .effect o r ∈ es := by
  obtain ⟨xs, ys, rfl⟩ := List.append_of_mem hr
  exact List.mem_append_left _ (h xs _ ys rfl)

theorem WellFormed.call_of_effect (h : WellFormed es) (hr : .effect o r ∈ es) : .call o ∈ es := by
  obtain ⟨xs, ys, rfl⟩ := List.append_of_mem hr
  exact List.mem_append_left _ (h xs _ ys rfl).1

/-- An operation is not called again. -/
theorem WellFormed.not_called (h : WellFormed (es ++ fs)) (hc : .call o ∈ fs) : .call o ∉ es := by
  obtain ⟨xs, ys, rfl⟩ := List.append_of_mem hc
  intro hmem
  exact h (es ++ xs) (.call o) ys (by rw [List.append_assoc]) (List.mem_append_left _ hmem)

theorem WellFormed.nodup_effects (h : WellFormed es) : ((effects es).map Prod.fst).Nodup := by
  induction es using List.reverseRecOn with
  | nil => exact List.nodup_nil
  | append_singleton es e ih =>
    have hes := ih h.of_append
    rw [effects_append, List.map_append]
    cases e with
    | call o => exact (List.append_nil _).symm ▸ hes
    | ret o r => exact (List.append_nil _).symm ▸ hes
    | effect o r =>
      refine List.nodup_append.mpr ⟨hes, List.pairwise_singleton _ o, fun p hp q hq heq => ?_⟩
      obtain ⟨⟨o', r'⟩, hmem, rfl⟩ := List.mem_map.mp hp
      have ho : o' = o := heq.trans (List.mem_singleton.mp hq)
      exact h.allowed.2 r' (mem_effects.mp (ho ▸ hmem))

end

/-- The operations `ops`, in this order, are what the history `es` amounts to for an object that is in
state `x` before and in state `y` after it. -/
structure Linearizes (obj : X → O → R × X) (x y : X) (es : List (Event O R)) (ops : List (O × R)) :
    Prop where
  legal : Machine.specRun obj x (ops.map Prod.fst) = (ops.map Prod.snd, y)
  nodup : (ops.map Prod.fst).Nodup
  called : ∀ o r, (o, r) ∈ ops → .call o ∈ es
  returned : ∀ o r, .ret o r ∈ es → (o, r) ∈ ops
  order : ∀ o r o' r', List.Sublist [.ret o r, .call o'] es → (o', r') ∈ ops →
    List.Sublist [o, o'] (ops.map Prod.fst)

/-- The order in which the operations take effect is one. -/
theorem WellFormed.linearizes {obj : X → O → R × X} {x y : X} {es : List (Event O R)}
    (h : WellFormed es)
    (hlegal : Machine.specRun obj x ((effects es).map Prod.fst) = ((effects es).map Prod.snd, y)) :
    Linearizes obj x y es (effects es) where
  legal := hlegal
  nodup := h.nodup_effects
  called o r hr := h.call_of_effect (mem_effects.mp hr)
  returned o r hr := mem_effects.mpr (h.effect_of_ret hr)
  order o r o' r' hsub hr' := by
    obtain ⟨fs, gs, rfl, hret, hcall⟩ := List.cons_sublist_iff.mp hsub
    rw [List.singleton_sublist] at hcall
    have hfirst : .effect o r ∈ fs := h.of_append.effect_of_ret hret
    -- the second operation is not called in the first part, so it takes no effect there
    have hsecond : .effect o' r' ∈ gs := by
      rcases List.mem_append.mp (mem_effects.mp hr') with hmem | hmem
      · exact absurd (h.of_append.call_of_effect hmem) (h.not_called hcall)
      · exact hmem
    rw [effects_append, List.map_append]
    refine List.cons_sublist_iff.mpr ⟨_, _, rfl, ?_, List.singleton_sublist.mpr ?_⟩
    · exact List.mem_map_of_mem (f := Prod.fst) (mem_effects.mpr hfirst)
    · exact List.mem_map_of_mem (f := Prod.fst) (mem_effects.mpr hsecond)

variable {step : S → A → Option S} {event : S → A → Option (Event O R)} {obj : X → O → R × X}

/-- The system together with the object: a step in which an operation takes effect needs the answer
that the object gives. -/
def withObject [DecidableEq R] (step : S → A → Option S) (event : S → A → Option (Event O R))
    (obj : X → O → R × X) (p : S × X) (a : A) : Option (S × X) :=
  match (event p.1 a).bind Event.operation with
  | none => (step p.1 a).map fun t => (t, p.2)
  | some (o, r) =>
    if (obj p.2 o).1 = r then (step p.1 a).map fun t => (t, (obj p.2 o).2) else none

variable [DecidableEq R]

theorem withObject_step {p q : S × X} {a : A} (h : withObject step event obj p a = some q) :
    step p.1 a = some q.1 := by
  rw [withObject] at h
  split at h
  · obtain ⟨t, ht, rfl⟩ := Option.map_eq_some_iff.mp h
    exact ht
  · split at h
    · obtain ⟨t, ht, rfl⟩ := Option.map_eq_some_iff.mp h
      exact ht
    · cases h

theorem withObject_effects {p q : S × X} {a : A} (h : withObject step event obj p a = some q) :
    Machine.specRun obj p.2 ((effects (event p.1 a).toList).map Prod.fst) =
      ((effects (event p.1 a).toList).map Prod.snd, q.2) := by
  have heffects : effects (event p.1 a).toList = ((event p.1 a).bind Event.operation).toList := by
    cases he : event p.1 a with
    | none => rfl
    | some e => cases e <;> rfl
  rw [heffects]
  rw [withObject] at h
  split at h
  · rename_i hnone
    obtain ⟨t, -, rfl⟩ := Option.map_eq_some_iff.mp h
    rw [hnone]
    rfl
  · rename_i o r hsome
    split at h
    · rename_i hanswer
      obtain ⟨t, -, rfl⟩ := Option.map_eq_some_iff.mp h
      rw [hsome, ← hanswer]
      rfl
    · cases h

/-- What the object has answered in an execution, it would have answered without the system. -/
theorem withObject_legal {p q : S × X} {as : List A}
    (h : System.exec (withObject step event obj) p as = some q) :
    Machine.specRun obj p.2
      ((effects (System.observe (withObject step event obj) (fun p => event p.1) p as)).map Prod.fst) =
      ((effects (System.observe (withObject step event obj) (fun p => event p.1) p as)).map Prod.snd,
        q.2) := by
  have hstep : ∀ (u : S × X) es a v,
      Machine.specRun obj p.2 ((effects es).map Prod.fst) = ((effects es).map Prod.snd, u.2) →
      withObject step event obj u a = some v →
      Machine.specRun obj p.2 ((effects (es ++ (event u.1 a).toList)).map Prod.fst) =
        ((effects (es ++ (event u.1 a).toList)).map Prod.snd, v.2) := by
    intro u es a v hu hs
    rw [effects_append, List.map_append, List.map_append, Machine.specRun_append, hu,
      withObject_effects hs]
  have hnil : Machine.specRun obj p.2 ((effects ([] : List (Event O R))).map Prod.fst) =
      ((effects ([] : List (Event O R))).map Prod.snd, p.2) := rfl
  exact System.observe_invariant
    (I := fun u es => Machine.specRun obj p.2 ((effects es).map Prod.fst) =
      ((effects es).map Prod.snd, u.2)) hstep hnil h

end History
