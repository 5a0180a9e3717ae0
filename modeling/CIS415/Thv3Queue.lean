import CIS415.Lib.Linked
import CIS415.Lib.Machine
import CIS415.Thv3

/-!
# The queues are FIFO, once they are not empty

`deq` keeps a queue and gives its first node. `enqueue` appends a node to a queue that is not empty. On
an empty queue it stores through the NULL `tail`: its test is whether the queue itself is NULL.
-/

namespace CIS415.Thv3

open Pointer

variable {heap heap' : Heap Pr} {queue : Queue} {as : List Addr} {a : Addr}

structure Listed (heap : Heap Pr) (queue : Queue) (as : List Addr) : Prop where
  head : queue.head = as.head?
  tail : queue.tail = as.getLast?
  size : queue.size = as.length
  chain : ∃ p, Seg (heap.field Pr.next) as.head? as p

theorem Listed.congr (h : Listed heap queue as) (heq : ∀ a ∈ as, heap'.load a = heap.load a) :
    Listed heap' queue as := by
  obtain ⟨p, hseg⟩ := h.chain
  refine ⟨h.head, h.tail, h.size, p, (seg_congr ?_).mpr hseg⟩
  intro a ha
  rw [Heap.field, Heap.field, heq a ha]

theorem listed_nil (heap : Heap Pr) : Listed heap ⟨none, none, 0⟩ [] :=
  ⟨rfl, rfl, rfl, none, rfl⟩

theorem Listed.deq (h : Listed heap queue as) (hn : as.Nodup) :
    ∃ queue', deq heap queue = some (as.head?, queue') ∧ Listed heap queue' as.tail := by
  obtain ⟨p, hseg⟩ := h.chain
  have hhead := h.head
  have htail := h.tail
  have hsize := h.size
  cases as with
  | nil => exact ⟨queue, if_pos hhead, h⟩
  | cons a as =>
    have hne : queue.head ≠ none := by
      rw [hhead]
      exact Option.some_ne_none a
    rw [Thv3.deq, if_neg hne]
    cases as with
    | nil =>
      have heq : queue.head = queue.tail := hhead.trans htail.symm
      rw [if_pos heq, hhead]
      refine ⟨_, rfl, rfl, rfl, ?_, none, rfl⟩
      change queue.size - 1 = 0
      rw [hsize]
      rfl
    | cons b as =>
      -- The last node is another one than the first.
      have hdiff : queue.head ≠ queue.tail := by
        rw [hhead, htail, List.getLast?_cons_cons]
        intro heq
        have hmem : a ∈ b :: as := List.mem_of_getLast? heq.symm
        exact (List.nodup_cons.mp hn).1 hmem
      have hnext : heap.field Pr.next a = some b := hseg.2.1
      obtain ⟨node, hload, hlink⟩ := Heap.load_of_field hnext
      rw [if_neg hdiff, hhead]
      simp only [List.head?_cons, Option.bind_eq_bind, Option.bind_some, hload]
      refine ⟨_, rfl, hlink, ?_, ?_, p, ?_⟩
      · change queue.tail = _
        rw [htail, List.getLast?_cons_cons]
        rfl
      · change queue.size - 1 = _
        rw [hsize]
        simp
      · exact ⟨rfl, hseg.2.2⟩

/-- `enqueue` on an empty queue goes through NULL. -/
theorem Listed.enqueue_nil (h : Listed heap queue []) (process : Option Addr) :
    enqueue heap (some queue) process = none := by
  have htail : queue.tail = none := h.tail
  rw [enqueue, Option.bind_eq_bind, Option.bind_some, htail]
  rfl

theorem Listed.enqueue (h : Listed heap queue as) (hne : as ≠ []) (hn : as.Nodup)
    (hlive : ∀ b ∈ as, (heap.load b).isSome) (ha : a ∉ as) :
    ∃ heap' queue' last node, enqueue heap (some queue) (some a) = some (heap', queue') ∧
      Listed heap' queue' (as ++ [a]) ∧ last ∈ as ∧ heap.load last = some node ∧
        heap'.load = Function.update heap.load last (some { node with next := some a }) := by
  obtain ⟨init, last, rfl⟩ := List.eq_nil_or_concat as |>.resolve_left hne
  rw [List.concat_eq_append] at *
  have hlast : last ∈ init ++ [last] := List.mem_append_right _ List.mem_cons_self
  obtain ⟨node, hload⟩ := Option.isSome_iff_exists.mp (hlive last hlast)
  obtain ⟨heap', hstore, hload', -⟩ := Heap.store_spec hload { node with next := some a }
  have htail : queue.tail = some last := by
    rw [h.tail, List.getLast?_append]
    rfl
  obtain ⟨p, hseg⟩ := h.chain
  have hfield := Heap.field_update hload' Pr.next
  have hfresh : last ∉ init := by
    intro hmem
    exact (List.nodup_append.mp hn).2.2 last hmem last List.mem_cons_self rfl
  have hchain : Seg (heap'.field Pr.next) (init ++ [last] ++ [a]).head? (init ++ [last] ++ [a])
      (heap'.field Pr.next a) := by
    have hinit : Seg (heap.field Pr.next) (init ++ [last]).head? init (some last) :=
      (seg_snoc.mp hseg).1
    have hhead : (init ++ [last] ++ [a]).head? = (init ++ [last]).head? := by
      cases init with
      | nil => rfl
      | cons b init => rfl
    rw [hhead, seg_snoc, seg_snoc, hfield]
    refine ⟨⟨(seg_update hfresh).mpr hinit, ?_⟩, rfl⟩
    rw [Function.update_self]
  refine ⟨heap', ⟨queue.head, some a, queue.size + 1⟩, last, node, ?_, ?_, hlast, hload, hload'⟩
  · rw [Thv3.enqueue]
    simp only [Option.bind_eq_bind, Option.bind_some, htail, hload, hstore]
  · refine ⟨?_, ?_, ?_, _, hchain⟩
    · change queue.head = _
      rw [h.head]
      cases init with
      | nil => rfl
      | cons b init => rfl
    · rw [List.getLast?_append]
      rfl
    · change queue.size + 1 = _
      rw [h.size, List.length_append, List.length_append, List.length_append]
      rfl

/-- The queues have the nodes `lists`, no node is in both, and the allocated nodes are the `live` ones. -/
structure Represents (live : Addr → Prop) (s : State) (lists : QueueName → List Addr) : Prop where
  listed : ∀ q, Listed s.heap (s.queue q) (lists q)
  nodup : ∀ q, (lists q).Nodup
  disjoint : ∀ q q' a, a ∈ lists q → a ∈ lists q' → q = q'
  load_isSome : ∀ a, (s.heap.load a).isSome ↔ live a
  queued : ∀ q, ∀ a ∈ lists q, live a

variable {live : Addr → Prop} {s : State} {lists : QueueName → List Addr} {q : QueueName}

theorem Represents.update (h : Represents live s lists) (hq : Listed heap' queue as)
    (hother : ∀ q', q' ≠ q → ∀ a ∈ lists q', heap'.load a = s.heap.load a) (hn : as.Nodup)
    (hmem : ∀ a ∈ as, a ∈ lists q ∨ (live a ∧ ∀ q', a ∉ lists q'))
    (hlive : ∀ a, (heap'.load a).isSome ↔ live a) :
    Represents live ⟨heap', Function.update s.queue q queue⟩ (Function.update lists q as) := by
  -- A node of the changed queue is not in the other one.
  have hapart : ∀ q' a, a ∈ as → a ∈ lists q' → q = q' := by
    intro q' a ha ha'
    rcases hmem a ha with hold | ⟨-, hnew⟩
    · exact h.disjoint q q' a hold ha'
    · exact absurd ha' (hnew q')
  refine ⟨?_, ?_, ?_, hlive, ?_⟩
  · intro q'
    by_cases hq' : q' = q
    · subst hq'
      simpa using hq
    · simpa [Function.update_of_ne hq'] using (h.listed q').congr (hother q' hq')
  · intro q'
    by_cases hq' : q' = q
    · subst hq'
      simpa using hn
    · simpa [Function.update_of_ne hq'] using h.nodup q'
  · intro q₁ q₂ a h₁ h₂
    by_cases hq₁ : q₁ = q
    · by_cases hq₂ : q₂ = q
      · rw [hq₁, hq₂]
      · rw [hq₁, Function.update_self] at h₁
        rw [Function.update_of_ne hq₂] at h₂
        rw [hq₁]
        exact hapart q₂ a h₁ h₂
    · rw [Function.update_of_ne hq₁] at h₁
      by_cases hq₂ : q₂ = q
      · rw [hq₂, Function.update_self] at h₂
        rw [hq₂]
        exact (hapart q₁ a h₂ h₁).symm
      · rw [Function.update_of_ne hq₂] at h₂
        exact h.disjoint q₁ q₂ a h₁ h₂
  · intro q' a ha
    by_cases hq' : q' = q
    · rw [hq', Function.update_self] at ha
      rcases hmem a ha with hold | ⟨hnew, -⟩
      · exact h.queued q a hold
      · exact hnew
    · rw [Function.update_of_ne hq'] at ha
      exact h.queued q' a ha

theorem Represents.deq (h : Represents live s lists) (q : QueueName) :
    ∃ queue', deq s.heap (s.queue q) = some ((lists q).head?, queue') ∧
      Represents live ⟨s.heap, Function.update s.queue q queue'⟩
        (Function.update lists q (lists q).tail) := by
  obtain ⟨queue', hdeq, hlisted⟩ := (h.listed q).deq (h.nodup q)
  refine ⟨queue', hdeq, h.update hlisted ?_ ?_ ?_ h.load_isSome⟩
  · intro q' _ a _
    rfl
  · exact (h.nodup q).tail
  · intro a ha
    exact .inl (List.mem_of_mem_tail ha)

theorem Represents.enqueue (h : Represents live s lists) (hne : lists q ≠ []) (ha : live a)
    (hfree : ∀ q', a ∉ lists q') :
    ∃ heap' queue', enqueue s.heap (some (s.queue q)) (some a) = some (heap', queue') ∧
      Represents live ⟨heap', Function.update s.queue q queue'⟩
        (Function.update lists q (lists q ++ [a])) ∧
      ∀ b, (heap'.load b).map Pr.pid = (s.heap.load b).map Pr.pid := by
  have hlive : ∀ b ∈ lists q, (s.heap.load b).isSome := by
    intro b hb
    exact (h.load_isSome b).mpr (h.queued q b hb)
  obtain ⟨heap', queue', last, node, henq, hlisted, hlast, hload, hload'⟩ :=
    (h.listed q).enqueue hne (h.nodup q) hlive (hfree q)
  refine ⟨heap', queue', henq, h.update hlisted ?_ ?_ ?_ ?_, ?_⟩
  · intro q' hq' b hb
    rw [hload', Function.update_of_ne]
    rintro rfl
    exact hq' (h.disjoint q' q b hb hlast)
  · rw [List.nodup_append]
    refine ⟨h.nodup q, List.nodup_singleton a, ?_⟩
    intro b hb c hc hbc
    rw [List.mem_singleton] at hc
    exact hfree q (hc ▸ hbc ▸ hb)
  · intro b hb
    rcases List.mem_append.mp hb with hold | hnew
    · exact .inl hold
    · rw [List.mem_singleton] at hnew
      rw [hnew]
      exact .inr ⟨ha, hfree⟩
  · intro b
    rw [Heap.isSome_update hload hload', h.load_isSome]
  · intro b
    by_cases hb : b = last
    · rw [hb, hload', Function.update_self, hload]
      rfl
    · rw [hload', Function.update_of_ne hb]

/-- What the calls do to two first-in first-out queues. -/
def fifoStep (lists : QueueName → List Addr) : Call → Result × (QueueName → List Addr)
  | .enqueue q process =>
    let lists := Function.update lists q (lists q ++ [process])
    (⟨none, fun q => (lists q).length⟩, lists)
  | .deq q =>
    let rest := Function.update lists q (lists q).tail
    (⟨(lists q).head?, fun q => (rest q).length⟩, rest)
  | .assign _ _ => (⟨none, fun q => (lists q).length⟩, lists)

/-- A node is queued or written to while it is allocated and in no queue. -/
def Allowed (live : Addr → Prop) (lists : QueueName → List Addr) : Call → Prop
  | .enqueue _ process => live process ∧ ∀ q, process ∉ lists q
  | .deq _ => True
  | .assign process _ => live process ∧ ∀ q, process ∉ lists q

/-- Nothing is put into an empty queue. -/
def Joins (lists : QueueName → List Addr) : Call → Prop
  | .enqueue q _ => lists q ≠ []
  | .deq _ => True
  | .assign _ _ => True

theorem Represents.sizes (h : Represents live s lists) :
    s.sizes = fun q => ((lists q).length : ℤ) :=
  funext fun q => (h.listed q).size

theorem step_spec (s : State) (lists : QueueName → List Addr) (c : Call)
    (h : Represents live s lists) (hc : Allowed live lists c ∧ Joins lists c) :
    ∃ r t, step s c = some (r, t) ∧ r = (fifoStep lists c).1 ∧
      Represents live t (fifoStep lists c).2 := by
  cases c with
  | enqueue q process =>
    obtain ⟨heap', queue', henq, h', -⟩ := h.enqueue hc.2 hc.1.1 hc.1.2
    refine ⟨(fifoStep lists (.enqueue q process)).1, _, ?_, rfl, h'⟩
    rw [step, henq]
    change some (Result.mk _ (State.sizes _), _) = _
    rw [h'.sizes]
    rfl
  | deq q =>
    obtain ⟨queue', hdeq, h'⟩ := h.deq q
    refine ⟨(fifoStep lists (.deq q)).1, _, ?_, rfl, h'⟩
    rw [step, hdeq]
    change some (Result.mk _ (State.sizes _), _) = _
    rw [h'.sizes]
    rfl
  | assign process node =>
    obtain ⟨old, hload⟩ := Option.isSome_iff_exists.mp ((h.load_isSome process).mpr hc.1.1)
    obtain ⟨heap', hstore, hload', -⟩ := Heap.store_spec hload node
    have hframe : ∀ q, ∀ a ∈ lists q, heap'.load a = s.heap.load a := by
      intro q a ha
      rw [hload', Function.update_of_ne]
      rintro rfl
      exact hc.1.2 q ha
    have h' : Represents live ⟨heap', s.queue⟩ lists := by
      refine ⟨fun q => (h.listed q).congr (hframe q), h.nodup, h.disjoint, ?_, h.queued⟩
      intro a
      rw [Heap.isSome_update hload hload', h.load_isSome]
    refine ⟨(fifoStep lists (.assign process node)).1, _, ?_, rfl, h'⟩
    rw [step, hstore]
    change some (Result.mk _ (State.sizes _), _) = _
    rw [h'.sizes]
    rfl

theorem step_fails (s : State) (lists : QueueName → List Addr) (c : Call)
    (h : Represents live s lists) (hc : ¬ Joins lists c) : step s c = none := by
  cases c with
  | enqueue q process =>
    have hnil : Listed s.heap (s.queue q) [] := not_not.mp hc ▸ h.listed q
    rw [step, hnil.enqueue_nil]
    rfl
  | deq q => exact absurd trivial hc
  | assign process node => exact absurd trivial hc

def simulation (live : Addr → Prop) :
    Machine.Simulation step fifoStep fun lists c => Allowed live lists c ∧ Joins lists c where
  rel := Represents live
  obs := id
  simulates := step_spec

/-- The calls of the history return what FIFO queues return, with the sizes of these, and lead to queues
with the same nodes. -/
def Conforms (live : Addr → Prop) (s : State) (lists : QueueName → List Addr)
    (history : List Call) : Prop :=
  ∃ rs t, Machine.run step s history = some (rs, t) ∧
    rs = (Machine.specRun fifoStep lists history).1 ∧
      Represents live t (Machine.specRun fifoStep lists history).2

/-- From queues with any nodes, exactly the histories that put nothing into an empty queue conform. -/
theorem conforms_iff_joins (h : Represents live s lists) {history : List Call}
    (hl : Machine.Legal fifoStep (Allowed live) lists history) :
    Conforms live s lists history ↔ Machine.Legal fifoStep Joins lists history := by
  have hiff := (simulation live).run_iff step_fails h hl
  simpa [Conforms, simulation] using hiff

theorem represents_initial (heap : Heap Pr) :
    Represents (fun a => (heap.load a).isSome) (initial heap) fun _ => [] := by
  refine ⟨fun _ => listed_nil heap, fun _ => List.nodup_nil, ?_, fun _ => Iff.rfl, ?_⟩
  · intro _ _ a ha
    exact absurd ha List.not_mem_nil
  · intro _ a ha
    exact absurd ha List.not_mem_nil

def Call.isEnqueue : Call → Bool
  | .enqueue _ _ => true
  | .deq _ => false
  | .assign _ _ => false

theorem joins_nil_iff (history : List Call) :
    Machine.Legal fifoStep Joins (fun _ => []) history ↔ ∀ c ∈ history, ¬ c.isEnqueue := by
  induction history with
  | nil => exact iff_of_true trivial fun c hc => absurd hc List.not_mem_nil
  | cons c history ih =>
    rw [Machine.Legal, List.forall_mem_cons]
    cases c with
    | enqueue q process => exact iff_of_false (fun h => h.1 rfl) fun h => h.1 rfl
    | deq q =>
      have hempty : (fifoStep (fun _ => []) (.deq q)).2 = fun _ => [] := by
        funext q'
        by_cases hq : q' = q <;> simp [fifoStep, hq]
      rw [hempty, ih]
      exact and_congr_left fun _ => iff_of_true trivial Bool.false_ne_true
    | assign process node =>
      change _ ∧ Machine.Legal fifoStep Joins (fun _ => []) history ↔ _
      rw [ih]
      exact and_congr_left fun _ => iff_of_true trivial Bool.false_ne_true

/-- From the queues of `main`, over nodes with any contents, exactly the histories without `enqueue`
return what first-in first-out queues return. -/
theorem fifo_iff (heap : Heap Pr) (history : List Call)
    (hl : Machine.Legal fifoStep (Allowed fun a => (heap.load a).isSome) (fun _ => []) history) :
    Conforms (fun a => (heap.load a).isSome) (initial heap) (fun _ => []) history ↔
      ∀ c ∈ history, ¬ c.isEnqueue := by
  rw [conforms_iff_joins (represents_initial heap) hl, joins_nil_iff]

def oneNode : Heap Pr :=
  (Heap.empty.malloc ⟨7, none, 0⟩).2

theorem live_oneNode : (oneNode.load 0).isSome := by
  decide

theorem fifo_iff_deq :
    Conforms (fun a => (oneNode.load a).isSome) (initial oneNode) (fun _ => [])
      [.deq .rQ, .assign 0 ⟨7, some 0, 1⟩, .deq .wQ] := by
  have hfree : ∀ q, 0 ∉ (fifoStep (fun _ => []) (.deq .rQ)).2 q := by
    intro q
    cases q <;> decide
  refine (fifo_iff oneNode _ ?_).mpr ?_
  · exact ⟨trivial, ⟨live_oneNode, hfree⟩, trivial, trivial⟩
  · decide

/-- The first call of `enqueue` stores through NULL. -/
theorem first_enqueue_fails :
    Machine.Legal fifoStep (Allowed fun a => (oneNode.load a).isSome) (fun _ => [])
        [.enqueue .rQ 0] ∧
      ¬ Conforms (fun a => (oneNode.load a).isSome) (initial oneNode) (fun _ => [])
        [.enqueue .rQ 0] := by
  refine ⟨⟨⟨live_oneNode, fun _ => List.not_mem_nil⟩, trivial⟩, ?_⟩
  rintro ⟨rs, t, hrun, -, -⟩
  cases hrun

end CIS415.Thv3
