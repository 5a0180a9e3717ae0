import CIS415.Thv3Queue

/-!
# The reaping loop

The bound of the loop is the size of `rQ`, which `deq` decreases: only the first half of the queue is
looked at. `f` is not reset: from the first dead process on every node that is looked at is freed.
-/

namespace CIS415.Thv3

open Pointer

def both (ready wait : List Addr) : QueueName → List Addr
  | .rQ => ready
  | .wQ => wait

theorem update_both_rQ (ready wait as : List Addr) :
    Function.update (both ready wait) .rQ as = both as wait := by
  funext q
  cases q <;> rfl

theorem update_both_wQ (ready wait as : List Addr) :
    Function.update (both ready wait) .wQ as = both ready as := by
  funext q
  cases q <;> rfl

/-- The pid of the node is not in `deadch[0..killcount-1]`. -/
def Dead.alive (d : Dead) (heap : Heap Pr) (a : Addr) : Bool :=
  (heap.load a).any fun process => decide (process.pid ∉ d.pids)

theorem Dead.alive_congr (d : Dead) {heap heap' : Heap Pr} {a : Addr}
    (h : (heap'.load a).map Pr.pid = (heap.load a).map Pr.pid) : d.alive heap' a = d.alive heap a := by
  have hany (heap : Heap Pr) :
      d.alive heap a = ((heap.load a).map Pr.pid).any fun pid => decide (pid ∉ d.pids) := by
    unfold Dead.alive
    cases heap.load a <;> rfl
  rw [hany, hany, h]

variable {d : Dead} {s : State} {live : Addr → Prop} {ready wait rest : List Addr} {a : Addr}

theorem findDead_eq {heap : Heap Pr} {process : Pr} (hload : heap.load a = some process)
    (pids : List ℤ) (f : Bool) :
    findDead heap (some a) pids f = some (f || decide (process.pid ∈ pids)) := by
  induction pids generalizing f with
  | nil => simp [findDead]
  | cons pid pids ih =>
    have hrec := ih (if pid = process.pid then true else f)
    unfold findDead at hrec ⊢
    rw [List.foldlM_cons]
    simp only [Option.bind_eq_bind, Option.bind_some, hload] at hrec ⊢
    rw [hrec]
    by_cases hpid : pid = process.pid
    · simp [hpid]
    · simp [hpid, Ne.symm hpid]

theorem Represents.free {lists : QueueName → List Addr} (h : Represents live s lists) (ha : live a)
    (hfree : ∀ q, a ∉ lists q) :
    ∃ heap', s.heap.free a = some heap' ∧
      Represents (fun b => live b ∧ b ≠ a) ⟨heap', s.queue⟩ lists ∧
        ∀ b, b ≠ a → heap'.load b = s.heap.load b := by
  obtain ⟨process, hload⟩ := Option.isSome_iff_exists.mp ((h.load_isSome a).mpr ha)
  obtain ⟨heap', hfreed, hload', -⟩ := Heap.free_spec hload
  have hframe : ∀ b, b ≠ a → heap'.load b = s.heap.load b := by
    intro b hb
    rw [hload', Function.update_of_ne hb]
  have hother : ∀ q, ∀ b ∈ lists q, b ≠ a := by
    rintro q b hb rfl
    exact hfree q hb
  refine ⟨heap', hfreed, ⟨?_, h.nodup, h.disjoint, ?_, ?_⟩, hframe⟩
  · exact fun q => (h.listed q).congr fun b hb => hframe b (hother q b hb)
  · intro b
    by_cases hb : b = a
    · rw [hb, hload', Function.update_self]
      exact iff_of_false Bool.false_ne_true fun h => h.2 rfl
    · rw [hframe b hb, h.load_isSome]
      exact (and_iff_left hb).symm
  · exact fun q b hb => ⟨h.queued q b hb, hother q b hb⟩

theorem Represents.front (h : Represents live s (both (a :: ready) wait)) :
    ∃ rQ process, Thv3.deq s.heap (s.queue .rQ) = some (some a, rQ) ∧
      Represents live ⟨s.heap, Function.update s.queue .rQ rQ⟩ (both ready wait) ∧
      live a ∧ (∀ q, a ∉ both ready wait q) ∧ s.heap.load a = some process := by
  obtain ⟨rQ, hdeq, h₁⟩ := h.deq .rQ
  rw [update_both_rQ] at h₁
  have hlive : live a := h.queued .rQ a List.mem_cons_self
  obtain ⟨process, hload⟩ := Option.isSome_iff_exists.mp ((h.load_isSome a).mpr hlive)
  refine ⟨rQ, process, hdeq, h₁, hlive, ?_, hload⟩
  intro q hmem
  cases q with
  | rQ => exact (List.nodup_cons.mp (h.nodup .rQ)).1 hmem
  | wQ => cases h.disjoint .rQ .wQ a List.mem_cons_self hmem

/-- As long as no dead process was seen, a live one is moved to `wQ`. -/
theorem Represents.reapBody_alive (h : Represents live s (both (a :: ready) wait))
    (hwait : wait ≠ []) (halive : d.alive s.heap a) :
    ∃ t, reapBody d false s = some (false, t) ∧ Represents live t (both ready (wait ++ [a])) ∧
      ∀ b, (t.heap.load b).map Pr.pid = (s.heap.load b).map Pr.pid := by
  obtain ⟨rQ, process, hdeq, h₁, hlive, hfree, hload⟩ := h.front
  have hpid : process.pid ∉ d.pids := by
    unfold Dead.alive at halive
    rw [hload] at halive
    simpa using halive
  have hfind : findDead s.heap (some a) d.pids false = some false := by
    rw [findDead_eq hload]
    simp [hpid]
  obtain ⟨heap', wQ, henq, h₂, hpids⟩ := h₁.enqueue (q := .wQ) hwait hlive hfree
  refine ⟨⟨heap', Function.update (Function.update s.queue .rQ rQ) .wQ wQ⟩, ?_, ?_, hpids⟩
  · rw [reapBody, hdeq]
    simp only [Option.bind_eq_bind, Option.bind_some]
    rw [hfind, Option.bind_some, if_pos rfl]
    rw [henq]
    rfl
  · rw [← update_both_wQ ready wait]
    exact h₂

/-- A dead process is freed, and so is every one after it. -/
theorem Represents.reapBody_dead {f : Bool} (h : Represents live s (both (a :: ready) wait))
    (hdead : f = true ∨ ¬ d.alive s.heap a) :
    ∃ t, reapBody d f s = some (true, t) ∧
      Represents (fun b => live b ∧ b ≠ a) t (both ready wait) ∧
        ∀ b, b ≠ a → t.heap.load b = s.heap.load b := by
  obtain ⟨rQ, process, hdeq, h₁, hlive, hfree, hload⟩ := h.front
  have hfind : findDead s.heap (some a) d.pids f = some true := by
    rw [findDead_eq hload]
    rcases hdead with rfl | hdead
    · rfl
    · unfold Dead.alive at hdead
      rw [hload] at hdead
      simp only [Option.any_some, decide_eq_true_eq, not_not] at hdead
      simp [hdead]
  obtain ⟨heap', hfreed, h₂, hframe⟩ := h₁.free hlive hfree
  have hfreeNode : freeNode s.heap (some a) = some heap' := hfreed
  refine ⟨⟨heap', Function.update s.queue .rQ rQ⟩, ?_, h₂, hframe⟩
  rw [reapBody, hdeq]
  simp only [Option.bind_eq_bind, Option.bind_some]
  rw [hfind, Option.bind_some, if_neg Bool.noConfusion, hfreeNode]
  rfl

/-- The nodes that go to `wQ`, of those that are looked at. -/
def kept (alive : Addr → Bool) (f : Bool) (looked : List Addr) : List Addr :=
  if f then [] else looked.takeWhile alive

def freed (alive : Addr → Bool) (f : Bool) (looked : List Addr) : List Addr :=
  if f then looked else looked.dropWhile alive

/-- How many of `n` nodes the loop looks at from iteration `i` on. -/
def looks (n i : ℕ) : ℕ :=
  (n + 1 - i) / 2

theorem looks_succ {n i : ℕ} (h : i < n + 1) : looks (n + 1) i = looks n (i + 1) + 1 := by
  unfold looks
  omega

theorem looks_eq_zero {n i : ℕ} (h : n ≤ i) : looks n i = 0 := by
  unfold looks
  omega

def Swept (live : Addr → Prop) (alive : Addr → Bool) (f : Bool) (ready wait : List Addr) (n : ℕ)
    (t : State) : Prop :=
  Represents (fun a => live a ∧ a ∉ freed alive f (ready.take n)) t
    (both (ready.drop n) (wait ++ kept alive f (ready.take n)))

theorem Represents.swept_zero (h : Represents live s (both ready wait)) (alive : Addr → Bool)
    (f : Bool) : Swept live alive f ready wait 0 s := by
  have hlive : (fun a => live a ∧ a ∉ freed alive f []) = live := by
    funext a
    cases f <;> simp [freed]
  have hkept : kept alive f [] = [] := by
    cases f <;> rfl
  rw [Swept, List.take_zero, List.drop_zero, hlive, hkept, List.append_nil]
  exact h

theorem Swept.cons_alive {alive : Addr → Bool} {n : ℕ} {t : State} (ha : alive a)
    (h : Swept live alive false ready (wait ++ [a]) n t) :
    Swept live alive false (a :: ready) wait (n + 1) t := by
  have hkept : kept alive false (a :: ready.take n) = a :: kept alive false (ready.take n) :=
    List.takeWhile_cons_of_pos ha
  have hfreed : freed alive false (a :: ready.take n) = freed alive false (ready.take n) :=
    List.dropWhile_cons_of_pos ha
  rw [Swept, List.append_assoc] at h
  rw [Swept, List.take_succ_cons, List.drop_succ_cons, hkept, hfreed]
  exact h

/-- Looking at a dead node first, or at any node after a dead one. -/
theorem Swept.cons_dead {alive : Addr → Bool} {f : Bool} {n : ℕ} {t : State}
    (ha : f = true ∨ ¬ alive a)
    (h : Swept (fun b => live b ∧ b ≠ a) alive true ready wait n t) :
    Swept live alive f (a :: ready) wait (n + 1) t := by
  have hkept : kept alive f (a :: ready.take n) = [] := by
    rcases ha with rfl | ha
    · rfl
    · cases f with
      | true => rfl
      | false => exact List.takeWhile_cons_of_neg ha
  have hfreed : freed alive f (a :: ready.take n) = a :: ready.take n := by
    rcases ha with rfl | ha
    · rfl
    · cases f with
      | true => rfl
      | false => exact List.dropWhile_cons_of_neg ha
  have hlive : (fun b => live b ∧ b ∉ a :: ready.take n) =
      fun b => (live b ∧ b ≠ a) ∧ b ∉ ready.take n := by
    funext b
    rw [List.mem_cons, not_or, and_assoc]
  rw [Swept, List.take_succ_cons, List.drop_succ_cons, hkept, hfreed, hlive]
  exact h

/-- The loop stops when it has looked at half of the nodes that were left. -/
theorem reapLoop_spec {alive : Addr → Bool} {i fuel : ℕ} {f : Bool}
    (h : Represents live s (both ready wait)) (hwait : wait ≠ [])
    (halive : ∀ a ∈ ready, d.alive s.heap a = alive a) (hfuel : ready.length < fuel) :
    ∃ t, reapLoop d fuel i f s = some t ∧
      Swept live alive f ready wait (looks ready.length i) t := by
  induction ready generalizing s live wait i fuel f with
  | nil =>
    obtain ⟨fuel, rfl⟩ := Nat.exists_eq_succ_of_ne_zero (Nat.ne_zero_of_lt hfuel)
    have hsize : (s.queue .rQ).size = 0 := (h.listed .rQ).size
    rw [reapLoop, hsize, if_neg (by omega), List.length_nil, looks_eq_zero (Nat.zero_le i)]
    exact ⟨s, rfl, h.swept_zero alive f⟩
  | cons a ready ih =>
    obtain ⟨fuel, rfl⟩ := Nat.exists_eq_succ_of_ne_zero (Nat.ne_zero_of_lt hfuel)
    have hsize : (s.queue .rQ).size = ((a :: ready).length : ℕ) := (h.listed .rQ).size
    rw [reapLoop, hsize]
    by_cases hi : i < (a :: ready).length
    · rw [if_pos (by exact_mod_cast hi), List.length_cons, looks_succ hi]
      have hrest : ready.length < fuel := Nat.lt_of_succ_lt_succ hfuel
      have hfirst := halive a List.mem_cons_self
      by_cases hmoved : f = false ∧ alive a
      · obtain ⟨rfl, ha⟩ := hmoved
        obtain ⟨t, hbody, ht, hpids⟩ := h.reapBody_alive (d := d) hwait (hfirst.trans ha)
        have halive' : ∀ b ∈ ready, d.alive t.heap b = alive b := by
          intro b hb
          rw [d.alive_congr (hpids b), halive b (List.mem_cons_of_mem _ hb)]
        have hwait' : wait ++ [a] ≠ [] := List.append_ne_nil_of_left_ne_nil hwait _
        obtain ⟨u, hloop, hu⟩ := ih (i := i + 1) (f := false) ht hwait' halive' hrest
        exact ⟨u, by rw [hbody]; exact hloop, hu.cons_alive ha⟩
      · have ha : f = true ∨ ¬ alive a := by
          cases f with
          | true => exact .inl rfl
          | false => exact .inr fun ha => hmoved ⟨rfl, ha⟩
        have hdead : f = true ∨ ¬ d.alive s.heap a := by
          rw [hfirst]
          exact ha
        obtain ⟨t, hbody, ht, hframe⟩ := h.reapBody_dead hdead
        have halive' : ∀ b ∈ ready, d.alive t.heap b = alive b := by
          intro b hb
          have hne : b ≠ a := by
            rintro rfl
            exact (List.nodup_cons.mp (h.nodup .rQ)).1 hb
          rw [d.alive_congr (congrArg _ (hframe b hne)), halive b (List.mem_cons_of_mem _ hb)]
        obtain ⟨u, hloop, hu⟩ := ih (i := i + 1) (f := true) ht hwait halive' hrest
        exact ⟨u, by rw [hbody]; exact hloop, hu.cons_dead ha⟩
    · rw [if_neg (by exact_mod_cast hi), looks_eq_zero (Nat.le_of_not_lt hi)]
      exact ⟨s, rfl, h.swept_zero alive f⟩

theorem reap_spec (d : Dead) (h : Represents live s (both ready wait)) (hwait : wait ≠ []) :
    ∃ t, reap d s = some t ∧
      Swept live (d.alive s.heap) false ready wait (looks ready.length 0) t := by
  have hsize : (s.queue .rQ).size = ready.length := (h.listed .rQ).size
  rw [reap, hsize, Int.toNat_natCast]
  exact reapLoop_spec h hwait (fun _ _ => rfl) (Nat.lt_succ_self _)

/-- What the loop is for: `rQ` is empty, the live nodes are at the end of `wQ` in their order, and exactly
the dead ones are no longer allocated. -/
def Reaped (d : Dead) (s t : State) (ready wait : List Addr) : Prop :=
  Represents
    (fun a => (s.heap.load a).isSome ∧ a ∉ ready.filter fun a => !d.alive s.heap a) t
    (both [] (wait ++ ready.filter (d.alive s.heap)))

theorem Represents.ready_nil {live' : Addr → Prop} {wait' : List Addr}
    (h : Represents live s (both ready wait)) (h' : Represents live' s (both [] wait')) :
    ready = [] := by
  have hhead : ready.head? = none := ((h.listed .rQ).head).symm.trans (h'.listed .rQ).head
  exact List.head?_eq_none_iff.mp hhead

theorem sweep_short (alive : Addr → Bool) (h : ready.length ≤ 1) :
    kept alive false ready = ready.filter alive ∧
      freed alive false ready = ready.filter fun a => !alive a := by
  cases ready with
  | nil => exact ⟨rfl, rfl⟩
  | cons a ready =>
    obtain rfl := List.eq_nil_of_length_eq_zero (Nat.le_zero.mp (Nat.le_of_succ_le_succ h))
    by_cases ha : alive a <;> simp [kept, freed, ha]

/-- From any two queues of which `wQ` is not empty, the loop does this exactly when there is at most one
node in `rQ`. -/
theorem reap_iff (d : Dead) (s : State) (ready wait : List Addr)
    (h : Represents (fun a => (s.heap.load a).isSome) s (both ready wait)) (hwait : wait ≠ []) :
    (∃ t, reap d s = some t ∧ Reaped d s t ready wait) ↔ ready.length ≤ 1 := by
  obtain ⟨t, hreap, hswept⟩ := reap_spec d h hwait
  constructor
  · rintro ⟨t', hreap', hreaped⟩
    obtain rfl := Option.some.inj (hreap.symm.trans hreap')
    have hnil := Represents.ready_nil hswept hreaped
    have hle := List.drop_eq_nil_iff.mp hnil
    unfold looks at hle
    omega
  · intro hle
    refine ⟨t, hreap, ?_⟩
    have hlooks : looks ready.length 0 = ready.length := by
      unfold looks
      omega
    obtain ⟨hkept, hfreed⟩ := sweep_short (d.alive s.heap) hle
    rw [hlooks, Swept, List.take_length, List.drop_length, hkept, hfreed] at hswept
    exact hswept

def threeNodes : Heap Pr :=
  (((Heap.empty.malloc ⟨7, some 1, 1⟩).2.malloc ⟨8, none, 1⟩).2.malloc ⟨9, none, 0⟩).2

def twoReady : State where
  heap := threeNodes
  queue := fun
    | .rQ => ⟨some 0, some 1, 2⟩
    | .wQ => ⟨some 2, some 2, 1⟩

def oneReady : State where
  heap := threeNodes
  queue := fun
    | .rQ => ⟨some 2, some 2, 1⟩
    | .wQ => ⟨some 0, some 1, 2⟩

def nineDead : Dead where
  deadch := 9 :: List.replicate 1023 0
  killcount := 1
  length_deadch := by rw [List.length_cons, List.length_replicate]; rfl
  killcount_le := by decide

theorem listed_two : Listed threeNodes ⟨some 0, some 1, 2⟩ [0, 1] :=
  ⟨rfl, rfl, rfl, none, rfl, rfl, rfl⟩

theorem listed_one : Listed threeNodes ⟨some 2, some 2, 1⟩ [2] :=
  ⟨rfl, rfl, rfl, none, rfl, rfl⟩

theorem represents_of_listed {ready wait : List Addr}
    (hready : Listed s.heap (s.queue .rQ) ready) (hwait : Listed s.heap (s.queue .wQ) wait)
    (hn : (ready ++ wait).Nodup) (hlive : ∀ a ∈ ready ++ wait, (s.heap.load a).isSome) :
    Represents (fun a => (s.heap.load a).isSome) s (both ready wait) := by
  obtain ⟨hn₁, hn₂, hapart⟩ := List.nodup_append.mp hn
  refine ⟨?_, ?_, ?_, fun _ => Iff.rfl, ?_⟩
  · intro q
    cases q with
    | rQ => exact hready
    | wQ => exact hwait
  · intro q
    cases q with
    | rQ => exact hn₁
    | wQ => exact hn₂
  · intro q q' a ha ha'
    cases q with
    | rQ =>
      cases q' with
      | rQ => rfl
      | wQ => exact absurd rfl (hapart a ha a ha')
    | wQ =>
      cases q' with
      | rQ => exact absurd rfl (hapart a ha' a ha)
      | wQ => rfl
  · intro q a ha
    cases q with
    | rQ => exact hlive a (List.mem_append_left _ ha)
    | wQ => exact hlive a (List.mem_append_right _ ha)

theorem reap_iff_nineDead :
    ∃ t, reap nineDead oneReady = some t ∧ Reaped nineDead oneReady t [2] [0, 1] := by
  refine (reap_iff nineDead oneReady [2] [0, 1] ?_ (List.cons_ne_nil _ _)).mpr (Nat.le_refl 1)
  exact represents_of_listed listed_one listed_two (by decide) (by decide)

/-- Of two processes in `rQ`, both alive, the second one stays there. -/
theorem second_not_reaped :
    Represents (fun a => (twoReady.heap.load a).isSome) twoReady (both [0, 1] [2]) ∧
      ¬ ∃ t, reap nineDead twoReady = some t ∧ Reaped nineDead twoReady t [0, 1] [2] := by
  refine ⟨represents_of_listed listed_two listed_one (by decide) (by decide), ?_⟩
  rintro ⟨t, hreap, hreaped⟩
  have hstays : (reap nineDead twoReady).map (fun t => (t.queue .rQ).head) = some (some 1) := rfl
  have hempty : (t.queue .rQ).head = none := (hreaped.listed .rQ).head
  rw [hreap, Option.map_some, hempty] at hstays
  cases hstays

end CIS415.Thv3
