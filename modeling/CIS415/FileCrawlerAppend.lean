import CIS415.FileCrawlerTrace

/-!
# What the first pass appends

Whatever the allocations return, `processDirectory` appends the first of the directories below its
argument, each before what is in it, and closes what it opened. A directory that cannot be opened is
passed over. A failing `strdup` or `ll_add` ends the call, and with it every call that is still open; they
fail where their schedules say so.
-/

namespace CIS415.FileCrawler

open Pointer LinkedList CString

variable {fs : FileSystem} {d dirname : CString} {dents : List Dirent} {fuel : ℕ} {s : Crawl}
  {xs : List (Option CString)} {ds ds' : List CString} {r : ℤ × Crawl × List Event}
  {es es' : List Event}

/-- The readable directories from `d` on, each before what is in it, and the directories in one
directory in the order in which `readdir` gives them. -/
def preorder (fs : FileSystem) : ℕ → CString → List CString
  | 0, _ => []
  | fuel + 1, d =>
    match fs.opendir d with
    | none => []
    | some dents => d :: (dents.filter fun e => visible e && e.d_type == dtDir).flatMap
        fun e => preorder fs fuel (join d e.d_name)

theorem childPrefix_of_ne_root (h : dirname ≠ root) : childPrefix dirname = stripSlash dirname := by
  apply if_neg
  rintro ⟨hlen, hhead⟩
  apply h
  have hstrip : stripSlash dirname = dirname := ext_bytes (if_neg (fun hc => by omega))
  rw [hstrip] at hhead
  obtain ⟨b, hb⟩ := List.length_eq_one_iff.mp hlen
  rw [hb, List.head?_cons] at hhead
  apply ext_bytes
  rw [hb, Option.some.inj hhead]
  rfl

theorem join_ne_root (d : CString) (e : Dirent) : join d e.d_name ≠ root := by
  intro h
  have hlen := congrArg (fun s : CString => s.bytes.length) h
  have hname := List.length_pos_of_ne_nil e.name_ne_nil
  simp only [bytes_join, List.length_append, List.length_cons, root, List.length_nil] at hlen
  omega

theorem flatMap_filter_congr {α β : Type} {p q : α → Bool} {f g : α → List β} {l : List α}
    (hq : ∀ a ∈ l, q a = true → p a = true ∧ f a = g a)
    (hp : ∀ a ∈ l, p a = true → q a = false → f a = []) :
    (l.filter p).flatMap f = (l.filter q).flatMap g := by
  induction l with
  | nil => rfl
  | cons a l ih =>
    have hrest := ih (fun b hb => hq b (List.mem_cons_of_mem a hb))
      (fun b hb => hp b (List.mem_cons_of_mem a hb))
    by_cases hqa : q a = true
    · obtain ⟨hpa, hfg⟩ := hq a List.mem_cons_self hqa
      rw [List.filter_cons_of_pos hpa, List.filter_cons_of_pos hqa, List.flatMap_cons,
        List.flatMap_cons, hrest, hfg]
    · rw [List.filter_cons_of_neg hqa]
      by_cases hpa : p a = true
      · rw [List.filter_cons_of_pos hpa, List.flatMap_cons, hrest,
          hp a List.mem_cons_self hpa (Bool.eq_false_iff.mpr hqa), List.nil_append]
      · rw [List.filter_cons_of_neg hpa, hrest]

/-- The paths of the program are those of the tree, except below `/`. -/
theorem directories_eq_preorder (h : dirname ≠ root) (fuel : ℕ) :
    directories fs fuel dirname = preorder fs fuel (stripSlash dirname) := by
  induction fuel generalizing dirname with
  | zero => rfl
  | succ fuel ih =>
    rw [directories, preorder]
    cases hopen : fs.opendir (stripSlash dirname) with
    | none => rfl
    | some dents =>
      refine congrArg (stripSlash dirname :: ·) (flatMap_filter_congr ?_ ?_)
      · intro e he htype
        rw [Bool.and_eq_true, beq_iff_eq] at htype
        refine ⟨by rw [htype.1, isDir_of_dtDir htype.2]; rfl, ?_⟩
        rw [childPrefix_of_ne_root h, ih (join_ne_root _ e), stripSlash_join]
      · intro e he hdir htype
        rw [Bool.and_eq_true] at hdir
        rw [hdir.1, Bool.true_and, beq_eq_false_iff_ne] at htype
        have hnone := opendir_child hopen he hdir.2 htype
        cases fuel with
        | zero => rfl
        | succ fuel => rw [directories, stripSlash_join, hnone]

/-- The open directories after a call, the last one opened first. Only the last one may be closed. -/
def Event.streams (os : List CString) : Event → Option (List CString)
  | .opendir d => some (d :: os)
  | .closedir d => if os.head? = some d then some os.tail else none
  | _ => some os

def streams (os : List CString) (es : List Event) : Option (List CString) :=
  es.foldlM Event.streams os

theorem streams_append (os : List CString) (es es' : List Event) :
    streams os (es ++ es') = (streams os es).bind fun os => streams os es' :=
  List.foldlM_append

def Closes (es : List Event) : Prop :=
  ∀ os, streams os es = some os

theorem Closes.append (h : Closes es) (h' : Closes es') : Closes (es ++ es') := by
  intro os
  rw [streams_append, h os, Option.bind_some, h' os]

theorem Closes.wrap (h : Closes es) (dirname d : CString) :
    Closes (.processDirectory dirname :: .opendir d :: (es ++ [.closedir d])) := by
  intro os
  have hbody := streams_append (d :: os) es [.closedir d]
  rw [h] at hbody
  simpa [streams, Event.streams] using hbody

def Failed (es : List Event) : Prop :=
  .strdup false ∈ es ∨ .llAdd 0 ∈ es

theorem failed_append : Failed (es ++ es') ↔ Failed es ∨ Failed es' := by
  simp only [Failed, List.mem_append]
  tauto

/-- The outcomes in the record of a call that leads from `s` to `s'` are those that the schedules give: a
copy fails where its schedule says so, and `ll_add` where the free list is empty and the schedule of the
list says so. -/
def Scheduled (s' : Crawl) : Crawl → List Event → Prop
  | s, [] => s = s'
  | s, .strdup ok :: es => s.dups 0 = ok ∧ Scheduled s' { s with dups := s.dups.rest } es
  | s, .llAdd status :: es =>
    (status = 0 ↔ s.ll.freel = none ∧ s.ll.sched 0 = false) ∧
      ∃ path ll, llAdd s.ll (some path) = some (status, ll) ∧ Scheduled s' { s with ll := ll } es
  | s, _ :: es => Scheduled s' s es

def Lists (ll : LinkedList CString) (xs : List (Option CString)) : Prop :=
  ∃ as fs, Ringed ll as fs [] xs

/-- The result of a call that should append the directories `ds` to a list that keeps `xs`: it has
appended the first of them, and all of them unless an allocation failed. -/
structure Appends (ds : List CString) (xs : List (Option CString)) (r : ℤ × Crawl × List Event) :
    Prop where
  appended : ∃ done rest, ds = done ++ rest ∧ Lists r.2.1.ll (xs ++ done.map some) ∧
    (r.1 = 1 ∧ rest = [] ∧ ¬ Failed r.2.2 ∨ r.1 = 0 ∧ rest ≠ [] ∧ Failed r.2.2)
  closes : Closes r.2.2

theorem Appends.status (h : Appends ds xs r) : r.1 = 1 ∨ r.1 = 0 := by
  obtain ⟨-, -, -, -, ⟨h1, -⟩ | ⟨h0, -⟩⟩ := h.appended
  · exact .inl h1
  · exact .inr h0

theorem Appends.all (h : Appends ds xs r) (h1 : r.1 = 1) :
    Lists r.2.1.ll (xs ++ ds.map some) ∧ ¬ Failed r.2.2 := by
  obtain ⟨done, rest, rfl, hlists, ⟨-, rfl, hfail⟩ | ⟨h0, -⟩⟩ := h.appended
  · rw [List.append_nil]
    exact ⟨hlists, hfail⟩
  · exact absurd (h1.symm.trans h0) one_ne_zero

theorem Appends.stop (h : Appends ds xs r) (h0 : r.1 = 0) (ds' : List CString) :
    Appends (ds ++ ds') xs r := by
  obtain ⟨done, rest, rfl, hlists, ⟨h1, -⟩ | ⟨-, hrest, hfail⟩⟩ := h.appended
  · exact absurd (h1.symm.trans h0) one_ne_zero
  · refine ⟨⟨done, rest ++ ds', List.append_assoc _ _ _, hlists, .inr ⟨h0, ?_, hfail⟩⟩, h.closes⟩
    exact List.append_ne_nil_of_left_ne_nil hrest ds'

theorem Appends.andThen (h : Appends ds xs r) (h1 : r.1 = 1) {r' : ℤ × Crawl × List Event}
    (h' : Appends ds' (xs ++ ds.map some) r') :
    Appends (ds ++ ds') xs (r'.1, r'.2.1, r.2.2 ++ r'.2.2) := by
  obtain ⟨-, hnot⟩ := h.all h1
  obtain ⟨done, rest, rfl, hlists, hstatus⟩ := h'.appended
  refine ⟨⟨ds ++ done, rest, (List.append_assoc _ _ _).symm, ?_, ?_⟩, h.closes.append h'.closes⟩
  · rwa [List.map_append, ← List.append_assoc]
  · simpa only [failed_append, hnot, false_or] using hstatus

theorem appends_processEntries {t : CString → Crawl → Option (ℤ × Crawl × List Event)}
    {f : CString → List CString}
    (ht : ∀ e ∈ dents, visible e = true → isDir e = true → (join d e.d_name).bytes.length < bufSize ∧
      ∀ s xs, Lists s.ll xs → ∃ r, t (join d e.d_name) s = some r ∧ Appends (f (join d e.d_name)) xs r)
    (hs : Lists s.ll xs) :
    ∃ r, Traced.processEntries t d dents s = some r ∧
      Appends ((dents.filter fun e => visible e && isDir e).flatMap fun e => f (join d e.d_name)) xs
        r := by
  induction dents generalizing s xs with
  | nil =>
    refine ⟨(1, s, []), rfl, ⟨[], [], rfl, ?_, .inl ⟨rfl, rfl, ?_⟩⟩, fun os => rfl⟩
    · simpa using hs
    · simp [Failed]
  | cons e dents ih =>
    have hrest : ∀ (s : Crawl) (xs : List (Option CString)), Lists s.ll xs →
        ∃ r, Traced.processEntries t d dents s = some r ∧
          Appends ((dents.filter fun e => visible e && isDir e).flatMap
            fun e => f (join d e.d_name)) xs r :=
      fun s xs => ih fun e' he' => ht e' (List.mem_cons_of_mem e he')
    rw [Traced.processEntries]
    split_ifs with hvis hdir
    · rw [List.filter_cons_of_pos (by rw [hvis, hdir]; rfl), List.flatMap_cons]
      obtain ⟨hlt, hcall⟩ := ht e List.mem_cons_self hvis hdir
      obtain ⟨⟨status, s₁, es₁⟩, hr, happ⟩ := hcall s xs hs
      rw [buffer_eq_some.mpr ⟨hlt, rfl⟩]
      simp only [Option.bind_eq_bind, Option.bind_some, hr]
      by_cases h0 : status = 0
      · rw [if_neg (not_not.mpr h0)]
        exact ⟨_, rfl, happ.stop h0 _⟩
      · have h1 : status = 1 := happ.status.resolve_right h0
        obtain ⟨hlists, -⟩ := happ.all h1
        obtain ⟨r₂, hr₂, happ₂⟩ := hrest s₁ _ hlists
        rw [if_pos h0, hr₂]
        exact ⟨_, rfl, happ.andThen h1 happ₂⟩
    · rw [List.filter_cons_of_neg (by simp [hdir])]
      exact hrest s xs hs
    · rw [List.filter_cons_of_neg (by simp [hvis])]
      exact hrest s xs hs

theorem appends_withOpened {t : CString → Crawl → Option (ℤ × Crawl × List Event)}
    {f : CString → List CString}
    (ht : ∀ e ∈ dents, visible e = true → isDir e = true →
      (join (childPrefix d) e.d_name).bytes.length < bufSize ∧ ∀ s xs, Lists s.ll xs →
        ∃ r, t (join (childPrefix d) e.d_name) s = some r ∧
          Appends (f (join (childPrefix d) e.d_name)) xs r)
    (hs : Lists s.ll xs) :
    ∃ r, Traced.withOpened t d dents s = some r ∧
      Appends (stripSlash d :: (dents.filter fun e => visible e && isDir e).flatMap
        fun e => f (join (childPrefix d) e.d_name)) xs r := by
  have hnone : ∀ (s : Crawl) (es : List Event), Lists s.ll xs → Failed es → Closes es →
      Appends (stripSlash d :: (dents.filter fun e => visible e && isDir e).flatMap
        fun e => f (join (childPrefix d) e.d_name)) xs (0, s, es) := by
    intro s es hs hfail hcloses
    refine ⟨⟨[], _, rfl, ?_, .inr ⟨rfl, List.cons_ne_nil _ _, hfail⟩⟩, hcloses⟩
    simpa using hs
  unfold Traced.withOpened
  by_cases hdup : s.dups 0 = true
  · rw [if_pos hdup]
    obtain ⟨as, gs, hring⟩ := hs
    obtain ⟨v, ll, hadd, hadds⟩ := hring.llAddLast (some (stripSlash d))
    simp only [llAdd, hadd, Option.bind_eq_bind, Option.bind_some]
    rcases hadds.ringed with ⟨rfl, gs', hkept⟩ | ⟨rfl, bs, gs', hnew⟩
    · exact ⟨_, rfl, hnone _ _ ⟨as, gs', hkept⟩ (.inr (by simp)) fun os => rfl⟩
    · rw [if_pos one_ne_zero]
      have hlists : Lists (Crawl.mk ll s.dups.rest).ll (xs ++ [stripSlash d].map some) :=
        ⟨bs, gs', hnew⟩
      obtain ⟨r, hr, happ⟩ := appends_processEntries ht hlists
      have hself : Appends [stripSlash d] xs
          (1, ⟨ll, s.dups.rest⟩, [.strdup true, .llAdd 1]) :=
        ⟨⟨[stripSlash d], [], rfl, hlists, .inl ⟨rfl, rfl, by simp [Failed]⟩⟩, fun os => rfl⟩
      rw [hr]
      exact ⟨_, rfl, hself.andThen rfl happ⟩
  · rw [if_neg hdup]
    exact ⟨_, rfl, hnone _ _ hs (.inl (by simp)) fun os => rfl⟩

theorem appends_processDirectory (hfit : Fits fs dirname)
    (hfuel : bufSize ≤ fuel + dirname.bytes.length) (hs : Lists s.ll xs) :
    ∃ r, Traced.processDirectory fs fuel dirname s = some r ∧
      Appends (directories fs fuel dirname) xs r := by
  induction fuel generalizing dirname s xs with
  | zero =>
    have hlt := hfit dirname (.refl dirname)
    omega
  | succ fuel ih =>
    have hlt := hfit dirname (.refl dirname)
    rw [Traced.processDirectory, directories, buffer_eq_some.mpr ⟨hlt, rfl⟩]
    simp only [Option.bind_eq_bind, Option.bind_some]
    cases hopen : fs.opendir (stripSlash dirname) with
    | none =>
      refine ⟨_, rfl, ⟨[], [], rfl, ?_, .inl ⟨rfl, rfl, by simp [Failed]⟩⟩, fun os => rfl⟩
      simpa using hs
    | some dents =>
      have hchildren : ∀ e ∈ dents, visible e = true → isDir e = true →
          (join (childPrefix dirname) e.d_name).bytes.length < bufSize ∧ ∀ s xs, Lists s.ll xs →
            ∃ r, Traced.processDirectory fs fuel (join (childPrefix dirname) e.d_name) s = some r ∧
              Appends (directories fs fuel (join (childPrefix dirname) e.d_name)) xs r := by
        intro e he hvis hdir
        have hchild := hfit.child hopen he hvis hdir
        have hlen := length_lt_child dirname e
        exact ⟨hchild _ (.refl _), fun s xs hs => ih hchild (by omega) hs⟩
      obtain ⟨⟨status, s', es⟩, hr, happ⟩ := appends_withOpened hchildren hs
      simp only [hr, Option.bind_some]
      obtain ⟨done, rest, hds, hlists, hstatus⟩ := happ.appended
      refine ⟨_, rfl, ⟨done, rest, hds, hlists, ?_⟩, happ.closes.wrap dirname (stripSlash dirname)⟩
      simpa [Failed] using hstatus

theorem Scheduled.append {s' : Crawl} (h : Scheduled s' s es) {u : Crawl}
    (h' : Scheduled u s' es') : Scheduled u s (es ++ es') := by
  induction es generalizing s with
  | nil =>
    obtain rfl : s = s' := h
    exact h'
  | cons e es ih =>
    cases e with
    | strdup ok => exact ⟨h.1, ih h.2⟩
    | llAdd status =>
      obtain ⟨hzero, path, ll, hadd, hrest⟩ := h
      exact ⟨hzero, path, ll, hadd, ih hrest⟩
    | _ => exact ih h

theorem scheduled_processEntries {t : CString → Crawl → Option (ℤ × Crawl × List Event)}
    (ht : ∀ b s r, t b s = some r → Scheduled r.2.1 s r.2.2)
    (h : Traced.processEntries t d dents s = some r) : Scheduled r.2.1 s r.2.2 := by
  induction dents generalizing s r with
  | nil =>
    obtain rfl := Option.some.inj h
    rfl
  | cons e dents ih =>
    rw [Traced.processEntries] at h
    split_ifs at h
    · obtain ⟨b, -, h⟩ := Option.bind_eq_some_iff.mp h
      obtain ⟨⟨status, s₁, es₁⟩, hcall, h⟩ := Option.bind_eq_some_iff.mp h
      have hfirst := ht b s _ hcall
      dsimp only at h
      split_ifs at h
      · obtain ⟨⟨status', s₂, es₂⟩, hrest, heq⟩ := Option.bind_eq_some_iff.mp h
        obtain rfl := Option.some.inj heq
        exact hfirst.append (ih hrest)
      · obtain rfl := Option.some.inj h
        exact hfirst
    · exact ih h
    · exact ih h

theorem scheduled_withOpened {t : CString → Crawl → Option (ℤ × Crawl × List Event)}
    (ht : ∀ b s r, t b s = some r → Scheduled r.2.1 s r.2.2)
    (h : Traced.withOpened t d dents s = some r) : Scheduled r.2.1 s r.2.2 := by
  unfold Traced.withOpened at h
  by_cases hdup : s.dups 0 = true
  · rw [if_pos hdup] at h
    obtain ⟨⟨status, ll⟩, hadd, h⟩ := Option.bind_eq_some_iff.mp h
    have hzero := llAddLast_eq_zero_iff hadd
    dsimp only at h
    split_ifs at h
    · obtain ⟨⟨status', s₁, es₁⟩, hrest, heq⟩ := Option.bind_eq_some_iff.mp h
      obtain rfl := Option.some.inj heq
      exact ⟨hdup, hzero, _, ll, hadd, scheduled_processEntries ht hrest⟩
    · obtain rfl := Option.some.inj h
      exact ⟨hdup, hzero, _, ll, hadd, rfl⟩
  · rw [if_neg hdup] at h
    obtain rfl := Option.some.inj h
    exact ⟨Bool.eq_false_iff.mpr hdup, rfl⟩

theorem scheduled_processDirectory (h : Traced.processDirectory fs fuel dirname s = some r) :
    Scheduled r.2.1 s r.2.2 := by
  induction fuel generalizing dirname s r with
  | zero => cases h
  | succ fuel ih =>
    obtain ⟨d, -, h⟩ := Option.bind_eq_some_iff.mp h
    cases hopen : fs.opendir (stripSlash d) with
    | none =>
      rw [hopen] at h
      obtain rfl := Option.some.inj h
      rfl
    | some dents =>
      rw [hopen] at h
      obtain ⟨⟨status, s₁, es₁⟩, hbody, heq⟩ := Option.bind_eq_some_iff.mp h
      obtain rfl := Option.some.inj heq
      have hscheduled := scheduled_withOpened (fun b s r hr => ih hr) hbody
      have hclosed : Scheduled s₁ s₁ [.closedir (stripSlash d)] := rfl
      exact hscheduled.append hclosed

/-- Schedules under which every allocation succeeds let none fail. -/
theorem Scheduled.not_failed {s' : Crawl} (h : Scheduled s' s es) (hs : Lists s.ll xs)
    (hdups : s.dups = Schedule.always) (hsched : s.ll.sched = Schedule.always) : ¬ Failed es := by
  induction es generalizing s xs with
  | nil => simp [Failed]
  | cons e es ih =>
    cases e with
    | strdup ok =>
      obtain ⟨hok, hrest⟩ := h
      rw [hdups] at hok
      have hnot := ih hrest hs (by rw [hdups]; rfl) hsched
      simpa [Failed, ← hok, Schedule.always] using hnot
    | llAdd status =>
      obtain ⟨-, path, ll, hadd, hrest⟩ := h
      obtain ⟨as, gs, hring⟩ := hs
      obtain ⟨v, ll', hadd', hadds⟩ := hring.llAddLast (some path)
      obtain ⟨rfl, rfl⟩ := Prod.mk.inj (Option.some.inj (hadd.symm.trans hadd'))
      obtain ⟨rfl, hsched'⟩ := hadds.always hsched
      obtain ⟨hzero, -⟩ | ⟨-, bs, gs', hring'⟩ := hadds.ringed
      · exact absurd hzero one_ne_zero
      · have hnot := ih hrest ⟨bs, gs', hring'⟩ hdups hsched'
        simpa [Failed] using hnot
    | _ =>
      have hnot := ih h hs hdups hsched
      simpa [Failed] using hnot

/-- `s` is any list and any schedule of the `strdup` calls; the list carries the schedule of its own
allocations. -/
theorem processDirectory_appends (hroot : dirname ≠ root) (hfit : Fits fs dirname)
    (hfuel : bufSize ≤ fuel + dirname.bytes.length) (hs : Lists s.ll xs) :
    ∃ status s' es done rest,
      Traced.processDirectory fs fuel dirname s = some (status, s', es) ∧
      preorder fs fuel (stripSlash dirname) = done ++ rest ∧
      Lists s'.ll (xs ++ done.map some) ∧ Closes es ∧ (status = 1 ∨ status = 0) ∧
      (status = 1 ↔ rest = []) ∧ (status = 0 ↔ .strdup false ∈ es ∨ .llAdd 0 ∈ es) ∧
      Scheduled s' s es ∧
      (s.dups = Schedule.always → s.ll.sched = Schedule.always → status = 1) := by
  obtain ⟨⟨status, s', es⟩, hr, happ⟩ := appends_processDirectory hfit hfuel hs
  have hscheduled := scheduled_processDirectory hr
  obtain ⟨done, rest, hds, hlists, hstatus⟩ := happ.appended
  rw [directories_eq_preorder hroot] at hds
  refine ⟨status, s', es, done, rest, hr, hds, hlists, happ.closes, happ.status, ?_, ?_, hscheduled, ?_⟩
  · rcases hstatus with ⟨rfl, rfl, -⟩ | ⟨rfl, hne, -⟩
    · exact iff_of_true rfl rfl
    · exact iff_of_false zero_ne_one hne
  · rcases hstatus with ⟨rfl, -, hnot⟩ | ⟨rfl, -, hfail⟩
    · exact iff_of_false one_ne_zero hnot
    · exact iff_of_true rfl hfail
  · intro hdups hsched
    rcases hstatus with ⟨h1, -⟩ | ⟨-, -, hfail⟩
    · exact h1
    · exact absurd hfail (hscheduled.not_failed hs hdups hsched)

def secondFails : Crawl :=
  ⟨⟨0, none, (Heap.empty.malloc ⟨some sentinel, some sentinel, none⟩).2, Schedule.always⟩, fun n => n ≠ 1⟩

open Overlap in
theorem processDirectory_appends_two :
    ∃ status s' es done rest,
      Traced.processDirectory fileSystem bufSize files secondFails = some (status, s', es) ∧
      preorder fileSystem bufSize (stripSlash files) = done ++ rest ∧
      Lists s'.ll ([] ++ done.map some) ∧ Closes es ∧ (status = 1 ∨ status = 0) ∧
      (status = 1 ↔ rest = []) ∧ (status = 0 ↔ .strdup false ∈ es ∨ .llAdd 0 ∈ es) ∧
      Scheduled s' secondFails es ∧
      (secondFails.dups = Schedule.always → secondFails.ll.sched = Schedule.always → status = 1) := by
  have hfit : Fits fileSystem files := allFit_fileSystem.dirs_fit files (by decide)
  obtain ⟨ll, hcreate, hring, -⟩ :=
    llCreate_ringed (E := CString) (show Schedule.always 0 = true from rfl)
  obtain rfl := Option.some.inj hcreate
  have hs : Lists secondFails.ll [] := ⟨[], [], hring⟩
  exact processDirectory_appends (by decide) hfit (Nat.le_add_right _ _) hs

end CIS415.FileCrawler
