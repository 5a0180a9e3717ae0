import CIS415.FileCrawlerWalk
import CIS415.LinkedListOwn
import CIS415.TreeSetOwn
import CIS415.TreeSetSize
import CIS415.Lib.Resources

/-!
# What file_crawler_single.c allocates and frees

The program of file_crawler_single.c once more, with the resources that it acquires: the strings that
`strdup` allocates, the streams that `opendir` opens, the engine and its compiled pattern, the tree set,
and the iterator with its array. Every allocation may fail, apart from those of the nodes of the tree.
A string that is read, also by the comparisons of `ts_add`, has to be held; so have the engine and its
pattern where a name is matched.
-/

namespace CIS415.FileCrawler.Memory

open Pointer LinkedList TreeSet Iterator CString OrderedList Resources

/-- Why a run may stop: a string does not fit its buffer, a NULL link is followed, or a loop of the
model comes to its bound. -/
inductive Crash where
  | overflow
  | null
  | bound
deriving DecidableEq

/-- A `char *` that `strdup` returned. -/
structure Path where
  block : ℕ
  text : CString

def scmp (a b : Path) : ℤ :=
  strcmp a.text b.text

/-- `struct regexp` once a pattern is compiled: its memory, the memory of the compiled pattern, and
what it matches. -/
structure Engine where
  block : ℕ
  preg : ℕ
  re_match : CString → Bool

def strdup (s : CString) : Prog Crash (Option Path) := do
  let block ← allocate
  pure (block.map fun n => ⟨n, s⟩)

def processEntries
    (processDirectory : CString → LinkedList Path → Prog Crash (ℤ × LinkedList Path))
    (d : CString) : List Dirent → LinkedList Path → Prog Crash (ℤ × LinkedList Path)
  | [], ll => pure (1, ll)
  | dent :: dents, ll =>
    if ¬ visible dent then processEntries processDirectory d dents ll
    else if isDir dent then do
      let b ← need .overflow (buffer (join d dent.d_name))
      let r ← processDirectory b ll
      if r.1 ≠ 0 then processEntries processDirectory d dents r.2 else pure r
    else processEntries processDirectory d dents ll

/-- The part of `processDirectory` between `opendir` and `closedir`. -/
def withOpened (processDirectory : CString → LinkedList Path → Prog Crash (ℤ × LinkedList Path))
    (d : CString) (dents : List Dirent) (ll : LinkedList Path) :
    Prog Crash (ℤ × LinkedList Path) := do
  match ← strdup (stripSlash d) with
  | none => pure (0, ll)
  | some sp => do
    let r ← need .null (llAdd ll (some sp))
    if r.1 ≠ 0 then processEntries processDirectory (childPrefix d) dents r.2
    else do
      release sp.block
      pure (0, r.2)

def processDirectory (fs : FileSystem) :
    ℕ → CString → LinkedList Path → Prog Crash (ℤ × LinkedList Path)
  | 0, _, _ => stop .bound
  | fuel + 1, dirname, ll => do
    let d ← need .overflow (buffer dirname)
    match fs.opendir (stripSlash d) with
    | none => pure (1, ll)
    | some dents => do
      let dd ← acquire
      let r ← withOpened (processDirectory fs fuel) d dents ll
      release dd
      pure r

/-- `ts_add`; it may compare the string with any string of the set. -/
def tsAdd (ts : TreeSet Path) (sp : Path) : Prog Crash (ℤ × TreeSet Path) := do
  useAll ((sp :: ts.root.inorder).map Path.block)
  need .null (TreeSet.tsAdd true ts sp)

def reMatch (reg : Engine) (buf : CString) : Prog Crash Bool := do
  use reg.block
  use reg.preg
  pure (reg.re_match buf)

def applyEntries (reg : Engine) (dir : Path) :
    List Dirent → TreeSet Path → Prog Crash (ℤ × TreeSet Path)
  | [], ts => pure (1, ts)
  | dent :: dents, ts =>
    if ¬ visible dent then applyEntries reg dir dents ts
    else if ¬ isDir dent then do
      let found ← reMatch reg dent.d_name
      if ¬ found then applyEntries reg dir dents ts
      else do
        use dir.block
        let b ← need .overflow (buffer (join dir.text dent.d_name))
        match ← strdup b with
        | none => pure (0, ts)
        | some sp => do
          let r ← tsAdd ts sp
          if r.1 ≠ 0 then applyEntries reg dir dents r.2
          else do
            release sp.block
            pure (0, r.2)
    else applyEntries reg dir dents ts

def applyRe (fs : FileSystem) (reg : Engine) (dir : Path) (ts : TreeSet Path) :
    Prog Crash (ℤ × TreeSet Path) := do
  use dir.block
  match fs.opendir dir.text with
  | none => pure (0, ts)
  | some dents => do
    let dd ← acquire
    let r ← applyEntries reg dir dents ts
    release dd
    pure r

def processArgs (fs : FileSystem) :
    List CString → LinkedList Path → Prog Crash (ℤ × LinkedList Path)
  | [], ll => pure (1, ll)
  | dir :: dirs, ll => do
    let r ← processDirectory fs bufSize dir ll
    if r.1 ≠ 0 then processArgs fs dirs r.2 else pure r

def applyAll (fs : FileSystem) (reg : Engine) :
    ℕ → LinkedList Path → TreeSet Path → Prog Crash (LinkedList Path × TreeSet Path)
  | 0, _, _ => stop .bound
  | fuel + 1, ll, ts => do
    let (status, element, ll) ← need .null (llRemoveFirst ll)
    if status ≠ 0 then do
      let sp ← need .null element.join
      let r ← applyRe fs reg sp ts
      release sp.block
      if r.1 ≠ 0 then applyAll fs reg fuel ll r.2 else pure (ll, r.2)
    else pure (ll, ts)

def printAll : ℕ → Iterator Path → Prog Crash (List CString)
  | 0, _ => stop .bound
  | fuel + 1, it =>
    if itHasNext it ≠ 0 then do
      let (_, s, it) ← need .null (itNext it)
      let s ← need .null s
      use s.block
      let rest ← printAll fuel it
      pure (s.text :: rest)
    else pure []

def printSet (ts : TreeSet Path) : Prog Crash (List CString) :=
  if 0 < ts.size then do
    match ← allocate with
    | none => pure []
    | some array => do
      match ← allocate with
      | none => do
        release array
        pure []
      | some block => do
        let it ← need .null (tsItCreate true ts).join
        let lines ← printAll (it.size + 1).toNat it
        release array
        release block
        pure lines
  else pure []

/-- `ll_destroy(ll, free)`. -/
def destroyList (ll : LinkedList Path) : Prog Crash Unit := do
  let r ← need .null (llDestroy ll true)
  releaseAll (r.1.filterMap fun s => s.map Path.block)

def passes (fs : FileSystem) (reg : Engine) (dirs : List CString) (ll : LinkedList Path) :
    Prog Crash (List CString × LinkedList Path × TreeSet Path) := do
  let r ← processArgs fs dirs ll
  if r.1 = 0 then pure ([], r.2, tsCreate scmp)
  else do
    let (ll, ts) ← applyAll fs reg (llSize r.2 + 1).toNat r.2 (tsCreate scmp)
    let lines ← printSet ts
    pure (lines, ll, ts)

/-- `main` once the pattern is compiled, up to `re_destroy`. -/
def work (fs : FileSystem) (sched : Schedule) (reg : Engine) (dirs : List CString) :
    Prog Crash (List CString) :=
  match llCreate sched with
  | none => pure []
  | some ll => do
    match ← allocate with
    | none => do
      destroyList ll
      pure []
    | some set => do
      let (lines, ll, ts) ← passes fs reg dirs ll
      destroyList ll
      releaseAll ((tsDestroy ts true).map Path.block)
      release set
      pure lines

/-- `main` on `argv[1..]`: its result and the lines it prints. `sched` is for the allocations of the
linked list. -/
def main (regcomp : CString → Option (CString → Bool)) (fs : FileSystem) (sched : Schedule) :
    List CString → Prog Crash (ℤ × List CString)
  | [] => pure (-1, [])
  | bashpat :: dirs => do
    let pattern ← need .overflow (buffer (cvtPattern bashpat))
    match ← allocate with
    | none => pure (-1, [])
    | some block =>
      match regcomp pattern with
      | none => do
        release block
        pure (-1, [])
      | some re_match => do
        let preg ← acquire
        let lines ← work fs sched ⟨block, preg, re_match⟩ (if dirs = [] then [dot] else dirs)
        release preg
        release block
        pure (0, lines)

abbrev Safe (c : Crash) : Prop := c = .overflow

def blocks (xs : List Path) : Multiset ℕ :=
  ↑(xs.map Path.block)

theorem blocks_nil : blocks [] = 0 := rfl

theorem blocks_cons (sp : Path) (xs : List Path) : blocks (sp :: xs) = sp.block ::ₘ blocks xs := rfl

theorem blocks_snoc (xs : List Path) (sp : Path) : blocks (xs ++ [sp]) = {sp.block} + blocks xs := by
  rw [blocks, List.map_append, ← Multiset.coe_add, add_comm]
  rfl

theorem blocks_perm {xs ys : List Path} (h : xs.Perm ys) : blocks xs = blocks ys :=
  Multiset.coe_eq_coe.mpr (h.map Path.block)

theorem block_mem {xs : List Path} {sp : Path} (h : sp ∈ xs) : sp.block ∈ blocks xs :=
  Multiset.mem_coe.mpr (List.mem_map_of_mem h)

def Keeps (ll : LinkedList Path) (xs : List Path) : Prop :=
  ∃ as fs, Ringed ll as fs [] (xs.map some)

def comparison : Comparison Path where
  cmp := scmp
  swap a b := CString.comparison.swap a.text b.text
  trans a b d := CString.comparison.trans a.text b.text d.text

def Stores (ts : TreeSet Path) (xs : List Path) : Prop :=
  Represents comparison ts xs ∧ ts.size = xs.length

variable {fs : FileSystem} {ll : LinkedList Path} {ts : TreeSet Path} {xs : List Path} {sp dir : Path}
  {reg : Engine} {ctx : Multiset ℕ} {d : CString} {dents : List Dirent} {fuel : ℕ}

theorem llAdd_keeps (h : Keeps ll xs) (sp : Path) :
    ∃ status ll', llAdd ll (some sp) = some (status, ll') ∧
      (status = 0 ∧ Keeps ll' xs ∨ status = 1 ∧ Keeps ll' (xs ++ [sp])) := by
  obtain ⟨as, gs, h⟩ := h
  obtain ⟨status, ll', hadd, hadds⟩ := h.llAddLast (some sp)
  refine ⟨status, ll', hadd, ?_⟩
  rcases hadds.ringed with ⟨hs, gs', h'⟩ | ⟨hs, bs, gs', h'⟩
  · exact Or.inl ⟨hs, as, gs', h'⟩
  · refine Or.inr ⟨hs, bs, gs', ?_⟩
    rwa [List.map_append]

theorem llRemoveFirst_keeps (h : Keeps ll xs) :
    ∃ ll', llRemoveFirst ll = some (if xs = [] then 0 else 1, (xs.map some).head?, ll') ∧
      Keeps ll' xs.tail := by
  obtain ⟨as, gs, h⟩ := h
  obtain ⟨ll', hremove, ⟨⟨bs, gs', h'⟩, -⟩⟩ := h.llRemoveFirst
  refine ⟨ll', ?_, bs, gs', ?_⟩
  · rw [hremove]
    simp only [List.map_eq_nil_iff]
  · rwa [List.map_tail]

theorem tsAdd_stores (h : Stores ts xs) (sp : Path) :
    ∃ status ts' ys, TreeSet.tsAdd true ts sp = some (status, ts') ∧ Stores ts' ys ∧
      (status = 0 ∧ ys = xs ∨ status = 1 ∧ ys.Perm (sp :: xs)) := by
  obtain ⟨ts', hadd, hrep, hsize⟩ := tsAdd_spec h.1 sp
  by_cases hm : comparison.Mem sp xs
  · rw [if_pos hm] at hadd hrep hsize
    exact ⟨0, ts', xs, hadd, ⟨hrep, by rw [hsize, h.2, add_zero]⟩, Or.inl ⟨rfl, rfl⟩⟩
  · rw [if_neg hm] at hadd hrep hsize
    refine ⟨1, ts', _, hadd, ⟨hrep, ?_⟩, Or.inr ⟨rfl, comparison.insert_perm sp xs⟩⟩
    rw [hsize, h.2, comparison.length_insert]
    rfl

/-- What a pass over directories holds when it is done, beside the streams and the engine. -/
def Listed (r : ℤ × LinkedList Path) (ys : Multiset ℕ) : Prop :=
  ∃ xs, Keeps r.2 xs ∧ ys = blocks xs

theorem spec_buffer (s : CString) (xs : Multiset ℕ) : Spec Safe xs (need .overflow (buffer s))
    fun b ys => b = s ∧ s.bytes.length < bufSize ∧ ys = xs := by
  refine Spec.need (fun b hb => ?_) fun _ => rfl
  obtain ⟨hlt, rfl⟩ := buffer_eq_some.mp hb
  exact ⟨rfl, hlt, rfl⟩

theorem spec_strdup (s : CString) (xs : Multiset ℕ) : Spec Safe xs (strdup s) fun sp ys =>
    (sp = none ∧ ys = xs) ∨ ∃ n, sp = some ⟨n, s⟩ ∧ ys = {n} + xs := by
  refine Spec.allocate.bind ?_
  rintro block _ rfl
  cases block with
  | none => exact Spec.pure (Or.inl ⟨rfl, zero_add xs⟩)
  | some n => exact Spec.pure (Or.inr ⟨n, rfl, rfl⟩)

theorem spec_processEntries
    {processDirectory : CString → LinkedList Path → Prog Crash (ℤ × LinkedList Path)}
    (hrec : ∀ e ∈ dents, ∀ ll xs, (join d e.d_name).bytes.length < bufSize → Keeps ll xs →
      Spec Safe (blocks xs) (processDirectory (join d e.d_name) ll) Listed) (h : Keeps ll xs) :
    Spec Safe (blocks xs) (processEntries processDirectory d dents ll) Listed := by
  induction dents generalizing ll xs with
  | nil => exact Spec.pure ⟨xs, h, rfl⟩
  | cons e dents ih =>
    have hrest := fun e' he' => hrec e' (List.mem_cons_of_mem e he')
    rw [processEntries]
    split_ifs
    · refine (spec_buffer _ _).bind ?_
      rintro b _ ⟨rfl, hlt, rfl⟩
      refine (hrec e List.mem_cons_self ll xs hlt h).bind ?_
      rintro r _ ⟨ys, hys, rfl⟩
      split_ifs
      · exact ih hrest hys
      · exact Spec.pure ⟨ys, hys, rfl⟩
    · exact ih hrest h
    · exact ih hrest h

theorem spec_processDirectory (dirname : CString) (hfuel : 0 < fuel)
    (hlen : bufSize ≤ dirname.bytes.length + fuel) (h : Keeps ll xs) :
    Spec Safe (blocks xs) (processDirectory fs fuel dirname ll) Listed := by
  induction fuel generalizing dirname ll xs with
  | zero => omega
  | succ fuel ih =>
    rw [processDirectory]
    refine (spec_buffer _ _).bind ?_
    rintro d _ ⟨rfl, hlt, rfl⟩
    cases hopen : fs.opendir (stripSlash d) with
    | none => exact Spec.pure ⟨xs, h, rfl⟩
    | some dents =>
      refine Spec.acquire.bind ?_
      rintro dd _ rfl
      have hopened : Spec Safe (blocks xs) (withOpened (processDirectory fs fuel) d dents ll) Listed := by
        refine (spec_strdup _ _).bind ?_
        rintro sp ys (⟨rfl, rfl⟩ | ⟨n, rfl, rfl⟩)
        · exact Spec.pure ⟨xs, h, rfl⟩
        obtain ⟨status, ll', hadd, hstatus⟩ := llAdd_keeps h ⟨n, stripSlash d⟩
        refine Spec.need_bind hadd ?_
        rcases hstatus with ⟨rfl, h'⟩ | ⟨rfl, h'⟩
        · rw [if_neg (not_not.mpr rfl)]
          rw [Multiset.singleton_add]
          refine Spec.release.bind ?_
          rintro _ _ rfl
          exact Spec.pure ⟨xs, h', rfl⟩
        · rw [if_pos one_ne_zero, ← blocks_snoc xs ⟨n, stripSlash d⟩]
          refine spec_processEntries (fun e he ll xs hfit hll => ?_) h'
          have hchild := length_lt_child d e
          exact ih _ (by omega) (by omega) hll
      rw [← Multiset.singleton_add, add_comm]
      refine (hopened.frame {dd}).bind ?_
      rintro r _ ⟨us, hr, rfl⟩
      rw [add_comm, Multiset.singleton_add]
      refine Spec.release.bind ?_
      rintro _ _ rfl
      exact Spec.pure hr

theorem spec_processArgs (dirs : List CString) (h : Keeps ll xs) :
    Spec Safe (blocks xs) (processArgs fs dirs ll) Listed := by
  induction dirs generalizing ll xs with
  | nil => exact Spec.pure ⟨xs, h, rfl⟩
  | cons dir dirs ih =>
    refine (spec_processDirectory dir (Nat.le_of_ble_eq_true rfl) (Nat.le_add_left _ _) h).bind ?_
    rintro r _ ⟨ys, hys, rfl⟩
    split_ifs
    · exact ih hys
    · exact Spec.pure ⟨ys, hys, rfl⟩

theorem spec_tsAdd (sp : Path) (h : Stores ts xs) :
    Spec Safe (sp.block ::ₘ (ctx + blocks xs)) (tsAdd ts sp) fun r ys => ∃ zs, Stores r.2 zs ∧
      (r.1 = 0 ∧ ys = sp.block ::ₘ (ctx + blocks zs) ∨ r.1 = 1 ∧ ys = ctx + blocks zs) := by
  refine (Spec.useAll ?_).bind ?_
  · rw [h.1.inorder]
    intro n hn
    rw [List.map_cons, List.mem_cons] at hn
    rcases hn with rfl | hn
    · exact Multiset.mem_cons_self _ _
    · exact Multiset.mem_cons_of_mem (Multiset.mem_add.mpr (Or.inr (Multiset.mem_coe.mpr hn)))
  rintro _ _ rfl
  obtain ⟨status, ts', zs, hadd, hts', hstatus⟩ := tsAdd_stores h sp
  refine Spec.need (fun r hr => ?_) fun hnone => by rw [hadd] at hnone; cases hnone
  obtain rfl := Option.some.inj (hadd.symm.trans hr)
  refine ⟨zs, hts', ?_⟩
  rcases hstatus with ⟨rfl, rfl⟩ | ⟨rfl, hperm⟩
  · exact Or.inl ⟨rfl, rfl⟩
  · refine Or.inr ⟨rfl, ?_⟩
    rw [blocks_perm hperm, blocks_cons, Multiset.add_cons]

structure Held (reg : Engine) (ctx : Multiset ℕ) : Prop where
  block : reg.block ∈ ctx
  preg : reg.preg ∈ ctx

theorem Held.mono (h : Held reg ctx) {ctx' : Multiset ℕ} (hle : ctx ≤ ctx') : Held reg ctx' :=
  ⟨Multiset.mem_of_le hle h.block, Multiset.mem_of_le hle h.preg⟩

theorem spec_reMatch (h : Held reg ctx) (xs : Multiset ℕ) (buf : CString) :
    Spec Safe (ctx + xs) (reMatch reg buf) fun _ ys => ys = ctx + xs := by
  refine (Spec.use (Multiset.mem_add.mpr (Or.inl h.block))).bind ?_
  rintro _ _ rfl
  refine (Spec.use (Multiset.mem_add.mpr (Or.inl h.preg))).bind ?_
  rintro _ _ rfl
  exact Spec.pure rfl

def Collected (ctx : Multiset ℕ) (r : ℤ × TreeSet Path) (ys : Multiset ℕ) : Prop :=
  ∃ zs, Stores r.2 zs ∧ ys = ctx + blocks zs

theorem spec_applyEntries (hreg : Held reg ctx) (hdir : dir.block ∈ ctx) (h : Stores ts xs) :
    Spec Safe (ctx + blocks xs) (applyEntries reg dir dents ts) (Collected ctx) := by
  induction dents generalizing ts xs with
  | nil => exact Spec.pure ⟨xs, h, rfl⟩
  | cons e dents ih =>
    rw [applyEntries]
    split_ifs
    · exact ih h
    · refine (spec_reMatch hreg _ _).bind ?_
      rintro found _ rfl
      split_ifs
      · refine (Spec.use (Multiset.mem_add.mpr (Or.inl hdir))).bind ?_
        rintro _ _ rfl
        refine (spec_buffer _ _).bind ?_
        rintro b _ ⟨rfl, -, rfl⟩
        refine (spec_strdup _ _).bind ?_
        rintro sp ys (⟨rfl, rfl⟩ | ⟨n, rfl, rfl⟩)
        · exact Spec.pure ⟨xs, h, rfl⟩
        rw [Multiset.singleton_add]
        refine (spec_tsAdd ⟨n, _⟩ h).bind ?_
        rintro r ys ⟨zs, hzs, ⟨hr, rfl⟩ | ⟨hr, rfl⟩⟩
        · rw [if_neg (not_not.mpr hr)]
          refine Spec.release.bind ?_
          rintro _ _ rfl
          exact Spec.pure ⟨zs, hzs, rfl⟩
        · rw [if_pos (by rw [hr]; exact one_ne_zero)]
          exact ih hzs
      · exact ih h
    · exact ih h

theorem spec_applyRe (hreg : Held reg ctx) (hdir : dir.block ∈ ctx) (h : Stores ts xs) :
    Spec Safe (ctx + blocks xs) (applyRe fs reg dir ts) (Collected ctx) := by
  refine (Spec.use (Multiset.mem_add.mpr (Or.inl hdir))).bind ?_
  rintro _ _ rfl
  cases hopen : fs.opendir dir.text with
  | none => exact Spec.pure ⟨xs, h, rfl⟩
  | some dents =>
    refine Spec.acquire.bind ?_
    rintro dd _ rfl
    rw [← Multiset.cons_add]
    have hle : ctx ≤ dd ::ₘ ctx := Multiset.le_cons_self ctx dd
    refine (spec_applyEntries (hreg.mono hle) (Multiset.mem_of_le hle hdir) h).bind ?_
    rintro r _ ⟨zs, hzs, rfl⟩
    rw [Multiset.cons_add]
    refine Spec.release.bind ?_
    rintro _ _ rfl
    exact Spec.pure ⟨zs, hzs, rfl⟩

theorem spec_applyAll (hreg : Held reg ctx) {zs : List Path} (hfuel : xs.length < fuel)
    (h : Keeps ll xs) (hts : Stores ts zs) :
    Spec Safe (ctx + blocks xs + blocks zs) (applyAll fs reg fuel ll ts) fun r ys =>
      ∃ xs' zs', Keeps r.1 xs' ∧ Stores r.2 zs' ∧ ys = ctx + blocks xs' + blocks zs' := by
  induction fuel generalizing ll ts xs zs with
  | zero => exact absurd hfuel (Nat.not_lt_zero _)
  | succ fuel ih =>
    obtain ⟨ll', hremove, h'⟩ := llRemoveFirst_keeps h
    rw [applyAll]
    refine Spec.need_bind hremove ?_
    cases xs with
    | nil => exact Spec.pure ⟨[], zs, h', hts, rfl⟩
    | cons sp xs =>
      refine Spec.need_bind (b := sp) rfl ?_
      have hctx : ctx + blocks (sp :: xs) = sp.block ::ₘ (ctx + blocks xs) := by
        rw [blocks_cons, Multiset.add_cons]
      rw [hctx]
      have hle : ctx ≤ sp.block ::ₘ (ctx + blocks xs) :=
        (Multiset.le_add_right ctx _).trans (Multiset.le_cons_self _ _)
      refine (spec_applyRe (hreg.mono hle) (Multiset.mem_cons_self _ _) hts).bind ?_
      rintro r _ ⟨zs', hzs', rfl⟩
      rw [Multiset.cons_add]
      refine Spec.release.bind ?_
      rintro _ _ rfl
      split_ifs
      · exact ih (Nat.lt_of_succ_lt_succ hfuel) h' hzs'
      · exact Spec.pure ⟨xs, zs', h', hzs', rfl⟩

/-- The iterator stands at a place in an array of strings that are held. -/
theorem spec_printAll (pre xs : List Path) (hfuel : xs.length < fuel)
    (hctx : ∀ sp ∈ xs, sp.block ∈ ctx) :
    Spec Safe ctx (printAll fuel ⟨pre.length, (pre ++ xs).length, (pre ++ xs).map some⟩)
      fun _ ys => ys = ctx := by
  induction fuel generalizing pre xs with
  | zero => exact absurd hfuel (Nat.not_lt_zero _)
  | succ fuel ih =>
    rw [printAll]
    cases xs with
    | nil =>
      rw [if_neg (by simp [itHasNext])]
      exact Spec.pure rfl
    | cons sp xs =>
      have hlt : (pre.length : ℤ) < ((pre ++ sp :: xs).length : ℕ) := by
        rw [List.length_append, List.length_cons]
        omega
      rw [itHasNext, if_pos hlt, if_pos one_ne_zero]
      have hnext : itNext ⟨pre.length, (pre ++ sp :: xs).length, (pre ++ sp :: xs).map some⟩ =
          some (1, some sp, ⟨(pre ++ [sp]).length, ((pre ++ [sp]) ++ xs).length,
            ((pre ++ [sp]) ++ xs).map some⟩) := by
        rw [itNext, if_pos hlt]
        simp
      refine Spec.need_bind hnext (Spec.need_bind rfl ?_)
      refine (Spec.use (hctx sp List.mem_cons_self)).bind ?_
      rintro _ _ rfl
      refine (ih (pre ++ [sp]) xs (Nat.lt_of_succ_lt_succ hfuel)
        fun sp' hsp' => hctx sp' (List.mem_cons_of_mem sp hsp')).bind ?_
      rintro rest _ rfl
      exact Spec.pure rfl

theorem spec_printSet (h : Stores ts xs) :
    Spec Safe (ctx + blocks xs) (printSet ts) fun _ ys => ys = ctx + blocks xs := by
  rw [printSet]
  split_ifs with hsize
  · refine Spec.allocate.bind ?_
    rintro array _ rfl
    cases array with
    | none => exact Spec.pure (zero_add _)
    | some array =>
      refine Spec.allocate.bind ?_
      rintro block _ rfl
      cases block with
      | none =>
        rw [handed, handed, zero_add, Multiset.singleton_add]
        refine Spec.release.bind ?_
        rintro _ _ rfl
        exact Spec.pure rfl
      | some block =>
        obtain ⟨hrep, hlen⟩ := h
        have hne : ts.root.inorder ≠ [] := by
          rw [hrep.inorder]
          rintro rfl
          rw [hlen] at hsize
          exact absurd hsize (lt_irrefl _)
        have hit := TreeSet.tsItCreate_exact hne (by rw [hrep.inorder, hlen])
        rw [hrep.inorder] at hit
        refine Spec.need_bind (b := ⟨0, xs.length, xs.map some⟩) (by rw [hit]; rfl) ?_
        refine (spec_printAll [] xs (by simp only; omega) fun sp hsp => ?_).bind ?_
        · exact Multiset.mem_add.mpr (Or.inr (Multiset.mem_add.mpr (Or.inr
            (Multiset.mem_add.mpr (Or.inr (block_mem hsp))))))
        rintro lines _ rfl
        rw [handed, handed, Multiset.singleton_add, Multiset.singleton_add, Multiset.cons_swap]
        refine Spec.release.bind ?_
        rintro _ _ rfl
        refine Spec.release.bind ?_
        rintro _ _ rfl
        exact Spec.pure rfl
  · exact Spec.pure rfl

theorem spec_destroyList (h : Keeps ll xs) (ys : Multiset ℕ) :
    Spec Safe (blocks xs + ys) (destroyList ll) fun _ zs => zs = ys := by
  obtain ⟨as, gs, h⟩ := h
  obtain ⟨freed, nodes, hdestroy, -⟩ := h.llDestroy true
  refine Spec.need_bind hdestroy ?_
  have hblocks : ((xs.map some).filterMap fun s => s.map Path.block) = xs.map Path.block := by
    rw [List.filterMap_map]
    exact congrFun List.filterMap_eq_map xs
  rw [if_pos rfl, hblocks]
  exact Spec.releaseAll _

theorem spec_passes (hreg : Held reg ctx) (dirs : List CString) (h : Keeps ll []) :
    Spec Safe ctx (passes fs reg dirs ll) fun r ys =>
      ∃ xs zs, Keeps r.2.1 xs ∧ Stores r.2.2 zs ∧ ys = blocks xs + (blocks zs + ctx) := by
  have hcreated : Stores (tsCreate scmp) [] := ⟨represents_tsCreate comparison, rfl⟩
  have hargs : Spec Safe _ (processArgs fs dirs ll) _ := (spec_processArgs dirs h).frame ctx
  rw [blocks_nil, zero_add] at hargs
  refine hargs.bind ?_
  rintro r _ ⟨_, ⟨xs, hxs, rfl⟩, rfl⟩
  split_ifs
  · refine Spec.pure ⟨xs, [], hxs, hcreated, ?_⟩
    rw [blocks_nil, zero_add]
  · have hfuel : xs.length < (llSize r.2 + 1).toNat := by
      obtain ⟨as, gs, h⟩ := hxs
      rw [llSize, h.size_eq, List.length_map]
      omega
    have happly : Spec Safe _ (applyAll fs reg _ r.2 (tsCreate scmp)) _ :=
      spec_applyAll hreg hfuel hxs hcreated
    rw [blocks_nil, add_zero, add_comm] at happly
    refine happly.bind ?_
    rintro ⟨ll', ts'⟩ _ ⟨xs', zs', hxs', hzs', rfl⟩
    refine (spec_printSet hzs').bind ?_
    rintro lines _ rfl
    refine Spec.pure ⟨xs', zs', hxs', hzs', ?_⟩
    rw [add_comm ctx, add_assoc, add_comm ctx]

theorem spec_work (hreg : Held reg ctx) (sched : Schedule) (dirs : List CString) :
    Spec Safe ctx (work fs sched reg dirs) fun _ ys => ys = ctx := by
  rw [work]
  cases hs : sched 0 with
  | false =>
    rw [llCreate, hs]
    exact Spec.pure rfl
  | true =>
    obtain ⟨ll, hcreate, hring, -⟩ := llCreate_ringed (E := Path) hs
    have hll : Keeps ll [] := ⟨[], [], hring⟩
    rw [hcreate]
    refine Spec.allocate.bind ?_
    rintro set _ rfl
    cases set with
    | none =>
      refine (spec_destroyList hll ctx).bind ?_
      rintro _ _ rfl
      exact Spec.pure rfl
    | some set =>
      rw [handed, Multiset.singleton_add]
      refine (spec_passes (hreg.mono (Multiset.le_cons_self ctx set)) dirs hll).bind ?_
      rintro ⟨lines, ll', ts⟩ _ ⟨xs, zs, hxs, hzs, rfl⟩
      refine (spec_destroyList hxs _).bind ?_
      rintro _ _ rfl
      have hperm : (tsDestroy ts true).Perm zs := by
        rw [← hzs.1.inorder]
        exact postpurge_perm ts.root
      rw [← blocks_perm hperm]
      refine (Spec.releaseAll _).bind ?_
      rintro _ _ rfl
      refine Spec.release.bind ?_
      rintro _ _ rfl
      exact Spec.pure rfl

theorem spec_main (regcomp : CString → Option (CString → Bool)) (fs : FileSystem) (sched : Schedule)
    (args : List CString) : Spec Safe 0 (main regcomp fs sched args) fun _ ys => ys = 0 := by
  cases args with
  | nil => exact Spec.pure rfl
  | cons bashpat dirs =>
    rw [main]
    refine (spec_buffer _ _).bind ?_
    rintro pattern _ ⟨rfl, -, rfl⟩
    refine Spec.allocate.bind ?_
    rintro block _ rfl
    cases block with
    | none => exact Spec.pure rfl
    | some block =>
      have hblock : handed (some block) + 0 = block ::ₘ 0 := rfl
      rw [hblock]
      dsimp only
      cases regcomp (cvtPattern bashpat) with
      | none =>
        refine Spec.release.bind ?_
        rintro _ _ rfl
        exact Spec.pure rfl
      | some re_match =>
        refine Spec.acquire.bind ?_
        rintro preg _ rfl
        have hreg : Held ⟨block, preg, re_match⟩ (preg ::ₘ block ::ₘ 0) :=
          ⟨Multiset.mem_cons_of_mem (Multiset.mem_cons_self _ _), Multiset.mem_cons_self _ _⟩
        refine (spec_work hreg sched _).bind ?_
        rintro lines _ rfl
        refine Spec.release.bind ?_
        rintro _ _ rfl
        refine Spec.release.bind ?_
        rintro _ _ rfl
        exact Spec.pure rfl

/-- For every pattern, file system and choice of the allocations that fail, a run of the program ends
holding nothing: every string, stream, engine, set and iterator is released once and not used after
that. The only other outcome is that a string does not fit its buffer. -/
theorem main_releases_all (regcomp : CString → Option (CString → Bool)) (fs : FileSystem)
    (sched : Schedule) (args : List CString) (outcomes : Schedule) :
    Released (· = .overflow) ((main regcomp fs sched args).run ⟨0, 0, outcomes⟩) :=
  (spec_main regcomp fs sched args).released rfl

end CIS415.FileCrawler.Memory
