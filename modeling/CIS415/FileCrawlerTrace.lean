import CIS415.FileCrawlerOrder

/-!
# The two passes with the calls they make

The functions of file_crawler_single.c once more, with a record of the calls that open and close
directories, copy paths, fill the list and the set and match names. The outcomes of the `strdup` calls
of the first pass come from a schedule. Without the record, and with a constant schedule, these are the
functions of the program.
-/

namespace CIS415.FileCrawler

open Pointer LinkedList TreeSet CString

inductive Event where
  | processDirectory (dirname : CString)
  | opendir (d : CString)
  | strdup (ok : Bool)
  | llAdd (status : ℤ)
  | reMatch (dir name : CString)
  | tsAdd (status : ℤ)
  | closedir (d : CString)
deriving DecidableEq

/-- What the first pass changes, and the outcomes of the `strdup` calls to come. -/
structure Crawl where
  ll : LinkedList CString
  dups : Schedule

namespace Traced

def processEntries (processDirectory : CString → Crawl → Option (ℤ × Crawl × List Event))
    (d : CString) : List Dirent → Crawl → Option (ℤ × Crawl × List Event)
  | [], s => some (1, s, [])
  | dent :: dents, s =>
    if ¬ visible dent then processEntries processDirectory d dents s
    else if isDir dent then do
      let b ← buffer (join d dent.d_name)
      let (status, s, es) ← processDirectory b s
      if status ≠ 0 then do
        let (status, s, es') ← processEntries processDirectory d dents s
        some (status, s, es ++ es')
      else some (status, s, es)
    else processEntries processDirectory d dents s

def withOpened (processDirectory : CString → Crawl → Option (ℤ × Crawl × List Event))
    (d : CString) (dents : List Dirent) (s : Crawl) : Option (ℤ × Crawl × List Event) :=
  if s.dups 0 then do
    let (status, ll) ← llAdd s.ll (some (stripSlash d))
    let s := ⟨ll, s.dups.rest⟩
    if status ≠ 0 then do
      let (status', s, es) ← processEntries processDirectory (childPrefix d) dents s
      some (status', s, .strdup true :: .llAdd status :: es)
    else some (0, s, [.strdup true, .llAdd status])
  else some (0, { s with dups := s.dups.rest }, [.strdup false])

def processDirectory (fs : FileSystem) : ℕ → CString → Crawl → Option (ℤ × Crawl × List Event)
  | 0, _, _ => none
  | fuel + 1, dirname, s => do
    let d ← buffer dirname
    match fs.opendir (stripSlash d) with
    | none => some (1, s, [.processDirectory dirname])
    | some dents => do
      let (status, s, es) ← withOpened (processDirectory fs fuel) d dents s
      some (status, s, .processDirectory dirname :: .opendir (stripSlash d) ::
        (es ++ [.closedir (stripSlash d)]))

def processArgs (fs : FileSystem) : List CString → Crawl → Option (ℤ × Crawl × List Event)
  | [], s => some (1, s, [])
  | dir :: dirs, s => do
    let (status, s, es) ← processDirectory fs bufSize dir s
    if status ≠ 0 then do
      let (status, s, es') ← processArgs fs dirs s
      some (status, s, es ++ es')
    else some (status, s, es)

def applyEntries (reg : RegExp) (alloc : Bool) (dir : CString) :
    List Dirent → TreeSet CString → Option (ℤ × TreeSet CString × List Event)
  | [], ts => some (1, ts, [])
  | dent :: dents, ts =>
    if ¬ visible dent then applyEntries reg alloc dir dents ts
    else if ¬ isDir dent then
      if ¬ reg.re_match dent.d_name then do
        let (status, ts, es) ← applyEntries reg alloc dir dents ts
        some (status, ts, .reMatch dir dent.d_name :: es)
      else do
        let b ← buffer (join dir dent.d_name)
        match strdup alloc b with
        | none => some (0, ts, [.reMatch dir dent.d_name, .strdup false])
        | some sp => do
          let (status, ts) ← tsAdd alloc ts sp
          if status ≠ 0 then do
            let (status', ts, es) ← applyEntries reg alloc dir dents ts
            some (status', ts, .reMatch dir dent.d_name :: .strdup true :: .tsAdd status :: es)
          else some (0, ts, [.reMatch dir dent.d_name, .strdup true, .tsAdd status])
    else applyEntries reg alloc dir dents ts

def applyRe (fs : FileSystem) (reg : RegExp) (alloc : Bool) (dir : CString)
    (ts : TreeSet CString) : Option (ℤ × TreeSet CString × List Event) :=
  match fs.opendir dir with
  | none => some (0, ts, [])
  | some dents => do
    let (status, ts, es) ← applyEntries reg alloc dir dents ts
    some (status, ts, .opendir dir :: (es ++ [.closedir dir]))

def applyAll (fs : FileSystem) (reg : RegExp) (alloc : Bool) :
    ℕ → LinkedList CString → TreeSet CString → Option (TreeSet CString × List Event)
  | 0, _, _ => none
  | fuel + 1, ll, ts => do
    let (status, element, ll) ← llRemoveFirst ll
    if status ≠ 0 then do
      let (stat, ts, es) ← applyRe fs reg alloc (← ← element) ts
      if stat ≠ 0 then do
        let (ts, es') ← applyAll fs reg alloc fuel ll ts
        some (ts, es ++ es')
      else some (ts, es)
    else some (ts, [])

/-- The two passes of `main` over the starting directories `dirs`, when all allocations succeed: the
record of each pass. -/
def crawl (fs : FileSystem) (reg : RegExp) (dirs : List CString) :
    Option (List Event × List Event) := do
  let ll ← llCreate Schedule.always
  let (status, s, es) ← processArgs fs dirs ⟨ll, Schedule.always⟩
  if status = 0 then some (es, [])
  else do
    let (_, es') ← applyAll fs reg true (llSize s.ll + 1).toNat s.ll (tsCreate strcmp)
    some (es, es')

end Traced

variable {fs : FileSystem} {reg : RegExp} {alloc : Bool} {d dir dirname : CString}
  {dents : List Dirent} {fuel : ℕ}

/-- `t` gives what `p` gives, from a constant schedule on. -/
def Records (alloc : Bool) (t : Crawl → Option (ℤ × Crawl × List Event))
    (p : LinkedList CString → Option (ℤ × LinkedList CString)) : Prop :=
  ∀ ll, (t ⟨ll, fun _ => alloc⟩).map (fun r => (r.1, r.2.1)) =
    (p ll).map fun r => (r.1, ⟨r.2, fun _ => alloc⟩)

theorem Records.eq_none {t : Crawl → Option (ℤ × Crawl × List Event)}
    {p : LinkedList CString → Option (ℤ × LinkedList CString)} (h : Records alloc t p)
    {ll : LinkedList CString} (hp : p ll = none) : t ⟨ll, fun _ => alloc⟩ = none := by
  have hll := h ll
  rw [hp] at hll
  exact Option.map_eq_none_iff.mp hll

theorem Records.eq_some {t : Crawl → Option (ℤ × Crawl × List Event)}
    {p : LinkedList CString → Option (ℤ × LinkedList CString)} (h : Records alloc t p)
    {ll ll' : LinkedList CString} {status : ℤ} (hp : p ll = some (status, ll')) :
    ∃ es, t ⟨ll, fun _ => alloc⟩ = some (status, ⟨ll', fun _ => alloc⟩, es) := by
  have hll := h ll
  rw [hp, Option.map_some] at hll
  obtain ⟨⟨status', s, es⟩, ht, heq⟩ := Option.map_eq_some_iff.mp hll
  simp only [Prod.mk.injEq] at heq
  obtain ⟨rfl, rfl⟩ := heq
  exact ⟨es, ht⟩

theorem records_processEntries {t : CString → Crawl → Option (ℤ × Crawl × List Event)}
    {p : CString → LinkedList CString → Option (ℤ × LinkedList CString)}
    (h : ∀ b, Records alloc (t b) (p b)) (d : CString) (dents : List Dirent) :
    Records alloc (Traced.processEntries t d dents) (processEntries p d dents) := by
  induction dents with
  | nil => exact fun ll => rfl
  | cons e dents ih =>
    intro ll
    rw [Traced.processEntries, processEntries]
    split_ifs with hvis hdir
    · cases hb : buffer (join d e.d_name) with
      | none => rfl
      | some b =>
        cases hp : p b ll with
        | none => simp [hp, (h b).eq_none hp]
        | some r =>
          obtain ⟨status, ll'⟩ := r
          obtain ⟨es, ht⟩ := (h b).eq_some hp
          simp only [hp, ht, Option.bind_eq_bind, Option.bind_some]
          split_ifs with hs
          · cases hrest : processEntries p d dents ll' with
            | none => simp [ih.eq_none hrest]
            | some r =>
              obtain ⟨status', ll''⟩ := r
              obtain ⟨es', ht'⟩ := ih.eq_some hrest
              simp [ht']
          · rfl
    · exact ih ll
    · exact ih ll

theorem records_withOpened {t : CString → Crawl → Option (ℤ × Crawl × List Event)}
    {p : CString → LinkedList CString → Option (ℤ × LinkedList CString)}
    (h : ∀ b, Records alloc (t b) (p b)) (d : CString) (dents : List Dirent) :
    Records alloc (Traced.withOpened t d dents) (fun ll =>
      match strdup alloc (stripSlash d) with
      | none => some (0, ll)
      | some sp => do
        let (status, ll) ← llAdd ll (some sp)
        if status ≠ 0 then processEntries p (childPrefix d) dents ll else some (0, ll)) := by
  intro ll
  cases alloc with
  | false => rfl
  | true =>
    simp only [Traced.withOpened, strdup, if_true]
    cases hadd : llAdd ll (some (stripSlash d)) with
    | none => rfl
    | some r =>
      obtain ⟨status, ll'⟩ := r
      simp only [Option.bind_eq_bind, Option.bind_some]
      split_ifs with hs
      · cases hrest : processEntries p (childPrefix d) dents ll' with
        | none =>
          have ht := (records_processEntries h (childPrefix d) dents).eq_none hrest
          change ((Traced.processEntries t (childPrefix d) dents ⟨ll', fun _ => true⟩).bind _).map _ = _
          rw [ht]
          rfl
        | some r =>
          obtain ⟨status', ll''⟩ := r
          obtain ⟨es, ht⟩ := (records_processEntries h (childPrefix d) dents).eq_some hrest
          change ((Traced.processEntries t (childPrefix d) dents ⟨ll', fun _ => true⟩).bind _).map _ = _
          rw [ht]
          rfl
      · rfl

theorem records_processDirectory (fs : FileSystem) (alloc : Bool) (fuel : ℕ) (dirname : CString) :
    Records alloc (Traced.processDirectory fs fuel dirname)
      (processDirectory fs alloc fuel dirname) := by
  induction fuel generalizing dirname with
  | zero => exact fun ll => rfl
  | succ fuel ih =>
    intro ll
    rw [Traced.processDirectory, processDirectory]
    cases hb : buffer dirname with
    | none => rfl
    | some d =>
      simp only [Option.bind_eq_bind, Option.bind_some]
      cases hopen : fs.opendir (stripSlash d) with
      | none => rfl
      | some dents =>
        refine Eq.trans ?_ (records_withOpened ih d dents ll)
        dsimp only
        cases Traced.withOpened (Traced.processDirectory fs fuel) d dents ⟨ll, fun _ => alloc⟩ <;> rfl

theorem records_processArgs (fs : FileSystem) (alloc : Bool) (dirs : List CString) :
    Records alloc (Traced.processArgs fs dirs) (processArgs fs alloc dirs) := by
  induction dirs with
  | nil => exact fun ll => rfl
  | cons dir dirs ih =>
    intro ll
    rw [Traced.processArgs, processArgs]
    cases hp : processDirectory fs alloc bufSize dir ll with
    | none => simp [(records_processDirectory fs alloc bufSize dir).eq_none hp]
    | some r =>
      obtain ⟨status, ll'⟩ := r
      obtain ⟨es, ht⟩ := (records_processDirectory fs alloc bufSize dir).eq_some hp
      simp only [ht, Option.bind_eq_bind, Option.bind_some]
      split_ifs with hs
      · cases hrest : processArgs fs alloc dirs ll' with
        | none => simp [ih.eq_none hrest]
        | some r =>
          obtain ⟨status', ll''⟩ := r
          obtain ⟨es', ht'⟩ := ih.eq_some hrest
          simp [ht']
      · rfl

theorem map_applyEntries (reg : RegExp) (alloc : Bool) (dir : CString) (dents : List Dirent)
    (ts : TreeSet CString) :
    (Traced.applyEntries reg alloc dir dents ts).map (fun r => (r.1, r.2.1)) =
      applyEntries reg alloc dir dents ts := by
  induction dents generalizing ts with
  | nil => rfl
  | cons e dents ih =>
    have hrest : ∀ (ts : TreeSet CString) (f : List Event → List Event),
        ((Traced.applyEntries reg alloc dir dents ts).bind fun r =>
          some (r.1, r.2.1, f r.2.2)).map (fun r => (r.1, r.2.1)) =
          applyEntries reg alloc dir dents ts := by
      intro ts f
      rw [← ih]
      cases Traced.applyEntries reg alloc dir dents ts <;> rfl
    rw [Traced.applyEntries, applyEntries]
    split_ifs with hvis hdir hmatch
    · exact ih ts
    · cases hb : buffer (join dir e.d_name) with
      | none => rfl
      | some b =>
        simp only [Option.bind_eq_bind, Option.bind_some]
        cases hdup : strdup alloc b with
        | none => rfl
        | some sp =>
          simp only
          cases hadd : tsAdd alloc ts sp with
          | none => rfl
          | some r =>
            obtain ⟨status, ts'⟩ := r
            simp only [Option.bind_some]
            split_ifs
            · exact hrest ts' fun es => .reMatch dir e.d_name :: .strdup true :: .tsAdd status :: es
            · rfl
    · exact hrest ts fun es => .reMatch dir e.d_name :: es
    · exact ih ts

theorem map_applyRe (fs : FileSystem) (reg : RegExp) (alloc : Bool) (dir : CString)
    (ts : TreeSet CString) :
    (Traced.applyRe fs reg alloc dir ts).map (fun r => (r.1, r.2.1)) =
      applyRe fs reg alloc dir ts := by
  unfold Traced.applyRe applyRe
  cases fs.opendir dir with
  | none => rfl
  | some dents =>
    simp only [← map_applyEntries]
    cases Traced.applyEntries reg alloc dir dents ts <;> rfl

theorem map_applyAll (fs : FileSystem) (reg : RegExp) (alloc : Bool) (fuel : ℕ)
    (ll : LinkedList CString) (ts : TreeSet CString) :
    (Traced.applyAll fs reg alloc fuel ll ts).map Prod.fst = applyAll fs reg alloc fuel ll ts := by
  induction fuel generalizing ll ts with
  | zero => rfl
  | succ fuel ih =>
    rw [Traced.applyAll, applyAll]
    cases hremove : llRemoveFirst ll with
    | none => rfl
    | some r =>
      obtain ⟨status, element, ll'⟩ := r
      simp only [Option.bind_eq_bind, Option.bind_some]
      split_ifs with hs
      · cases element with
        | none => rfl
        | some element =>
          cases element with
          | none => rfl
          | some dir =>
            simp only [Option.bind_some, ← map_applyRe]
            cases Traced.applyRe fs reg alloc dir ts with
            | none => rfl
            | some r =>
              obtain ⟨stat, ts', es⟩ := r
              simp only [Option.bind_some, Option.map_some]
              split_ifs
              · rw [← ih]
                cases Traced.applyAll fs reg alloc fuel ll' ts' <;> rfl
              · rfl
      · rfl

end CIS415.FileCrawler
