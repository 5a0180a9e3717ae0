import CIS415.FileCrawlerWalk
import CIS415.TreeSetSize

/-!
# What file_crawler_single prints

The matching paths should be printed once each, in order, whatever the overlap of the starting
directories. But `ts_add` returns 0 for a path that the set has already, `applyRe` takes this for a
failure, and the loop over the directories ends: what comes after the first path found twice is lost.
A matching name is also passed over where its type shares a bit with `DT_DIR`, and a directory whose
type `readdir` does not know is taken for a file.
-/

namespace CIS415.FileCrawler

open Pointer LinkedList TreeSet Iterator CString OrderedList

variable {fs : FileSystem} {re : CString → Bool} {d dir : CString} {ts ts' : TreeSet CString}
  {l xs : List CString} {dents : List Dirent}

theorem mem_iff {p : CString} : comparison.Mem p l ↔ p ∈ l := by
  constructor
  · rintro ⟨x, hx, heq⟩
    rwa [strcmp_eq_zero.mp heq]
  · intro hp
    exact ⟨p, hp, comparison.cmp_self p⟩

def starts (dirs : List CString) : List CString :=
  if dirs = [] then [dot] else dirs

def MayBeDir (e : Dirent) : Prop :=
  e.d_type = dtDir ∨ e.d_type = dtUnknown

/-- An entry of the directory `dir` is a directory itself when its type says so, or when its type is not
known and it can be opened. -/
def IsDirectory (fs : FileSystem) (dir : CString) (e : Dirent) : Prop :=
  e.d_type = dtDir ∨ e.d_type = dtUnknown ∧
    ∃ p, (p = dir ∨ dir = root ∧ p = empty) ∧ (fs.opendir (join p e.d_name)).isSome

/-- `p` is the path of a name that matches, of an entry that is no directory, in a directory below a
starting directory. What is on the way to a directory that can be opened can itself be opened. -/
def Matching (regcomp : CString → Option (CString → Bool)) (fs : FileSystem) (bashpat : CString)
    (dirs : List CString) (p : CString) : Prop :=
  ∃ re, regcomp (cvtPattern bashpat) = some re ∧ ∃ start ∈ starts dirs, ∃ d dents e,
    Below fs MayBeDir start d ∧ fs.opendir (stripSlash d) = some dents ∧
    e ∈ dents ∧ visible e = true ∧ ¬ IsDirectory fs (stripSlash d) e ∧ re e.d_name = true ∧
    p = join (stripSlash d) e.d_name

/-- The program prints each matching path once, and nothing else, in the order of `strcmp`. -/
def PrintsMatching (regcomp : CString → Option (CString → Bool)) (fs : FileSystem)
    (bashpat : CString) (dirs : List CString) : Prop :=
  ∃ status lines, main regcomp fs true Schedule.always (bashpat :: dirs) = some (status, lines) ∧
    comparison.Increasing lines ∧ ∀ p, p ∈ lines ↔ Matching regcomp fs bashpat dirs p

def selected (re : CString → Bool) (e : Dirent) : Bool :=
  visible e && !isDir e && re e.d_name

def entryPaths (re : CString → Bool) (dir : CString) (dents : List Dirent) : List CString :=
  (dents.filter (selected re)).map fun e => join dir e.d_name

theorem entryPaths_cons (re : CString → Bool) (dir : CString) (e : Dirent) (dents : List Dirent) :
    entryPaths re dir (e :: dents) =
      if selected re e then join dir e.d_name :: entryPaths re dir dents
      else entryPaths re dir dents := by
  unfold entryPaths
  rw [List.filter_cons]
  split_ifs <;> rfl

def dirPaths (fs : FileSystem) (re : CString → Bool) (dir : CString) : List CString :=
  entryPaths re dir ((fs.opendir dir).getD [])

def Stores (ts : TreeSet CString) (l : List CString) : Prop :=
  Represents comparison ts l ∧ ts.size = l.length

theorem stores_tsCreate : Stores (tsCreate strcmp) [] :=
  ⟨represents_tsCreate comparison, rfl⟩

theorem tsAdd_stores (h : Stores ts l) (p : CString) :
    ∃ ts', tsAdd true ts p = some (if p ∈ l then 0 else 1, ts') ∧
      Stores ts' (if p ∈ l then l else comparison.insert p l) := by
  obtain ⟨ts', hadd, hrep, hsize⟩ := tsAdd_spec h.1 p
  simp only [mem_iff] at hadd hrep hsize
  refine ⟨ts', hadd, hrep, ?_⟩
  rw [hsize, h.2]
  split_ifs
  · rw [add_zero]
  · rw [comparison.length_insert]
    rfl

/-- How far a stretch of the paths `xs` gets: the paths up to the first that is in the set already
were built and added. -/
def Added (l xs : List CString) (r : ℤ × TreeSet CString) : Prop :=
  r.1 = (if (comparison.addUntil l xs).1 then 1 else 0) ∧ Stores r.2 (comparison.addUntil l xs).2 ∧
    ∀ p ∈ (comparison.addUntil l xs).2, p ∈ l ∨ p.bytes.length < bufSize

theorem added_nil (h : Stores ts l) : Added l [] (1, ts) :=
  ⟨rfl, h, fun _ hp => Or.inl hp⟩

theorem applyEntries_cons {reg : RegExp} (e : Dirent) (dents : List Dirent)
    (ts : TreeSet CString) : applyEntries reg true dir (e :: dents) ts =
      if selected reg.re_match e then do
        let b ← buffer (join dir e.d_name)
        let (status, ts) ← tsAdd true ts b
        if status ≠ 0 then applyEntries reg true dir dents ts else some (0, ts)
      else applyEntries reg true dir dents ts := by
  rw [applyEntries, selected]
  cases visible e <;> cases isDir e <;> cases reg.re_match e.d_name <;> rfl

theorem applyEntries_sound {r : ℤ × TreeSet CString} (h : Stores ts l)
    (hrun : applyEntries ⟨re⟩ true dir dents ts = some r) : Added l (entryPaths re dir dents) r := by
  induction dents generalizing ts l with
  | nil =>
    obtain rfl := Option.some.inj hrun
    exact added_nil h
  | cons e dents ih =>
    rw [applyEntries_cons] at hrun
    by_cases he : selected re e = true
    · rw [if_pos he] at hrun
      obtain ⟨b, hb, hrun⟩ := Option.bind_eq_some_iff.mp hrun
      obtain ⟨hlt, rfl⟩ := buffer_eq_some.mp hb
      obtain ⟨ts', hadd, hts'⟩ := tsAdd_stores h (join dir e.d_name)
      rw [entryPaths_cons, if_pos he, Added, Comparison.addUntil]
      simp only [mem_iff, hadd, Option.bind_eq_bind, Option.bind_some] at hrun ⊢
      by_cases hmem : join dir e.d_name ∈ l
      · simp only [if_pos hmem] at hrun hts' ⊢
        obtain rfl := Option.some.inj hrun
        exact ⟨rfl, hts', fun p hp => Or.inl hp⟩
      · simp only [if_neg hmem] at hrun hts' ⊢
        obtain ⟨hstatus, hst, hfit⟩ := ih hts' hrun
        refine ⟨hstatus, hst, fun p hp => ?_⟩
        rcases hfit p hp with hp | hp
        · rcases comparison.mem_insert.mp hp with rfl | hp
          · exact Or.inr hlt
          · exact Or.inl hp
        · exact Or.inr hp
    · rw [if_neg he] at hrun
      rw [entryPaths_cons, if_neg he]
      exact ih h hrun

/-- It is enough that the paths up to the first that is in the set already fit. -/
theorem applyEntries_complete (h : Stores ts l)
    (hfit : ∀ p ∈ (comparison.addUntil l (entryPaths re dir dents)).2, p.bytes.length < bufSize) :
    (applyEntries ⟨re⟩ true dir dents ts).isSome := by
  induction dents generalizing ts l with
  | nil => rfl
  | cons e dents ih =>
    rw [applyEntries_cons]
    by_cases he : selected re e = true
    · rw [entryPaths_cons, if_pos he] at hfit
      have hfirst : (comparison.addUntil l []).1 = true := rfl
      have hbuf : (join dir e.d_name).bytes.length < bufSize :=
        hfit _ (mem_iff.mp (comparison.mem_addUntil_of_fst hfirst))
      obtain ⟨ts', hadd, hts'⟩ := tsAdd_stores h (join dir e.d_name)
      rw [if_pos he, buffer_eq_some.mpr ⟨hbuf, rfl⟩]
      simp only [hadd, Option.bind_eq_bind, Option.bind_some]
      by_cases hmem : join dir e.d_name ∈ l
      · simp only [if_pos hmem]
        rfl
      · rw [Comparison.addUntil, if_neg (mem_iff.not.mpr hmem)] at hfit
        simp only [if_neg hmem] at hts' ⊢
        exact ih hts' hfit
    · rw [entryPaths_cons, if_neg he] at hfit
      rw [if_neg he]
      exact ih h hfit

variable {ll : LinkedList CString} {ds : List CString} {fuel : ℕ}

theorem llRemoveFirst_cons (h : LinkedList.Represents ll ((d :: ds).map some)) :
    ∃ ll', llRemoveFirst ll = some (1, some (some d), ll') ∧
      LinkedList.Represents ll' (ds.map some) := by
  obtain ⟨ll', hremove, h'⟩ := llRemoveFirst_spec h
  obtain ⟨⟨status, element, ll''⟩, hcall, hret⟩ := Option.map_eq_some_iff.mp hremove
  simp only [ofOutcome, listStep, List.map_cons, Prod.mk.injEq] at hret
  obtain ⟨⟨rfl, rfl, -⟩, rfl⟩ := hret
  exact ⟨ll'', hcall, h'⟩

theorem llRemoveFirst_nil (h : LinkedList.Represents ll []) :
    ∃ ll', llRemoveFirst ll = some (0, none, ll') := by
  obtain ⟨ll', hremove, -⟩ := llRemoveFirst_spec h
  obtain ⟨⟨status, element, ll''⟩, hcall, hret⟩ := Option.map_eq_some_iff.mp hremove
  simp only [ofOutcome, listStep, Prod.mk.injEq] at hret
  obtain ⟨⟨rfl, rfl, -⟩, rfl⟩ := hret
  exact ⟨ll'', hcall⟩

theorem applyAll_cons {ll' : LinkedList CString} {reg : RegExp}
    (hremove : llRemoveFirst ll = some (1, some (some d), ll')) (hdents : fs.opendir d = some dents) :
    applyAll fs reg true (fuel + 1) ll ts = (applyEntries reg true d dents ts).bind fun r =>
      if r.1 ≠ 0 then applyAll fs reg true fuel ll' r.2 else some r.2 := by
  simp only [applyAll, hremove, Option.bind_eq_bind, Option.bind_some, ne_eq, one_ne_zero,
    not_false_eq_true, if_true, applyRe, hdents]

theorem applyAll_sound (hll : LinkedList.Represents ll (ds.map some)) (h : Stores ts l)
    (hopen : ∀ d ∈ ds, (fs.opendir d).isSome)
    (hrun : applyAll fs ⟨re⟩ true fuel ll ts = some ts') :
    Stores ts' (comparison.addUntil l (ds.flatMap (dirPaths fs re))).2 ∧
      ∀ p ∈ (comparison.addUntil l (ds.flatMap (dirPaths fs re))).2,
        p ∈ l ∨ p.bytes.length < bufSize := by
  induction ds generalizing ll ts l fuel with
  | nil =>
    cases fuel with
    | zero => exact nomatch hrun
    | succ fuel =>
      obtain ⟨ll', hremove⟩ := llRemoveFirst_nil hll
      rw [applyAll, hremove] at hrun
      obtain rfl := Option.some.inj hrun
      exact ⟨h, fun p hp => Or.inl hp⟩
  | cons d ds ih =>
    cases fuel with
    | zero => exact nomatch hrun
    | succ fuel =>
      obtain ⟨ll', hremove, hll'⟩ := llRemoveFirst_cons hll
      obtain ⟨dents, hdents⟩ := Option.isSome_iff_exists.mp (hopen d List.mem_cons_self)
      rw [applyAll_cons hremove hdents] at hrun
      obtain ⟨⟨stat, ts₁⟩, happly, hrun⟩ := Option.bind_eq_some_iff.mp hrun
      obtain ⟨hstat, hts₁, hfit⟩ := applyEntries_sound h happly
      have hpaths : dirPaths fs re d = entryPaths re d dents := by
        rw [dirPaths, hdents]
        rfl
      rw [List.flatMap_cons, comparison.addUntil_append, hpaths]
      obtain rfl : stat = _ := hstat
      by_cases hall : (comparison.addUntil l (entryPaths re d dents)).1 = true
      · simp only [if_pos hall] at hrun ⊢
        obtain ⟨hts', hfit'⟩ := ih hll' hts₁ (fun d hd => hopen d (List.mem_cons_of_mem _ hd)) hrun
        refine ⟨hts', fun p hp => ?_⟩
        rcases hfit' p hp with hp | hp
        · exact hfit p hp
        · exact Or.inr hp
      · simp only [if_neg hall] at hrun ⊢
        obtain rfl := Option.some.inj hrun
        exact ⟨hts₁, hfit⟩

theorem applyAll_complete (hll : LinkedList.Represents ll (ds.map some)) (h : Stores ts l)
    (hopen : ∀ d ∈ ds, (fs.opendir d).isSome)
    (hfit : ∀ p ∈ (comparison.addUntil l (ds.flatMap (dirPaths fs re))).2, p.bytes.length < bufSize)
    (hfuel : ds.length < fuel) : (applyAll fs ⟨re⟩ true fuel ll ts).isSome := by
  induction ds generalizing ll ts l fuel with
  | nil =>
    obtain ⟨fuel, rfl⟩ := Nat.exists_eq_succ_of_ne_zero (Nat.ne_of_gt hfuel)
    obtain ⟨ll', hremove⟩ := llRemoveFirst_nil hll
    rw [applyAll, hremove]
    rfl
  | cons d ds ih =>
    obtain ⟨fuel, rfl⟩ := Nat.exists_eq_succ_of_ne_zero (Nat.ne_zero_of_lt hfuel)
    obtain ⟨ll', hremove, hll'⟩ := llRemoveFirst_cons hll
    obtain ⟨dents, hdents⟩ := Option.isSome_iff_exists.mp (hopen d List.mem_cons_self)
    have hpaths : dirPaths fs re d = entryPaths re d dents := by
      rw [dirPaths, hdents]
      rfl
    rw [List.flatMap_cons, hpaths, comparison.addUntil_append] at hfit
    have hfirst : ∀ p ∈ (comparison.addUntil l (entryPaths re d dents)).2,
        p.bytes.length < bufSize := by
      intro p hp
      refine hfit p ?_
      split_ifs
      · exact mem_iff.mp (comparison.mem_addUntil_of_mem (mem_iff.mpr hp) _)
      · exact hp
    obtain ⟨⟨stat, ts₁⟩, happly⟩ := Option.isSome_iff_exists.mp (applyEntries_complete h hfirst)
    obtain ⟨hstat, hts₁, -⟩ := applyEntries_sound h happly
    obtain rfl : stat = _ := hstat
    rw [applyAll_cons hremove hdents, happly, Option.bind_some]
    by_cases hall : (comparison.addUntil l (entryPaths re d dents)).1 = true
    · rw [if_pos hall] at hfit ⊢
      exact ih hll' hts₁ (fun d hd => hopen d (List.mem_cons_of_mem _ hd)) hfit
        (Nat.lt_of_succ_lt_succ hfuel)
    · rw [if_neg hall]
      rfl

theorem printAll_spec {n : ℕ} {lines : List CString} (pre : List CString)
    (hfuel : lines.length < n) :
    printAll n ⟨pre.length, (pre ++ lines).length, (pre ++ lines).map some⟩ = some lines := by
  induction lines generalizing pre n with
  | nil =>
    obtain ⟨n, rfl⟩ := Nat.exists_eq_succ_of_ne_zero (Nat.ne_of_gt hfuel)
    simp [printAll, itHasNext]
  | cons s lines ih =>
    obtain ⟨n, rfl⟩ := Nat.exists_eq_succ_of_ne_zero (Nat.ne_zero_of_lt hfuel)
    have hrest := ih (pre ++ [s]) (Nat.lt_of_succ_lt_succ hfuel)
    rw [List.append_assoc, List.singleton_append, List.length_append, List.length_singleton] at hrest
    have hlt : (pre.length : ℤ) < ((pre ++ s :: lines).length : ℕ) := by
      rw [List.length_append, List.length_cons]
      omega
    have hget : ((pre ++ s :: lines).map some)[((pre.length : ℕ) : ℤ).toNat]? = some (some s) := by
      simp
    rw [printAll, itHasNext, if_pos hlt, itNext]
    simp only [if_pos hlt, hget, ne_eq, one_ne_zero, not_false_eq_true, if_true,
      Option.bind_eq_bind, Option.bind_some]
    rw [Nat.cast_add, Nat.cast_one] at hrest
    rw [hrest]
    rfl

/-- The set is printed in order; an empty one has no iterator and prints nothing. -/
theorem printSet_stores (h : Stores ts l) : printSet true ts = some (0, l) := by
  obtain ⟨⟨-, -, hin⟩, hsize⟩ := h
  by_cases hl : l = []
  · have hz : ¬ 0 < ts.size := by
      rw [hsize, hl]
      decide
    rw [printSet, tsItCreate, TreeSet.genArray, if_neg fun h => hz h.1, hl]
    rfl
  · have hne : ts.root.inorder ≠ [] := by rwa [hin]
    have hit := TreeSet.tsItCreate_exact hne (by rw [hin, hsize])
    rw [hin] at hit
    have hprint : printAll ((l.length : ℤ) + 1).toNat ⟨0, l.length, l.map some⟩ = some l :=
      printAll_spec [] (by omega)
    rw [printSet, hit]
    simp only [Option.bind_eq_bind, Option.bind_some, hprint]

variable {regcomp : CString → Option (CString → Bool)} {bashpat : CString} {dirs : List CString}

def collected (fs : FileSystem) (dirs : List CString) : List CString :=
  (starts dirs).flatMap (directories fs bufSize)

def found (fs : FileSystem) (re : CString → Bool) (dirs : List CString) : List CString :=
  (collected fs dirs).flatMap (dirPaths fs re)

theorem isSome_opendir_of_collected (hd : d ∈ collected fs dirs) : (fs.opendir d).isSome := by
  obtain ⟨start, -, hd⟩ := List.mem_flatMap.mp hd
  obtain ⟨d', -, -, hopen⟩ := mem_directories hd
  exact hopen

theorem length_lt_fuel {ll : LinkedList CString} {ds : List CString}
    (hll : LinkedList.Represents ll (ds.map some)) : ds.length < (llSize ll + 1).toNat := by
  obtain ⟨as, fs', h⟩ := hll
  have hsize : ll.size = ds.length := by rw [h.size_eq, List.length_map]
  rw [llSize, hsize]
  omega

theorem main_eq (fs : FileSystem) (dirs : List CString)
    (hfit : (cvtPattern bashpat).bytes.length < bufSize)
    (hre : regcomp (cvtPattern bashpat) = some re) :
    ∃ ll₀, LinkedList.Represents ll₀ (([] : List CString).map some) ∧
      main regcomp fs true Schedule.always (bashpat :: dirs) =
        (processArgs fs true (starts dirs) ll₀).bind fun r =>
          if r.1 = 0 then some (0, [])
          else (applyAll fs ⟨re⟩ true (llSize r.2 + 1).toNat r.2 (tsCreate strcmp)).bind
            (printSet true) := by
  obtain ⟨ll₀, hcreate, h₀⟩ := llCreate_spec (E := CString)
  refine ⟨ll₀, h₀, ?_⟩
  simp only [main, buffer_eq_some.mpr ⟨hfit, rfl⟩, reCompile, hre, hcreate, Option.map_some,
    Option.bind_eq_bind, Option.bind_some, not_true_eq_false, if_false, starts]

/-- What a run that succeeds has printed. -/
theorem main_sound (hre : regcomp (cvtPattern bashpat) = some re)
    (hfit : (cvtPattern bashpat).bytes.length < bufSize) {status : ℤ} {lines : List CString}
    (hrun : main regcomp fs true Schedule.always (bashpat :: dirs) = some (status, lines)) :
    (∀ start ∈ starts dirs, Fits fs start) ∧
      lines = (comparison.addUntil [] (found fs re dirs)).2 ∧
      ∀ p ∈ lines, p.bytes.length < bufSize := by
  obtain ⟨ll₀, h₀, hmain⟩ := main_eq fs dirs hfit hre
  rw [hmain] at hrun
  obtain ⟨⟨status', ll⟩, hargs, hrun⟩ := Option.bind_eq_some_iff.mp hrun
  obtain ⟨hfits, hstatus, hll⟩ := processArgs_sound h₀ hargs
  obtain rfl : status' = 1 := hstatus
  obtain ⟨ts, happly, hrun⟩ := Option.bind_eq_some_iff.mp hrun
  obtain ⟨hts, hlen⟩ := applyAll_sound hll stores_tsCreate
    (fun d hd => isSome_opendir_of_collected hd) happly
  rw [printSet_stores hts] at hrun
  obtain ⟨-, rfl⟩ := Prod.mk.inj (Option.some.inj hrun)
  exact ⟨hfits, rfl, fun p hp => (hlen p hp).resolve_left List.not_mem_nil⟩

theorem main_complete (hre : regcomp (cvtPattern bashpat) = some re)
    (hfit : (cvtPattern bashpat).bytes.length < bufSize)
    (hdirs : ∀ start ∈ starts dirs, Fits fs start)
    (hpaths : ∀ p ∈ (comparison.addUntil [] (found fs re dirs)).2, p.bytes.length < bufSize) :
    (main regcomp fs true Schedule.always (bashpat :: dirs)).isSome := by
  obtain ⟨ll₀, h₀, hmain⟩ := main_eq fs dirs hfit hre
  obtain ⟨⟨status, ll⟩, hargs⟩ := Option.isSome_iff_exists.mp (processArgs_complete hdirs h₀)
  obtain ⟨-, hstatus, hll⟩ := processArgs_sound h₀ hargs
  obtain rfl : status = 1 := hstatus
  have hopen : ∀ d ∈ collected fs dirs, (fs.opendir d).isSome :=
    fun d hd => isSome_opendir_of_collected hd
  obtain ⟨ts, happly⟩ := Option.isSome_iff_exists.mp
    (applyAll_complete hll stores_tsCreate hopen hpaths (length_lt_fuel hll))
  obtain ⟨hts, -⟩ := applyAll_sound hll stores_tsCreate hopen happly
  rw [hmain, hargs]
  simp only [Option.bind_some, one_ne_zero, if_false, happly, printSet_stores hts]
  rfl

def NamesDirectory (fs : FileSystem) (p : CString) : Prop :=
  ∃ dir dents e, fs.opendir dir = some dents ∧ e ∈ dents ∧ p = join dir e.d_name ∧
    IsDirectory fs dir e

theorem namesDirectory_join {e : Dirent} (hopen : fs.opendir dir = some dents) (he : e ∈ dents) :
    NamesDirectory fs (join dir e.d_name) ↔ IsDirectory fs dir e := by
  constructor
  · rintro ⟨dir', dents', e', hopen', he', heq, h⟩
    obtain ⟨rfl, hname⟩ := join_inj heq
    obtain rfl := Option.some.inj (hopen'.symm.trans hopen)
    obtain rfl := List.inj_on_of_nodup_map (fs.distinct _ _ hopen) he he' hname
    exact h
  · exact fun h => ⟨dir, dents, e, hopen, he, rfl, h⟩

theorem Matching.not_namesDirectory {p : CString} (hp : Matching regcomp fs bashpat dirs p) :
    ¬ NamesDirectory fs p := by
  obtain ⟨re, hre, start, hstart, d, dents, e, hbelow, hopen, he, hvis, htype, hmatch, rfl⟩ := hp
  exact (namesDirectory_join hopen he).not.mpr htype

/-- What is found: a path of an entry that `isDir` does not hold of, in a directory that is collected. -/
theorem mem_found {p : CString} (hp : p ∈ found fs re dirs) : ∃ start ∈ starts dirs, ∃ d dents e,
    Below fs (fun e => isDir e = true) start d ∧ fs.opendir (stripSlash d) = some dents ∧
    e ∈ dents ∧ visible e = true ∧ isDir e = false ∧ re e.d_name = true ∧
    p = join (stripSlash d) e.d_name := by
  obtain ⟨d, hd, hp⟩ := List.mem_flatMap.mp hp
  obtain ⟨start, hstart, hd⟩ := List.mem_flatMap.mp hd
  obtain ⟨d', hbelow, rfl, hopen⟩ := mem_directories hd
  obtain ⟨dents, hdents⟩ := Option.isSome_iff_exists.mp hopen
  rw [dirPaths, hdents] at hp
  obtain ⟨e, he, rfl⟩ := List.mem_map.mp hp
  simp only [Option.getD_some, selected, List.mem_filter, Bool.and_eq_true, Bool.not_eq_true'] at he
  obtain ⟨he, ⟨hvis, hdir⟩, hmatch⟩ := he
  exact ⟨start, hstart, d', dents, e, hbelow, hdents, he, hvis, hdir, hmatch, rfl⟩

theorem matching_of_found (hre : regcomp (cvtPattern bashpat) = some re) {p : CString}
    (hp : p ∈ found fs re dirs) (hdir : ¬ NamesDirectory fs p) :
    Matching regcomp fs bashpat dirs p := by
  obtain ⟨start, hstart, d, dents, e, hbelow, hopen, he, hvis, -, hmatch, rfl⟩ := mem_found hp
  exact ⟨re, hre, start, hstart, d, dents, e, ((below_dtDir_iff hopen).mpr hbelow).imp fun _ => Or.inl,
    hopen, he, hvis, (namesDirectory_join hopen he).not.mp hdir, hmatch, rfl⟩

/-- The inputs on which the output is right. The strings that are built fit. A matching name is not of a
type that only shares a bit with `DT_DIR`. A directory of a type that is not known is not found, before
a path is found a second time, in the place of a file, and what matches below it is found on another way.
After a path found a second time no new path is found, but for those of such directories. -/
structure Clean (fs : FileSystem) (re : CString → Bool) (dirs : List CString) : Prop where
  dirs_fit : ∀ start ∈ starts dirs, Fits fs start
  paths_fit : ∀ pre p post, found fs re dirs = pre ++ p :: post → pre.Nodup → p.bytes.length < bufSize
  files : ∀ pre p post, found fs re dirs = pre ++ p :: post → pre.Nodup → ¬ NamesDirectory fs p
  no_hidden : ∀ start ∈ starts dirs, ∀ d dents e, Below fs (fun e => isDir e = true) start d →
    fs.opendir (stripSlash d) = some dents → e ∈ dents → visible e = true → re e.d_name = true →
    isDir e = true → e.d_type = dtDir
  entered : ∀ start ∈ starts dirs, ∀ d dents e, Below fs MayBeDir start d →
    fs.opendir (stripSlash d) = some dents → e ∈ dents → visible e = true → re e.d_name = true →
    ¬ IsDirectory fs (stripSlash d) e → ∃ start' ∈ starts dirs, ∃ d',
      Below fs (fun e => isDir e = true) start' d' ∧ stripSlash d' = stripSlash d
  no_new : ∀ pre p post, found fs re dirs = pre ++ p :: post → p ∈ pre →
    ∀ q ∈ post, ¬ NamesDirectory fs q → q ∈ pre

theorem Clean.found_of_matching (h : Clean fs re dirs)
    (hre : regcomp (cvtPattern bashpat) = some re) {p : CString}
    (hp : Matching regcomp fs bashpat dirs p) : p ∈ found fs re dirs := by
  obtain ⟨re', hre', start, hstart, d, dents, e, hbelow, hopen, he, hvis, htype, hmatch, rfl⟩ := hp
  obtain rfl := Option.some.inj (hre.symm.trans hre')
  obtain ⟨start', hstart', d', hbelow', hstrip⟩ :=
    h.entered start hstart d dents e hbelow hopen he hvis hmatch htype
  rw [← hstrip] at hopen htype ⊢
  have hdir : isDir e = false := by
    rw [Bool.eq_false_iff]
    intro hdir
    exact htype (Or.inl (h.no_hidden start' hstart' d' dents e hbelow' hopen he hvis hmatch hdir))
  apply List.mem_flatMap.mpr
  refine ⟨stripSlash d', List.mem_flatMap.mpr ⟨start', hstart', ?_⟩, ?_⟩
  · apply mem_directories_of_below (h.dirs_fit start' hstart') (Nat.le_add_right _ _) hbelow'
    rw [hopen]
    rfl
  · rw [dirPaths, hopen]
    apply List.mem_map.mpr
    refine ⟨e, List.mem_filter.mpr ⟨he, ?_⟩, rfl⟩
    rw [selected, hvis, hdir, hmatch]
    rfl

theorem noNewAfterRepeat_iff {P : CString → Prop} {ps : List CString} :
    comparison.NoNewAfterRepeat P [] ps ↔
      ∀ pre p post, ps = pre ++ p :: post → p ∈ pre → ∀ q ∈ post, P q → q ∈ pre := by
  simp only [Comparison.NoNewAfterRepeat, mem_iff, List.not_mem_nil, false_or]

/-- The paths before one are all added when none of them is found twice. -/
theorem addUntil_fst_iff_nodup {ps : List CString} :
    (comparison.addUntil [] ps).1 = true ↔ ps.Nodup := by
  rw [comparison.addUntil_fst_iff]
  constructor
  · rintro ⟨-, hps⟩
    exact hps.imp fun hne heq => hne (strcmp_eq_zero.mpr heq.symm)
  · intro hps
    exact ⟨fun p _ => comparison.not_mem_nil p, hps.imp fun hne heq => hne (strcmp_eq_zero.mp heq).symm⟩

/-- With a pattern that fits its buffer and clean inputs the program prints the matching paths. -/
theorem printsMatching_of_clean (hpat : (cvtPattern bashpat).bytes.length < bufSize)
    (hclean : ∀ re, regcomp (cvtPattern bashpat) = some re → Clean fs re dirs) :
    PrintsMatching regcomp fs bashpat dirs := by
  cases hre : regcomp (cvtPattern bashpat) with
  | none =>
    refine ⟨-1, [], ?_, comparison.increasing_nil, fun p => ⟨nofun, ?_⟩⟩
    · simp only [main, buffer_eq_some.mpr ⟨hpat, rfl⟩, reCompile, hre, Option.map_none,
        Option.bind_eq_bind, Option.bind_some, not_true_eq_false, if_false]
    · rintro ⟨re, hre', -⟩
      exact nomatch hre.symm.trans hre'
  | some re =>
    have h := hclean re hre
    -- what is printed was found before anything was found twice
    have hreached : ∀ p ∈ (comparison.addUntil [] (found fs re dirs)).2,
        ∃ pre post, found fs re dirs = pre ++ p :: post ∧ pre.Nodup := by
      intro p hp
      obtain ⟨pre, post, hsplit, hpre⟩ :=
        (comparison.exists_of_mem_addUntil hp).resolve_left List.not_mem_nil
      exact ⟨pre, post, hsplit, addUntil_fst_iff_nodup.mp hpre⟩
    have hpaths : ∀ p ∈ (comparison.addUntil [] (found fs re dirs)).2, p.bytes.length < bufSize := by
      intro p hp
      obtain ⟨pre, post, hsplit, hpre⟩ := hreached p hp
      exact h.paths_fit pre p post hsplit hpre
    obtain ⟨⟨status, lines⟩, hrun⟩ := Option.isSome_iff_exists.mp
      (main_complete hre hpat h.dirs_fit hpaths)
    obtain ⟨-, rfl, -⟩ := main_sound hre hpat hrun
    refine ⟨status, _, hrun, comparison.addUntil_increasing comparison.increasing_nil _,
      fun p => ⟨fun hp => ?_, fun hp => ?_⟩⟩
    · obtain ⟨pre, post, hsplit, hpre⟩ := hreached p hp
      exact matching_of_found hre
        ((comparison.mem_of_mem_addUntil hp).resolve_left List.not_mem_nil)
        (h.files pre p post hsplit hpre)
    · apply mem_iff.mp
      exact comparison.addUntil_complete_iff.mpr (noNewAfterRepeat_iff.mpr h.no_new) p
        (h.found_of_matching hre hp) hp.not_namesDirectory

theorem clean_of_printsMatching (hre : regcomp (cvtPattern bashpat) = some re)
    (hpat : (cvtPattern bashpat).bytes.length < bufSize)
    (h : PrintsMatching regcomp fs bashpat dirs) : Clean fs re dirs := by
  obtain ⟨status, lines, hrun, -, hlines⟩ := h
  obtain ⟨hdirs, rfl, hfit⟩ := main_sound hre hpat hrun
  have hreached : ∀ pre p post, found fs re dirs = pre ++ p :: post → pre.Nodup →
      p ∈ (comparison.addUntil [] (found fs re dirs)).2 := by
    intro pre p post hsplit hpre
    rw [hsplit]
    exact mem_iff.mp (comparison.mem_addUntil_of_fst (addUntil_fst_iff_nodup.mpr hpre))
  have hfound : ∀ p, Matching regcomp fs bashpat dirs p → p ∈ found fs re dirs := by
    intro p hp
    exact (comparison.mem_of_mem_addUntil ((hlines p).mpr hp)).resolve_left List.not_mem_nil
  refine ⟨hdirs, ?_, ?_, ?_, ?_, ?_⟩
  · exact fun pre p post hsplit hpre => hfit p (hreached pre p post hsplit hpre)
  · intro pre p post hsplit hpre
    exact ((hlines p).mp (hreached pre p post hsplit hpre)).not_namesDirectory
  · intro start hstart d dents e hbelow hopen he hvis hmatch hdir
    by_contra htype
    have hknown : ¬ IsDirectory fs (stripSlash d) e := by
      rintro (hdtDir | ⟨hunknown, -⟩)
      · exact htype hdtDir
      · rw [isDir, hunknown] at hdir
        exact absurd hdir (by decide)
    have hmatching : Matching regcomp fs bashpat dirs (join (stripSlash d) e.d_name) :=
      ⟨re, hre, start, hstart, d, dents, e, ((below_dtDir_iff hopen).mpr hbelow).imp fun _ => Or.inl,
        hopen, he, hvis, hknown, hmatch, rfl⟩
    -- the path is found only for an entry of that name which `isDir` does not hold of
    obtain ⟨_, _, d', dents', e', _, hopen', he', _, hdir', _, heq⟩ := mem_found (hfound _ hmatching)
    obtain ⟨hstrip, hname⟩ := join_inj heq
    rw [← hstrip, hopen] at hopen'
    obtain rfl := Option.some.inj hopen'
    obtain rfl := List.inj_on_of_nodup_map (fs.distinct _ _ hopen) he he' hname
    exact absurd (hdir'.symm.trans hdir) Bool.false_ne_true
  · intro start hstart d dents e hbelow hopen he hvis hmatch htype
    have hmatching : Matching regcomp fs bashpat dirs (join (stripSlash d) e.d_name) :=
      ⟨re, hre, start, hstart, d, dents, e, hbelow, hopen, he, hvis, htype, hmatch, rfl⟩
    obtain ⟨start', hstart', d', _, e', hbelow', _, _, _, _, _, heq⟩ := mem_found (hfound _ hmatching)
    exact ⟨start', hstart', d', hbelow', (join_inj heq).1.symm⟩
  · apply noNewAfterRepeat_iff.mp
    apply comparison.addUntil_complete_iff.mp
    intro p hp hdir
    exact mem_iff.mpr ((hlines p).mpr (matching_of_found hre hp hdir))

/-- The program prints the matching paths, each once and in order, just when the pattern fits its
buffer and the inputs are clean. -/
theorem printsMatching_iff (regcomp : CString → Option (CString → Bool)) (fs : FileSystem)
    (bashpat : CString) (dirs : List CString) :
    PrintsMatching regcomp fs bashpat dirs ↔ (cvtPattern bashpat).bytes.length < bufSize ∧
      ∀ re, regcomp (cvtPattern bashpat) = some re → Clean fs re dirs := by
  constructor
  · intro h
    have hpat : (cvtPattern bashpat).bytes.length < bufSize := by
      obtain ⟨status, lines, hrun, -⟩ := h
      obtain ⟨pattern, hbuf, -⟩ := Option.bind_eq_some_iff.mp hrun
      exact (buffer_eq_some.mp hbuf).1
    exact ⟨hpat, fun re hre => clean_of_printsMatching hre hpat h⟩
  · rintro ⟨hpat, hclean⟩
    exact printsMatching_of_clean hpat hclean

namespace Overlap

def files : CString := ⟨[102, 105, 108, 101, 115], by decide⟩

def abknl : CString := ⟨[97, 98, 107, 110, 108], by decide⟩

def other : CString := ⟨[111, 116, 104, 101, 114], by decide⟩

def name : CString := ⟨[120], by decide⟩

def entryDot : Dirent := ⟨dot, dtDir, by decide, by decide⟩

def entryDotdot : Dirent := ⟨dotdot, dtDir, by decide, by decide⟩

def entryAbknl : Dirent := ⟨abknl, dtDir, by decide, by decide⟩

def entryName : Dirent := ⟨name, 8, by decide, by decide⟩

def opendir (d : CString) : Option (List Dirent) :=
  if d = files then some [entryDot, entryDotdot, entryAbknl]
  else if d = join files abknl then some [entryDot, entryDotdot, entryName]
  else if d = other then some [entryDot, entryDotdot, entryName]
  else none

/-- The directories `files`, `files/abknl` with a file `x`, and `other` with a file `x`. -/
def fileSystem : FileSystem where
  opendir := opendir
  distinct d dents h := by
    unfold opendir at h
    split_ifs at h <;> obtain rfl := Option.some.inj h <;> decide
  notDirectory d dents e p h he hdir _ _ hp := by
    unfold opendir at h
    split_ifs at h with h₁ h₂ h₃ <;> obtain rfl := Option.some.inj h <;> subst d <;>
      rcases hp with rfl | ⟨hroot, -⟩
    · have hall : ∀ e ∈ [entryDot, entryDotdot, entryAbknl], e.d_type = dtDir := by decide
      exact absurd (hall e he) hdir
    · exact absurd hroot (by decide)
    · have hall : ∀ e ∈ [entryDot, entryDotdot, entryName], e.d_type ≠ dtDir →
          opendir (join (join files abknl) e.d_name) = none := by decide
      exact hall e he hdir
    · exact absurd hroot (by decide)
    · have hall : ∀ e ∈ [entryDot, entryDotdot, entryName], e.d_type ≠ dtDir →
          opendir (join other e.d_name) = none := by decide
      exact hall e he hdir
    · exact absurd hroot (by decide)

def star : CString := ⟨[42], by decide⟩

end Overlap

open Overlap in
/-- With the starting directories `files`, `files/abknl` and `other`, the file in `other` is lost. -/
theorem overlap_loses_path : ¬ ∀ (regcomp : CString → Option (CString → Bool)) (fs : FileSystem)
    (bashpat : CString) (dirs : List CString), PrintsMatching regcomp fs bashpat dirs := by
  intro h
  obtain ⟨status, lines, hrun, -, hlines⟩ := h (fun _ => some fun _ => true) fileSystem star
    [files, join files abknl, other]
  have hmain : main (fun _ => some fun _ => true) fileSystem true Schedule.always
      [star, files, join files abknl, other] = some (0, [join (join files abknl) name]) := by
    decide +kernel
  obtain ⟨-, rfl⟩ := Prod.mk.inj (Option.some.inj (hmain.symm.trans hrun))
  have hfile : ¬ IsDirectory fileSystem (stripSlash other) entryName := by
    rintro (htype | ⟨htype, -⟩)
    · exact absurd htype (by decide)
    · exact absurd htype (by decide)
  have hother := (hlines (join other name)).mpr ⟨fun _ => true, rfl, other, by decide, other, _,
    entryName, .refl other, rfl, by simp, by decide, hfile, rfl, rfl⟩
  exact absurd hother (by decide)

end CIS415.FileCrawler
