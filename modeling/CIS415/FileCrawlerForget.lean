import CIS415.FileCrawlerMemory
import CIS415.LinkedListMap
import CIS415.TreeSetMap

/-!
# The program without its resources

Where all allocations succeed, the program of file_crawler_single.c with its resources does what the
program without them does.
-/

namespace CIS415.FileCrawler.Memory

open Pointer LinkedList TreeSet Iterator CString Resources

variable {fs : FileSystem} {d dirname : CString} {reg : Engine}

def SameList (ll : LinkedList Path) (ll' : LinkedList CString) : Prop :=
  ll' = ll.map Path.text

def SameSet (ts : TreeSet Path) (ts' : TreeSet CString) : Prop :=
  ts.cmp = scmp ∧ ts' = ts.map Path.text strcmp

def Status {α β : Type} (rel : α → β → Prop) (r : ℤ × α) (r' : ℤ × β) : Prop :=
  r.1 = r'.1 ∧ rel r.2 r'.2

theorem not_safe_null : ¬ Safe .null :=
  fun h => by cases h

theorem not_safe_bound : ¬ Safe .bound :=
  fun h => by cases h

theorem forgets_buffer (s : CString) :
    Forgets Safe (· = ·) (need Crash.overflow (buffer s)) (buffer s) :=
  .need_self _ _

theorem forgets_strdup {α β : Type} {rel : α → β → Prop} {s : CString}
    {k : Option Path → Prog Crash α} {q : Option β}
    (hk : ∀ n, Forgets Safe rel (k (some ⟨n, s⟩)) q) : Forgets Safe rel (strdup s >>= k) q := by
  rw [strdup, bind_assoc]
  refine Forgets.allocate fun n => ?_
  rw [pure_bind]
  exact hk n

theorem forgets_llAdd {ll : LinkedList Path} {ll' : LinkedList CString} (h : SameList ll ll')
    (sp : Path) :
    Forgets Safe (Status SameList) (need Crash.null (llAdd ll (some sp))) (llAdd ll' (some sp.text)) := by
  subst h
  refine .need (fun r hr => ⟨(r.1, r.2.map Path.text), ?_, rfl, rfl⟩) fun _ hc => absurd hc not_safe_null
  rw [← Option.map_some, llAdd_map, hr]
  rfl

theorem forgets_processEntries
    {processDirectory : CString → LinkedList Path → Prog Crash (ℤ × LinkedList Path)}
    {processDirectory' : CString → LinkedList CString → Option (ℤ × LinkedList CString)}
    (hrec : ∀ b ll ll', SameList ll ll' →
      Forgets Safe (Status SameList) (processDirectory b ll) (processDirectory' b ll'))
    (dents : List Dirent) {ll : LinkedList Path} {ll' : LinkedList CString} (h : SameList ll ll') :
    Forgets Safe (Status SameList) (processEntries processDirectory d dents ll)
      (FileCrawler.processEntries processDirectory' d dents ll') := by
  induction dents generalizing ll ll' with
  | nil => exact .pure ⟨rfl, h⟩
  | cons e dents ih =>
    rw [processEntries, FileCrawler.processEntries]
    split_ifs
    · refine (forgets_buffer _).bind ?_
      rintro b _ rfl
      refine (hrec b ll ll' h).bind ?_
      rintro ⟨status, ll⟩ ⟨_, ll'⟩ ⟨rfl, h'⟩
      by_cases hs : status = 0
      · rw [if_neg (not_not.mpr hs)]
        dsimp only
        rw [if_neg (not_not.mpr hs)]
        exact .pure ⟨rfl, h'⟩
      · rw [if_pos hs]
        dsimp only
        rw [if_pos hs]
        exact ih h'
    · exact ih h
    · exact ih h

theorem forgets_processDirectory (fuel : ℕ) (dirname : CString) {ll : LinkedList Path}
    {ll' : LinkedList CString} (h : SameList ll ll') :
    Forgets Safe (Status SameList) (processDirectory fs fuel dirname ll)
      (FileCrawler.processDirectory fs true fuel dirname ll') := by
  induction fuel generalizing dirname ll ll' with
  | zero => exact .stop not_safe_bound
  | succ fuel ih =>
    refine (forgets_buffer dirname).bind ?_
    rintro d _ rfl
    cases fs.opendir (stripSlash d) with
    | none => exact .pure ⟨rfl, h⟩
    | some dents =>
      refine .skip silent_acquire fun dd => Forgets.after ?_ fun _ => silent_release dd
      refine forgets_strdup fun n => (forgets_llAdd h ⟨n, stripSlash d⟩).bind ?_
      rintro ⟨status, ll⟩ ⟨_, ll'⟩ ⟨rfl, h'⟩
      dsimp only
      by_cases hs : status = 0
      · rw [if_neg (not_not.mpr hs), if_neg (not_not.mpr hs)]
        exact .skip (silent_release n) fun _ => .pure ⟨rfl, h'⟩
      · rw [if_pos hs, if_pos hs]
        exact forgets_processEntries (fun b ll ll' hll => ih b hll) dents h'

theorem forgets_processArgs (dirs : List CString) {ll : LinkedList Path} {ll' : LinkedList CString}
    (h : SameList ll ll') :
    Forgets Safe (Status SameList) (processArgs fs dirs ll)
      (FileCrawler.processArgs fs true dirs ll') := by
  induction dirs generalizing ll ll' with
  | nil => exact .pure ⟨rfl, h⟩
  | cons dir dirs ih =>
    refine (forgets_processDirectory bufSize dir h).bind ?_
    rintro ⟨status, ll⟩ ⟨_, ll'⟩ ⟨rfl, h'⟩
    dsimp only
    by_cases hs : status = 0
    · rw [if_neg (not_not.mpr hs), if_neg (not_not.mpr hs)]
      exact .pure ⟨rfl, h'⟩
    · rw [if_pos hs, if_pos hs]
      exact ih h'

theorem tsAdd_same {ts : TreeSet Path} {ts' : TreeSet CString} (h : SameSet ts ts') {sp : Path}
    {r : ℤ × TreeSet Path} (hr : TreeSet.tsAdd true ts sp = some r) :
    ∃ r', TreeSet.tsAdd true ts' sp.text = some r' ∧ Status SameSet r r' := by
  obtain ⟨hcmp, rfl⟩ := h
  have hmap : TreeSet.tsAdd true (ts.map Path.text strcmp) sp.text = _ :=
    tsAdd_map (fun a b => by rw [hcmp]; rfl) true sp
  rw [hr] at hmap
  refine ⟨_, hmap, rfl, ?_, rfl⟩
  rw [TreeSet.tsAdd] at hr
  split_ifs at hr
  · obtain ⟨s, -, heq⟩ := Option.bind_eq_some_iff.mp hr
    rw [← Option.some.inj heq]
    exact hcmp
  · rw [← Option.some.inj hr]
    exact hcmp

theorem forgets_tsAdd {ts : TreeSet Path} {ts' : TreeSet CString} (h : SameSet ts ts') (sp : Path) :
    Forgets Safe (Status SameSet) (tsAdd ts sp) (TreeSet.tsAdd true ts' sp.text) :=
  .skip (silent_useAll _) fun _ => .need (fun _ hr => tsAdd_same h hr) fun _ hc => absurd hc not_safe_null

theorem forgets_applyEntries (dir : Path) (dents : List Dirent) {ts : TreeSet Path}
    {ts' : TreeSet CString} (h : SameSet ts ts') :
    Forgets Safe (Status SameSet) (applyEntries reg dir dents ts)
      (FileCrawler.applyEntries ⟨reg.re_match⟩ true dir.text dents ts') := by
  induction dents generalizing ts ts' with
  | nil => exact .pure ⟨rfl, h⟩
  | cons e dents ih =>
    rw [applyEntries, FileCrawler.applyEntries]
    by_cases hvis : visible e = true
    · rw [if_neg (not_not.mpr hvis), if_neg (not_not.mpr hvis)]
      by_cases hdir : isDir e = true
      · rw [if_neg (not_not.mpr hdir), if_neg (not_not.mpr hdir)]
        exact ih h
      · rw [if_pos hdir, if_pos hdir, reMatch, bind_assoc]
        refine .skip (silent_use _) fun _ => ?_
        rw [bind_assoc]
        refine .skip (silent_use _) fun _ => ?_
        rw [pure_bind]
        by_cases hre : reg.re_match e.d_name = true
        · rw [if_neg (not_not.mpr hre), if_neg (not_not.mpr hre)]
          refine .skip (silent_use _) fun _ => (forgets_buffer _).bind ?_
          rintro b _ rfl
          refine forgets_strdup fun n => (forgets_tsAdd h ⟨n, b⟩).bind ?_
          rintro ⟨status, ts⟩ ⟨_, ts'⟩ ⟨rfl, h'⟩
          dsimp only
          by_cases hs : status = 0
          · rw [if_neg (not_not.mpr hs), if_neg (not_not.mpr hs)]
            exact .skip (silent_release n) fun _ => .pure ⟨rfl, h'⟩
          · rw [if_pos hs, if_pos hs]
            exact ih h'
        · rw [if_pos hre, if_pos hre]
          exact ih h
    · rw [if_pos hvis, if_pos hvis]
      exact ih h

theorem forgets_applyRe (dir : Path) {ts : TreeSet Path} {ts' : TreeSet CString} (h : SameSet ts ts') :
    Forgets Safe (Status SameSet) (applyRe fs reg dir ts)
      (FileCrawler.applyRe fs ⟨reg.re_match⟩ true dir.text ts') := by
  refine .skip (silent_use _) fun _ => ?_
  rw [FileCrawler.applyRe]
  cases fs.opendir dir.text with
  | none => exact .pure ⟨rfl, h⟩
  | some dents =>
    refine .skip silent_acquire fun dd => Forgets.after ?_ fun _ => silent_release dd
    exact forgets_applyEntries dir dents h

theorem forgets_applyAll (fuel : ℕ) {ll : LinkedList Path} {ll' : LinkedList CString}
    {ts : TreeSet Path} {ts' : TreeSet CString} (hll : SameList ll ll') (hts : SameSet ts ts') :
    Forgets Safe (fun r ts' => SameSet r.2 ts') (applyAll fs reg fuel ll ts)
      (FileCrawler.applyAll fs ⟨reg.re_match⟩ true fuel ll' ts') := by
  induction fuel generalizing ll ll' ts ts' with
  | zero => exact .stop not_safe_bound
  | succ fuel ih =>
    subst hll
    rw [applyAll, FileCrawler.applyAll, llRemoveFirst_map]
    have hremove : Forgets Safe (fun r r' => r' = (r.1, r.2.1.map (Option.map Path.text),
        r.2.2.map Path.text)) (need Crash.null (llRemoveFirst ll))
        ((llRemoveFirst ll).map fun r =>
          (r.1, r.2.1.map (Option.map Path.text), r.2.2.map Path.text)) :=
      .need (fun r hr => ⟨_, by rw [hr]; rfl, rfl⟩) fun _ hc => absurd hc not_safe_null
    refine hremove.bind ?_
    rintro ⟨status, element, ll⟩ _ rfl
    dsimp only
    by_cases hs : status = 0
    · rw [if_neg (not_not.mpr hs), if_neg (not_not.mpr hs)]
      exact .pure hts
    · rw [if_pos hs, if_pos hs]
      rcases element with _ | _ | sp
      · exact .stop not_safe_null
      · exact .stop not_safe_null
      · rw [Option.join_some, need_some]
        refine (forgets_applyRe sp hts).bind ?_
        rintro ⟨stat, ts⟩ ⟨_, ts'⟩ ⟨rfl, h'⟩
        refine .skip (silent_release _) fun _ => ?_
        dsimp only
        by_cases hstat : stat = 0
        · rw [if_neg (not_not.mpr hstat), if_neg (not_not.mpr hstat)]
          exact .pure h'
        · rw [if_pos hstat, if_pos hstat]
          exact ih rfl h'

theorem forgets_printAll (fuel : ℕ) (it : Iterator Path) :
    Forgets Safe (· = ·) (printAll fuel it) (FileCrawler.printAll fuel (it.map Path.text)) := by
  induction fuel generalizing it with
  | zero => exact .stop not_safe_bound
  | succ fuel ih =>
    rw [printAll, FileCrawler.printAll, itNext_map]
    by_cases hnext : itHasNext it = 0
    · have hnext' : itHasNext (it.map Path.text) = 0 := hnext
      rw [if_neg (not_not.mpr hnext), if_neg (not_not.mpr hnext')]
      exact .pure rfl
    · have hnext' : itHasNext (it.map Path.text) ≠ 0 := hnext
      rw [if_pos hnext, if_pos hnext']
      have hit : Forgets Safe (fun r r' => r' = (r.1, r.2.1.map Path.text, r.2.2.map Path.text))
          (need Crash.null (itNext it))
          ((itNext it).map fun r => (r.1, r.2.1.map Path.text, r.2.2.map Path.text)) :=
        .need (fun r hr => ⟨_, by rw [hr]; rfl, rfl⟩) fun _ hc => absurd hc not_safe_null
      refine hit.bind ?_
      rintro ⟨status, s, it⟩ _ rfl
      cases s with
      | none => exact .stop not_safe_null
      | some s =>
        dsimp only
        rw [need_some]
        refine .skip (silent_use _) fun _ => (ih it).bind ?_
        rintro rest _ rfl
        exact .pure rfl

theorem forgets_printSet {ts : TreeSet Path} {ts' : TreeSet CString} (h : SameSet ts ts') :
    Forgets Safe (fun lines r => r = (0, lines)) (printSet ts) (FileCrawler.printSet true ts') := by
  obtain ⟨-, rfl⟩ := h
  rw [printSet, FileCrawler.printSet, tsItCreate_map]
  split_ifs with hsize
  · refine .allocate fun array => .allocate fun block => ?_
    cases tsItCreate true ts with
    | none => exact .stop not_safe_null
    | some it =>
      cases it with
      | none => exact .stop not_safe_null
      | some it =>
        dsimp only
        rw [Option.join_some, need_some]
        refine (forgets_printAll (it.size + 1).toNat it).bind ?_
        rintro lines _ rfl
        exact .skip (silent_release _) fun _ => .skip (silent_release _) fun _ => .pure rfl
  · have hnone : tsItCreate true ts = some none := by
      rw [tsItCreate, TreeSet.genArray, if_neg fun h => hsize h.1]
      rfl
    rw [hnone]
    exact .pure rfl

theorem silent_destroyList (ll : LinkedList Path) : Silent Safe (destroyList ll) :=
  (silent_need not_safe_null _).bind fun _ => silent_releaseAll _

/-- What `main` returns and prints once the pattern is compiled. -/
def rest (fs : FileSystem) (sched : Schedule) (reg : RegExp) (dirs : List CString) :
    Option (ℤ × List CString) :=
  match llCreate sched with
  | none => some (0, [])
  | some ll => do
    let (status, ll) ← FileCrawler.processArgs fs true dirs ll
    if status = 0 then some (0, [])
    else do
      let ts ← FileCrawler.applyAll fs reg true (llSize ll + 1).toNat ll (tsCreate strcmp)
      FileCrawler.printSet true ts

theorem forgets_passes (dirs : List CString) {ll : LinkedList Path} {ll' : LinkedList CString}
    (h : SameList ll ll') :
    Forgets Safe (fun r r' => r' = (0, r.1)) (passes fs reg dirs ll)
      (FileCrawler.processArgs fs true dirs ll' >>= fun r =>
        if r.1 = 0 then some (0, [])
        else FileCrawler.applyAll fs ⟨reg.re_match⟩ true (llSize r.2 + 1).toNat r.2 (tsCreate strcmp) >>=
          FileCrawler.printSet true) := by
  refine (forgets_processArgs dirs h).bind ?_
  rintro ⟨status, ll⟩ ⟨_, ll'⟩ ⟨rfl, h'⟩
  dsimp only
  by_cases hs : status = 0
  · rw [if_pos hs, if_pos hs]
    exact .pure rfl
  · rw [if_neg hs, if_neg hs]
    obtain rfl : ll' = ll.map Path.text := h'
    have hts : SameSet (tsCreate scmp) (tsCreate strcmp) := ⟨rfl, rfl⟩
    refine (forgets_applyAll _ rfl hts).bind ?_
    rintro ⟨ll, ts⟩ ts' hts'
    have hprint : Forgets Safe (fun r r' => r' = (0, r.1))
        (printSet ts >>= fun lines => pure (lines, ll, ts))
        (FileCrawler.printSet true ts' >>= some) :=
      (forgets_printSet hts').bind fun lines r hr => .pure hr
    rwa [show (FileCrawler.printSet true ts' >>= some) = FileCrawler.printSet true ts' from
      bind_pure _] at hprint

theorem forgets_work (sched : Schedule) (dirs : List CString) :
    Forgets Safe (fun lines r => r = (0, lines)) (work fs sched reg dirs)
      (rest fs sched ⟨reg.re_match⟩ dirs) := by
  rw [work, rest, llCreate_map (f := Path.text)]
  cases llCreate sched with
  | none => exact .pure rfl
  | some ll =>
    refine .allocate fun set => ?_
    have hcleanup : Forgets Safe (fun lines r => r = (0, lines))
        (passes fs reg dirs ll >>= fun r => destroyList r.2.1 >>= fun _ =>
          releaseAll ((tsDestroy r.2.2 true).map Path.block) >>= fun _ =>
          release set >>= fun _ => pure r.1)
        ((FileCrawler.processArgs fs true dirs (ll.map Path.text) >>= fun r =>
          if r.1 = 0 then some (0, [])
          else FileCrawler.applyAll fs ⟨reg.re_match⟩ true (llSize r.2 + 1).toNat r.2
            (tsCreate strcmp) >>= FileCrawler.printSet true) >>= some) := by
      refine (forgets_passes dirs rfl).bind ?_
      rintro ⟨lines, ll, ts⟩ _ rfl
      exact .skip (silent_destroyList ll) fun _ => .skip (silent_releaseAll _) fun _ =>
        .skip (silent_release set) fun _ => .pure rfl
    rw [show ∀ x : Option (ℤ × List CString), (x >>= some) = x from bind_pure] at hcleanup
    exact hcleanup

theorem main_forgets (regcomp : CString → Option (CString → Bool)) (fs : FileSystem)
    (sched : Schedule) (args : List CString) :
    Forgets Safe (· = ·) (main regcomp fs sched args)
      (FileCrawler.main regcomp fs true sched args) := by
  cases args with
  | nil => exact .pure rfl
  | cons bashpat dirs =>
    refine (forgets_buffer _).bind ?_
    rintro pattern _ rfl
    refine .allocate fun block => ?_
    rw [if_neg (not_not.mpr rfl), reCompile]
    dsimp only
    cases regcomp pattern with
    | none => exact .skip (silent_release _) fun _ => .pure rfl
    | some re_match =>
      refine .skip silent_acquire fun preg => ?_
      have hrest : Forgets Safe (· = ·)
          (work fs sched ⟨block, preg, re_match⟩ (if dirs = [] then [dot] else dirs) >>= fun lines =>
            release preg >>= fun _ => release block >>= fun _ => pure ((0 : ℤ), lines))
          (rest fs sched ⟨re_match⟩ (if dirs = [] then [dot] else dirs) >>= some) := by
        refine (forgets_work sched _).bind ?_
        rintro lines _ rfl
        exact .skip (silent_release _) fun _ => .skip (silent_release _) fun _ => .pure rfl
      rw [show ∀ x : Option (ℤ × List CString), (x >>= some) = x from bind_pure] at hrest
      exact hrest

/-- Where all its own allocations succeed, the program returns and prints what the program without its
resources does, and it releases all it acquired. -/
theorem main_ends {regcomp : CString → Option (CString → Bool)} {sched : Schedule}
    {args : List CString} {r : ℤ × List CString}
    (h : FileCrawler.main regcomp fs true sched args = some r) :
    ∃ w, (main regcomp fs sched args).run ⟨0, 0, Schedule.always⟩ = .ok (r, w) ∧ w.live = 0 := by
  have hforget := main_forgets regcomp fs sched args
  rw [h] at hforget
  have hreleased : Released Safe ((main regcomp fs sched args).run ⟨0, 0, Schedule.always⟩) :=
    (spec_main regcomp fs sched args).released rfl
  obtain ⟨_, w, hrun, rfl, hlive⟩ := hforget.ends rfl hreleased
  exact ⟨w, hrun, hlive⟩

end CIS415.FileCrawler.Memory
