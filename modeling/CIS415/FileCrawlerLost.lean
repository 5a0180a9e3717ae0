import CIS415.FileCrawlerTrace

/-!
# Entries that both passes pass over

Both passes test an entry with `d_type & DT_DIR`. The first goes down into what the test holds of, the
second offers the names of the rest to `re_match`. `DT_BLK` and `DT_SOCK` share the bit with `DT_DIR`:
such an entry is taken for a directory, which cannot be opened, and its name is never matched.
-/

namespace CIS415.FileCrawler

open Pointer LinkedList TreeSet CString OrderedList

variable {fs : FileSystem} {re : CString → Bool} {d dir dirname : CString}
  {dents : List Dirent} {fuel : ℕ} {s s' : Crawl} {status : ℤ} {es : List Event}
  {ts ts' : TreeSet CString} {l ds dirs : List CString} {es' : List Event}

def dtFifo : UInt8 := 1

def dtChr : UInt8 := 2

def dtBlk : UInt8 := 6

def dtSock : UInt8 := 12

def direntTypes : List UInt8 :=
  [dtFifo, dtChr, dtDir, dtBlk, dtReg, dtLnk, dtSock]

theorem isDir_iff {e : Dirent} (h : e.d_type ∈ direntTypes) :
    isDir e = true ↔ e.d_type = dtDir ∨ e.d_type = dtBlk ∨ e.d_type = dtSock := by
  have hall : direntTypes.all (fun t =>
      decide (t &&& dtDir ≠ 0 ↔ t = dtDir ∨ t = dtBlk ∨ t = dtSock)) = true := by decide
  rw [isDir, decide_eq_true_eq]
  exact of_decide_eq_true (List.all_eq_true.mp hall e.d_type h)

theorem Below.snoc {descend : Dirent → Prop} {e : Dirent} (h : Below fs descend dirname d)
    (hopen : fs.opendir (stripSlash d) = some dents) (he : e ∈ dents) (hvis : visible e = true)
    (hdescend : descend e) : Below fs descend dirname (join (childPrefix d) e.d_name) := by
  induction h with
  | refl d => exact .entry hopen he hvis hdescend (.refl _)
  | entry hopen' he' hvis' hdescend' _ ih => exact .entry hopen' he' hvis' hdescend' (ih hopen)

def Called (fs : FileSystem) (dirname : CString) (es : List Event) : Prop :=
  ∀ d, Below fs (fun e => isDir e = true) dirname d → .processDirectory d ∈ es

theorem called_processEntries {t : CString → Crawl → Option (ℤ × Crawl × List Event)}
    (ht : ∀ b s status s' es, t b s = some (status, s', es) → status ≠ 0 → Called fs b es)
    (hrun : Traced.processEntries t d dents s = some (status, s', es)) (hstatus : status ≠ 0) :
    ∀ e ∈ dents, visible e = true → isDir e = true → Called fs (join d e.d_name) es := by
  induction dents generalizing s es with
  | nil => exact fun e he => absurd he List.not_mem_nil
  | cons e dents ih =>
    rw [Traced.processEntries] at hrun
    intro e' he' hvis' hdir'
    by_cases hvis : visible e = true
    · rw [if_neg (not_not.mpr hvis)] at hrun
      by_cases hdir : isDir e = true
      · rw [if_pos hdir] at hrun
        obtain ⟨b, hb, hrun⟩ := Option.bind_eq_some_iff.mp hrun
        obtain ⟨-, rfl⟩ := buffer_eq_some.mp hb
        obtain ⟨⟨status₁, s₁, es₁⟩, hcall, hrun⟩ := Option.bind_eq_some_iff.mp hrun
        by_cases h0 : status₁ = 0
        · simp only [h0, ne_eq, not_true_eq_false, if_false, Option.some.injEq, Prod.mk.injEq] at hrun
          exact absurd hrun.1.symm hstatus
        · simp only [ne_eq, h0, not_false_eq_true, if_true] at hrun
          obtain ⟨⟨status₂, s₂, es₂⟩, hrest, heq⟩ := Option.bind_eq_some_iff.mp hrun
          simp only [Option.some.injEq, Prod.mk.injEq] at heq
          obtain ⟨rfl, rfl, rfl⟩ := heq
          rcases List.mem_cons.mp he' with rfl | he'
          · exact fun d' hd' => List.mem_append_left _ (ht _ _ _ _ _ hcall h0 d' hd')
          · exact fun d' hd' => List.mem_append_right _ (ih hrest e' he' hvis' hdir' d' hd')
      · rw [if_neg hdir] at hrun
        rcases List.mem_cons.mp he' with rfl | he'
        · exact absurd hdir' hdir
        · exact ih hrun e' he' hvis' hdir'
    · rw [if_pos hvis] at hrun
      rcases List.mem_cons.mp he' with rfl | he'
      · exact absurd hvis' hvis
      · exact ih hrun e' he' hvis' hdir'

theorem called_processDirectory
    (hrun : Traced.processDirectory fs fuel dirname s = some (status, s', es))
    (hstatus : status ≠ 0) : Called fs dirname es := by
  induction fuel generalizing dirname s status s' es with
  | zero => cases hrun
  | succ fuel ih =>
    rw [Traced.processDirectory] at hrun
    obtain ⟨b, hb, hrun⟩ := Option.bind_eq_some_iff.mp hrun
    obtain ⟨-, rfl⟩ := buffer_eq_some.mp hb
    intro d hd
    cases hopen : fs.opendir (stripSlash dirname) with
    | none =>
      rw [hopen] at hrun
      simp only [Option.some.injEq, Prod.mk.injEq] at hrun
      cases hd with
      | refl => simp [← hrun.2.2]
      | entry hopen' => cases hopen.symm.trans hopen'
    | some dents =>
      rw [hopen] at hrun
      obtain ⟨⟨status₁, s₁, es₁⟩, hbody, heq⟩ := Option.bind_eq_some_iff.mp hrun
      simp only [Option.some.injEq, Prod.mk.injEq] at heq
      obtain ⟨rfl, rfl, rfl⟩ := heq
      cases hd with
      | refl => exact List.mem_cons_self
      | @entry _ _ _ e hopen' he hvis hdir hbelow =>
        obtain rfl := Option.some.inj (hopen.symm.trans hopen')
        suffices hmem : .processDirectory d ∈ es₁ by simp [hmem]
        unfold Traced.withOpened at hbody
        split_ifs at hbody with hdup
        · obtain ⟨⟨v, ll⟩, -, hbody⟩ := Option.bind_eq_some_iff.mp hbody
          by_cases hv : v = 0
          · simp only [hv, ne_eq, not_true_eq_false, if_false, Option.some.injEq,
              Prod.mk.injEq] at hbody
            exact absurd hbody.1.symm hstatus
          · simp only [ne_eq, hv, not_false_eq_true, if_true] at hbody
            obtain ⟨⟨status₂, s₂, es₂⟩, hentries, heq⟩ := Option.bind_eq_some_iff.mp hbody
            simp only [Option.some.injEq, Prod.mk.injEq] at heq
            obtain ⟨rfl, rfl, rfl⟩ := heq
            have hcalled := called_processEntries (fun _ _ _ _ _ hrun hs => ih hrun hs) hentries
              hstatus e he hvis hdir d hbelow
            simp [hcalled]
        · simp only [Option.some.injEq, Prod.mk.injEq] at hbody
          exact absurd hbody.1.symm hstatus

theorem called_processArgs (hrun : Traced.processArgs fs dirs s = some (status, s', es))
    (hstatus : status ≠ 0) : ∀ dir ∈ dirs, Called fs dir es := by
  induction dirs generalizing s es with
  | nil => exact fun dir hdir => absurd hdir List.not_mem_nil
  | cons dir dirs ih =>
    rw [Traced.processArgs] at hrun
    obtain ⟨⟨status₁, s₁, es₁⟩, hcall, hrun⟩ := Option.bind_eq_some_iff.mp hrun
    by_cases h0 : status₁ = 0
    · simp only [h0, ne_eq, not_true_eq_false, if_false, Option.some.injEq, Prod.mk.injEq] at hrun
      exact absurd hrun.1.symm hstatus
    · simp only [ne_eq, h0, not_false_eq_true, if_true] at hrun
      obtain ⟨⟨status₂, s₂, es₂⟩, hrest, heq⟩ := Option.bind_eq_some_iff.mp hrun
      simp only [Option.some.injEq, Prod.mk.injEq] at heq
      obtain ⟨rfl, rfl, rfl⟩ := heq
      intro dir' hdir' d hd
      rcases List.mem_cons.mp hdir' with rfl | hdir'
      · exact List.mem_append_left _ (called_processDirectory hcall h0 d hd)
      · exact List.mem_append_right _ (ih hrest dir' hdir' d hd)

/-- `name` is the name of an entry of `dir` that the test does not take for a directory. -/
def Offerable (fs : FileSystem) (dir name : CString) : Prop :=
  ∃ dents e, fs.opendir dir = some dents ∧ e ∈ dents ∧ visible e = true ∧ isDir e = false ∧
    name = e.d_name

def NoMatch (es : List Event) : Prop :=
  ∀ d name, .reMatch d name ∉ es

/-- One turn of the loop over the entries: the entry is passed over, or its name is offered and then
the loop ends or goes on. -/
theorem applyEntries_cons_cases {reg : RegExp} {alloc : Bool} {e : Dirent}
    (hrun : Traced.applyEntries reg alloc dir (e :: dents) ts = some (status, ts', es)) :
    (¬ (visible e = true ∧ isDir e = false) ∧
      Traced.applyEntries reg alloc dir dents ts = some (status, ts', es)) ∨
    (visible e = true ∧ isDir e = false ∧ ∃ pre, NoMatch pre ∧
      ((status = 0 ∧ es = .reMatch dir e.d_name :: pre) ∨
        ∃ ts₁ es₁, Traced.applyEntries reg alloc dir dents ts₁ = some (status, ts', es₁) ∧
          es = .reMatch dir e.d_name :: (pre ++ es₁))) := by
  rw [Traced.applyEntries] at hrun
  split_ifs at hrun with hvis hdir hmatch
  · exact .inl ⟨fun h => Bool.false_ne_true (h.2.symm.trans hdir), hrun⟩
  · refine .inr ⟨hvis, Bool.eq_false_iff.mpr hdir, ?_⟩
    obtain ⟨b, -, hrun⟩ := Option.bind_eq_some_iff.mp hrun
    cases hdup : strdup alloc b with
    | none =>
      simp only [hdup, Option.some.injEq, Prod.mk.injEq] at hrun
      obtain ⟨rfl, rfl, rfl⟩ := hrun
      exact ⟨[.strdup false], by simp [NoMatch], .inl ⟨rfl, rfl⟩⟩
    | some sp =>
      simp only [hdup] at hrun
      obtain ⟨⟨v, ts₁⟩, -, hrun⟩ := Option.bind_eq_some_iff.mp hrun
      by_cases hv : v = 0
      · simp only [hv, ne_eq, not_true_eq_false, if_false, Option.some.injEq, Prod.mk.injEq] at hrun
        obtain ⟨rfl, rfl, rfl⟩ := hrun
        exact ⟨[.strdup true, .tsAdd 0], by simp [NoMatch], .inl ⟨rfl, rfl⟩⟩
      · simp only [ne_eq, hv, not_false_eq_true, if_true] at hrun
        obtain ⟨⟨status₁, ts₂, es₁⟩, hrest, heq⟩ := Option.bind_eq_some_iff.mp hrun
        simp only [Option.some.injEq, Prod.mk.injEq] at heq
        obtain ⟨rfl, rfl, rfl⟩ := heq
        exact ⟨[.strdup true, .tsAdd v], by simp [NoMatch], .inr ⟨ts₁, es₁, hrest, rfl⟩⟩
  · refine .inr ⟨hvis, Bool.eq_false_iff.mpr hdir, ?_⟩
    obtain ⟨⟨status₁, ts₂, es₁⟩, hrest, heq⟩ := Option.bind_eq_some_iff.mp hrun
    simp only [Option.some.injEq, Prod.mk.injEq] at heq
    obtain ⟨rfl, rfl, rfl⟩ := heq
    exact ⟨[], by simp [NoMatch], .inr ⟨ts, es₁, hrest, rfl⟩⟩
  · exact .inl ⟨fun h => hvis h.1, hrun⟩

theorem offered_applyEntries {reg : RegExp} {alloc : Bool}
    (hrun : Traced.applyEntries reg alloc dir dents ts = some (status, ts', es)) :
    (∀ d name, .reMatch d name ∈ es → d = dir ∧
      ∃ e ∈ dents, visible e = true ∧ isDir e = false ∧ name = e.d_name) ∧
    (status ≠ 0 → ∀ e ∈ dents, visible e = true → isDir e = false → .reMatch dir e.d_name ∈ es) := by
  induction dents generalizing ts es with
  | nil =>
    simp only [Traced.applyEntries, Option.some.injEq, Prod.mk.injEq] at hrun
    obtain ⟨-, -, rfl⟩ := hrun
    exact ⟨fun d name hmem => absurd hmem List.not_mem_nil,
      fun _ e he => absurd he List.not_mem_nil⟩
  | cons e dents ih =>
    rcases applyEntries_cons_cases hrun with ⟨hskip, hrest⟩ | ⟨hvis, hdir, pre, hpre, hend | hgo⟩
    · obtain ⟨hsound, hcomplete⟩ := ih hrest
      refine ⟨fun d name hmem => ?_, fun hstatus e' he' hvis hdir => ?_⟩
      · obtain ⟨hd, e', he', hprops⟩ := hsound d name hmem
        exact ⟨hd, e', List.mem_cons_of_mem e he', hprops⟩
      · rcases List.mem_cons.mp he' with rfl | he'
        · exact absurd ⟨hvis, hdir⟩ hskip
        · exact hcomplete hstatus e' he' hvis hdir
    · obtain ⟨h0, rfl⟩ := hend
      refine ⟨fun d name hmem => ?_, fun hstatus => absurd h0 hstatus⟩
      rcases List.mem_cons.mp hmem with heq | hmem
      · obtain ⟨rfl, rfl⟩ := Event.reMatch.inj heq
        exact ⟨rfl, e, List.mem_cons_self, hvis, hdir, rfl⟩
      · exact absurd hmem (hpre d name)
    · obtain ⟨ts₁, es₁, hrest, rfl⟩ := hgo
      obtain ⟨hsound, hcomplete⟩ := ih hrest
      refine ⟨fun d name hmem => ?_, fun hstatus e' he' hvis' hdir' => ?_⟩
      · rcases List.mem_cons.mp hmem with heq | hmem
        · obtain ⟨rfl, rfl⟩ := Event.reMatch.inj heq
          exact ⟨rfl, e, List.mem_cons_self, hvis, hdir, rfl⟩
        · obtain ⟨hd, e', he', hprops⟩ :=
            hsound d name ((List.mem_append.mp hmem).resolve_left (hpre d name))
          exact ⟨hd, e', List.mem_cons_of_mem e he', hprops⟩
      · rcases List.mem_cons.mp he' with rfl | he'
        · exact List.mem_cons_self
        · exact List.mem_cons_of_mem _
            (List.mem_append_right pre (hcomplete hstatus e' he' hvis' hdir'))

theorem applyAll_succ_eq {ll ll' : LinkedList CString} {reg : RegExp} {alloc : Bool}
    (hremove : llRemoveFirst ll = some (1, some (some d), ll')) (hopen : fs.opendir d = some dents) :
    Traced.applyAll fs reg alloc (fuel + 1) ll ts =
      (Traced.applyEntries reg alloc d dents ts).bind fun r =>
        if r.1 ≠ 0 then (Traced.applyAll fs reg alloc fuel ll' r.2.1).bind fun q =>
          some (q.1, .opendir d :: (r.2.2 ++ [.closedir d]) ++ q.2)
        else some (r.2.1, .opendir d :: (r.2.2 ++ [.closedir d])) := by
  simp only [Traced.applyAll, hremove, Traced.applyRe, hopen, Option.bind_eq_bind, Option.bind_some,
    ne_eq, one_ne_zero, not_false_eq_true, if_true, Option.bind_assoc]

theorem offered_directory {stat : ℤ} (h : Stores ts l) (hdents : fs.opendir d = some dents)
    (hrun : Traced.applyEntries ⟨re⟩ true d dents ts = some (stat, ts', es)) :
    Added l (dirPaths fs re d) (stat, ts') ∧
      (∀ d' name, .reMatch d' name ∈ es → Offerable fs d' name) ∧
      (stat ≠ 0 → ∀ name, Offerable fs d name → .reMatch d name ∈ es) := by
  obtain ⟨hsound, hcomplete⟩ := offered_applyEntries hrun
  have hpaths : dirPaths fs re d = entryPaths re d dents := by
    rw [dirPaths, hdents]
    rfl
  have hold := map_applyEntries ⟨re⟩ true d dents ts
  rw [hrun, Option.map_some] at hold
  refine ⟨?_, ?_, ?_⟩
  · rw [hpaths]
    exact applyEntries_sound h hold.symm
  · intro d' name hmem
    obtain ⟨rfl, e, he, hvis, hdir, rfl⟩ := hsound d' name hmem
    exact ⟨dents, e, hdents, he, hvis, hdir, rfl⟩
  · rintro h0 name ⟨dents', e, hdents', he, hvis, hdir, rfl⟩
    obtain rfl := Option.some.inj (hdents.symm.trans hdents')
    exact hcomplete h0 e he hvis hdir

/-- Only names of entries that the test does not take for directories are offered; all of them are,
unless a path is found twice. -/
theorem offered_applyAll {ll : LinkedList CString}
    (hll : LinkedList.Represents ll (ds.map some)) (h : Stores ts l)
    (hopen : ∀ d ∈ ds, (fs.opendir d).isSome)
    (hrun : Traced.applyAll fs ⟨re⟩ true fuel ll ts = some (ts', es)) :
    (∀ d name, .reMatch d name ∈ es → Offerable fs d name) ∧
    ((comparison.addUntil l (ds.flatMap (dirPaths fs re))).1 = true →
      ∀ d ∈ ds, ∀ name, Offerable fs d name → .reMatch d name ∈ es) := by
  induction ds generalizing ll ts l fuel es with
  | nil =>
    cases fuel with
    | zero => cases hrun
    | succ fuel =>
      obtain ⟨ll', hremove⟩ := llRemoveFirst_nil hll
      rw [Traced.applyAll, hremove] at hrun
      obtain ⟨rfl, rfl⟩ := Prod.mk.inj (Option.some.inj hrun)
      exact ⟨fun d name hmem => absurd hmem List.not_mem_nil,
        fun _ d hd => absurd hd List.not_mem_nil⟩
  | cons d ds ih =>
    cases fuel with
    | zero => cases hrun
    | succ fuel =>
      obtain ⟨ll', hremove, hll'⟩ := llRemoveFirst_cons hll
      obtain ⟨dents, hdents⟩ := Option.isSome_iff_exists.mp (hopen d List.mem_cons_self)
      rw [applyAll_succ_eq hremove hdents] at hrun
      obtain ⟨⟨stat, ts₁, es₁⟩, hentries, hrun⟩ := Option.bind_eq_some_iff.mp hrun
      obtain ⟨⟨hstat, hts₁, -⟩, hoffer, hcomplete⟩ := offered_directory h hdents hentries
      have hwrap : ∀ d' name, .reMatch d' name ∈ Event.opendir d :: (es₁ ++ [.closedir d]) ↔
          .reMatch d' name ∈ es₁ := by
        simp
      by_cases h0 : stat = 0
      · rw [if_neg (not_not.mpr h0)] at hrun
        obtain ⟨rfl, rfl⟩ := Prod.mk.inj (Option.some.inj hrun)
        refine ⟨fun d' name hmem => hoffer d' name ((hwrap d' name).mp hmem), fun hall => ?_⟩
        rw [List.flatMap_cons, comparison.addUntil_append] at hall
        have hfst : (comparison.addUntil l (dirPaths fs re d)).1 = false := by
          by_contra hne
          rw [Bool.not_eq_false] at hne
          rw [hne, if_pos rfl] at hstat
          exact one_ne_zero (hstat.symm.trans h0)
        rw [hfst, if_neg Bool.false_ne_true, hfst] at hall
        cases hall
      · rw [if_pos h0] at hrun
        obtain ⟨⟨ts₂, es₂⟩, hrest, heq⟩ := Option.bind_eq_some_iff.mp hrun
        obtain ⟨rfl, rfl⟩ := Prod.mk.inj (Option.some.inj heq)
        obtain ⟨hsound', hcomplete'⟩ :=
          ih hll' hts₁ (fun d hd => hopen d (List.mem_cons_of_mem _ hd)) hrest
        refine ⟨fun d' name hmem => ?_, fun hall d' hd' name hname => ?_⟩
        · rcases List.mem_append.mp hmem with hmem | hmem
          · exact hoffer d' name ((hwrap d' name).mp hmem)
          · exact hsound' d' name hmem
        · rcases List.mem_cons.mp hd' with rfl | hd'
          · exact List.mem_append_left _ ((hwrap _ _).mpr (hcomplete h0 name hname))
          · apply List.mem_append_right
            apply hcomplete' _ d' hd' name hname
            rw [List.flatMap_cons, comparison.addUntil_append] at hall
            split_ifs at hall with hfst
            · exact hall
            · exact absurd hall hfst

theorem crawl_eq (fs : FileSystem) (re : CString → Bool) (dirs : List CString) :
    ∃ ll₀, LinkedList.Represents ll₀ (([] : List CString).map some) ∧
      Traced.crawl fs ⟨re⟩ dirs = (Traced.processArgs fs dirs ⟨ll₀, fun _ => true⟩).bind fun r =>
        if r.1 = 0 then some (r.2.2, [])
        else (Traced.applyAll fs ⟨re⟩ true (llSize r.2.1.ll + 1).toNat r.2.1.ll
          (tsCreate strcmp)).bind fun q => some (r.2.2, q.2) := by
  obtain ⟨ll₀, hcreate, h₀⟩ := llCreate_spec (E := CString)
  refine ⟨ll₀, h₀, ?_⟩
  simp only [Traced.crawl, hcreate, Option.bind_eq_bind, Option.bind_some]
  rfl

theorem addUntil_found (hnodup : (found fs re dirs).Nodup) :
    (comparison.addUntil [] (found fs re dirs)).1 = true ∧
      ∀ p ∈ found fs re dirs, p ∈ (comparison.addUntil [] (found fs re dirs)).2 := by
  refine ⟨addUntil_fst_iff_nodup.mpr hnodup, fun p hp => ?_⟩
  obtain ⟨pre, post, hsplit⟩ := List.append_of_mem hp
  rw [hsplit] at hnodup ⊢
  have hpre : pre.Nodup := (List.nodup_append.mp hnodup).1
  exact mem_iff.mp (comparison.mem_addUntil_of_fst (addUntil_fst_iff_nodup.mpr hpre))

/-- What both passes have done when they are through and no path was found twice. -/
theorem crawl_sound (hnodup : (found fs re dirs).Nodup)
    (hrun : Traced.crawl fs ⟨re⟩ (starts dirs) = some (es, es')) :
    (∀ start ∈ starts dirs, Fits fs start) ∧
      (∀ p ∈ found fs re dirs, p.bytes.length < bufSize) ∧
      (∀ start ∈ starts dirs, Called fs start es) ∧
      (∀ d name, .reMatch d name ∈ es' → Offerable fs d name) ∧
      ∀ d ∈ collected fs dirs, ∀ name, Offerable fs d name → .reMatch d name ∈ es' := by
  obtain ⟨ll₀, h₀, hcrawl⟩ := crawl_eq fs re (starts dirs)
  rw [hcrawl] at hrun
  obtain ⟨⟨status, s, es₁⟩, hargs, hrun⟩ := Option.bind_eq_some_iff.mp hrun
  have hold := records_processArgs fs true (starts dirs) ll₀
  rw [hargs, Option.map_some] at hold
  obtain ⟨⟨status', ll⟩, hargs', heq⟩ := Option.map_eq_some_iff.mp hold.symm
  simp only [Prod.mk.injEq] at heq
  obtain ⟨rfl, rfl⟩ := heq
  obtain ⟨hfits, hstatus, hll⟩ := processArgs_sound h₀ hargs'
  obtain rfl : status' = 1 := hstatus
  simp only [one_ne_zero, if_false] at hrun
  obtain ⟨⟨ts, es₂⟩, happly, heq⟩ := Option.bind_eq_some_iff.mp hrun
  obtain ⟨rfl, rfl⟩ := Prod.mk.inj (Option.some.inj heq)
  have happly' := map_applyAll fs ⟨re⟩ true (llSize ll + 1).toNat ll (tsCreate strcmp)
  rw [happly, Option.map_some] at happly'
  have hopen : ∀ d ∈ collected fs dirs, (fs.opendir d).isSome :=
    fun d hd => isSome_opendir_of_collected hd
  obtain ⟨-, hlen⟩ := applyAll_sound hll stores_tsCreate hopen happly'.symm
  obtain ⟨hsound, hcomplete⟩ := offered_applyAll hll stores_tsCreate hopen happly
  obtain ⟨hall, hmem⟩ := addUntil_found hnodup
  refine ⟨hfits, fun p hp => ?_, called_processArgs hargs one_ne_zero, hsound, hcomplete hall⟩
  exact (hlen p (hmem p hp)).resolve_left List.not_mem_nil

theorem crawl_complete (hfits : ∀ start ∈ starts dirs, Fits fs start)
    (hpaths : ∀ p ∈ found fs re dirs, p.bytes.length < bufSize) :
    (Traced.crawl fs ⟨re⟩ (starts dirs)).isSome := by
  obtain ⟨ll₀, h₀, hcrawl⟩ := crawl_eq fs re (starts dirs)
  obtain ⟨⟨status, ll⟩, hargs⟩ := Option.isSome_iff_exists.mp (processArgs_complete hfits h₀)
  obtain ⟨-, hstatus, hll⟩ := processArgs_sound h₀ hargs
  obtain rfl : status = 1 := hstatus
  obtain ⟨es, hargs'⟩ := (records_processArgs fs true (starts dirs)).eq_some hargs
  obtain ⟨ts, happly⟩ := Option.isSome_iff_exists.mp (applyAll_complete hll stores_tsCreate
    (fun d hd => isSome_opendir_of_collected hd)
    (fun p hp => hpaths p ((comparison.mem_of_mem_addUntil hp).resolve_left List.not_mem_nil))
    (length_lt_fuel hll))
  rw [← map_applyAll] at happly
  obtain ⟨⟨ts', es'⟩, happly', -⟩ := Option.map_eq_some_iff.mp happly
  rw [hcrawl, hargs']
  simp only [Option.bind_some, one_ne_zero, if_false, happly']
  rfl

def Entry (fs : FileSystem) (dirname d : CString) (e : Dirent) : Prop :=
  ∃ dents, Below fs (fun e => e.d_type = dtDir) dirname d ∧
    fs.opendir (stripSlash d) = some dents ∧ e ∈ dents

/-- The passes go through the tree, and every entry other than `.` and `..` is a directory and goes to
`processDirectory`, or is none and its name is offered to `re_match`. -/
def NoneLost (fs : FileSystem) (re : CString → Bool) (dirname : CString) : Prop :=
  ∃ es es', Traced.crawl fs ⟨re⟩ [dirname] = some (es, es') ∧
    ∀ d e, Entry fs dirname d e → visible e = true →
      if e.d_type = dtDir then .processDirectory (join (childPrefix d) e.d_name) ∈ es
      else .reMatch (stripSlash d) e.d_name ∈ es'

theorem found_nodup_tree (fs : FileSystem) (re : CString → Bool) (dirname : CString) :
    (found fs re [dirname]).Nodup := by
  apply found_nodup_of_collected
  rw [collected]
  simpa [starts] using directories_nodup fs bufSize dirname

theorem NoneLost.isDir (h : NoneLost fs re dirname) : Fits fs dirname ∧
    (∀ p ∈ found fs re [dirname], p.bytes.length < bufSize) ∧
    ∀ d e, Entry fs dirname d e → visible e = true → isDir e = true → e.d_type = dtDir := by
  obtain ⟨es, es', hrun, hnone⟩ := h
  obtain ⟨hfits, hpaths, -, hsound, -⟩ := crawl_sound (found_nodup_tree fs re dirname) hrun
  refine ⟨hfits dirname (by simp [starts]), hpaths, fun d e hentry hvis hdir => ?_⟩
  by_contra htype
  have hmem := hnone d e hentry hvis
  rw [if_neg htype] at hmem
  obtain ⟨dents, -, hopen, he⟩ := hentry
  obtain ⟨dents', e', hopen', he', -, hdir', hname⟩ := hsound _ _ hmem
  obtain rfl := Option.some.inj (hopen.symm.trans hopen')
  obtain rfl := List.inj_on_of_nodup_map (fs.distinct _ _ hopen) he he' hname
  cases hdir.symm.trans hdir'

theorem noneLost_of_isDir (hfit : Fits fs dirname)
    (hpaths : ∀ p ∈ found fs re [dirname], p.bytes.length < bufSize)
    (htypes : ∀ d e, Entry fs dirname d e → visible e = true → isDir e = true → e.d_type = dtDir) :
    NoneLost fs re dirname := by
  have hfits : ∀ start ∈ starts [dirname], Fits fs start := by
    simpa [starts] using hfit
  obtain ⟨⟨es, es'⟩, hrun⟩ := Option.isSome_iff_exists.mp (crawl_complete hfits hpaths)
  obtain ⟨-, -, hcalled, -, hoffered⟩ := crawl_sound (found_nodup_tree fs re dirname) hrun
  refine ⟨es, es', hrun, fun d e hentry hvis => ?_⟩
  have hentry' := hentry
  obtain ⟨dents, hbelow, hopen, he⟩ := hentry'
  have hbelow' := (below_dtDir_iff hopen).mp hbelow
  by_cases htype : e.d_type = dtDir
  · rw [if_pos htype]
    exact hcalled dirname (by simp [starts]) _
      (hbelow'.snoc hopen he hvis (isDir_of_dtDir htype))
  · rw [if_neg htype]
    have hdir : FileCrawler.isDir e = false := by
      rw [Bool.eq_false_iff]
      exact fun hdir => htype (htypes d e hentry hvis hdir)
    apply hoffered _ _ _ ⟨dents, e, hopen, he, hvis, hdir, rfl⟩
    refine List.mem_flatMap.mpr ⟨dirname, by simp [starts], ?_⟩
    exact mem_directories_of_below hfit (Nat.le_add_right _ _) hbelow' (by rw [hopen]; rfl)

/-- No entry is lost exactly when the paths that the program builds fit their buffers and no entry
other than `.` and `..` is a block device or a socket. -/
theorem noneLost_iff (htypes : ∀ d e, Entry fs dirname d e → e.d_type ∈ direntTypes) :
    NoneLost fs re dirname ↔ Fits fs dirname ∧
      (∀ p ∈ found fs re [dirname], p.bytes.length < bufSize) ∧
      ∀ d e, Entry fs dirname d e → visible e = true → e.d_type ≠ dtBlk ∧ e.d_type ≠ dtSock := by
  constructor
  · intro h
    obtain ⟨hfit, hpaths, hdirs⟩ := h.isDir
    refine ⟨hfit, hpaths, fun d e hentry hvis => ?_⟩
    by_contra hlost
    have htype : e.d_type = dtBlk ∨ e.d_type = dtSock := by tauto
    have hdir : isDir e = true := (isDir_iff (htypes d e hentry)).mpr (.inr htype)
    have hreal := hdirs d e hentry hvis hdir
    rw [hreal] at htype
    exact absurd htype (by decide)
  · rintro ⟨hfit, hpaths, hblk⟩
    refine noneLost_of_isDir hfit hpaths fun d e hentry hvis hdir => ?_
    obtain ⟨hb, hs⟩ := hblk d e hentry hvis
    exact ((isDir_iff (htypes d e hentry)).mp hdir).resolve_right (not_or.mpr ⟨hb, hs⟩)

namespace Overlap

theorem entry_files {P : Dirent → Prop} {e : Dirent} (h : Entry fileSystem files d e)
    (hP : ∀ e ∈ [entryDot, entryDotdot, entryAbknl, entryName], P e) : P e := by
  obtain ⟨dents, hbelow, hopen, he⟩ := h
  have hd := opened_fileSystem (fun _ => isDir_of_dtDir) (by decide) hbelow
  refine entries_fileSystem (P := fun _ e => P e) (by tauto) ?_ ?_ ?_ hopen e he <;>
    exact fun e he => hP e (by simp only [List.mem_cons] at he ⊢; tauto)

end Overlap

open Overlap in
theorem noneLost_iff_files : NoneLost fileSystem (fun _ => true) files := by
  refine (noneLost_iff fun d e h =>
    entry_files (P := fun e => e.d_type ∈ direntTypes) h (by decide)).mpr
    ⟨allFit_fileSystem.dirs_fit files (by decide), fun p hp => ?_,
      fun d e h _ => entry_files (P := fun e => e.d_type ≠ dtBlk ∧ e.d_type ≠ dtSock) h (by decide)⟩
  have hfound : found fileSystem (fun _ => true) [files] = [join (join files abknl) name] := by
    decide +kernel
  rw [hfound, List.mem_singleton] at hp
  rw [hp]
  decide

namespace Sockets

open Overlap

def entrySock : Dirent := { entryName with d_type := dtSock }

def opendir (d : CString) : Option (List Dirent) :=
  if d = other then some [entryDot, entryDotdot, entrySock] else none

def fileSystem : FileSystem where
  opendir := opendir
  distinct d dents h := by
    unfold opendir at h
    split_ifs at h
    obtain rfl := Option.some.inj h
    decide
  notDirectory d dents e p h he hdir _ _ hp := by
    unfold opendir at h
    split_ifs at h with hd
    obtain rfl := Option.some.inj h
    subst d
    rcases hp with rfl | ⟨hroot, -⟩
    · have hall : ∀ e ∈ [entryDot, entryDotdot, entrySock], e.d_type ≠ dtDir →
          opendir (join other e.d_name) = none := by decide
      exact hall e he hdir
    · exact absurd hroot (by decide)

end Sockets

open Sockets Overlap in
/-- The socket `other/x` is lost. -/
theorem socket_is_lost : ¬ NoneLost Sockets.fileSystem (fun _ => true) other := by
  intro h
  obtain ⟨-, -, hdirs⟩ := h.isDir
  have hentry : Entry Sockets.fileSystem other other entrySock := ⟨_, .refl other, rfl, by simp⟩
  exact absurd (hdirs other entrySock hentry (by decide) (by decide)) (by decide)

end CIS415.FileCrawler
