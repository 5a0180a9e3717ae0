import CIS415.FileCrawler
import CIS415.LinkedListSpec

/-!
# The directories that are collected

`processDirectory` appends the directories below its argument to the linked list, each before what is
in it. It succeeds just when every path it builds on the way fits its buffer; since each path is longer
than the one above it, the recursion is then no deeper than the buffer is long.
-/

namespace CIS415.FileCrawler

open Pointer LinkedList CString

@[simp] theorem bytes_join (d name : CString) :
    (join d name).bytes = d.bytes ++ slash :: name.bytes := by
  simp [join, root]

theorem append_slash_inj {b : UInt8} {ds ds' xs ys : List UInt8} (hx : b ∉ xs) (hy : b ∉ ys)
    (h : ds ++ b :: xs = ds' ++ b :: ys) : ds = ds' ∧ xs = ys := by
  induction ds generalizing ds' with
  | nil =>
    cases ds' with
    | nil => exact ⟨rfl, (List.cons.inj h).2⟩
    | cons a ds' =>
      exfalso
      apply hx
      rw [(List.cons.inj h).2]
      simp
  | cons a ds ih =>
    cases ds' with
    | nil =>
      exfalso
      apply hy
      rw [← (List.cons.inj h).2]
      simp
    | cons a' ds' =>
      obtain ⟨ha, htail⟩ := List.cons.inj h
      obtain ⟨hd, hxy⟩ := ih htail
      exact ⟨by rw [ha, hd], hxy⟩

theorem join_inj {d d' : CString} {e e' : Dirent} (h : join d e.d_name = join d' e'.d_name) :
    d = d' ∧ e.d_name = e'.d_name := by
  have hb := congrArg CString.bytes h
  rw [bytes_join, bytes_join] at hb
  obtain ⟨hd, hn⟩ := append_slash_inj e.no_slash e'.no_slash hb
  exact ⟨ext_bytes hd, ext_bytes hn⟩

/-- A path that ends in a name has no trailing slash. -/
theorem stripSlash_join (d : CString) (e : Dirent) :
    stripSlash (join d e.d_name) = join d e.d_name := by
  apply ext_bytes
  apply if_neg
  rintro ⟨-, hlast⟩
  have hmem : slash ∈ e.d_name.bytes := by
    apply List.mem_of_getLast?
    rwa [bytes_join, List.getLast?_append_of_ne_nil _ (List.cons_ne_nil _ _),
      List.getLast?_cons_of_ne_nil e.name_ne_nil] at hlast
  exact e.no_slash hmem

theorem childPrefix_eq (dirname : CString) : childPrefix dirname = stripSlash dirname ∨
    stripSlash dirname = root ∧ childPrefix dirname = empty := by
  unfold childPrefix
  split_ifs with h
  · refine Or.inr ⟨ext_bytes ?_, rfl⟩
    have hstrip : (stripSlash dirname).bytes = dirname.bytes := if_neg (fun hlt => by omega)
    rw [hstrip] at h ⊢
    obtain ⟨b, hb⟩ := List.length_eq_one_iff.mp h.1
    rw [hb, List.head?_cons] at h
    rw [hb, Option.some.inj h.2]
    rfl
  · exact Or.inl rfl

theorem length_stripSlash (dirname : CString) :
    dirname.bytes.length ≤ (stripSlash dirname).bytes.length + 1 := by
  by_cases h : 1 < dirname.bytes.length ∧ dirname.bytes.getLast? = some slash
  · have hstrip : (stripSlash dirname).bytes = dirname.bytes.dropLast := if_pos h
    rw [hstrip, List.length_dropLast]
    omega
  · have hstrip : (stripSlash dirname).bytes = dirname.bytes := if_neg h
    rw [hstrip]
    omega

/-- The path of an entry is longer than the name of its directory. -/
theorem length_lt_child (dirname : CString) (e : Dirent) :
    dirname.bytes.length < (join (childPrefix dirname) e.d_name).bytes.length := by
  have hname := List.length_pos_of_ne_nil e.name_ne_nil
  rw [bytes_join, List.length_append, List.length_cons]
  by_cases h : dirname.bytes.length = 1 ∧ (stripSlash dirname).bytes.head? = some slash
  · omega
  · have hpre : childPrefix dirname = stripSlash dirname := if_neg h
    have hstrip := length_stripSlash dirname
    rw [hpre]
    omega

/-- `d` is reached from `dirname` through entries that `descend` holds of. -/
inductive Below (fs : FileSystem) (descend : Dirent → Prop) : CString → CString → Prop where
  | refl (d : CString) : Below fs descend d d
  | entry {dirname d : CString} {dents : List Dirent} {e : Dirent}
      (hopen : fs.opendir (stripSlash dirname) = some dents) (he : e ∈ dents)
      (hvisible : visible e = true) (hdescend : descend e)
      (hbelow : Below fs descend (join (childPrefix dirname) e.d_name) d) : Below fs descend dirname d

variable {fs : FileSystem} {dirname d : CString}

theorem Below.imp {descend descend' : Dirent → Prop} (h : Below fs descend dirname d)
    (himp : ∀ e, descend e → descend' e) : Below fs descend' dirname d := by
  induction h with
  | refl d => exact .refl d
  | entry hopen he hvis hdescend _ ih => exact .entry hopen he hvis (himp _ hdescend) ih

theorem isDir_of_dtDir {e : Dirent} (h : e.d_type = dtDir) : isDir e = true := by
  simp [isDir, h, dtDir]

/-- An entry that `isDir` holds of but that is not a directory cannot be opened. -/
theorem opendir_child {dents : List Dirent} {e : Dirent}
    (hopen : fs.opendir (stripSlash dirname) = some dents) (he : e ∈ dents) (hdir : isDir e = true)
    (htype : e.d_type ≠ dtDir) : fs.opendir (join (childPrefix dirname) e.d_name) = none := by
  apply fs.notDirectory _ dents e _ hopen he htype
  · intro hlnk
    rw [isDir, hlnk] at hdir
    exact absurd hdir (by decide)
  · intro hunknown
    rw [isDir, hunknown] at hdir
    exact absurd hdir (by decide)
  · exact childPrefix_eq dirname

/-- Among what can be opened, the test of `d_type` finds the directories. -/
theorem below_dtDir_iff {dents : List Dirent} (hopen : fs.opendir (stripSlash d) = some dents) :
    Below fs (fun e => e.d_type = dtDir) dirname d ↔ Below fs (fun e => isDir e = true) dirname d := by
  constructor
  · intro h
    induction h with
    | refl d => exact .refl d
    | entry hopen' he hvis hdir _ ih => exact .entry hopen' he hvis (isDir_of_dtDir hdir) (ih hopen)
  · intro h
    induction h with
    | refl d => exact .refl d
    | @entry dirname d dents' e hopen' he hvis hdir hbelow ih =>
      refine .entry hopen' he hvis ?_ (ih hopen)
      by_contra htype
      have hnone := opendir_child hopen' he hdir htype
      rw [← stripSlash_join] at hnone
      cases hbelow with
      | refl => exact nomatch hnone.symm.trans hopen
      | entry hopen'' => exact nomatch hnone.symm.trans hopen''

def directories (fs : FileSystem) : ℕ → CString → List CString
  | 0, _ => []
  | fuel + 1, dirname =>
    match fs.opendir (stripSlash dirname) with
    | none => []
    | some dents => stripSlash dirname :: (dents.filter fun e => visible e && isDir e).flatMap
        fun e => directories fs fuel (join (childPrefix dirname) e.d_name)

theorem mem_directories {fuel : ℕ} (h : d ∈ directories fs fuel dirname) :
    ∃ d', Below fs (fun e => isDir e = true) dirname d' ∧ d = stripSlash d' ∧
      (fs.opendir d).isSome := by
  induction fuel generalizing dirname with
  | zero => exact absurd h List.not_mem_nil
  | succ fuel ih =>
    rw [directories] at h
    cases hopen : fs.opendir (stripSlash dirname) with
    | none =>
      rw [hopen] at h
      exact absurd h List.not_mem_nil
    | some dents =>
      rw [hopen] at h
      rcases List.mem_cons.mp h with rfl | h
      · exact ⟨dirname, .refl dirname, rfl, by rw [hopen]; rfl⟩
      · obtain ⟨e, he, hd⟩ := List.mem_flatMap.mp h
        obtain ⟨d', hbelow, hrest⟩ := ih hd
        simp only [List.mem_filter, Bool.and_eq_true] at he
        exact ⟨d', .entry hopen he.1 he.2.1 he.2.2 hbelow, hrest⟩

def Fits (fs : FileSystem) (dirname : CString) : Prop :=
  ∀ d, Below fs (fun e => isDir e = true) dirname d → d.bytes.length < bufSize

theorem Fits.child {dents : List Dirent} {e : Dirent} (h : Fits fs dirname)
    (hopen : fs.opendir (stripSlash dirname) = some dents) (he : e ∈ dents)
    (hvis : visible e = true) (hdir : isDir e = true) :
    Fits fs (join (childPrefix dirname) e.d_name) := by
  intro d hd
  exact h d (.entry hopen he hvis hdir hd)

theorem mem_directories_of_below {fuel : ℕ} (hfit : Fits fs dirname)
    (hfuel : bufSize ≤ fuel + dirname.bytes.length)
    (h : Below fs (fun e => isDir e = true) dirname d) (hopen : (fs.opendir (stripSlash d)).isSome) :
    stripSlash d ∈ directories fs fuel dirname := by
  induction h generalizing fuel with
  | refl d =>
    cases fuel with
    | zero =>
      have hlt := hfit d (.refl d)
      omega
    | succ fuel =>
      obtain ⟨dents, hdents⟩ := Option.isSome_iff_exists.mp hopen
      rw [directories, hdents]
      exact List.mem_cons_self
  | @entry dirname d dents e hopen' he hvis hdir hbelow ih =>
    cases fuel with
    | zero =>
      have hlt := hfit dirname (.refl dirname)
      omega
    | succ fuel =>
      have hlt := length_lt_child dirname e
      rw [directories, hopen']
      apply List.mem_cons_of_mem
      apply List.mem_flatMap.mpr
      refine ⟨e, ?_, ih (hfit.child hopen' he hvis hdir) (by omega) hopen⟩
      rw [List.mem_filter, hvis, hdir]
      exact ⟨he, rfl⟩

theorem buffer_eq_some {s t : CString} : buffer s = some t ↔ s.bytes.length < bufSize ∧ s = t := by
  unfold buffer
  split_ifs with h <;> simp [h]

variable {ll : LinkedList CString} {xs : List CString} {r : ℤ × LinkedList CString}

def Collected (fs : FileSystem) (dirname : CString) (ds xs : List CString)
    (r : ℤ × LinkedList CString) : Prop :=
  Fits fs dirname ∧ r.1 = 1 ∧ Represents r.2 ((xs ++ ds).map some)

/-- The loop over the entries, where the recursive calls do what they should. -/
theorem processEntries_sound {p : CString → LinkedList CString → Option (ℤ × LinkedList CString)}
    {f : CString → List CString} {dents : List Dirent}
    (hp : ∀ d ll (xs : List CString) r, Represents ll (xs.map some) → p d ll = some r →
      Collected fs d (f d) xs r)
    (hll : Represents ll (xs.map some)) (h : processEntries p d dents ll = some r) :
    (∀ e ∈ dents, visible e = true → isDir e = true → Fits fs (join d e.d_name)) ∧ r.1 = 1 ∧
      Represents r.2 ((xs ++ (dents.filter fun e => visible e && isDir e).flatMap
        fun e => f (join d e.d_name)).map some) := by
  induction dents generalizing ll xs with
  | nil =>
    obtain rfl := Option.some.inj h
    exact ⟨nofun, rfl, by simpa using hll⟩
  | cons e dents ih =>
    rw [processEntries] at h
    by_cases hvis : visible e = true
    · rw [if_neg (not_not.mpr hvis)] at h
      by_cases hdir : isDir e = true
      · rw [if_pos hdir] at h
        obtain ⟨b, hb, h⟩ := Option.bind_eq_some_iff.mp h
        obtain ⟨-, rfl⟩ := buffer_eq_some.mp hb
        obtain ⟨⟨status, ll'⟩, hrec, h⟩ := Option.bind_eq_some_iff.mp h
        obtain ⟨hfit, hstatus, hll'⟩ := hp _ _ _ _ hll hrec
        obtain rfl : status = 1 := hstatus
        obtain ⟨hfits, hr, hrep⟩ := ih hll' h
        refine ⟨?_, hr, ?_⟩
        · rintro e' he' hvis' hdir'
          rcases List.mem_cons.mp he' with rfl | he'
          · exact hfit
          · exact hfits e' he' hvis' hdir'
        · rw [List.filter_cons_of_pos (by simp [hvis, hdir]), List.flatMap_cons, ← List.append_assoc]
          exact hrep
      · rw [if_neg hdir] at h
        obtain ⟨hfits, hr, hrep⟩ := ih hll h
        refine ⟨?_, hr, ?_⟩
        · rintro e' he' hvis' hdir'
          rcases List.mem_cons.mp he' with rfl | he'
          · exact absurd hdir' hdir
          · exact hfits e' he' hvis' hdir'
        · rw [List.filter_cons_of_neg (by simp [hdir])]
          exact hrep
    · rw [if_pos hvis] at h
      obtain ⟨hfits, hr, hrep⟩ := ih hll h
      refine ⟨?_, hr, ?_⟩
      · rintro e' he' hvis' hdir'
        rcases List.mem_cons.mp he' with rfl | he'
        · exact absurd hvis' hvis
        · exact hfits e' he' hvis' hdir'
      · rw [List.filter_cons_of_neg (by simp [hvis])]
        exact hrep

theorem processDirectory_sound {fuel : ℕ} (hll : Represents ll (xs.map some))
    (h : processDirectory fs true fuel dirname ll = some r) :
    Collected fs dirname (directories fs fuel dirname) xs r := by
  induction fuel generalizing dirname ll xs r with
  | zero => exact nomatch h
  | succ fuel ih =>
    rw [processDirectory] at h
    obtain ⟨d, hd, h⟩ := Option.bind_eq_some_iff.mp h
    obtain ⟨hlt, rfl⟩ := buffer_eq_some.mp hd
    rw [directories]
    cases hopen : fs.opendir (stripSlash dirname) with
    | none =>
      rw [hopen] at h
      obtain rfl := Option.some.inj h
      refine ⟨?_, rfl, by simpa using hll⟩
      intro d hbelow
      cases hbelow with
      | refl => exact hlt
      | entry hopen' => exact nomatch hopen.symm.trans hopen'
    | some dents =>
      rw [hopen] at h
      obtain ⟨ll', hadd, hll'⟩ := llAddLast_spec hll (some (stripSlash dirname))
      simp only [strdup, if_true, llAdd, hadd, Option.bind_eq_bind, Option.bind_some] at h
      have hxs : Represents ll' ((xs ++ [stripSlash dirname]).map some) := by
        simpa using hll'
      obtain ⟨hfits, hr, hrep⟩ := processEntries_sound (fun _ _ _ _ hll h => ih hll h) hxs h
      refine ⟨?_, hr, by simpa using hrep⟩
      intro d hbelow
      cases hbelow with
      | refl => exact hlt
      | entry hopen' he hvis hdir hrest =>
        obtain rfl := Option.some.inj (hopen.symm.trans hopen')
        exact hfits _ he hvis hdir d hrest

theorem processEntries_complete
    {p : CString → LinkedList CString → Option (ℤ × LinkedList CString)}
    {f : CString → List CString} {dents : List Dirent}
    (hp : ∀ d ll (xs : List CString) r, Represents ll (xs.map some) → p d ll = some r →
      Collected fs d (f d) xs r)
    (hsome : ∀ e ∈ dents, visible e = true → isDir e = true →
      (join d e.d_name).bytes.length < bufSize ∧
        ∀ ll (xs : List CString), Represents ll (xs.map some) → (p (join d e.d_name) ll).isSome)
    (hll : Represents ll (xs.map some)) : (processEntries p d dents ll).isSome := by
  induction dents generalizing ll xs with
  | nil => rfl
  | cons e dents ih =>
    have hrest : ∀ ll (xs : List CString), Represents ll (xs.map some) →
        (processEntries p d dents ll).isSome := by
      intro ll xs hll
      exact ih (fun e' he' => hsome e' (List.mem_cons_of_mem e he')) hll
    rw [processEntries]
    split_ifs with hvis hdir
    · obtain ⟨hlt, hcall⟩ := hsome e List.mem_cons_self hvis hdir
      obtain ⟨⟨status, ll'⟩, hr⟩ := Option.isSome_iff_exists.mp (hcall ll xs hll)
      obtain ⟨-, hstatus, hll'⟩ := hp _ _ _ _ hll hr
      obtain rfl : status = 1 := hstatus
      rw [buffer_eq_some.mpr ⟨hlt, rfl⟩]
      simp only [Option.bind_eq_bind, Option.bind_some, hr]
      exact hrest ll' _ hll'
    · exact hrest ll xs hll
    · exact hrest ll xs hll

theorem processDirectory_complete {fuel : ℕ} (hfit : Fits fs dirname)
    (hfuel : bufSize ≤ fuel + dirname.bytes.length) (hll : Represents ll (xs.map some)) :
    (processDirectory fs true fuel dirname ll).isSome := by
  induction fuel generalizing dirname ll xs with
  | zero =>
    have hlt := hfit dirname (.refl dirname)
    omega
  | succ fuel ih =>
    have hlt := hfit dirname (.refl dirname)
    rw [processDirectory, buffer_eq_some.mpr ⟨hlt, rfl⟩]
    simp only [Option.bind_eq_bind, Option.bind_some]
    cases hopen : fs.opendir (stripSlash dirname) with
    | none => rfl
    | some dents =>
      obtain ⟨ll', hadd, hll'⟩ := llAddLast_spec hll (some (stripSlash dirname))
      simp only [strdup, if_true, llAdd, hadd, Option.bind_some]
      have hxs : Represents ll' ((xs ++ [stripSlash dirname]).map some) := by
        simpa using hll'
      apply processEntries_complete (fun _ _ _ _ hll h => processDirectory_sound hll h) _ hxs
      intro e he hvis hdir
      have hchild := hfit.child hopen he hvis hdir
      have hlen := length_lt_child dirname e
      exact ⟨hchild _ (.refl _), fun ll xs hll => ih hchild (by omega) hll⟩

theorem processArgs_sound {dirs : List CString} (hll : Represents ll (xs.map some))
    (h : processArgs fs true dirs ll = some r) :
    (∀ dir ∈ dirs, Fits fs dir) ∧ r.1 = 1 ∧
      Represents r.2 ((xs ++ dirs.flatMap (directories fs bufSize)).map some) := by
  induction dirs generalizing ll xs with
  | nil =>
    obtain rfl := Option.some.inj h
    exact ⟨nofun, rfl, by simpa using hll⟩
  | cons dir dirs ih =>
    obtain ⟨⟨status, ll'⟩, hdir, h⟩ := Option.bind_eq_some_iff.mp h
    obtain ⟨hfit, hstatus, hll'⟩ := processDirectory_sound hll hdir
    obtain rfl : status = 1 := hstatus
    obtain ⟨hfits, hr, hrep⟩ := ih hll' h
    refine ⟨List.forall_mem_cons.mpr ⟨hfit, hfits⟩, hr, ?_⟩
    rw [List.flatMap_cons, ← List.append_assoc]
    exact hrep

theorem processArgs_complete {dirs : List CString} (hfit : ∀ dir ∈ dirs, Fits fs dir)
    (hll : Represents ll (xs.map some)) : (processArgs fs true dirs ll).isSome := by
  induction dirs generalizing ll xs with
  | nil => rfl
  | cons dir dirs ih =>
    obtain ⟨hdir, hdirs⟩ := List.forall_mem_cons.mp hfit
    obtain ⟨⟨status, ll'⟩, hr⟩ := Option.isSome_iff_exists.mp
      (processDirectory_complete hdir (Nat.le_add_right _ _) hll)
    obtain ⟨-, hstatus, hll'⟩ := processDirectory_sound hll hr
    obtain rfl : status = 1 := hstatus
    rw [processArgs]
    simp only [hr, Option.bind_eq_bind, Option.bind_some]
    exact ih hdirs hll'

end CIS415.FileCrawler
