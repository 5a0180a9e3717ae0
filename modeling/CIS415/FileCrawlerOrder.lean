import CIS415.FileCrawlerSpec

/-!
# Disjoint starting directories

Where no directory lies below two of the starting directories, no path is found twice: a path below an
entry goes on with the name of the entry and ends there or continues with a slash, and names contain no
slash. The paths printed are then all that match, and since an increasing list is determined by its
members, the order in which a directory is read does not show.
-/

namespace CIS415.FileCrawler

open Pointer CString OrderedList

variable {fs fs' : FileSystem} {descend : Dirent → Prop} {dirname d p : CString} {e e' : Dirent}
  {fuel : ℕ} {dirs : List CString} {re : CString → Bool}

/-- What follows a name in a path: nothing, or a slash. -/
def Continues (rest : List UInt8) : Prop :=
  ∀ b ∈ rest.head?, b = slash

theorem takeWhile_name (e : Dirent) {rest : List UInt8} (h : Continues rest) :
    (e.d_name.bytes ++ rest).takeWhile (fun b => decide (b ≠ slash)) = e.d_name.bytes := by
  have hname : ∀ b ∈ e.d_name.bytes, decide (b ≠ slash) = true := by
    intro b hb
    apply decide_eq_true
    rintro rfl
    exact e.no_slash hb
  rw [List.takeWhile_append_of_pos hname]
  cases rest with
  | nil => rw [List.takeWhile_nil, List.append_nil]
  | cons b rest =>
    obtain rfl : b = slash := h b rfl
    rw [List.takeWhile_cons_of_neg (by simp), List.append_nil]

theorem childPrefix_join (p : CString) (e : Dirent) :
    childPrefix (join p e.d_name) = join p e.d_name := by
  rcases childPrefix_eq (join p e.d_name) with h | ⟨hroot, _⟩
  · rw [h, stripSlash_join]
  · rw [stripSlash_join] at hroot
    have hlen := congrArg (fun s : CString => s.bytes.length) hroot
    have hname := List.length_pos_of_ne_nil e.name_ne_nil
    simp only [bytes_join, List.length_append, List.length_cons, root, List.length_nil] at hlen
    omega

/-- A path below an entry begins with the path of the entry. -/
theorem below_join (h : Below fs descend (join p e.d_name) d) :
    stripSlash d = d ∧ ∃ rest, d.bytes = (join p e.d_name).bytes ++ rest ∧ Continues rest := by
  generalize hstart : join p e.d_name = start at h
  induction h generalizing p e with
  | refl d =>
    subst hstart
    exact ⟨stripSlash_join p e, [], (List.append_nil _).symm, nofun⟩
  | @entry dirname d dents e₁ _ _ _ _ _ ih =>
    subst hstart
    obtain ⟨hstrip, rest, hrest, _⟩ := ih rfl
    refine ⟨hstrip, slash :: (e₁.d_name.bytes ++ rest), ?_, ?_⟩
    · rw [hrest, childPrefix_join, bytes_join (join p e.d_name), List.append_assoc, List.cons_append]
    · rintro b ⟨⟩
      rfl

theorem below_join_unique (h : Below fs descend (join p e.d_name) d)
    (h' : Below fs descend (join p e'.d_name) d) : e.d_name = e'.d_name := by
  obtain ⟨_, rest, hrest, hcont⟩ := below_join h
  obtain ⟨_, rest', hrest', hcont'⟩ := below_join h'
  have heq : p.bytes ++ slash :: (e.d_name.bytes ++ rest) =
      p.bytes ++ slash :: (e'.d_name.bytes ++ rest') := by
    have hboth := hrest.symm.trans hrest'
    rw [bytes_join, bytes_join] at hboth
    simpa using hboth
  have hnames := (List.cons.inj (List.append_cancel_left heq)).2
  apply ext_bytes
  calc
    e.d_name.bytes = (e.d_name.bytes ++ rest).takeWhile (fun b => decide (b ≠ slash)) :=
      (takeWhile_name e hcont).symm
    _ = (e'.d_name.bytes ++ rest').takeWhile (fun b => decide (b ≠ slash)) := by rw [hnames]
    _ = e'.d_name.bytes := takeWhile_name e' hcont'

theorem length_stripSlash_le (dirname : CString) :
    (stripSlash dirname).bytes.length ≤ dirname.bytes.length := by
  change (if _ then _ else _ : List UInt8).length ≤ _
  split_ifs
  · rw [List.length_dropLast]
    omega
  · exact le_rfl

theorem directories_nodup (fs : FileSystem) (fuel : ℕ) (dirname : CString) :
    (directories fs fuel dirname).Nodup := by
  induction fuel generalizing dirname with
  | zero => exact List.nodup_nil
  | succ fuel ih =>
    rw [directories]
    cases hopen : fs.opendir (stripSlash dirname) with
    | none => exact List.nodup_nil
    | some dents =>
      refine List.nodup_cons.mpr ⟨?_, List.nodup_flatMap.mpr ⟨fun e _ => ih _, ?_⟩⟩
      · intro hmem
        obtain ⟨e, -, hd⟩ := List.mem_flatMap.mp hmem
        obtain ⟨d, hbelow, hstrip, -⟩ := mem_directories hd
        obtain ⟨hself, rest, hrest, -⟩ := below_join hbelow
        have hlong := congrArg List.length hrest
        rw [List.length_append, ← hself, ← hstrip] at hlong
        have hshort := length_stripSlash_le dirname
        have hchild := length_lt_child dirname e
        omega
      · have hnames : (dents.filter fun e => visible e && isDir e).Pairwise
            fun e e' => e.d_name ≠ e'.d_name :=
          (List.pairwise_map.mp (fs.distinct _ _ hopen)).filter _
        refine hnames.imp fun {e e'} hne d hd hd' => ?_
        obtain ⟨d₁, hbelow, hstrip, -⟩ := mem_directories hd
        obtain ⟨d₂, hbelow', hstrip', -⟩ := mem_directories hd'
        rw [(below_join hbelow).1] at hstrip
        rw [(below_join hbelow').1] at hstrip'
        subst hstrip hstrip'
        exact hne (below_join_unique hbelow hbelow')

def dtReg : UInt8 := 8

/-- The inputs: below the starting directories there are only directories, regular files and symbolic
links, and no directory that can be opened lies below two of them. -/
structure DisjointTrees (fs : FileSystem) (dirs : List CString) : Prop where
  types : ∀ start ∈ starts dirs, ∀ d dents e, Below fs (fun e => e.d_type = dtDir) start d →
    fs.opendir (stripSlash d) = some dents → e ∈ dents →
    e.d_type = dtDir ∨ e.d_type = dtReg ∨ e.d_type = dtLnk
  disjoint : (starts dirs).Pairwise fun a b => ∀ d d', Below fs (fun e => e.d_type = dtDir) a d →
    Below fs (fun e => e.d_type = dtDir) b d' → (fs.opendir (stripSlash d)).isSome →
    stripSlash d ≠ stripSlash d'

theorem dirPaths_nodup (fs : FileSystem) (re : CString → Bool) (dir : CString) :
    (dirPaths fs re dir).Nodup := by
  rw [dirPaths, entryPaths]
  cases hopen : fs.opendir dir with
  | none => exact List.nodup_nil
  | some dents =>
    have hnames : dents.Pairwise fun e e' => e.d_name ≠ e'.d_name :=
      List.pairwise_map.mp (fs.distinct _ _ hopen)
    refine List.pairwise_map.mpr ((hnames.filter _).imp fun {e e'} hne heq => ?_)
    exact hne (join_inj heq).2

theorem collected_nodup (h : DisjointTrees fs dirs) : (collected fs dirs).Nodup := by
  refine List.nodup_flatMap.mpr ⟨fun _ _ => directories_nodup _ _ _, h.disjoint.imp ?_⟩
  intro a b hab d hd hd'
  obtain ⟨d₁, hbelow, rfl, hopen⟩ := mem_directories hd
  obtain ⟨d₂, hbelow', heq, -⟩ := mem_directories hd'
  obtain ⟨dents, hdents⟩ := Option.isSome_iff_exists.mp hopen
  have hdents' : fs.opendir (stripSlash d₂) = some dents := heq ▸ hdents
  exact hab d₁ d₂ ((below_dtDir_iff hdents).mpr hbelow) ((below_dtDir_iff hdents').mpr hbelow')
    hopen heq

theorem found_nodup_of_collected (h : (collected fs dirs).Nodup) (re : CString → Bool) :
    (found fs re dirs).Nodup := by
  refine List.nodup_flatMap.mpr ⟨fun d _ => dirPaths_nodup fs re d, h.imp ?_⟩
  intro d d' hne p hp hp'
  obtain ⟨e, -, rfl⟩ := List.mem_map.mp hp
  obtain ⟨e', -, heq⟩ := List.mem_map.mp hp'
  exact hne (join_inj heq).1.symm

theorem found_nodup (h : DisjointTrees fs dirs) (re : CString → Bool) :
    (found fs re dirs).Nodup :=
  found_nodup_of_collected (collected_nodup h) re

variable {regcomp : CString → Option (CString → Bool)} {bashpat : CString}

structure AllFit (regcomp : CString → Option (CString → Bool)) (fs : FileSystem) (bashpat : CString)
    (dirs : List CString) : Prop where
  pattern_fits : (cvtPattern bashpat).bytes.length < bufSize
  dirs_fit : ∀ start ∈ starts dirs, Fits fs start
  paths_fit : ∀ p, Matching regcomp fs bashpat dirs p → p.bytes.length < bufSize

theorem DisjointTrees.type_ne_dtUnknown (h : DisjointTrees fs dirs) {start : CString}
    (hstart : start ∈ starts dirs) {dents : List Dirent}
    (hbelow : Below fs (fun e => e.d_type = dtDir) start d)
    (hopen : fs.opendir (stripSlash d) = some dents) (he : e ∈ dents) : e.d_type ≠ dtUnknown := by
  rcases h.types start hstart d dents e hbelow hopen he with htype | htype | htype <;>
    rw [htype] <;> decide

/-- Where every type is known, the directories are those of type `DT_DIR`. -/
theorem below_of_known {start : CString} (h : Below fs MayBeDir start d)
    (hknown : ∀ d dents e, Below fs (fun e => e.d_type = dtDir) start d →
      fs.opendir (stripSlash d) = some dents → e ∈ dents → e.d_type ≠ dtUnknown) :
    Below fs (fun e => e.d_type = dtDir) start d := by
  induction h with
  | refl d => exact .refl d
  | @entry dirname d dents e hopen he hvis hdir _ ih =>
    have htype : e.d_type = dtDir := hdir.resolve_right (hknown dirname dents e (.refl dirname) hopen he)
    exact .entry hopen he hvis htype
      (ih fun d' dents' e' hbelow => hknown d' dents' e' (.entry hopen he hvis htype hbelow))

theorem DisjointTrees.below (h : DisjointTrees fs dirs) {start : CString} (hstart : start ∈ starts dirs)
    (hbelow : Below fs MayBeDir start d) : Below fs (fun e => e.d_type = dtDir) start d :=
  below_of_known hbelow fun _ _ _ hd hopen he => h.type_ne_dtUnknown hstart hd hopen he

theorem DisjointTrees.isDirectory_iff (h : DisjointTrees fs dirs) {start : CString}
    (hstart : start ∈ starts dirs) {dents : List Dirent}
    (hbelow : Below fs (fun e => e.d_type = dtDir) start d)
    (hopen : fs.opendir (stripSlash d) = some dents) (he : e ∈ dents) :
    IsDirectory fs (stripSlash d) e ↔ e.d_type = dtDir :=
  or_iff_left fun hunknown => h.type_ne_dtUnknown hstart hbelow hopen he hunknown.1

theorem DisjointTrees.not_namesDirectory (h : DisjointTrees fs dirs) (hp : p ∈ found fs re dirs) :
    ¬ NamesDirectory fs p := by
  obtain ⟨start, hstart, d, dents, e, hbelow, hopen, he, _, hdir, _, rfl⟩ := mem_found hp
  have hdtDir := (below_dtDir_iff hopen).mpr hbelow
  rw [namesDirectory_join hopen he, h.isDirectory_iff hstart hdtDir hopen he]
  intro htype
  rw [isDir_of_dtDir htype] at hdir
  cases hdir

theorem clean_of_disjointTrees (h : DisjointTrees fs dirs) (hfit : AllFit regcomp fs bashpat dirs)
    (hre : regcomp (cvtPattern bashpat) = some re) : Clean fs re dirs where
  dirs_fit := hfit.dirs_fit
  paths_fit pre p post hsplit _ := by
    have hp : p ∈ found fs re dirs := by
      rw [hsplit]
      exact List.mem_append_right pre List.mem_cons_self
    exact hfit.paths_fit p (matching_of_found hre hp (h.not_namesDirectory hp))
  files pre p post hsplit _ := by
    have hp : p ∈ found fs re dirs := by
      rw [hsplit]
      exact List.mem_append_right pre List.mem_cons_self
    exact h.not_namesDirectory hp
  no_hidden := by
    intro start hstart d dents e hbelow hopen he _ _ hdir
    rcases h.types start hstart d dents e ((below_dtDir_iff hopen).mpr hbelow) hopen he with
      htype | htype | htype
    · exact htype
    · rw [isDir, htype] at hdir
      exact absurd hdir (by decide)
    · rw [isDir, htype] at hdir
      exact absurd hdir (by decide)
  entered := by
    intro start hstart d dents e hbelow hopen _ _ _ _
    exact ⟨start, hstart, d, (below_dtDir_iff hopen).mp (h.below hstart hbelow), rfl⟩
  no_new := by
    intro pre p post hsplit hp
    have hnodup := found_nodup h re
    rw [hsplit] at hnodup
    exact absurd rfl ((List.nodup_append.mp hnodup).2.2 p hp p List.mem_cons_self)

/-- The directories are the same, with their entries in any order. -/
def Reordered (fs fs' : FileSystem) : Prop :=
  ∀ d, Option.Rel List.Perm (fs.opendir d) (fs'.opendir d)

theorem Reordered.symm (h : Reordered fs fs') : Reordered fs' fs := by
  intro d
  have hd := h d
  cases hopen : fs.opendir d with
  | none =>
    cases hopen' : fs'.opendir d with
    | none => exact .none
    | some dents' =>
      rw [hopen, hopen'] at hd
      cases hd
  | some dents =>
    cases hopen' : fs'.opendir d with
    | none =>
      rw [hopen, hopen'] at hd
      cases hd
    | some dents' =>
      rw [hopen, hopen'] at hd
      cases hd with
      | some hperm => exact .some hperm.symm

theorem Reordered.opendir (h : Reordered fs fs') {dents : List Dirent}
    (hopen : fs.opendir d = some dents) :
    ∃ dents', fs'.opendir d = some dents' ∧ ∀ e, e ∈ dents' ↔ e ∈ dents := by
  have hd := h d
  rw [hopen] at hd
  cases hopen' : fs'.opendir d with
  | none =>
    rw [hopen'] at hd
    cases hd
  | some dents' =>
    rw [hopen'] at hd
    cases hd with
    | some hperm => exact ⟨dents', rfl, fun e => hperm.mem_iff.symm⟩

theorem Reordered.below (h : Reordered fs fs') (hbelow : Below fs descend dirname d) :
    Below fs' descend dirname d := by
  induction hbelow with
  | refl d => exact .refl d
  | entry hopen he hvis hdescend _ ih =>
    obtain ⟨dents', hopen', hmem⟩ := h.opendir hopen
    exact .entry hopen' ((hmem _).mpr he) hvis hdescend ih

theorem Reordered.isDirectory (h : Reordered fs fs') (hdir : IsDirectory fs d e) :
    IsDirectory fs' d e := by
  refine hdir.imp_right ?_
  rintro ⟨hunknown, p, hp, hopen⟩
  obtain ⟨dents, hdents⟩ := Option.isSome_iff_exists.mp hopen
  obtain ⟨dents', hopen', _⟩ := h.opendir hdents
  exact ⟨hunknown, p, hp, by rw [hopen']; rfl⟩

theorem Reordered.matching (h : Reordered fs fs') (hp : Matching regcomp fs bashpat dirs p) :
    Matching regcomp fs' bashpat dirs p := by
  obtain ⟨re, hre, start, hstart, d, dents, e, hbelow, hopen, he, hvis, hfile, hrest⟩ := hp
  obtain ⟨dents', hopen', hmem⟩ := h.opendir hopen
  exact ⟨re, hre, start, hstart, d, dents', e, h.below hbelow, hopen', (hmem e).mpr he, hvis,
    fun hdir => hfile (h.symm.isDirectory hdir), hrest⟩

theorem Reordered.disjointTrees (h : Reordered fs fs') (ht : DisjointTrees fs dirs) :
    DisjointTrees fs' dirs where
  types := by
    intro start hstart d dents' e hbelow hopen' he
    obtain ⟨dents, hopen, hmem⟩ := h.symm.opendir hopen'
    exact ht.types start hstart d dents e (h.symm.below hbelow) hopen ((hmem e).mpr he)
  disjoint := by
    refine ht.disjoint.imp fun {a b} hab d d' hd hd' hopen' => ?_
    obtain ⟨dents', hdents'⟩ := Option.isSome_iff_exists.mp hopen'
    obtain ⟨dents, hopen, _⟩ := h.symm.opendir hdents'
    exact hab d d' (h.symm.below hd) (h.symm.below hd') (by rw [hopen]; rfl)

theorem Reordered.allFit (h : Reordered fs fs') (hfit : AllFit regcomp fs bashpat dirs) :
    AllFit regcomp fs' bashpat dirs where
  pattern_fits := hfit.pattern_fits
  dirs_fit start hstart d hd := hfit.dirs_fit start hstart d (h.symm.below hd)
  paths_fit p hp := hfit.paths_fit p (h.symm.matching hp)

theorem prints_of_disjointTrees (h : DisjointTrees fs dirs)
    (hfit : AllFit regcomp fs bashpat dirs) : PrintsMatching regcomp fs bashpat dirs :=
  printsMatching_of_clean hfit.pattern_fits fun _ hre => clean_of_disjointTrees h hfit hre

/-- Below disjoint starting directories the program prints exactly the matching paths, each once and in
order, and prints the same lines for any order of the entries. -/
theorem prints_sorted_any_order (regcomp : CString → Option (CString → Bool)) (fs : FileSystem)
    (bashpat : CString) (dirs : List CString) (h : DisjointTrees fs dirs)
    (hfit : AllFit regcomp fs bashpat dirs) :
    PrintsMatching regcomp fs bashpat dirs ∧ ∀ fs', Reordered fs fs' →
      (main regcomp fs' true Schedule.always (bashpat :: dirs)).map Prod.snd =
        (main regcomp fs true Schedule.always (bashpat :: dirs)).map Prod.snd := by
  have hprints := prints_of_disjointTrees h hfit
  refine ⟨hprints, fun fs' hre => ?_⟩
  obtain ⟨status, lines, hrun, hinc, hlines⟩ := hprints
  obtain ⟨status', lines', hrun', hinc', hlines'⟩ :=
    prints_of_disjointTrees (hre.disjointTrees h) (hre.allFit hfit)
  have hsame : lines' = lines := by
    apply comparison.increasing_ext hinc' hinc
    intro p
    rw [hlines, hlines']
    exact ⟨hre.symm.matching, hre.matching⟩
  rw [hrun, hrun', hsame]
  rfl

namespace Overlap

theorem below_fileSystem (hdescend : ∀ e, descend e → isDir e = true)
    (h : Below fileSystem descend dirname d)
    (hstart : dirname = files ∨ dirname = other ∨ dirname = join files abknl) :
    d = dirname ∨ dirname = files ∧ d = join files abknl := by
  induction h with
  | refl d => exact Or.inl rfl
  | @entry dirname d dents e hopen he hvis hdir _ ih =>
    have hdir := hdescend e hdir
    have hfile : ∀ e ∈ [entryDot, entryDotdot, entryName], visible e = true → isDir e = false := by
      decide
    rcases hstart with rfl | rfl | rfl
    · obtain rfl : [entryDot, entryDotdot, entryAbknl] = dents := Option.some.inj hopen
      simp only [List.mem_cons, List.not_mem_nil, or_false] at he
      rcases he with rfl | rfl | rfl
      · exact absurd hvis (by decide)
      · exact absurd hvis (by decide)
      · have hchild : join (childPrefix files) entryAbknl.d_name = join files abknl := by decide
        rw [hchild] at ih
        rcases ih (Or.inr (Or.inr rfl)) with rfl | ⟨heq, _⟩
        · exact Or.inr ⟨rfl, rfl⟩
        · exact absurd heq (by decide)
    · obtain rfl : [entryDot, entryDotdot, entryName] = dents := Option.some.inj hopen
      exact absurd hdir (by rw [hfile e he hvis]; exact Bool.false_ne_true)
    · obtain rfl : [entryDot, entryDotdot, entryName] = dents := Option.some.inj hopen
      exact absurd hdir (by rw [hfile e he hvis]; exact Bool.false_ne_true)

theorem opened_fileSystem (hdescend : ∀ e, descend e → isDir e = true) {start : CString}
    (hstart : start ∈ starts [files, other]) (h : Below fileSystem descend start d) :
    (start = files ∧ (d = files ∨ d = join files abknl)) ∨ (start = other ∧ d = other) := by
  have hstart : start = files ∨ start = other := by simpa [starts] using hstart
  rcases hstart with rfl | rfl
  · refine Or.inl ⟨rfl, ?_⟩
    rcases below_fileSystem hdescend h (Or.inl rfl) with heq | ⟨_, heq⟩
    · exact Or.inl heq
    · exact Or.inr heq
  · refine Or.inr ⟨rfl, ?_⟩
    rcases below_fileSystem hdescend h (Or.inr (Or.inl rfl)) with heq | ⟨heq, _⟩
    · exact heq
    · exact absurd heq (by decide)

theorem entries_fileSystem {P : CString → Dirent → Prop} {dents : List Dirent}
    (hd : d = files ∨ d = join files abknl ∨ d = other)
    (hfiles : ∀ e ∈ [entryDot, entryDotdot, entryAbknl], P files e)
    (habknl : ∀ e ∈ [entryDot, entryDotdot, entryName], P (join files abknl) e)
    (hother : ∀ e ∈ [entryDot, entryDotdot, entryName], P other e)
    (hopen : fileSystem.opendir (stripSlash d) = some dents) : ∀ e ∈ dents, P d e := by
  rcases hd with rfl | rfl | rfl
  · obtain rfl : [entryDot, entryDotdot, entryAbknl] = dents := Option.some.inj hopen
    exact hfiles
  · obtain rfl : [entryDot, entryDotdot, entryName] = dents := Option.some.inj hopen
    exact habknl
  · obtain rfl : [entryDot, entryDotdot, entryName] = dents := Option.some.inj hopen
    exact hother

theorem disjointTrees_fileSystem : DisjointTrees fileSystem [files, other] where
  types := by
    intro start hstart d dents e hbelow hopen he
    have hd := opened_fileSystem (fun _ => isDir_of_dtDir) hstart hbelow
    exact entries_fileSystem (P := fun _ e => e.d_type = dtDir ∨ e.d_type = dtReg ∨ e.d_type = dtLnk)
      (by tauto) (by decide) (by decide) (by decide) hopen e he
  disjoint := by
    refine List.pairwise_pair.mpr fun d d' hd hd' _ => ?_
    have hfiles := opened_fileSystem (fun _ => isDir_of_dtDir) (by decide) hd
    have hother := opened_fileSystem (fun _ => isDir_of_dtDir) (by decide) hd'
    rcases hfiles with ⟨_, rfl | rfl⟩ | ⟨heq, _⟩
    · rcases hother with ⟨heq, _⟩ | ⟨_, rfl⟩
      · exact absurd heq (by decide)
      · decide
    · rcases hother with ⟨heq, _⟩ | ⟨_, rfl⟩
      · exact absurd heq (by decide)
      · decide
    · exact absurd heq (by decide)

theorem allFit_fileSystem : AllFit (fun _ => some fun _ => true) fileSystem star [files, other] where
  pattern_fits := by decide
  dirs_fit := by
    intro start hstart d hd
    rcases opened_fileSystem (fun _ => id) hstart hd with ⟨_, rfl | rfl⟩ | ⟨_, rfl⟩ <;> decide
  paths_fit := by
    rintro p ⟨re, _, start, hstart, d, dents, e, hbelow, hopen, he, _, _, _, rfl⟩
    have hd := opened_fileSystem (fun _ => isDir_of_dtDir) hstart
      (disjointTrees_fileSystem.below hstart hbelow)
    exact entries_fileSystem (P := fun d e => (join (stripSlash d) e.d_name).bytes.length < bufSize)
      (by tauto) (by decide) (by decide) (by decide) hopen e he

end Overlap

open Overlap in
theorem prints_sorted_any_order_two :
    PrintsMatching (fun _ => some fun _ => true) fileSystem star [files, other] ∧
      ∀ fs', Reordered fileSystem fs' →
        (main (fun _ => some fun _ => true) fs' true Schedule.always [star, files, other]).map
            Prod.snd =
          (main (fun _ => some fun _ => true) fileSystem true Schedule.always
            [star, files, other]).map Prod.snd :=
  prints_sorted_any_order _ fileSystem star [files, other] disjointTrees_fileSystem
    allFit_fileSystem

end CIS415.FileCrawler
