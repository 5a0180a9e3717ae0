import CIS415.FileCrawlerForget
import CIS415.FileCrawlerOrder
import CIS415.FileCrawlerPattern

/-!
# The program from its arguments to its output

The pattern, the walk over the directories, the set of paths and the resources put together: what
file_crawler_single.c prints for a pattern of the shell.
-/

namespace CIS415.FileCrawler

open Pointer CString Ere

variable {fs : FileSystem} {items : List Item} {dirs : List CString} {p : CString}

/-- `p` is the path of an entry whose name the pattern accepts, in a directory below a starting
directory. -/
def Accepted (fs : FileSystem) (items : List Item) (dirs : List CString) (p : CString) : Prop :=
  ∃ start ∈ starts dirs, ∃ d dents e,
    Below fs (fun e => e.d_type = dtDir) start d ∧ fs.opendir (stripSlash d) = some dents ∧
    e ∈ dents ∧ visible e = true ∧ e.d_type ≠ dtDir ∧ GlobMatches items e.d_name.bytes ∧
    p = join (stripSlash d) e.d_name

/-- The inputs: the starting directories have no subtree in common, no name contains a newline, and
every string that is built fits its buffer. -/
structure Searchable (fs : FileSystem) (items : List Item) (dirs : List CString) : Prop where
  trees : DisjointTrees fs dirs
  names : ∀ start ∈ starts dirs, ∀ d dents e, Below fs (fun e => e.d_type = dtDir) start d →
    fs.opendir (stripSlash d) = some dents → e ∈ dents → newline ∉ e.d_name.bytes
  pattern_fits : (cvtPattern (render items)).bytes.length < bufSize
  dirs_fit : ∀ start ∈ starts dirs, Fits fs start
  paths_fit : ∀ p, Accepted fs items dirs p → p.bytes.length < bufSize

theorem regcomp_render (items : List Item) :
    regcomp (cvtPattern (render items)) = some fun s => regexec (expression items) s.bytes := by
  rw [regcomp, compile_render]
  rfl

theorem Searchable.matching_iff (h : Searchable fs items dirs) :
    Matching regcomp fs (render items) dirs p ↔ Accepted fs items dirs p := by
  constructor
  · rintro ⟨re, hre, start, hstart, d, dents, e, hbelow, hopen, he, hvis, hfile, hmatch, rfl⟩
    obtain rfl := Option.some.inj ((regcomp_render items).symm.trans hre)
    have hdtDir := h.trees.below hstart hbelow
    have hname := h.names start hstart d dents e hdtDir hopen he
    exact ⟨start, hstart, d, dents, e, hdtDir, hopen, he, hvis, fun htype => hfile (Or.inl htype),
      (regexec_expression hname).mp hmatch, rfl⟩
  · rintro ⟨start, hstart, d, dents, e, hbelow, hopen, he, hvis, htype, hmatch, rfl⟩
    have hname := h.names start hstart d dents e hbelow hopen he
    have hfile := (h.trees.isDirectory_iff hstart hbelow hopen he).not.mpr htype
    exact ⟨_, regcomp_render items, start, hstart, d, dents, e, hbelow.imp fun _ => Or.inl, hopen, he,
      hvis, hfile, (regexec_expression hname).mpr hmatch, rfl⟩

theorem Searchable.allFit (h : Searchable fs items dirs) : AllFit regcomp fs (render items) dirs where
  pattern_fits := h.pattern_fits
  dirs_fit := h.dirs_fit
  paths_fit p hp := h.paths_fit p (h.matching_iff.mp hp)

theorem printSet_status {alloc : Bool} {ts : TreeSet CString} {r : ℤ × List CString}
    (h : printSet alloc ts = some r) : r.1 = 0 := by
  obtain ⟨it, -, h⟩ := Option.bind_eq_some_iff.mp h
  cases it with
  | none => exact congrArg Prod.fst (Option.some.inj h).symm
  | some it =>
    obtain ⟨lines, -, h⟩ := Option.bind_eq_some_iff.mp h
    exact congrArg Prod.fst (Option.some.inj h).symm

theorem main_status {regcomp : CString → Option (CString → Bool)} {bashpat : CString}
    {re : CString → Bool} (hfit : (cvtPattern bashpat).bytes.length < bufSize)
    (hre : regcomp (cvtPattern bashpat) = some re) {r : ℤ × List CString}
    (hrun : main regcomp fs true Schedule.always (bashpat :: dirs) = some r) : r.1 = 0 := by
  obtain ⟨ll₀, -, hmain⟩ := main_eq fs dirs hfit hre
  rw [hmain] at hrun
  obtain ⟨⟨status, ll⟩, -, hrun⟩ := Option.bind_eq_some_iff.mp hrun
  split_ifs at hrun
  · exact congrArg Prod.fst (Option.some.inj hrun).symm
  · obtain ⟨ts, -, hrun⟩ := Option.bind_eq_some_iff.mp hrun
    exact printSet_status hrun

/-- Where the allocations succeed, the program ends with 0, has printed the accepted paths, each once
and in the order of `strcmp`, and has released all it acquired. -/
theorem crawl_globs (h : Searchable fs items dirs) : ∃ lines w,
    (Memory.main regcomp fs Schedule.always (render items :: dirs)).run ⟨0, 0, Schedule.always⟩ =
      .ok ((0, lines), w) ∧ w.live = 0 ∧ comparison.Increasing lines ∧
      ∀ p, p ∈ lines ↔ Accepted fs items dirs p := by
  obtain ⟨status, lines, hrun, hinc, hlines⟩ := prints_of_disjointTrees h.trees h.allFit
  obtain ⟨w, hmemory, hlive⟩ := Memory.main_ends hrun
  have hstatus : status = 0 := main_status h.pattern_fits (regcomp_render items) hrun
  refine ⟨lines, w, ?_, hlive, hinc, fun p => (hlines p).trans h.matching_iff⟩
  rw [hmemory, hstatus]

namespace Overlap

theorem searchable_fileSystem : Searchable fileSystem [.star] [files, other] where
  trees := disjointTrees_fileSystem
  names := by
    intro start hstart d dents e hbelow hopen he
    have hd := opened_fileSystem (fun _ => isDir_of_dtDir) hstart hbelow
    exact entries_fileSystem (P := fun _ e => newline ∉ e.d_name.bytes)
      (by tauto) (by decide) (by decide) (by decide) hopen e he
  pattern_fits := by decide
  dirs_fit := allFit_fileSystem.dirs_fit
  paths_fit := by
    rintro p ⟨start, hstart, d, dents, e, hbelow, hopen, he, _, _, _, rfl⟩
    have hd := opened_fileSystem (fun _ => isDir_of_dtDir) hstart hbelow
    exact entries_fileSystem (P := fun d e => (join (stripSlash d) e.d_name).bytes.length < bufSize)
      (by tauto) (by decide) (by decide) (by decide) hopen e he

end Overlap

open Overlap in
theorem crawl_globs_two : ∃ lines w,
    (Memory.main regcomp fileSystem Schedule.always [render [.star], files, other]).run
        ⟨0, 0, Schedule.always⟩ = .ok ((0, lines), w) ∧ w.live = 0 ∧ comparison.Increasing lines ∧
      ∀ p, p ∈ lines ↔ Accepted fileSystem [.star] [files, other] p :=
  crawl_globs searchable_fileSystem

end CIS415.FileCrawler
