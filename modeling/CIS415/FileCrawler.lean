import CIS415.LinkedList
import CIS415.TreeSet
import CIS415.Lib.CString

/-!
# The program of file_crawler_single.c

The program collects the directories under its arguments in a linked list, matches the names in each
of them, collects the paths in a tree set and prints the set. `regcomp` is the C library's: it
compiles a pattern or fails, and gives what `regexec` answers. A write past the end of a buffer fails.
Standard output is the list of the lines printed; messages on standard error are left out, and with
them the argument `verbose` of `processDirectory`.
-/

namespace CIS415.FileCrawler

open Pointer LinkedList TreeSet Iterator CString

def bufSize : ℕ := 4096

def slash : UInt8 := 47

def dot : CString := ⟨[46], by decide⟩

def dotdot : CString := ⟨[46, 46], by decide⟩

def empty : CString := ⟨[], by decide⟩

def root : CString := ⟨[slash], by decide⟩

def dtUnknown : UInt8 := 0

def dtDir : UInt8 := 4

def dtLnk : UInt8 := 10

/-- `struct dirent`; a name is not empty and contains no slash. -/
structure Dirent where
  d_name : CString
  d_type : UInt8
  name_ne_nil : d_name.bytes ≠ []
  no_slash : slash ∉ d_name.bytes

/-- `sprintf(b, "%s/%s", d, name)`. -/
def join (d name : CString) : CString :=
  d ++ root ++ name

/-- What `opendir` and `readdir` give while the program runs: the entries of a directory, in order, or
`none` where the path cannot be opened. The names in a directory are distinct, and what is neither a
directory nor a link, and has a known type, cannot be opened as a directory. -/
structure FileSystem where
  opendir : CString → Option (List Dirent)
  distinct : ∀ d dents, opendir d = some dents → (dents.map Dirent.d_name).Nodup
  notDirectory : ∀ d dents e p, opendir d = some dents → e ∈ dents → e.d_type ≠ dtDir →
    e.d_type ≠ dtLnk → e.d_type ≠ dtUnknown → p = d ∨ d = root ∧ p = empty →
    opendir (join p e.d_name) = none

/-- The compiled pattern: the answers of `re_match`. -/
structure RegExp where
  re_match : CString → Bool

def buffer (s : CString) : Option CString :=
  if s.bytes.length < bufSize then some s else none

def strdup (alloc : Bool) (s : CString) : Option CString :=
  if alloc then some s else none

def cvtByte (b : UInt8) : List UInt8 :=
  if b = 42 then [46, 42] else if b = 46 then [92, 46] else if b = 63 then [46] else [b]

theorem cvtByte_noNul {b : UInt8} (h : b ≠ 0) : 0 ∉ cvtByte b := by
  unfold cvtByte
  split_ifs
  · decide
  · decide
  · decide
  · simpa using h.symm

/-- `*` becomes `.*`, `.` becomes `\.`, `?` becomes `.`, between `^` and `$`. -/
def cvtPattern (bashpat : CString) : CString where
  bytes := 94 :: (bashpat.bytes.flatMap cvtByte ++ [36])
  noNul := by
    have hne : ∀ b ∈ bashpat.bytes, 0 ∉ cvtByte b := by
      intro b hb
      apply cvtByte_noNul
      rintro rfl
      exact bashpat.noNul hb
    simpa using hne

def reCompile (regcomp : CString → Option (CString → Bool)) (pattern : CString) : Option RegExp :=
  (regcomp pattern).map RegExp.mk

/-- `dirname` without its trailing slash, which `/` keeps. -/
def stripSlash (dirname : CString) : CString where
  bytes :=
    if 1 < dirname.bytes.length ∧ dirname.bytes.getLast? = some slash then dirname.bytes.dropLast
    else dirname.bytes
  noNul := by
    split_ifs
    · intro h
      exact dirname.noNul ((List.dropLast_sublist _).mem h)
    · exact dirname.noNul

/-- The directory name that the entries are appended to: `len` is the length of the argument, so only
the argument `/` itself becomes empty. -/
def childPrefix (dirname : CString) : CString :=
  if dirname.bytes.length = 1 ∧ (stripSlash dirname).bytes.head? = some slash then empty
  else stripSlash dirname

def visible (e : Dirent) : Bool :=
  strcmp dot e.d_name ≠ 0 ∧ strcmp dotdot e.d_name ≠ 0

/-- `dent->d_type & DT_DIR`. -/
def isDir (e : Dirent) : Bool :=
  e.d_type &&& dtDir ≠ 0

/-- The loop over the entries in `processDirectory`. -/
def processEntries
    (processDirectory : CString → LinkedList CString → Option (ℤ × LinkedList CString))
    (d : CString) : List Dirent → LinkedList CString → Option (ℤ × LinkedList CString)
  | [], ll => some (1, ll)
  | dent :: dents, ll =>
    if ¬ visible dent then processEntries processDirectory d dents ll
    else if isDir dent then do
      let b ← buffer (join d dent.d_name)
      let (status, ll) ← processDirectory b ll
      if status ≠ 0 then processEntries processDirectory d dents ll else some (status, ll)
    else processEntries processDirectory d dents ll

/-- The recursion is at most `fuel` deep. -/
def processDirectory (fs : FileSystem) (alloc : Bool) :
    ℕ → CString → LinkedList CString → Option (ℤ × LinkedList CString)
  | 0, _, _ => none
  | fuel + 1, dirname, ll => do
    let d ← buffer dirname
    match fs.opendir (stripSlash d) with
    | none => some (1, ll)
    | some dents =>
      match strdup alloc (stripSlash d) with
      | none => some (0, ll)
      | some sp => do
        let (status, ll) ← llAdd ll (some sp)
        if status ≠ 0 then processEntries (processDirectory fs alloc fuel) (childPrefix d) dents ll
        else some (0, ll)

/-- The loop over the entries in `applyRe`. -/
def applyEntries (reg : RegExp) (alloc : Bool) (dir : CString) :
    List Dirent → TreeSet CString → Option (ℤ × TreeSet CString)
  | [], ts => some (1, ts)
  | dent :: dents, ts =>
    if ¬ visible dent then applyEntries reg alloc dir dents ts
    else if ¬ isDir dent then
      if ¬ reg.re_match dent.d_name then applyEntries reg alloc dir dents ts
      else do
        let b ← buffer (join dir dent.d_name)
        match strdup alloc b with
        | none => some (0, ts)
        | some sp => do
          let (status, ts) ← tsAdd alloc ts sp
          if status ≠ 0 then applyEntries reg alloc dir dents ts else some (0, ts)
    else applyEntries reg alloc dir dents ts

def applyRe (fs : FileSystem) (reg : RegExp) (alloc : Bool) (dir : CString)
    (ts : TreeSet CString) : Option (ℤ × TreeSet CString) :=
  match fs.opendir dir with
  | none => some (0, ts)
  | some dents => applyEntries reg alloc dir dents ts

/-- The loop that populates the linked list. -/
def processArgs (fs : FileSystem) (alloc : Bool) :
    List CString → LinkedList CString → Option (ℤ × LinkedList CString)
  | [], ll => some (1, ll)
  | dir :: dirs, ll => do
    let (status, ll) ← processDirectory fs alloc bufSize dir ll
    if status ≠ 0 then processArgs fs alloc dirs ll else some (status, ll)

/-- The loop over the linked list, which runs at most `fuel` times. -/
def applyAll (fs : FileSystem) (reg : RegExp) (alloc : Bool) :
    ℕ → LinkedList CString → TreeSet CString → Option (TreeSet CString)
  | 0, _, _ => none
  | fuel + 1, ll, ts => do
    let (status, element, ll) ← llRemoveFirst ll
    if status ≠ 0 then do
      let (stat, ts) ← applyRe fs reg alloc (← ← element) ts
      if stat ≠ 0 then applyAll fs reg alloc fuel ll ts else some ts
    else some ts

/-- The lines that the loop over the iterator prints, in at most `fuel` rounds. -/
def printAll : ℕ → Iterator CString → Option (List CString)
  | 0, _ => none
  | fuel + 1, it =>
    if itHasNext it ≠ 0 then do
      let (_, s, it) ← itNext it
      let rest ← printAll fuel it
      some ((← s) :: rest)
    else some []

/-- The end of `main`, from the creation of the iterator on. -/
def printSet (alloc : Bool) (ts : TreeSet CString) : Option (ℤ × List CString) := do
  match ← tsItCreate alloc ts with
  | none => some (0, [])
  | some it => do
    let lines ← printAll (it.size + 1).toNat it
    some (0, lines)

/-- `main` on `argv[1..]`: its result and the lines it prints. `alloc` is the outcome of the
allocations other than those of the linked list, and `sched` the outcomes of these. -/
def main (regcomp : CString → Option (CString → Bool)) (fs : FileSystem) (alloc : Bool)
    (sched : Schedule) : List CString → Option (ℤ × List CString)
  | [] => some (-1, [])
  | bashpat :: dirs => do
    let pattern ← buffer (cvtPattern bashpat)
    if ¬ alloc then some (-1, [])
    else
      match reCompile regcomp pattern with
      | none => some (-1, [])
      | some reg =>
        match llCreate sched with
        | none => some (0, [])
        | some ll => do
          let (status, ll) ← processArgs fs alloc (if dirs = [] then [dot] else dirs) ll
          if status = 0 then some (0, [])
          else do
            let ts ← applyAll fs reg alloc (llSize ll + 1).toNat ll (tsCreate strcmp)
            printSet alloc ts

end CIS415.FileCrawler
