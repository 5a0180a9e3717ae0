import CIS415.P1Fxns

/-!
# The command line of thv1.c, thv2.c and thv3.c

The three programs read their arguments and build the argument vector of the command in the same way.
Allocations succeed; an access outside of an allocation has no result.
-/

namespace CIS415.Thv

open P1Fxns

def commandPrefix : CString := ⟨[45, 45, 99, 111, 109, 109, 97, 110, 100, 61], by decide⟩

def numberPrefix : CString := ⟨[45, 45, 110, 117, 109, 98, 101, 114, 61], by decide⟩

def processorsPrefix : CString :=
  ⟨[45, 45, 112, 114, 111, 99, 101, 115, 115, 111, 114, 115, 61], by decide⟩

/-- `s + k`. -/
def advance (s : CString) (k : ℕ) : Option CString :=
  if k ≤ s.bytes.length then some ⟨s.bytes.drop k, fun h => s.noNul (List.mem_of_mem_drop h)⟩
  else none

/-- What the option loop has set; `proc_nums` and `proc_pro` say whether the numbers are. -/
structure Options where
  command : Option CString
  nprocesses : Option ℤ
  nprocessors : Option ℤ
deriving DecidableEq

def readOption (o : Options) (argv_i : CString) : Option Options := do
  if (← p1strneq argv_i commandPrefix (p1strlen commandPrefix)) ≠ 0 then do
    let room := p1strlen (← advance argv_i 1)
    let command ← p1strcpy room (← advance argv_i (p1strlen commandPrefix))
    some { o with command := some command }
  else if (← p1strneq argv_i numberPrefix (p1strlen numberPrefix)) ≠ 0 then do
    let nprocesses ← p1atoi (← advance argv_i (p1strlen numberPrefix))
    some { o with nprocesses := some nprocesses }
  else if (← p1strneq argv_i processorsPrefix (p1strlen processorsPrefix)) ≠ 0 then do
    let nprocessors ← p1atoi (← advance argv_i (p1strlen processorsPrefix))
    some { o with nprocessors := some nprocessors }
  else some o

def slotSize : ℕ := 100

/-- An entry of `arg`: NULL, or a slot with the word that was stored in it last. -/
inductive Arg where
  | null
  | slot (word : Option (List UInt8))
deriving DecidableEq

def allocate (command : CString) : List Arg :=
  List.replicate (p1strlen command + 1) (.slot none)

/-- The use of `arg[j]` by `p1getword`, which stores a word and its NUL unless it returns -1. -/
def store (arg : List Arg) (j : ℕ) (word : Option (List UInt8)) : Option (List Arg) :=
  match arg[j]?, word with
  | some (.slot _), some word =>
    if word.length + 1 ≤ slotSize then some (arg.set j (.slot (some word))) else none
  | some (.slot _), none => some arg
  | some .null, _ => none
  | none, _ => none

section

variable {σ : Type} (put : σ → ℕ → Option (List UInt8) → Option σ)

/-- The loop over the words of `command`, whose condition is evaluated at most `fuel` times: what the
calls of `p1getword` stored, and the last `j`. -/
def wordLoop (command : CString) : ℕ → ℤ → ℕ → σ → Option (σ × ℕ)
  | 0, _, _, _ => none
  | fuel + 1, command_location, j, s =>
    if command_location = -1 then some (s, j)
    else do
      let (command_location, word) ← p1getword command command_location.toNat
      let s ← put s (j + 1) word
      wordLoop command fuel command_location (j + 1) s

def readWords (command : CString) (s : σ) : Option (σ × ℕ) := do
  let (command_location, word) ← p1getword command 0
  let s ← put s 0 word
  wordLoop put command (p1strlen command + 1) command_location 0 s

end

/-- `free(arg[j])` and `arg[j] = NULL`. -/
def terminate (arg : List Arg) (j : ℕ) : Option (List Arg) :=
  match arg[j]? with
  | some (.slot _) => some (arg.set j .null)
  | some .null => none
  | none => none

def buildArg (command : CString) : Option (List Arg) := do
  let (arg, j) ← readWords store command (allocate command)
  terminate arg j

end CIS415.Thv
