import CIS415.MEntryRecord
import CIS415.MListKeys

/-!
# The main loop of finddupl.c

The program reads entries until `me_get` returns NULL, looks each one up and either keeps it or
prints it with the stored one. Standard output is the list of the strings printed, one for each call
of `printf` or `me_print`. The `n`-th entry read has address `n`.
-/

namespace CIS415.Finddupl

open Pointer MEntry MList

def text (s : String) : List UInt8 :=
  s.toList.map fun c => UInt8.ofNat c.toNat

def block (mep meq : MEntry) : List (List UInt8) :=
  [text "Potential duplicate\n", text "===================\n", mePrint mep, text "==========\n",
    mePrint meq, text "\n"]

structure State where
  m : Mem
  ml : MList
  entries : ℕ

/-- The body of the loop; an entry that is printed is destroyed and not kept. -/
def process (s : State) (mep : MEntry) : Option (List (List UInt8) × State) := do
  match ← mlLookup s.m s.ml mep with
  | none => do
    let (_, ml, m) ← mlAdd s.m s.ml ⟨s.entries, mep⟩
    some ([], ⟨m, ml, s.entries + 1⟩)
  | some meq => some (block mep meq.deref, { s with entries := s.entries + 1 })

def loop : ℕ → State → List UInt8 → Option (List (List UInt8) × State)
  | 0, _, _ => none
  | fuel + 1, s, fd => do
    match ← meGet fd with
    | (none, _) => some ([], s)
    | (some mep, fd) => do
      let (out, s) ← process s mep
      let (rest, s) ← loop fuel s fd
      some (out ++ rest, s)

/-- `main` on the opened stream: what it prints. -/
def finddupl (sched : Schedule) (fd : List UInt8) : Option (List (List UInt8)) := do
  let (ml, m) ← mlCreate (.initial sched)
  let (out, s) ← loop (fd.length + 1) ⟨m, ← ml, 0⟩ fd
  let _ ← mlDestroy s.m s.ml
  some out

end CIS415.Finddupl
