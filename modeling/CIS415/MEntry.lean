import CIS415.Lib.CString
import CIS415.Lib.Heap

/-!
# Mailing list entries: mentry.c

Bytes are unsigned; where C reads a `char` as a number it is sign extended. A read or a write outside
a buffer fails. The `ctype.h` functions are those of the C locale.
-/

namespace CIS415

open Pointer

structure MEntry where
  surname : CString
  house_number : Int32
  zipcode : CString
  full_address : CString
deriving DecidableEq

/-- A `MEntry *`: two equal entries at different addresses are different pointers. No function of
mlist.c writes through it. -/
structure MEntryPtr where
  addr : Addr
  deref : MEntry
deriving DecidableEq

namespace MEntry

def lines : ℕ := 1000

def nameSize : ℕ := 500

def postalCode : ℕ := 20

def newline : UInt8 := 10

def comma : UInt8 := 44

def isspace (b : UInt8) : Bool :=
  b == 32 || (9 ≤ b && b ≤ 13)

def isdigit (b : UInt8) : Bool :=
  48 ≤ b && b ≤ 57

def isalnum (b : UInt8) : Bool :=
  isdigit b || (65 ≤ b && b ≤ 90) || (97 ≤ b && b ≤ 122)

def tolower (b : UInt8) : UInt8 :=
  if 65 ≤ b && b ≤ 90 then b + 32 else b

/-- `help_hash`, in 32-bit unsigned arithmetic. -/
def helpHash (str : CString) : UInt32 :=
  str.bytes.foldl (fun hashvalue b => b.toInt8.toInt32.toUInt32 + 31 * hashvalue) 0

def meHash (me : MEntry) (size : ℕ) : ℕ :=
  (helpHash me.surname + helpHash me.zipcode + me.house_number.toUInt32).toNat % size

def meCompare (me1 me2 : MEntry) : ℤ :=
  if me1.surname.strcmp me2.surname = 0 ∧ me1.zipcode.strcmp me2.zipcode = 0 ∧
      me1.house_number = me2.house_number then 0
  else -1

def mePrint (me : MEntry) : List UInt8 :=
  me.full_address.bytes

/-- The fields `me_hash` and `me_compare` read. -/
def key (me : MEntry) : CString × CString × Int32 :=
  (me.surname, me.zipcode, me.house_number)

theorem meCompare_eq_zero {me1 me2 : MEntry} : meCompare me1 me2 = 0 ↔ key me1 = key me2 := by
  unfold meCompare key
  simp only [CString.strcmp_eq_zero, Prod.mk.injEq]
  constructor
  · intro h
    by_contra hn
    rw [if_neg hn] at h
    cases h
  · intro h
    rw [if_pos h]

theorem meHash_congr {me1 me2 : MEntry} (h : key me1 = key me2) (size : ℕ) :
    meHash me1 size = meHash me2 size := by
  unfold key at h
  obtain ⟨hs, hz⟩ := Prod.mk.inj h
  obtain ⟨hz, hn⟩ := Prod.mk.inj hz
  unfold meHash
  rw [hs, hz, hn]

theorem meHash_lt (me : MEntry) {size : ℕ} (h : 0 < size) : meHash me size < size :=
  Nat.mod_lt _ h

/-- `fgets` with room for `n` bytes: at most `n - 1` of them, up to and including a newline. The
bytes read and the rest of the stream. -/
def fgets : ℕ → List UInt8 → List UInt8 × List UInt8
  | 0, fd => ([], fd)
  | 1, fd => ([], fd)
  | _ + 2, [] => ([], [])
  | n + 2, b :: fd =>
    if b = newline then ([b], fd)
    else (b :: (fgets (n + 1) fd).1, (fgets (n + 1) fd).2)

/-- A zeroed buffer of `LINES` bytes after `fgets` wrote `line` to it. -/
def buffer (line : List UInt8) : List UInt8 :=
  line ++ List.replicate (lines - line.length) 0

/-- The surname loop with the store of the NUL after it; `room` bytes are left in `surname`. -/
def copySurname : List UInt8 → ℕ → Option (List UInt8)
  | [], _ => none
  | _ :: _, 0 => none
  | b :: buf, room + 1 =>
    if b = comma then some [] else (copySurname buf room).map (tolower b :: ·)

def copyZipcode : List UInt8 → ℕ → Option (List UInt8)
  | [], _ => none
  | b :: buf, room =>
    if b = newline then if room = 0 then none else some []
    else if isalnum b then if room = 0 then none else (copyZipcode buf (room - 1)).map (b :: ·)
    else copyZipcode buf room

def digits : List UInt8 → ℤ → ℤ
  | [], acc => acc
  | b :: bs, acc => if isdigit b then digits bs (acc * 10 + (b.toNat - 48)) else acc

/-- `strtol` in base 10 on 64-bit `long`, which saturates. -/
def strtol (s : CString) : ℤ :=
  let s := s.bytes.dropWhile isspace
  let v := match s with
    | [] => 0
    | b :: bs => if b = 45 then -digits bs 0 else if b = 43 then digits bs 0 else digits (b :: bs) 0
  max (-2 ^ 63) (min (2 ^ 63 - 1) v)

/-- The `strcpy` and the two `strcat` into the `LINES` bytes of `full_address`. -/
def copyAddress (name address zip : CString) : Option CString :=
  if (name ++ address ++ zip).bytes.length < lines then some (name ++ address ++ zip) else none

/-- `me_get` when the allocations succeed: the entry, or NULL at the end of the file, and the rest
of the stream. -/
def meGet (fd : List UInt8) : Option (Option MEntry × List UInt8) := do
  let (nameLine, fd) := fgets lines fd
  let (addressLine, fd) := fgets lines fd
  let (stateZip, fd) := fgets lines fd
  let nameLine := buffer nameLine
  let addressLine := buffer addressLine
  let stateZip := buffer stateZip
  if nameLine.head? = some 0 then some (none, fd)
  else do
    let surname ← copySurname nameLine nameSize
    let full_address ← copyAddress (.ofBuffer nameLine) (.ofBuffer addressLine) (.ofBuffer stateZip)
    let house_number := Int32.ofInt (strtol (.ofBuffer addressLine))
    let zipcode ← copyZipcode stateZip postalCode
    some (some ⟨.ofBuffer surname, house_number, .ofBuffer zipcode, full_address⟩, fd)

end MEntry

end CIS415
