import CIS415.Lib.CString

/-!
# The subroutines of p1fxns.c

An `int` is an integer. A step of `int` arithmetic that overflows and an access outside of an array have
no result; lengths and indexes of strings are below `2 ^ 31`. A subroutine that writes to a file
descriptor gives the bytes it writes, one that fills a buffer gives the bytes before the NUL it ends with.
-/

namespace CIS415.P1Fxns

def int (x : ℤ) : Option ℤ :=
  if -2 ^ 31 ≤ x ∧ x < 2 ^ 31 then some x else none

def singlequote : CString := ⟨[39], by decide⟩

def doublequote : CString := ⟨[34], by decide⟩

def whitespace : CString := ⟨[32, 9], by decide⟩

def p1strchrFrom (c : UInt8) : ℕ → List UInt8 → ℤ
  | _, [] => -1
  | i, b :: buf => if b = c then i else p1strchrFrom c (i + 1) buf

def p1strchr (buf : CString) (c : UInt8) : ℤ :=
  p1strchrFrom c 0 buf.bytes

/-- The loop over leading white space: the index it stops at, and the bytes from there on. -/
def skipWhite : ℕ → List UInt8 → ℕ × List UInt8
  | i, [] => (i, [])
  | i, b :: rest => if p1strchr whitespace b ≠ -1 then skipWhite (i + 1) rest else (i, b :: rest)

/-- The loop that copies up to one of the terminators `tc`: the word, the index and the bytes left. -/
def copyWord (tc : CString) : ℕ → List UInt8 → List UInt8 × ℕ × List UInt8
  | i, [] => ([], i, [])
  | i, b :: rest =>
    if p1strchr tc b ≠ -1 then ([], i, b :: rest)
    else (b :: (copyWord tc (i + 1) rest).1, (copyWord tc (i + 1) rest).2)

/-- The `switch` on the first byte of a word: the terminators, and where the copy starts. -/
def openWord (i : ℕ) (b : UInt8) (rest : List UInt8) : CString × ℕ × List UInt8 :=
  if b = 39 then (singlequote, i + 1, rest)
  else if b = 34 then (doublequote, i + 1, rest)
  else (whitespace, i, b :: rest)

/-- The copy of a word and the step over the quote that closes it. -/
def takeWord (tc : CString) (i : ℕ) (rest : List UInt8) : ℤ × Option (List UInt8) :=
  let (word, i, rest) := copyWord tc i rest
  if rest ≠ [] ∧ tc ≠ whitespace then (i + 1, some word) else (i, some word)

/-- `p1getword`: the value returned and the word stored, if one is. -/
def p1getword (buf : CString) (i : ℕ) : Option (ℤ × Option (List UInt8)) :=
  if buf.bytes.length < i then none
  else
    match skipWhite i (buf.bytes.drop i) with
    | (_, []) => some (-1, none)
    | (i, b :: rest) =>
      let (tc, i, rest) := openWord i b rest
      some (takeWord tc i rest)

def p1strlen (s : CString) : ℕ :=
  s.bytes.length

/-- `p1strcpy` into `room` bytes. -/
def p1strcpy (room : ℕ) (str2 : CString) : Option CString :=
  if p1strlen str2 + 1 ≤ room then some str2 else none

/-- The loop of `p1strneq` over the two strings with their NULs. -/
def strneqFrom : ℕ → List UInt8 → List UInt8 → Option ℤ
  | 0, _, _ => some 1
  | n + 1, a :: s1, b :: s2 => if a ≠ b then some 0 else strneqFrom n s1 s2
  | _ + 1, _, _ => none

def p1strneq (s1 s2 : CString) (n : ℕ) : Option ℤ :=
  strneqFrom n (s1.bytes ++ [0]) (s2.bytes ++ [0])

def digits : List UInt8 := [48, 49, 50, 51, 52, 53, 54, 55, 56, 57, 0]

def digitAt (k : ℤ) : Option UInt8 :=
  if 0 ≤ k then digits[k.toNat]? else none

/-- The digit loop, with `room` bytes left in the scratch buffer. -/
def digitLoop : ℕ → ℤ → Option (List UInt8)
  | 0, n => if n = 0 then some [] else none
  | room + 1, n =>
    if n = 0 then some []
    else do
      let b ← digitAt (n.tmod 10)
      let rest ← digitLoop room (n.tdiv 10)
      some (b :: rest)

def scratchSize : ℕ := 25

def p1putint (number : ℤ) : Option (List UInt8) := do
  let buf ← if number = 0 then some [48] else digitLoop scratchSize number
  some buf.reverse

/-- The sign after the digits, where there is room. -/
def putSign (tmp : List UInt8) : Option (List UInt8) :=
  if tmp.length < scratchSize then some (tmp ++ [45]) else none

def p1itoa (number : ℤ) : Option (List UInt8) := do
  let tmp ←
    if number = 0 then some [48]
    else if number < 0 then do
      let n ← int (-number)
      let tmp ← digitLoop scratchSize n
      putSign tmp
    else digitLoop scratchSize number
  some tmp.reverse

def atoiFrom : ℤ → List UInt8 → Option ℤ
  | ans, [] => some ans
  | ans, b :: s =>
    if 48 ≤ b ∧ b ≤ 57 then do
      let tens ← int (10 * ans)
      let ans ← int (tens + (b.toNat - 48))
      atoiFrom ans s
    else some ans

def p1atoi (s : CString) : Option ℤ :=
  atoiFrom 0 s.bytes

end CIS415.P1Fxns
