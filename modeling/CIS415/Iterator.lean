import Mathlib.Algebra.Order.Ring.Int

/-!
# The snapshot iterator of iterator.c

An iterator owns an array of `void *` slots and walks it once. A slot that was never written is
`none`; reading one is undefined and makes the operation fail.
-/

namespace CIS415

variable {E : Type}

structure Iterator (E : Type) where
  next : ℤ
  size : ℤ
  elements : List (Option E)

namespace Iterator

/-- `it_create`; `alloc` says whether the `malloc` of the structure succeeds. -/
def itCreate (alloc : Bool) (size : ℤ) (elements : List (Option E)) : Option (Iterator E) :=
  if alloc then some ⟨0, size, elements⟩ else none

def itHasNext (it : Iterator E) : ℤ :=
  if it.next < it.size then 1 else 0

def itNext (it : Iterator E) : Option (ℤ × Option E × Iterator E) :=
  if it.next < it.size then
    match it.elements[it.next.toNat]? with
    | some (some e) => some (1, some e, { it with next := it.next + 1 })
    | _ => none
  else some (0, none, it)

end Iterator

end CIS415
