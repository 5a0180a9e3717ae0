import CIS415.TreeSet
import CIS415.Lib.HeapMap

/-!
# Sets look at their elements only to compare them

An operation on the set with other elements in the place of its own does what it does on the set, where
the comparison function of the one gives on the new elements what that of the other gives on the old.
-/

namespace CIS415

open Pointer Iterator

variable {E F : Type}

def TNode.map (f : E → F) : TNode E → TNode F
  | .null => .null
  | .node l x b r => .node (l.map f) (f x) b (r.map f)

def Iterator.map (f : E → F) (it : Iterator E) : Iterator F :=
  ⟨it.next, it.size, it.elements.map (Option.map f)⟩

variable {f : E → F}

theorem itNext_map (it : Iterator E) :
    itNext (it.map f) = (itNext it).map fun r => (r.1, r.2.1.map f, r.2.2.map f) := by
  rw [itNext, itNext, Iterator.map, List.getElem?_map]
  split_ifs
  · rcases it.elements[it.next.toNat]? with _ | _ | e
    · rfl
    · rfl
    · rfl
  · rfl

namespace TNode

theorem isNull_map (t : TNode E) : (t.map f).isNull = t.isNull := by
  cases t <;> rfl

theorem link_map (t : TNode E) (dir : Bool) : (t.map f).link dir = (t.link dir).map (map f) := by
  cases t <;> cases dir <;> rfl

theorem setLink_map (t : TNode E) (dir : Bool) (u : TNode E) :
    (t.map f).setLink dir (u.map f) = (t.setLink dir u).map (map f) := by
  cases t <;> cases dir <;> rfl

theorem balance_map (t : TNode E) : (t.map f).balance = t.balance := by
  cases t <;> rfl

theorem setBalance_map (t : TNode E) (b : ℤ) :
    (t.map f).setBalance b = (t.setBalance b).map (map f) := by
  cases t <;> rfl

end TNode

namespace TreeSet

open TNode

theorem singleRotate_map (root : TNode E) (dir : Bool) :
    singleRotate (root.map f) dir = (singleRotate root dir).map (TNode.map f) :=
  steps_map (link_map root _) fun save => steps_map (link_map save dir) fun _ =>
    steps_map (setLink_map root _ _) fun root => setLink_map save dir root

theorem doubleRotate_map (root : TNode E) (dir : Bool) :
    doubleRotate (root.map f) dir = (doubleRotate root dir).map (TNode.map f) :=
  steps_map (link_map root _) fun n => steps_map (link_map n dir) fun save =>
    steps_map (link_map save _) fun _ => steps_map (setLink_map n dir _) fun n =>
    steps_map (setLink_map save _ n) fun save => steps_map (setLink_map root _ save) fun root =>
    steps_map (link_map root _) fun save => steps_map (link_map save dir) fun _ =>
    steps_map (setLink_map root _ _) fun root => setLink_map save dir root

theorem adjustBalance_map (root : TNode E) (dir : Bool) (bal : ℤ) :
    adjustBalance (root.map f) dir bal = (adjustBalance root dir bal).map (TNode.map f) := by
  refine steps_map (link_map root dir) fun n => steps_map (link_map n _) fun nn => ?_
  rw [balance_map]
  refine step_map nn.balance fun b => steps_map (setBalance_map nn 0) fun nn => ?_
  exact steps_map (setBalance_map n _) fun n => steps_map (setLink_map n _ nn) fun n =>
    steps_map (setBalance_map root _) fun root => setLink_map root dir n

theorem insertBalance_map (root : TNode E) (dir : Bool) :
    insertBalance (root.map f) dir = (insertBalance root dir).map (TNode.map f) := by
  refine steps_map (link_map root dir) fun n => ?_
  rw [balance_map]
  refine step_map n.balance fun b => ?_
  split_ifs
  · exact steps_map (setBalance_map root 0) fun root => steps_map (setBalance_map n 0) fun n =>
      steps_map (setLink_map root dir n) fun root => singleRotate_map root _
  · exact steps_map (adjustBalance_map root dir _) fun root => doubleRotate_map root _

def replace (f : E → F) (r : TNode E × Bool) : TNode F × Bool :=
  (r.1.map f, r.2)

theorem insertRetrace_map (root : TNode E) (dir done : Bool) :
    insertRetrace (root.map f) dir done = (insertRetrace root dir done).map (replace f) := by
  rw [insertRetrace, insertRetrace, balance_map]
  split_ifs
  · rfl
  · refine step_map root.balance fun b => steps_map (setBalance_map root _) fun root => ?_
    split_ifs
    · rfl
    · exact steps_map (insertBalance_map root dir) fun _ => rfl
    · rfl

variable {cmp : E → E → ℤ} {cmp' : F → F → ℤ}

theorem insert_map (hcmp : ∀ a b, cmp' (f a) (f b) = cmp a b) (alloc : Bool) (e : E) (t : TNode E)
    (done : Bool) :
    insert cmp' alloc (f e) (t.map f) done = (insert cmp alloc e t done).map (replace f) := by
  induction t generalizing done with
  | null =>
    cases alloc <;> rfl
  | node l x b r ihl ihr =>
    rw [TNode.map, insert, insert, hcmp]
    split_ifs
    · exact steps_map (ihr done) fun s => insertRetrace_map (.node l x b s.1) true s.2
    · exact steps_map (ihl done) fun s => insertRetrace_map (.node s.1 x b r) false s.2

theorem find_map (hcmp : ∀ a b, cmp' (f a) (f b) = cmp a b) (e : E) (t : TNode E) :
    find cmp' (f e) (t.map f) = (find cmp e t).map f := by
  induction t with
  | null => rfl
  | node l x b r ihl ihr =>
    rw [TNode.map, find, find, hcmp]
    split_ifs
    · exact ihl
    · exact ihr
    · rfl

def map (f : E → F) (cmp' : F → F → ℤ) (ts : TreeSet E) : TreeSet F :=
  ⟨ts.size, ts.root.map f, cmp'⟩

theorem tsAdd_map {ts : TreeSet E} (hcmp : ∀ a b, cmp' (f a) (f b) = ts.cmp a b) (alloc : Bool) (e : E) :
    tsAdd alloc (ts.map f cmp') (f e) =
      (tsAdd alloc ts e).map fun r => (r.1, r.2.map f cmp') := by
  rw [tsAdd, tsAdd]
  change (if (find cmp' (f e) (ts.root.map f)).isNull then _ else _) = _
  rw [find_map hcmp, isNull_map]
  split_ifs
  · exact steps_map (insert_map hcmp alloc e ts.root false) fun _ => rfl
  · rfl

def PopStruct.map (f : E → F) (ps : PopStruct E) : PopStruct F :=
  ⟨ps.a.map (Option.map f), ps.len⟩

theorem push_map (ps : PopStruct E) (e : E) :
    (ps.map f).push (f e) = (ps.push e).map (PopStruct.map f) := by
  rw [PopStruct.push, PopStruct.push]
  change (if ps.len < (ps.a.map (Option.map f)).length then _ else _) = _
  rw [List.length_map]
  split_ifs
  · have hset : (ps.a.set ps.len (some e)).map (Option.map f) =
        (ps.a.map (Option.map f)).set ps.len (some (f e)) := List.map_set
    exact congrArg (fun a => some (⟨a, ps.len + 1⟩ : PopStruct F)) hset.symm
  · rfl

theorem populate_map (ps : PopStruct E) (t : TNode E) :
    populate (ps.map f) (t.map f) = (populate ps t).map (PopStruct.map f) := by
  induction t generalizing ps with
  | null => rfl
  | node l x b r ihl ihr =>
    exact steps_map (ihl ps) fun ps => steps_map (push_map ps x) fun ps => ihr ps

theorem tsItCreate_map (alloc : Bool) (ts : TreeSet E) :
    tsItCreate alloc (ts.map f cmp') = (tsItCreate alloc ts).map (Option.map (Iterator.map f)) := by
  have harray : genArray alloc (ts.map f cmp') =
      (genArray alloc ts).map (Option.map (PopStruct.map f)) := by
    rw [genArray, genArray]
    change (if 0 < ts.size ∧ alloc then _ else _) = _
    split_ifs
    · have hempty : PopStruct.map f ⟨List.replicate ts.size.toNat none, 0⟩ =
          ⟨List.replicate ts.size.toNat none, 0⟩ :=
        congrArg (fun a => (⟨a, 0⟩ : PopStruct F)) List.map_replicate
      refine steps_map ?_ fun _ => rfl
      exact (congrArg (populate · (ts.root.map f)) hempty.symm).trans (populate_map _ ts.root)
    · rfl
  refine steps_map harray fun ps => ?_
  cases ps with
  | none => rfl
  | some ps => cases alloc <;> rfl

end TreeSet

end CIS415
