import Mathlib.Data.List.Infix
import Mathlib.Data.List.TakeWhile

/-!
# Words of a line

A line is words separated by blanks. A word that starts with a quote goes on to the next equal quote, or
to the end of the line where there is none; any other word goes on to the next blank.
-/

/-- The letters that separate words and those that open and close a quoted word. -/
structure Lexis (α : Type*) where
  blank : α → Bool
  quote : α → Bool
  quote_not_blank : ∀ a, quote a → ¬ blank a

namespace Lexis

variable {α : Type*} [DecidableEq α] (L : Lexis α)

def nextWord (s : List α) : Option (List α × List α) :=
  match s.dropWhile L.blank with
  | [] => none
  | a :: s =>
    if L.quote a then
      some (s.takeWhile fun b => decide (b ≠ a), (s.dropWhile fun b => decide (b ≠ a)).drop 1)
    else
      some ((a :: s).takeWhile fun b => !L.blank b, (a :: s).dropWhile fun b => !L.blank b)

variable {L} {s w rest : List α}

theorem nextWord_eq_none_iff : L.nextWord s = none ↔ ∀ a ∈ s, L.blank a := by
  rw [← List.dropWhile_eq_nil_iff]
  unfold nextWord
  cases hdrop : s.dropWhile L.blank with
  | nil => exact iff_of_true rfl rfl
  | cons a t => by_cases hq : L.quote a <;> simp [hq]

/-- The rest is an end of the line, and the word with its quotes is not empty. -/
theorem nextWord_suffix (h : L.nextWord s = some (w, rest)) :
    rest <:+ s ∧ rest.length < s.length ∧ w.length + rest.length ≤ s.length := by
  have hsuffix := List.dropWhile_suffix L.blank (l := s)
  unfold nextWord at h
  cases hdrop : s.dropWhile L.blank with
  | nil =>
    rw [hdrop] at h
    cases h
  | cons a t =>
    rw [hdrop] at h hsuffix
    have hlength := hsuffix.length_le
    rw [List.length_cons] at hlength
    have hcut (p : α → Bool) (l : List α) :
        (l.takeWhile p).length + (l.dropWhile p).length = l.length := by
      rw [← List.length_append, List.takeWhile_append_dropWhile]
    by_cases hq : L.quote a
    · simp only [hq, if_true, Option.some.injEq, Prod.mk.injEq] at h
      obtain ⟨rfl, rfl⟩ := h
      have ht := hcut (fun b => decide (b ≠ a)) t
      refine ⟨?_, ?_, ?_⟩
      · exact ((List.drop_suffix 1 _).trans (List.dropWhile_suffix _)).trans
          ((List.suffix_cons a t).trans hsuffix)
      · rw [List.length_drop]
        omega
      · rw [List.length_drop]
        omega
    · have hblank : ¬ L.blank a := by
        have hhead := List.head?_dropWhile_not L.blank s
        rw [hdrop] at hhead
        simpa using hhead
      have hta := hcut (fun b => !L.blank b) (a :: t)
      have hw : (a :: t).takeWhile (fun b => !L.blank b) = a :: t.takeWhile fun b => !L.blank b :=
        List.takeWhile_cons_of_pos (by simp [hblank])
      simp only [hq, Bool.false_eq_true, if_false, Option.some.injEq, Prod.mk.injEq] at h
      obtain ⟨rfl, rfl⟩ := h
      rw [List.length_cons] at hta
      refine ⟨(List.dropWhile_suffix _).trans hsuffix, ?_, ?_⟩
      · rw [hw, List.length_cons] at hta
        omega
      · omega

theorem nextWord_blanks {blanks : List α} (h : ∀ a ∈ blanks, L.blank a) (s : List α) :
    L.nextWord (blanks ++ s) = L.nextWord s := by
  unfold nextWord
  rw [List.dropWhile_append_of_pos h]

def Ends (L : Lexis α) (s : List α) : Prop :=
  ∀ a ∈ s.head?, L.blank a

theorem nextWord_bare (hw : w ≠ []) (hblank : ∀ a ∈ w, ¬ L.blank a) (hquote : ∀ a ∈ w.head?, ¬ L.quote a)
    (hrest : L.Ends rest) : L.nextWord (w ++ rest) = some (w, rest) := by
  cases w with
  | nil => exact absurd rfl hw
  | cons a w =>
    have ha : ¬ L.blank a := hblank a List.mem_cons_self
    have hq : ¬ L.quote a := hquote a rfl
    have hall : ∀ b ∈ a :: w, (!L.blank b) = true := by
      intro b hb
      simpa using hblank b hb
    have hskip : (a :: w ++ rest).dropWhile L.blank = a :: (w ++ rest) := by
      rw [List.cons_append]
      exact List.dropWhile_cons_of_neg ha
    have hword : (a :: w ++ rest).takeWhile (fun b => !L.blank b) = a :: w := by
      rw [List.takeWhile_append_of_pos hall]
      cases rest with
      | nil => exact List.append_nil _
      | cons b rest => simp [hrest b rfl]
    have hleft : (a :: w ++ rest).dropWhile (fun b => !L.blank b) = rest := by
      rw [List.dropWhile_append_of_pos hall]
      cases rest with
      | nil => rfl
      | cons b rest => simp [hrest b rfl]
    unfold nextWord
    rw [hskip]
    simp only [hq, Bool.false_eq_true, if_false]
    rw [← List.cons_append, hword, hleft]

theorem nextWord_quoted {q : α} (hq : L.quote q) (hw : q ∉ w) (rest : List α) :
    L.nextWord (q :: (w ++ q :: rest)) = some (w, rest) := by
  have hskip : (q :: (w ++ q :: rest)).dropWhile L.blank = q :: (w ++ q :: rest) :=
    List.dropWhile_cons_of_neg (L.quote_not_blank q hq)
  have hall : ∀ b ∈ w, decide (b ≠ q) = true := by
    intro b hb
    apply decide_eq_true
    rintro rfl
    exact hw hb
  unfold nextWord
  rw [hskip]
  simp only [hq, if_true]
  rw [List.takeWhile_append_of_pos hall, List.dropWhile_append_of_pos hall]
  simp

def split (L : Lexis α) (s : List α) : List (List α) :=
  match _h : L.nextWord s with
  | none => []
  | some (w, rest) => w :: L.split rest
termination_by s.length
decreasing_by exact (nextWord_suffix _h).2.1

theorem split_of_none (h : L.nextWord s = none) : L.split s = [] := by
  rw [split]
  split
  case h_1 => rfl
  case h_2 hsome => exact absurd (h.symm.trans hsome) (Option.some_ne_none _).symm

theorem split_of_some (h : L.nextWord s = some (w, rest)) : L.split s = w :: L.split rest := by
  rw [split]
  split
  case h_1 hnone => exact absurd (hnone.symm.trans h) (Option.some_ne_none _).symm
  case h_2 hsome =>
    obtain ⟨rfl, rfl⟩ := Prod.mk.inj (Option.some.inj (hsome.symm.trans h))
    rfl

/-- There are no more words than letters: an empty word has quotes. -/
theorem length_split_le (L : Lexis α) (s : List α) : (L.split s).length ≤ s.length := by
  induction s using split.induct (L := L) with
  | case1 s h =>
    rw [split_of_none h]
    exact Nat.zero_le _
  | case2 s w rest h ih =>
    have hlt := (nextWord_suffix h).2.1
    rw [split_of_some h, List.length_cons]
    omega

inductive Quoting (α : Type*) where
  | bare
  | quoted (q : α)

def Quoting.Allows (L : Lexis α) : Quoting α → List α → Prop
  | bare, w => w ≠ [] ∧ (∀ a ∈ w, ¬ L.blank a) ∧ ∀ a ∈ w.head?, ¬ L.quote a
  | quoted q, w => L.quote q ∧ q ∉ w

def Quoting.write : Quoting α → List α → List α
  | bare, w => w
  | quoted q, w => q :: (w ++ [q])

/-- A word as it is written, and the blanks in front of it. -/
structure Item (L : Lexis α) where
  before : List α
  quoting : Quoting α
  word : List α
  blanks : ∀ a ∈ before, L.blank a
  allowed : quoting.Allows L word

def Item.letters (it : Item L) : List α :=
  it.before ++ it.quoting.write it.word

/-- A line that words are written on; there are blanks between two words. -/
structure Line (L : Lexis α) where
  items : List (Item L)
  after : List α
  blanks : ∀ a ∈ after, L.blank a
  apart : ∀ it ∈ items.tail, it.before ≠ []

namespace Line

def letters (l : Line L) : List α :=
  l.items.flatMap Item.letters ++ l.after

def words (l : Line L) : List (List α) :=
  l.items.map Item.word

omit [DecidableEq α] in
theorem ends_of_apart {items : List (Item L)} {after : List α} (hafter : ∀ a ∈ after, L.blank a)
    (hapart : ∀ it ∈ items, it.before ≠ []) : L.Ends (items.flatMap Item.letters ++ after) := by
  intro a ha
  cases items with
  | nil => exact hafter a (List.mem_of_mem_head? ha)
  | cons it items =>
    apply it.blanks
    have hne := hapart it List.mem_cons_self
    cases hbefore : it.before with
    | nil => exact absurd hbefore hne
    | cons b before =>
      rw [List.flatMap_cons, Item.letters, hbefore] at ha
      obtain rfl : b = a := Option.some.inj ha
      exact List.mem_cons_self

theorem split_items (items : List (Item L)) {after : List α} (hafter : ∀ a ∈ after, L.blank a)
    (hapart : ∀ it ∈ items.tail, it.before ≠ []) :
    L.split (items.flatMap Item.letters ++ after) = items.map Item.word := by
  induction items with
  | nil => exact split_of_none (nextWord_eq_none_iff.mpr hafter)
  | cons it items ih =>
    have hends := ends_of_apart hafter hapart
    have hsplit := ih fun it hit => hapart it (List.mem_of_mem_tail hit)
    have hnext : L.nextWord (it.quoting.write it.word ++ (items.flatMap Item.letters ++ after)) =
        some (it.word, items.flatMap Item.letters ++ after) := by
      have hallowed := it.allowed
      cases hquoting : it.quoting with
      | bare =>
        rw [hquoting] at hallowed
        exact nextWord_bare hallowed.1 hallowed.2.1 hallowed.2.2 hends
      | quoted q =>
        rw [hquoting] at hallowed
        rw [Quoting.write, List.cons_append, List.append_assoc]
        exact nextWord_quoted hallowed.1 hallowed.2 _
    rw [List.flatMap_cons, Item.letters, List.append_assoc, List.append_assoc, List.map_cons, ← hsplit]
    apply split_of_some
    rw [nextWord_blanks it.blanks, hnext]

/-- The words that were written are read back. -/
theorem split_letters (l : Line L) : L.split l.letters = l.words :=
  split_items l.items l.blanks l.apart

end Line

end Lexis
