import CIS415.FileCrawler
import CIS415.Lib.EreLine

/-!
# What the converted patterns of file_crawler_single.c match

`cvtPattern` turns a pattern of the shell into an extended regular expression between two anchors. A
pattern without bytes that only the expression gives a meaning matches as the shell has it.
-/

namespace CIS415.FileCrawler

open Ere CString

/-- `regcomp` with `REG_EXTENDED|REG_NEWLINE`, and what `regexec` then answers. -/
def regcomp (pattern : CString) : Option (CString → Bool) :=
  (compile pattern.bytes).map fun r s => regexec r s.bytes

/-- The bytes `^`, `$`, `(`, `|`, `+` and `{`, which have a meaning in the expression only. -/
def special : List UInt8 := [94, 36, 40, 124, 43, 123]

/-- The bytes `*`, `?`, `[`, `]` and backslash, which have a meaning in the pattern. -/
def globBytes : List UInt8 := [42, 63, 91, 93, 92]

def isAlnum (b : UInt8) : Bool :=
  48 ≤ b ∧ b ≤ 57 ∨ 65 ≤ b ∧ b ≤ 90 ∨ 97 ≤ b ∧ b ≤ 122

/-- A byte that neither the pattern nor the expression gives a meaning, or `.`. -/
structure Ordinary (b : UInt8) : Prop where
  ne_zero : b ≠ 0
  not_special : b ∉ special
  ne_glob : b ∉ ([42, 63, 91, 92] : List UInt8)

inductive Item
  | star
  | question
  | set (members : List UInt8) (ne_nil : members ≠ []) (alnum : ∀ b ∈ members, isAlnum b)
  | char (b : UInt8) (ordinary : Ordinary b)

namespace Item

def bytes : Item → List UInt8
  | star => [42]
  | question => [63]
  | set members _ _ => 91 :: (members ++ [93])
  | char b _ => [b]

def Accepts : Item → List UInt8 → Prop
  | star, _ => True
  | question, w => w.length = 1
  | set members _ _, w => ∃ c ∈ members, w = [c]
  | char b _, w => w = [b]

def piece : Item → Piece
  | star => ⟨.any, some (0, none)⟩
  | question => ⟨.any, none⟩
  | set members _ _ => ⟨.set false (members.map fun c => (c, c)), none⟩
  | char b _ => ⟨.char b, none⟩

end Item

/-- The whole name is cut into one part for each item. -/
def GlobMatches : List Item → List UInt8 → Prop
  | [], w => w = []
  | item :: items, w => ∃ pre post, w = pre ++ post ∧ item.Accepts pre ∧ GlobMatches items post

theorem isAlnum_not_mem {b : UInt8} (h : isAlnum b) :
    b ∉ ([0, 42, 46, 63, 91, 93, 45, 94] : List UInt8) := by
  intro hin
  simp only [List.mem_cons, List.not_mem_nil, or_false] at hin
  rcases hin with rfl | rfl | rfl | rfl | rfl | rfl | rfl | rfl <;> exact absurd h (by decide)

theorem Item.noNul (item : Item) : 0 ∉ item.bytes := by
  cases item with
  | star => decide
  | question => decide
  | set members _ halnum =>
    have hmembers : 0 ∉ members := fun h0 => isAlnum_not_mem (halnum 0 h0) List.mem_cons_self
    simp [bytes, hmembers]
  | char b hb => simpa [bytes] using hb.ne_zero.symm

def render (items : List Item) : CString where
  bytes := items.flatMap Item.bytes
  noNul := by
    intro h0
    obtain ⟨item, -, hitem⟩ := List.mem_flatMap.mp h0
    exact item.noNul hitem

theorem lexes_ordinary {b : UInt8} (hb : Ordinary b) {rest : List UInt8} {ts : List Token}
    (h : Lexes rest ts) : Lexes (cvtByte b ++ rest) ((Atom.char b).token :: ts) := by
  have hspecial := hb.not_special
  have hglob := hb.ne_glob
  simp only [special, List.mem_cons, List.not_mem_nil, or_false, not_or] at hspecial hglob
  by_cases hdot : b = 46
  · obtain rfl := hdot
    have htoken : token 92 (46 :: rest) = some ((Atom.char 46).token, rest) := rfl
    exact .cons htoken h
  · have hcvt : cvtByte b = [b] := by simp [cvtByte, hdot, hglob]
    rw [hcvt]
    by_cases hclosing : b = 41
    · obtain rfl := hclosing
      have htoken : token 41 rest = some ((Atom.char 41).token, rest) := rfl
      exact .cons htoken h
    · have htoken : (Atom.char b).token = .leaf (.atom (.char b)) := by simp [Atom.token, hclosing]
      rw [htoken]
      refine .cons (token_ordinary ?_ ?_) h
      · simp [operators, hdot, hclosing, hspecial, hglob]
      · simp [hspecial, hglob]

theorem flatMap_cvtByte {l : List UInt8} (h : ∀ b ∈ l, isAlnum b) : l.flatMap cvtByte = l := by
  induction l with
  | nil => rfl
  | cons b l ih =>
    obtain ⟨hb, hl⟩ := List.forall_mem_cons.mp h
    have hne := isAlnum_not_mem hb
    simp only [List.mem_cons, List.not_mem_nil, or_false, not_or] at hne
    rw [List.flatMap_cons, ih hl]
    simp [cvtByte, hne]

theorem Item.lexes (item : Item) {rest : List UInt8} {ts : List Token} (h : Lexes rest ts) :
    Lexes (item.bytes.flatMap cvtByte ++ rest) (item.piece.tokens ++ ts) := by
  cases item with
  | star =>
    have hany : token 46 (42 :: rest) = some (Atom.any.token, 42 :: rest) := rfl
    have hdup : token 42 rest = some (.dup 0 none, rest) := rfl
    exact .cons hany (.cons hdup h)
  | question =>
    have hany : token 46 rest = some (Atom.any.token, rest) := rfl
    exact .cons hany h
  | set members hne halnum =>
    have hbytes : (91 :: (members ++ [93])).flatMap cvtByte ++ rest = 91 :: (members ++ 93 :: rest) := by
      simp [flatMap_cvtByte halnum, cvtByte]
    have hbracket : bracket (members ++ 93 :: rest) =
        some (.leaf (.atom (.set false (members.map fun c => (c, c)))), rest) := by
      apply bracket_bytes hne
      intro c hc hin
      exact isAlnum_not_mem (halnum c hc) (List.mem_append_right [0, 42, 46, 63] hin)
    change Lexes ((91 :: (members ++ [93])).flatMap cvtByte ++ rest) _
    rw [hbytes]
    exact .cons (b := 91) hbracket h
  | char b hb =>
    change Lexes ([b].flatMap cvtByte ++ rest) _
    rw [List.flatMap_singleton]
    exact lexes_ordinary hb h

theorem lexes_items (items : List Item) {rest : List UInt8} {ts : List Token} (h : Lexes rest ts) :
    Lexes ((items.flatMap Item.bytes).flatMap cvtByte ++ rest)
      ((items.map Item.piece).flatMap Piece.tokens ++ ts) := by
  induction items with
  | nil => exact h
  | cons item items ih =>
    simp only [List.flatMap_cons, List.map_cons, List.flatMap_append, List.append_assoc]
    exact item.lexes ih

def expression (items : List Item) : Re :=
  .cat (sequence (.cat .empty (.leaf .bol)) (items.map Item.piece)) (.leaf .eol)

theorem compile_render (items : List Item) :
    compile (cvtPattern (render items)).bytes = some (expression items) := by
  have hend : Lexes [36] [.leaf .eol] := .cons (b := 36) rfl .nil
  have hlex : lex (cvtPattern (render items)).bytes =
      some (.leaf .bol :: ((items.map Item.piece).flatMap Piece.tokens ++ [.leaf .eol])) :=
    lex_eq_some.mpr (.cons (b := 94) rfl (lexes_items items hend))
  simp only [compile, hlex, Option.bind_eq_bind, Option.bind_some, parse_anchored]
  rfl

/-- An item takes of a line what it stands for. -/
theorem Item.takes_iff (item : Item) {w : List UInt8} (hw : newline ∉ w) :
    item.piece.Takes w ↔ item.Accepts w := by
  cases item with
  | star =>
    have hall : ∀ c ∈ w, Atom.any.accepts c := by
      intro c hc
      apply decide_eq_true
      rintro rfl
      exact hw hc
    constructor
    · intro _
      trivial
    · intro _
      exact ⟨Nat.zero_le _, by simp, hall⟩
  | question =>
    constructor
    · rintro ⟨c, rfl, -⟩
      rfl
    · intro hlen
      obtain ⟨c, rfl⟩ := List.length_eq_one_iff.mp hlen
      refine ⟨c, rfl, decide_eq_true ?_⟩
      rintro rfl
      exact hw List.mem_cons_self
  | set members hne halnum =>
    have haccepts : ∀ c, (Atom.set false (members.map fun c => (c, c))).accepts c ↔ c ∈ members := by
      intro c
      simp only [Atom.accepts, List.any_map, List.any_eq_true, Function.comp_apply, decide_eq_true_eq]
      constructor
      · rintro ⟨d, hd, hle, hge⟩
        obtain rfl := UInt8.le_antisymm hle hge
        exact hd
      · intro hc
        exact ⟨c, hc, UInt8.le_refl c, UInt8.le_refl c⟩
    constructor
    · rintro ⟨c, rfl, hc⟩
      exact ⟨c, (haccepts c).mp hc, rfl⟩
    · rintro ⟨c, hc, rfl⟩
      exact ⟨c, rfl, (haccepts c).mpr hc⟩
  | char b hb =>
    constructor
    · rintro ⟨c, rfl, hc⟩
      obtain rfl := of_decide_eq_true hc
      rfl
    · rintro rfl
      exact ⟨b, rfl, decide_eq_true rfl⟩

theorem take_iff_globMatches {items : List Item} {w : List UInt8} (hw : newline ∉ w) :
    Take (items.map Item.piece) w ↔ GlobMatches items w := by
  induction items generalizing w with
  | nil => rfl
  | cons item items ih =>
    have hparts : ∀ pre post, w = pre ++ post →
        (item.piece.Takes pre ∧ Take (items.map Item.piece) post ↔
          item.Accepts pre ∧ GlobMatches items post) := by
      rintro pre post rfl
      have hpre : newline ∉ pre := fun h => hw (List.mem_append_left post h)
      have hpost : newline ∉ post := fun h => hw (List.mem_append_right pre h)
      rw [item.takes_iff hpre, ih hpost]
    constructor
    · rintro ⟨pre, post, heq, h⟩
      exact ⟨pre, post, heq, (hparts pre post heq).mp h⟩
    · rintro ⟨pre, post, heq, h⟩
      exact ⟨pre, post, heq, (hparts pre post heq).mpr h⟩

theorem regexec_expression {items : List Item} {w : List UInt8} (hw : newline ∉ w) :
    regexec (expression items) w ↔ GlobMatches items w :=
  (regexec_anchored hw).trans (take_iff_globMatches hw)

theorem reCompile_eq_some {pattern : CString} {reg : RegExp} :
    reCompile regcomp pattern = some reg ↔
      ∃ r, compile pattern.bytes = some r ∧ reg = ⟨fun s => regexec r s.bytes⟩ := by
  rw [reCompile, regcomp, Option.map_map, Option.map_eq_some_iff]
  exact exists_congr fun r => and_congr_right fun _ => eq_comm

/-- The converted pattern compiles and matches the names that the pattern matches. -/
theorem cvtPattern_glob (items : List Item) :
    ∃ reg, reCompile regcomp (cvtPattern (render items)) = some reg ∧
      ∀ name : CString, newline ∉ name.bytes →
        (reg.re_match name = true ↔ GlobMatches items name.bytes) :=
  ⟨_, reCompile_eq_some.mpr ⟨expression items, compile_render items, rfl⟩,
    fun _ hname => regexec_expression hname⟩

theorem cvtPattern_glob_sources :
    ∃ reg, reCompile regcomp (cvtPattern ⟨[42, 46, 91, 99, 104, 93], by decide⟩) = some reg ∧
      reg.re_match ⟨[97, 46, 99], by decide⟩ = true := by
  have hdot : Ordinary 46 := ⟨by decide, by decide, by decide⟩
  have halnum : ∀ b ∈ ([99, 104] : List UInt8), isAlnum b := by simp [isAlnum]
  obtain ⟨reg, hreg, hmatch⟩ :=
    cvtPattern_glob [.star, .char 46 hdot, .set [99, 104] (List.cons_ne_nil 99 [104]) halnum]
  refine ⟨reg, hreg, (hmatch _ (by decide)).mpr ⟨[97], [46, 99], rfl, trivial, [46], [99], rfl, rfl, ?_⟩⟩
  exact ⟨[99], [], rfl, ⟨99, List.mem_cons_self, rfl⟩, rfl⟩

end CIS415.FileCrawler
