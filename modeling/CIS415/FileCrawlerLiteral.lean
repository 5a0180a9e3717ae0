import CIS415.FileCrawlerPattern

/-!
# Patterns that stand for themselves

`cvtPattern` escapes `.` and no other byte that the expression gives a meaning. A pattern without glob
bytes and without a newline matches itself and nothing else exactly when it has none of those bytes. With
a newline it can have them and still match as it should, which is not at all: no name of a single line is
the pattern.
-/

namespace CIS415.FileCrawler

open Ere CString

/-- The converted pattern compiles, and the pattern is the only name of a single line that matches. -/
def Literal (pat : CString) : Prop :=
  ∃ reg, reCompile regcomp (cvtPattern pat) = some reg ∧
    ∀ name : CString, newline ∉ name.bytes → (reg.re_match name = true ↔ name = pat)

/-- The converted pattern is well formed, and every way through it passes a newline, a `^` after a byte or
a byte after a `$`. -/
def Barren (pat : CString) : Prop :=
  ∃ r, compile (cvtPattern pat).bytes = some r ∧ ¬ r.passable

inductive Converted : List UInt8 → Prop
  | nil : Converted []
  | dot {bs} : Converted bs → Converted (92 :: 46 :: bs)
  | byte {b bs} : b ≠ 0 → b ∉ ([46, 42, 63, 91, 92] : List UInt8) → Converted bs → Converted (b :: bs)

theorem converted_flatMap {l rest : List UInt8} (h0 : 0 ∉ l) (hglob : ∀ b ∈ l, b ∉ globBytes)
    (hrest : Converted rest) : Converted (l.flatMap cvtByte ++ rest) := by
  induction l with
  | nil => exact hrest
  | cons b l ih =>
    obtain ⟨hb, hl⟩ := List.forall_mem_cons.mp hglob
    have hb0 : b ≠ 0 := fun h => h0 (by rw [h]; exact List.mem_cons_self)
    have htail := ih (List.not_mem_of_not_mem_cons h0) hl
    simp only [globBytes, List.mem_cons, List.not_mem_nil, or_false, not_or] at hb
    rw [List.flatMap_cons, List.append_assoc]
    by_cases hdot : b = 46
    · obtain rfl := hdot
      exact .dot htail
    · have hcvt : cvtByte b = [b] := by simp [cvtByte, hdot, hb]
      rw [hcvt]
      exact .byte hb0 (by simp [hdot, hb]) htail

theorem cvtPattern_converted {pat : CString} (hglob : ∀ b ∈ pat.bytes, b ∉ globBytes) :
    Converted (cvtPattern pat).bytes := by
  have hend : Converted [36] := .byte (by decide) (by decide) .nil
  exact .byte (by decide) (by decide) (converted_flatMap pat.noNul hglob hend)

theorem Converted.tail {b : UInt8} {bs : List UInt8} (h : Converted (b :: bs)) (hb : b ≠ 92) :
    Converted bs := by
  cases h with
  | dot h => exact absurd rfl hb
  | byte _ _ h => exact h

theorem Converted.of_append {pre rest : List UInt8} (h : Converted (pre ++ rest)) (hpre : 92 ∉ pre) :
    Converted rest := by
  induction pre with
  | nil => exact h
  | cons b pre ih =>
    have hb : b ≠ 92 := fun h92 => hpre (by rw [h92]; exact List.mem_cons_self)
    exact ih (h.tail hb) (List.not_mem_of_not_mem_cons hpre)

/-- An anchor, or an atom for a byte that only stands for itself. -/
def Plain : Leaf → Prop
  | .atom (.char c) => c ≠ 0 ∧ c ∉ special
  | .atom _ => False
  | _ => True

theorem token_plain {b : UInt8} {bs rest : List UInt8} {t : Token} (h : Converted (b :: bs))
    (ht : token b bs = some (t, rest)) : Converted rest ∧ ∀ l, t = .leaf l → Plain l := by
  cases h with
  | @dot bs h =>
    have htoken : some ((Token.leaf (.atom (.char 46)) : Token), bs) = some (t, rest) := ht
    obtain ⟨rfl, rfl⟩ := Prod.mk.inj (Option.some.inj htoken)
    refine ⟨h, ?_⟩
    rintro _ ⟨⟩
    exact ⟨by decide, by decide⟩
  | byte hb0 hb h =>
    simp only [List.mem_cons, List.not_mem_nil, or_false, not_or] at hb
    unfold token at ht
    split at ht
    next t' hlookup =>
      obtain ⟨rfl, rfl⟩ := Prod.mk.inj (Option.some.inj ht)
      refine ⟨h, ?_⟩
      rintro l rfl
      obtain ⟨l₁, l₂, hops, -⟩ := List.lookup_eq_some_iff.mp hlookup
      have hmem : (b, Token.leaf l) ∈ operators := by
        rw [hops]
        exact List.mem_append_right l₁ List.mem_cons_self
      have hanchor : b = 94 ∧ l = .bol ∨ b = 36 ∧ l = .eol := by simpa [operators, hb.1] using hmem
      rcases hanchor with ⟨-, rfl⟩ | ⟨-, rfl⟩
      · trivial
      · trivial
    next hlookup =>
      split_ifs at ht with hbrace
      · obtain ⟨⟨body, rfl, hbody⟩, lo, hi, rfl⟩ := interval_eq_some ht
        have hescape : 92 ∉ body ++ [125] := by
          intro h92
          rcases List.mem_append.mp h92 with h92 | h92
          · exact absurd (hbody 92 h92) (by decide)
          · exact absurd h92 (by decide)
        have happend : body ++ 125 :: rest = body ++ [125] ++ rest := by simp
        rw [happend] at h
        exact ⟨h.of_append hescape, by rintro _ ⟨⟩⟩
      · exact absurd ‹b = 91› hb.2.2.2.1
      · exact absurd ‹b = 92› hb.2.2.2.2
      · obtain ⟨rfl, rfl⟩ := Prod.mk.inj (Option.some.inj ht)
        refine ⟨h, ?_⟩
        rintro _ ⟨⟩
        refine ⟨hb0, ?_⟩
        intro hin
        simp only [special, List.mem_cons, List.not_mem_nil, or_false] at hin
        rcases hin with rfl | rfl | rfl | rfl | rfl | rfl
        iterate 5 exact absurd hlookup (by decide)
        exact hbrace rfl

theorem lexes_plain {bs : List UInt8} {ts : List Token} (h : Lexes bs ts) (hbs : Converted bs) :
    ∀ l, .leaf l ∈ ts → Plain l := by
  induction h with
  | nil => simp
  | cons ht _ ih =>
    obtain ⟨hrest, hplain⟩ := token_plain hbs ht
    intro l hl
    rcases List.mem_cons.mp hl with hl | hl
    · exact hplain l hl.symm
    · exact ih hrest l hl

/-- Without glob bytes, every atom of the expression is for one byte, which is not special. -/
theorem compile_plain {pat : CString} (hglob : ∀ b ∈ pat.bytes, b ∉ globBytes) {r : Re}
    (h : compile (cvtPattern pat).bytes = some r) : ∀ l ∈ r.leaves, Plain l := by
  obtain ⟨ts, hlex, hparse⟩ := Option.bind_eq_some_iff.mp h
  have hplain := lexes_plain (lex_eq_some.mp hlex) (cvtPattern_converted hglob)
  intro l hl
  rcases parse_leaves hparse hl with hts | rfl
  · exact hplain l hts
  · exact ⟨by decide, by decide⟩

theorem byte_of_accepted {r : Re} (hplain : ∀ l ∈ r.leaves, Plain l) {c : UInt8}
    (h : ∃ a, .atom a ∈ r.leaves ∧ a.accepts c) : c ≠ 0 ∧ c ∉ special := by
  obtain ⟨a, ha, hacc⟩ := h
  have hp := hplain _ ha
  cases a with
  | char d =>
    obtain rfl := of_decide_eq_true hacc
    exact hp
  | any => exact hp.elim
  | set negated ranges => exact hp.elim

theorem globMatches_char {l : List UInt8} (hl : ∀ b ∈ l, Ordinary b) {w : List UInt8} :
    GlobMatches (l.pmap Item.char hl) w ↔ w = l := by
  induction l generalizing w with
  | nil => rfl
  | cons b l ih =>
    obtain ⟨hb, hl⟩ := List.forall_mem_cons.mp hl
    constructor
    · rintro ⟨pre, post, rfl, hpre, hmatch⟩
      rw [(ih hl).mp hmatch, show pre = [b] from hpre]
      rfl
    · rintro rfl
      exact ⟨[b], l, rfl, rfl, (ih hl).mpr rfl⟩

theorem render_char {pat : CString} (hl : ∀ b ∈ pat.bytes, Ordinary b) :
    render (pat.bytes.pmap Item.char hl) = pat := by
  have hbytes : ∀ (l : List UInt8) (hl : ∀ b ∈ l, Ordinary b),
      (l.pmap Item.char hl).flatMap Item.bytes = l := by
    intro l hl
    induction l with
    | nil => rfl
    | cons b l ih =>
      rw [List.pmap_cons, List.flatMap_cons, ih]
      rfl
  exact ext_bytes (hbytes pat.bytes hl)

theorem literal_of_ordinary {pat : CString} (hpat : ∀ b ∈ pat.bytes, Ordinary b) : Literal pat := by
  have hcompile := compile_render (pat.bytes.pmap Item.char hpat)
  rw [render_char hpat] at hcompile
  refine ⟨_, reCompile_eq_some.mpr ⟨_, hcompile, rfl⟩, ?_⟩
  intro name hname
  rw [regexec_expression hname, globMatches_char hpat]
  constructor
  · exact ext_bytes
  · rintro rfl
    rfl

theorem literal_of_not_special {pat : CString} (hglob : ∀ b ∈ pat.bytes, b ∉ globBytes)
    (hspecial : ∀ b ∈ pat.bytes, b ∉ special) : Literal pat := by
  apply literal_of_ordinary
  intro b hb
  have hne := hglob b hb
  simp only [globBytes, List.mem_cons, List.not_mem_nil, or_false, not_or] at hne
  have hzero : b ≠ 0 := fun h0 => pat.noNul (by rw [← h0]; exact hb)
  exact ⟨hzero, hspecial b hb, by simp [hne]⟩

theorem literal_of_barren {pat : CString} (hline : newline ∈ pat.bytes) (h : Barren pat) :
    Literal pat := by
  obtain ⟨r, hr, hpass⟩ := h
  refine ⟨_, reCompile_eq_some.mpr ⟨r, hr, rfl⟩, ?_⟩
  intro name hname
  constructor
  · intro hmatch
    exact absurd (passable_of_regexec hname hmatch) hpass
  · rintro rfl
    exact absurd hline hname

/-- A name of one line that matches has a part that matches by itself, without special bytes. -/
theorem exists_name {pat : CString} (hglob : ∀ b ∈ pat.bytes, b ∉ globBytes) {r : Re}
    (h : compile (cvtPattern pat).bytes = some r) {w : List UInt8}
    (hall : ∀ c ∈ w, ∃ a, .atom a ∈ r.leaves ∧ a.accepts c) :
    ∃ name : CString, name.bytes = w ∧ ∀ c ∈ w, c ∉ special := by
  have hplain := compile_plain hglob h
  refine ⟨⟨w, ?_⟩, rfl, ?_⟩
  · intro h0
    exact (byte_of_accepted hplain (hall 0 h0)).1 rfl
  · intro c hc
    exact (byte_of_accepted hplain (hall c hc)).2

/-- With a newline, the whole expression decides. -/
theorem literal_iff_barren {pat : CString} (hglob : ∀ b ∈ pat.bytes, b ∉ globBytes)
    (hline : newline ∈ pat.bytes) : Literal pat ↔ Barren pat := by
  constructor
  · rintro ⟨reg, hreg, hmatch⟩
    obtain ⟨r, hr, rfl⟩ := reCompile_eq_some.mp hreg
    refine ⟨r, hr, fun hpass => ?_⟩
    obtain ⟨w, hw, hregexec, hall⟩ := exists_line_of_passable hpass
    obtain ⟨name, rfl, -⟩ := exists_name hglob hr hall
    obtain rfl := (hmatch name hw).mp hregexec
    exact hw hline
  · exact literal_of_barren hline

/-- A pattern without glob bytes matches itself and no other name if none of its bytes is special, and
a pattern of one line only then. -/
theorem literal_iff (pat : CString) (hglob : ∀ b ∈ pat.bytes, b ∉ globBytes) :
    ((∀ b ∈ pat.bytes, b ∉ special) → Literal pat) ∧
      (newline ∉ pat.bytes → (Literal pat ↔ ∀ b ∈ pat.bytes, b ∉ special)) := by
  refine ⟨literal_of_not_special hglob, fun hline => ⟨?_, literal_of_not_special hglob⟩⟩
  rintro ⟨reg, hreg, hmatch⟩
  obtain ⟨r, hr, rfl⟩ := reCompile_eq_some.mp hreg
  obtain ⟨w, hpart, hregexec, hall⟩ := exists_part hline ((hmatch pat hline).mpr rfl)
  obtain ⟨name, rfl, hspecial⟩ := exists_name hglob hr hall
  obtain rfl := (hmatch name fun h => hline (hpart.subset h)).mp hregexec
  exact hspecial

theorem literal_iff_dot : Literal ⟨[97, 46, 99], by decide⟩ := by
  have hglob : ∀ b ∈ ([97, 46, 99] : List UInt8), b ∉ globBytes := by simp [globBytes]
  have hspecial : ∀ b ∈ ([97, 46, 99] : List UInt8), b ∉ special := by simp [special]
  exact ((literal_iff ⟨[97, 46, 99], by decide⟩ hglob).2 (by decide)).mpr hspecial

/-- The pattern `a+` matches the name `aa`. -/
theorem plus_not_literal :
    ¬ ∀ pat : CString, pat.bytes ≠ [] → (∀ b ∈ pat.bytes, b ∉ globBytes) → Literal pat := by
  intro h
  obtain ⟨reg, hreg, hmatch⟩ :=
    h ⟨[97, 43], by decide⟩ (List.cons_ne_nil 97 [43]) (by simp [globBytes])
  obtain ⟨r, hr, rfl⟩ := reCompile_eq_some.mp hreg
  have hcompile : (compile [94, 97, 43, 36]).any (fun r => regexec r [97, 97]) = true := by decide
  have hregexec : regexec r [97, 97] = true := by
    rw [show compile [94, 97, 43, 36] = some r from hr] at hcompile
    exact hcompile
  have hname := (hmatch ⟨[97, 97], by decide⟩ (by decide)).mp hregexec
  exact absurd (congrArg CString.bytes hname) (by decide)

end CIS415.FileCrawler
