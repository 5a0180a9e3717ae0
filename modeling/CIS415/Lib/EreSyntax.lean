import CIS415.Lib.Ere
import Mathlib.Data.List.Infix

/-!
# The syntax of extended regular expressions

`compile` reads an expression: the bytes are cut into tokens, and the tokens are put together by a stack
of frames, one for each group that is open. It fails on an expression that is not well formed. Where the
standard leaves the meaning open, a repetition with nothing before it is an error, alternatives and
groups may be empty, a parenthesis that closes no group stands for itself, and so does a byte after a
backslash.
-/

namespace Ere

inductive Token
  | leaf (l : Leaf)
  | opening
  | closing
  | bar
  | dup (lo : ℕ) (hi : Option ℕ)
deriving DecidableEq

def isDigit (b : UInt8) : Bool :=
  48 ≤ b ∧ b ≤ 57

def number (digits : List UInt8) : ℕ :=
  digits.foldl (fun n d => 10 * n + (d.toNat - 48)) 0

def dupMax : ℕ := 32767

/-- The bounds between the braces of an interval: `m`, or `m,n` where either may be left out. -/
def bounds (body : List UInt8) : Option (ℕ × Option ℕ) :=
  if body.all fun b => isDigit b ∨ b = 44 then
    match body.splitOn 44 with
    | [lo] => if lo = [] then none else some (number lo, some (number lo))
    | [lo, hi] => some (number lo, if hi = [] then none else some (number hi))
    | _ => none
  else none

def interval (bs : List UInt8) : Option (Token × List UInt8) :=
  match bs.dropWhile (fun b => decide (b ≠ 125)) with
  | [] => none
  | _ :: rest => do
    let (lo, hi) ← bounds (bs.takeWhile fun b => decide (b ≠ 125))
    if lo ≤ hi.getD lo ∧ hi.getD lo ≤ dupMax then some (.dup lo hi, rest) else none

def classes : List (String × List (UInt8 × UInt8)) :=
  [("alnum", [(48, 57), (65, 90), (97, 122)]), ("alpha", [(65, 90), (97, 122)]),
    ("blank", [(9, 9), (32, 32)]), ("cntrl", [(0, 31), (127, 127)]), ("digit", [(48, 57)]),
    ("graph", [(33, 126)]), ("lower", [(97, 122)]), ("print", [(32, 126)]),
    ("punct", [(33, 47), (58, 64), (91, 96), (123, 126)]), ("space", [(9, 13), (32, 32)]),
    ("upper", [(65, 90)]), ("xdigit", [(48, 57), (65, 70), (97, 102)])]

def classNamed (name : List UInt8) : Option (List (UInt8 × UInt8)) :=
  (classes.find? fun p => p.1.toList.map Char.toUInt8 = name).map Prod.snd

/-- The bytes before the delimiter `d` and a closing bracket, and the bytes after the two. -/
def upTo (d : UInt8) : List UInt8 → Option (List UInt8 × List UInt8)
  | [] => none
  | b :: bs =>
    if b = d ∧ bs.head? = some 93 then some ([], bs.tail)
    else (upTo d bs).map fun p => (b :: p.1, p.2)

/-- The byte of `[=c=]` or `[.c.]`, after the first delimiter. -/
def symbol (d : UInt8) (bs : List UInt8) : Option (UInt8 × List UInt8) :=
  match upTo d bs with
  | some ([c], rest) => some (c, rest)
  | _ => none

/-- One element of a bracket expression: `[:name:]`, `[=c=]`, `[.c.]` or a byte. The first two are no ends
of a range. -/
def element (b : UInt8) (bs : List UInt8) : Option ((List (UInt8 × UInt8) ⊕ UInt8) × List UInt8) :=
  if b = 91 ∧ bs.head? = some 58 then do
    let (name, rest) ← upTo 58 bs.tail
    (classNamed name).map fun ranges => (.inl ranges, rest)
  else if b = 91 ∧ bs.head? = some 61 then
    (symbol 61 bs.tail).map fun p => (.inl [(p.1, p.1)], p.2)
  else if b = 91 ∧ bs.head? = some 46 then
    (symbol 46 bs.tail).map fun p => (.inr p.1, p.2)
  else some (.inr b, bs)

/-- An element, or the range from it to the next one. A hyphen before the closing bracket makes no
range. -/
def range (b : UInt8) (bs : List UInt8) : Option (List (UInt8 × UInt8) × List UInt8) := do
  let (e, rest) ← element b bs
  match e with
  | .inl ranges => some (ranges, rest)
  | .inr lo =>
    match rest with
    | hyphen :: b' :: bs' =>
      if hyphen = 45 ∧ b' ≠ 93 then do
        let (e', rest') ← element b' bs'
        match e' with
        | .inl _ => none
        | .inr hi => if lo ≤ hi then some ([(lo, hi)], rest') else none
      else some ([(lo, lo)], rest)
    | _ => some ([(lo, lo)], rest)

/-- The ranges of a bracket expression, at most `fuel` elements, and what follows it. A closing bracket
that comes `first` stands for itself, a hyphen does so when it is first or last. -/
def elements : ℕ → Bool → List UInt8 → Option (List (UInt8 × UInt8) × List UInt8)
  | 0, _, _ => none
  | _ + 1, _, [] => none
  | fuel + 1, first, b :: bs =>
    if b = 93 ∧ ¬ first then some ([], bs)
    else if b = 45 ∧ ¬ first ∧ bs.head? ≠ some 93 then none
    else do
      let (ranges, rest) ← range b bs
      (elements fuel false rest).map fun p => (ranges ++ p.1, p.2)

def bracket (bs : List UInt8) : Option (Token × List UInt8) :=
  if bs.head? = some 94 then
    (elements bs.length true bs.tail).map fun p => (.leaf (.atom (.set true p.1)), p.2)
  else (elements bs.length true bs).map fun p => (.leaf (.atom (.set false p.1)), p.2)

/-- The bytes that are tokens of their own: `.`, `^`, `$`, `(`, `)`, `|`, `*`, `+` and `?`. -/
def operators : List (UInt8 × Token) :=
  [(46, .leaf (.atom .any)), (94, .leaf .bol), (36, .leaf .eol), (40, .opening), (41, .closing),
    (124, .bar), (42, .dup 0 none), (43, .dup 1 none), (63, .dup 0 (some 1))]

def token (b : UInt8) (bs : List UInt8) : Option (Token × List UInt8) :=
  match operators.lookup b with
  | some t => some (t, bs)
  | none =>
    if b = 123 then interval bs
    else if b = 91 then bracket bs
    else if b = 92 then bs.head?.map fun c => (.leaf (.atom (.char c)), bs.tail)
    else some (.leaf (.atom (.char b)), bs)

def lexFrom : ℕ → List UInt8 → Option (List Token)
  | _, [] => some []
  | 0, _ :: _ => none
  | fuel + 1, b :: bs => do
    let (t, rest) ← token b bs
    (lexFrom fuel rest).map (t :: ·)

def lex (bs : List UInt8) : Option (List Token) :=
  lexFrom bs.length bs

/-- The tokens of an expression, without a bound on their number. -/
inductive Lexes : List UInt8 → List Token → Prop
  | nil : Lexes [] []
  | cons {b bs t rest ts} : token b bs = some (t, rest) → Lexes rest ts → Lexes (b :: bs) (t :: ts)

/-- What has been read of a group: the alternatives that are complete, the alternative that is being read
without its last piece, and that piece where it can be repeated. -/
structure Frame where
  alts : Option Re
  branch : Re
  last : Option Re
deriving DecidableEq

namespace Frame

def start : Frame :=
  ⟨none, .empty, none⟩

def current (f : Frame) : Re :=
  match f.last with
  | none => f.branch
  | some p => .cat f.branch p

def toRe (f : Frame) : Re :=
  match f.alts with
  | none => f.current
  | some r => .alt r f.current

def piece (f : Frame) (p : Re) : Frame :=
  ⟨f.alts, f.current, some p⟩

def anchor (f : Frame) (l : Leaf) : Frame :=
  ⟨f.alts, .cat f.current (.leaf l), none⟩

def bar (f : Frame) : Frame :=
  ⟨some f.toRe, .empty, none⟩

end Frame

/-- The innermost group and the groups around it, after one more token. -/
def parseStep : Frame × List Frame → Token → Option (Frame × List Frame)
  | (f, fs), .leaf (.atom a) => some (f.piece (.leaf (.atom a)), fs)
  | (f, fs), .leaf .bol => some (f.anchor .bol, fs)
  | (f, fs), .leaf .eol => some (f.anchor .eol, fs)
  | (f, fs), .dup lo hi => f.last.map fun p => ({ f with last := some (.rep p lo hi) }, fs)
  | (f, fs), .bar => some (f.bar, fs)
  | (f, fs), .opening => some (.start, f :: fs)
  | (f, g :: fs), .closing => some (g.piece f.toRe, fs)
  | (f, []), .closing => some (f.piece (.leaf (.atom (.char 41))), [])

def parse (ts : List Token) : Option Re := do
  let (f, fs) ← ts.foldlM parseStep (.start, [])
  if fs = [] then some f.toRe else none

def compile (pattern : List UInt8) : Option Re := do
  let ts ← lex pattern
  parse ts

section Lexing

variable {b : UInt8} {bs rest : List UInt8} {t : Token} {ts : List Token}

theorem upTo_suffix {d : UInt8} {name : List UInt8} (h : upTo d bs = some (name, rest)) :
    rest <:+ bs := by
  induction bs generalizing name with
  | nil => simp [upTo] at h
  | cons b bs ih =>
    unfold upTo at h
    split_ifs at h with hend
    · obtain ⟨-, rfl⟩ := Prod.mk.inj (Option.some.inj h)
      exact (List.tail_suffix bs).trans (List.suffix_cons b bs)
    · obtain ⟨⟨name', rest'⟩, hp, heq⟩ := Option.map_eq_some_iff.mp h
      obtain ⟨-, rfl⟩ := Prod.mk.inj heq
      exact (ih hp).trans (List.suffix_cons b bs)

theorem symbol_suffix {d c : UInt8} (h : symbol d bs = some (c, rest)) : rest <:+ bs := by
  unfold symbol at h
  split at h
  next hup =>
    obtain ⟨-, rfl⟩ := Prod.mk.inj (Option.some.inj h)
    exact upTo_suffix hup
  next => cases h

theorem element_suffix {e : List (UInt8 × UInt8) ⊕ UInt8} (h : element b bs = some (e, rest)) :
    rest <:+ bs := by
  have htail := List.tail_suffix bs
  unfold element at h
  split_ifs at h
  · obtain ⟨⟨name, rest'⟩, hup, hname⟩ := Option.bind_eq_some_iff.mp h
    obtain ⟨ranges, -, heq⟩ := Option.map_eq_some_iff.mp hname
    obtain ⟨-, rfl⟩ := Prod.mk.inj heq
    exact (upTo_suffix hup).trans htail
  · obtain ⟨p, hp, heq⟩ := Option.map_eq_some_iff.mp h
    obtain ⟨-, rfl⟩ := Prod.mk.inj heq
    exact (symbol_suffix hp).trans htail
  · obtain ⟨p, hp, heq⟩ := Option.map_eq_some_iff.mp h
    obtain ⟨-, rfl⟩ := Prod.mk.inj heq
    exact (symbol_suffix hp).trans htail
  · obtain ⟨-, rfl⟩ := Prod.mk.inj (Option.some.inj h)
    exact List.suffix_refl bs

theorem range_suffix {ranges : List (UInt8 × UInt8)} (h : range b bs = some (ranges, rest)) :
    rest <:+ bs := by
  obtain ⟨⟨e, mid⟩, he, h⟩ := Option.bind_eq_some_iff.mp h
  have hmid := element_suffix he
  have hsame : ∀ {rs}, some (rs, mid) = some (ranges, rest) → rest <:+ bs := by
    intro rs heq
    obtain ⟨-, rfl⟩ := Prod.mk.inj (Option.some.inj heq)
    exact hmid
  rcases e with rs | lo
  · exact hsame h
  · rcases mid with _ | ⟨hyphen, _ | ⟨b', bs'⟩⟩
    · exact hsame h
    · exact hsame h
    · dsimp only at h
      split_ifs at h
      · obtain ⟨⟨e', rest'⟩, he', h⟩ := Option.bind_eq_some_iff.mp h
        rcases e' with rs | hi
        · cases h
        · dsimp only at h
          split_ifs at h
          obtain ⟨-, rfl⟩ := Prod.mk.inj (Option.some.inj h)
          have hback := (List.suffix_cons b' bs').trans (List.suffix_cons hyphen _)
          exact (element_suffix he').trans (hback.trans hmid)
      · exact hsame h

theorem elements_suffix {fuel : ℕ} {first : Bool} {ranges : List (UInt8 × UInt8)}
    (h : elements fuel first bs = some (ranges, rest)) : rest <:+ bs := by
  induction fuel generalizing first bs ranges with
  | zero => cases h
  | succ fuel ih =>
    cases bs with
    | nil => cases h
    | cons b bs =>
      unfold elements at h
      split_ifs at h
      · obtain ⟨-, rfl⟩ := Prod.mk.inj (Option.some.inj h)
        exact List.suffix_cons b bs
      · obtain ⟨⟨rs, mid⟩, hmid, h⟩ := Option.bind_eq_some_iff.mp h
        obtain ⟨p, hp, heq⟩ := Option.map_eq_some_iff.mp h
        obtain ⟨-, rfl⟩ := Prod.mk.inj heq
        exact (ih hp).trans ((range_suffix hmid).trans (List.suffix_cons b bs))

theorem bracket_eq_some (h : bracket bs = some (t, rest)) :
    rest <:+ bs ∧ ∃ negated ranges, t = .leaf (.atom (.set negated ranges)) := by
  unfold bracket at h
  split_ifs at h
  · obtain ⟨⟨rs, rest'⟩, hp, heq⟩ := Option.map_eq_some_iff.mp h
    obtain ⟨rfl, rfl⟩ := Prod.mk.inj heq
    exact ⟨(elements_suffix hp).trans (List.tail_suffix bs), true, rs, rfl⟩
  · obtain ⟨⟨rs, rest'⟩, hp, heq⟩ := Option.map_eq_some_iff.mp h
    obtain ⟨rfl, rfl⟩ := Prod.mk.inj heq
    exact ⟨elements_suffix hp, false, rs, rfl⟩

theorem range_byte (hb : b ≠ 91) (hhead : bs.head? ≠ some 45) : range b bs = some ([(b, b)], bs) := by
  have helement : element b bs = some (.inr b, bs) := by simp [element, hb]
  simp only [range, helement, Option.bind_eq_bind, Option.bind_some]
  rcases bs with _ | ⟨c, _ | ⟨d, bs⟩⟩
  · rfl
  · rfl
  · have hc : c ≠ 45 := fun hc => hhead (by rw [hc, List.head?_cons])
    exact if_neg fun h => hc h.1

theorem elements_bytes {members : List UInt8} (h : ∀ c ∈ members, c ∉ [91, 93, 45]) {fuel : ℕ}
    (hfuel : members.length < fuel) {first : Bool} (hfirst : members = [] → first = false) :
    elements fuel first (members ++ 93 :: rest) = some (members.map fun c => (c, c), rest) := by
  induction members generalizing fuel first with
  | nil =>
    obtain ⟨fuel, rfl⟩ := Nat.exists_eq_add_one.mpr hfuel
    obtain rfl := hfirst rfl
    rfl
  | cons c members ih =>
    obtain ⟨fuel, rfl⟩ := Nat.exists_eq_add_one.mpr (Nat.zero_lt_of_lt hfuel)
    obtain ⟨hc, hmembers⟩ := List.forall_mem_cons.mp h
    simp only [List.mem_cons, List.not_mem_nil, or_false, not_or] at hc
    have hhead : (members ++ 93 :: rest).head? ≠ some 45 := by
      cases members with
      | nil => simp
      | cons d members =>
        have hd := hmembers d List.mem_cons_self
        simp only [List.mem_cons, List.not_mem_nil, or_false, not_or] at hd
        simpa using hd.2.2
    have hrest : elements fuel false (members ++ 93 :: rest) = some (members.map fun c => (c, c), rest) :=
      ih hmembers (Nat.lt_of_succ_lt_succ hfuel) fun _ => rfl
    rw [List.cons_append, elements, if_neg fun h => hc.2.1 h.1, if_neg fun h => hc.2.2 h.1,
      range_byte hc.1 hhead]
    simp only [Option.bind_eq_bind, Option.bind_some, hrest, Option.map_some]
    rfl

theorem bracket_bytes {members : List UInt8} (hne : members ≠ [])
    (h : ∀ c ∈ members, c ∉ [91, 93, 45, 94]) :
    bracket (members ++ 93 :: rest) =
      some (.leaf (.atom (.set false (members.map fun c => (c, c)))), rest) := by
  have hhead : (members ++ 93 :: rest).head? ≠ some 94 := by
    obtain ⟨c, members, rfl⟩ := List.exists_cons_of_ne_nil hne
    have hc := h c List.mem_cons_self
    simp only [List.mem_cons, List.not_mem_nil, or_false, not_or] at hc
    simpa using hc.2.2.2
  have hbytes : ∀ c ∈ members, c ∉ [91, 93, 45] := fun c hc hin => h c hc (List.mem_append_left [94] hin)
  rw [bracket, if_neg hhead, elements_bytes hbytes (by simp) fun hnil => absurd hnil hne]
  rfl

theorem interval_eq_some (h : interval bs = some (t, rest)) :
    (∃ body, bs = body ++ 125 :: rest ∧ ∀ b ∈ body, isDigit b ∨ b = 44) ∧ ∃ lo hi, t = .dup lo hi := by
  unfold interval at h
  split at h
  · cases h
  next c rest' hdrop =>
    obtain ⟨⟨lo, hi⟩, hbounds, h⟩ := Option.bind_eq_some_iff.mp h
    dsimp only at h
    split_ifs at h
    obtain ⟨rfl, rfl⟩ := Prod.mk.inj (Option.some.inj h)
    have hc : c = 125 := by
      have hhead := List.head?_dropWhile_not (fun b => decide (b ≠ 125)) bs
      rw [hdrop] at hhead
      simpa using hhead
    have hall : ∀ b ∈ bs.takeWhile (fun b => decide (b ≠ 125)), isDigit b ∨ b = 44 := by
      unfold bounds at hbounds
      split_ifs at hbounds with hall
      simpa using hall
    refine ⟨⟨_, ?_, hall⟩, lo, hi, rfl⟩
    rw [hc] at hdrop
    rw [← hdrop, List.takeWhile_append_dropWhile]

theorem token_suffix (h : token b bs = some (t, rest)) : rest <:+ bs := by
  unfold token at h
  split at h
  · obtain ⟨-, rfl⟩ := Prod.mk.inj (Option.some.inj h)
    exact List.suffix_refl bs
  · split_ifs at h
    · obtain ⟨⟨body, rfl, -⟩, -⟩ := interval_eq_some h
      exact (List.suffix_cons 125 rest).trans (List.suffix_append body _)
    · exact (bracket_eq_some h).1
    · obtain ⟨c, -, heq⟩ := Option.map_eq_some_iff.mp h
      obtain ⟨-, rfl⟩ := Prod.mk.inj heq
      exact List.tail_suffix bs
    · obtain ⟨-, rfl⟩ := Prod.mk.inj (Option.some.inj h)
      exact List.suffix_refl bs

theorem lexFrom_eq_some {fuel : ℕ} (hfuel : bs.length ≤ fuel) :
    lexFrom fuel bs = some ts ↔ Lexes bs ts := by
  constructor
  · intro h
    induction fuel generalizing bs ts with
    | zero =>
      obtain rfl := List.length_eq_zero_iff.mp (Nat.le_zero.mp hfuel)
      obtain rfl := Option.some.inj h
      exact .nil
    | succ fuel ih =>
      cases bs with
      | nil =>
        obtain rfl := Option.some.inj h
        exact .nil
      | cons b bs =>
        obtain ⟨⟨t, rest⟩, ht, h⟩ := Option.bind_eq_some_iff.mp h
        obtain ⟨ts', hts, rfl⟩ := Option.map_eq_some_iff.mp h
        have hlen := (token_suffix ht).length_le
        exact .cons ht (ih (hlen.trans (Nat.le_of_succ_le_succ hfuel)) hts)
  · intro h
    induction h generalizing fuel with
    | nil => cases fuel <;> rfl
    | @cons b bs t rest ts ht _ ih =>
      cases fuel with
      | zero => simp at hfuel
      | succ fuel =>
        have hlen := (token_suffix ht).length_le
        have hrest := ih (hlen.trans (Nat.le_of_succ_le_succ hfuel))
        simp only [lexFrom, ht, hrest, Option.bind_eq_bind, Option.bind_some, Option.map_some]

/-- The fuel of `lex` suffices. -/
theorem lex_eq_some : lex bs = some ts ↔ Lexes bs ts :=
  lexFrom_eq_some (Nat.le_refl _)

theorem token_ordinary (hop : b ∉ operators.map Prod.fst) (h : b ∉ [123, 91, 92]) :
    token b bs = some (.leaf (.atom (.char b)), bs) := by
  have hlookup : operators.lookup b = none := by
    rw [List.lookup_eq_none_iff]
    intro p hp
    rw [bne_iff_ne]
    rintro rfl
    exact hop (List.mem_map_of_mem hp)
  simp only [List.mem_cons, List.not_mem_nil, or_false, not_or] at h
  simp only [token, hlookup, if_neg h.1, if_neg h.2.1, if_neg h.2.2]

end Lexing

section Parsing

variable {f g : Frame} {fs gs : List Frame} {t : Token} {ts : List Token} {l : Leaf} {p r : Re}

theorem mem_leaves_piece : l ∈ (f.piece p).toRe.leaves ↔ l ∈ f.toRe.leaves ∨ l ∈ p.leaves := by
  rcases f with ⟨_ | a, b, m⟩
  · simp [Frame.piece, Frame.toRe, Frame.current, Re.leaves]
  · simp [Frame.piece, Frame.toRe, Frame.current, Re.leaves, or_assoc]

theorem mem_leaves_anchor {k : Leaf} : l ∈ (f.anchor k).toRe.leaves ↔ l ∈ f.toRe.leaves ∨ l = k := by
  rcases f with ⟨_ | a, b, m⟩
  · simp [Frame.anchor, Frame.toRe, Frame.current, Re.leaves]
  · simp [Frame.anchor, Frame.toRe, Frame.current, Re.leaves, or_assoc]

theorem mem_leaves_bar : l ∈ f.bar.toRe.leaves ↔ l ∈ f.toRe.leaves := by
  simp [Frame.bar, Frame.toRe, Frame.current, Re.leaves]

theorem leaves_dup {lo : ℕ} {hi : Option ℕ} (h : f.last = some p) :
    ({ f with last := some (.rep p lo hi) } : Frame).toRe.leaves = f.toRe.leaves := by
  rcases f with ⟨_ | a, b, m⟩
  · obtain rfl := h
    rfl
  · obtain rfl := h
    rfl

theorem leaves_of_top {n : Prop} (htop : l ∈ g.toRe.leaves → l ∈ f.toRe.leaves ∨ n) {k : Frame}
    (hk : k ∈ g :: fs) (hl : l ∈ k.toRe.leaves) : (∃ k' ∈ f :: fs, l ∈ k'.toRe.leaves) ∨ n := by
  rcases List.mem_cons.mp hk with rfl | hk
  · rcases htop hl with hf | hn
    · exact .inl ⟨f, List.mem_cons_self, hf⟩
    · exact .inr hn
  · exact .inl ⟨k, List.mem_cons_of_mem f hk, hl⟩

theorem parseStep_leaves (h : parseStep (f, fs) t = some (g, gs)) {k : Frame} (hk : k ∈ g :: gs)
    (hl : l ∈ k.toRe.leaves) :
    (∃ k' ∈ f :: fs, l ∈ k'.toRe.leaves) ∨ t = .leaf l ∨ l = .atom (.char 41) := by
  have hanchor : ∀ m, l ∈ (f.anchor m).toRe.leaves →
      l ∈ f.toRe.leaves ∨ Token.leaf m = .leaf l ∨ l = .atom (.char 41) := by
    intro m hm
    rcases mem_leaves_anchor.mp hm with hf | rfl
    · exact .inl hf
    · exact .inr (.inl rfl)
  cases t with
  | leaf m =>
    cases m with
    | atom a =>
      obtain ⟨rfl, rfl⟩ := Prod.mk.inj (Option.some.inj h)
      apply leaves_of_top _ hk hl
      intro hm
      rcases mem_leaves_piece.mp hm with hf | ha
      · exact .inl hf
      · obtain rfl := List.mem_singleton.mp ha
        exact .inr (.inl rfl)
    | bol =>
      obtain ⟨rfl, rfl⟩ := Prod.mk.inj (Option.some.inj h)
      exact leaves_of_top (hanchor .bol) hk hl
    | eol =>
      obtain ⟨rfl, rfl⟩ := Prod.mk.inj (Option.some.inj h)
      exact leaves_of_top (hanchor .eol) hk hl
  | opening =>
    obtain ⟨rfl, rfl⟩ := Prod.mk.inj (Option.some.inj h)
    rcases List.mem_cons.mp hk with rfl | hk
    · exact absurd hl List.not_mem_nil
    · exact .inl ⟨k, hk, hl⟩
  | closing =>
    cases fs with
    | nil =>
      obtain ⟨rfl, rfl⟩ := Prod.mk.inj (Option.some.inj h)
      apply leaves_of_top _ hk hl
      intro hm
      rcases mem_leaves_piece.mp hm with hf | ha
      · exact .inl hf
      · exact .inr (.inr (List.mem_singleton.mp ha))
    | cons m fs =>
      obtain ⟨rfl, rfl⟩ := Prod.mk.inj (Option.some.inj h)
      rcases List.mem_cons.mp hk with rfl | hk
      · rcases mem_leaves_piece.mp hl with hm | hf
        · exact .inl ⟨m, List.mem_cons_of_mem _ List.mem_cons_self, hm⟩
        · exact .inl ⟨f, List.mem_cons_self, hf⟩
      · exact .inl ⟨k, List.mem_cons_of_mem _ (List.mem_cons_of_mem _ hk), hl⟩
  | bar =>
    obtain ⟨rfl, rfl⟩ := Prod.mk.inj (Option.some.inj h)
    exact leaves_of_top (fun hm => .inl (mem_leaves_bar.mp hm)) hk hl
  | dup lo hi =>
    obtain ⟨p, hp, heq⟩ := Option.map_eq_some_iff.mp h
    obtain ⟨rfl, rfl⟩ := Prod.mk.inj heq
    exact leaves_of_top (fun hm => .inl (by rwa [leaves_dup hp] at hm)) hk hl

theorem foldlM_leaves (h : ts.foldlM parseStep (f, fs) = some (g, gs)) {k : Frame} (hk : k ∈ g :: gs)
    (hl : l ∈ k.toRe.leaves) :
    (∃ k' ∈ f :: fs, l ∈ k'.toRe.leaves) ∨ .leaf l ∈ ts ∨ l = .atom (.char 41) := by
  induction ts generalizing f fs with
  | nil =>
    obtain ⟨rfl, rfl⟩ := Prod.mk.inj (Option.some.inj h)
    exact .inl ⟨k, hk, hl⟩
  | cons t ts ih =>
    rw [List.foldlM_cons] at h
    obtain ⟨⟨f', fs'⟩, hstep, h⟩ := Option.bind_eq_some_iff.mp h
    rcases ih h with ⟨k', hk', hl'⟩ | hts | hclosing
    · rcases parseStep_leaves hstep hk' hl' with hin | rfl | hclosing
      · exact .inl hin
      · exact .inr (.inl List.mem_cons_self)
      · exact .inr (.inr hclosing)
    · exact .inr (.inl (List.mem_cons_of_mem t hts))
    · exact .inr (.inr hclosing)

theorem parse_leaves (h : parse ts = some r) (hl : l ∈ r.leaves) :
    .leaf l ∈ ts ∨ l = .atom (.char 41) := by
  obtain ⟨⟨f, fs⟩, hfold, h⟩ := Option.bind_eq_some_iff.mp h
  dsimp only at h
  split_ifs at h with hfs
  obtain rfl := Option.some.inj h
  rcases foldlM_leaves hfold List.mem_cons_self hl with ⟨k, hk, hkl⟩ | hin
  · obtain rfl := List.mem_singleton.mp hk
    exact absurd hkl List.not_mem_nil
  · exact hin

structure Piece where
  atom : Atom
  dup : Option (ℕ × Option ℕ)

def Atom.token (a : Atom) : Token :=
  if a = .char 41 then .closing else .leaf (.atom a)

def Piece.tokens (p : Piece) : List Token :=
  p.atom.token :: (p.dup.map fun d => .dup d.1 d.2).toList

def Piece.re (p : Piece) : Re :=
  match p.dup with
  | none => .leaf (.atom p.atom)
  | some d => .rep (.leaf (.atom p.atom)) d.1 d.2

def sequence (r : Re) (ps : List Piece) : Re :=
  ps.foldl (fun r p => .cat r p.re) r

theorem parseStep_atom (a : Atom) :
    parseStep (f, []) a.token = some (f.piece (.leaf (.atom a)), []) := by
  unfold Atom.token
  split_ifs with h
  · rw [h]
    rfl
  · rfl

theorem foldlM_pieces (ps : List Piece) :
    ∃ g, (ps.flatMap Piece.tokens).foldlM parseStep (f, []) = some (g, []) ∧ g.alts = f.alts ∧
      g.current = sequence f.current ps := by
  induction ps generalizing f with
  | nil => exact ⟨f, rfl, rfl, rfl⟩
  | cons p ps ih =>
    have hpiece : ∃ g, p.tokens.foldlM parseStep (f, []) = some (g, []) ∧ g.alts = f.alts ∧
        g.current = .cat f.current p.re := by
      rcases p with ⟨a, _ | ⟨lo, hi⟩⟩
      · refine ⟨f.piece (.leaf (.atom a)), ?_, rfl, rfl⟩
        simp only [Piece.tokens, List.foldlM_cons, parseStep_atom, Option.bind_eq_bind, Option.bind_some]
        rfl
      · refine ⟨⟨f.alts, f.current, some (.rep (.leaf (.atom a)) lo hi)⟩, ?_, rfl, rfl⟩
        simp only [Piece.tokens, List.foldlM_cons, parseStep_atom, Option.bind_eq_bind, Option.bind_some]
        rfl
    obtain ⟨m, hm, hma, hmc⟩ := hpiece
    obtain ⟨g, hg, hga, hgc⟩ := ih (f := m)
    refine ⟨g, ?_, hga.trans hma, by rw [hgc, hmc]; rfl⟩
    rw [List.flatMap_cons, List.foldlM_append, hm]
    exact hg

theorem parse_anchored (ps : List Piece) :
    parse (.leaf .bol :: (ps.flatMap Piece.tokens ++ [.leaf .eol])) =
      some (.cat (sequence (.cat .empty (.leaf .bol)) ps) (.leaf .eol)) := by
  obtain ⟨g, hg, hga, hgc⟩ := foldlM_pieces (f := Frame.start.anchor .bol) ps
  have hfold : (Token.leaf .bol :: (ps.flatMap Piece.tokens ++ [.leaf .eol])).foldlM parseStep
      (.start, []) = some (g.anchor .eol, []) := by
    rw [List.foldlM_cons]
    change (ps.flatMap Piece.tokens ++ [Token.leaf .eol]).foldlM parseStep
      (Frame.start.anchor .bol, []) = _
    rw [List.foldlM_append, hg]
    rfl
  have hre : (g.anchor .eol).toRe = .cat g.current (.leaf .eol) := by
    simp only [Frame.toRe, Frame.anchor, hga]
    rfl
  simp only [parse, hfold, Option.bind_eq_bind, Option.bind_some, if_pos, hre, hgc]
  rfl

end Parsing

end Ere
