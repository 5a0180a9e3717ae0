import CIS415.P1FxnsWord
import CIS415.Thv

/-!
# The argument vector of a command

The loop over the words of a command stores the words one after the other and ends on every command. The
copy of the command always has room, and there are enough slots; a slot may be too small for its word.
-/

namespace CIS415.Thv

open P1Fxns

section

variable {σ : Type} (put : σ → ℕ → Option (List UInt8) → Option σ)

/-- The words are stored from index `j` on; at the last index nothing is. -/
def putAll : ℕ → List (List UInt8) → σ → Option (σ × ℕ)
  | j, [], s => (put s j none).map (·, j)
  | j, word :: words, s => (put s j (some word)).bind (putAll (j + 1) words)

theorem wordLoop_eq (command : CString) {i fuel : ℕ} (hi : i ≤ p1strlen command) (j : ℕ) (s : σ)
    (hfuel : (shell.split (command.bytes.drop i)).length < fuel) :
    ((p1getword command i).bind fun r => (put s j r.2).bind (wordLoop put command fuel r.1 j)) =
      putAll put j (shell.split (command.bytes.drop i)) s := by
  induction fuel generalizing i j s with
  | zero => exact absurd hfuel (Nat.not_lt_zero _)
  | succ fuel ih =>
    rw [p1getword_eq command hi, Option.bind_some]
    cases hnext : shell.nextWord (command.bytes.drop i) with
    | none =>
      rw [Lexis.split_of_none hnext]
      change (put s j none).bind (wordLoop put command (fuel + 1) (-1) j) = (put s j none).map (·, j)
      cases put s j none with
      | none => rfl
      | some s => rfl
    | some next =>
      obtain ⟨word, rest⟩ := next
      obtain ⟨hsuffix, hshorter, -⟩ := Lexis.nextWord_suffix hnext
      rw [Lexis.split_of_some hnext] at hfuel ⊢
      -- What is left of the buffer starts at the index that was returned.
      have hrest : command.bytes.drop (p1strlen command - rest.length) = rest :=
        (List.suffix_iff_eq_drop.mp (hsuffix.trans (List.drop_suffix _ _))).symm
      have hloop (s : σ) : wordLoop put command (fuel + 1)
          ((p1strlen command - rest.length : ℕ) : ℤ) j s =
            putAll put (j + 1) (shell.split rest) s := by
        have hne : ((p1strlen command - rest.length : ℕ) : ℤ) ≠ -1 := by omega
        have hrec := ih (Nat.sub_le _ _) (j + 1) s
          (by rw [hrest]; exact Nat.lt_of_succ_lt_succ hfuel)
        rw [hrest] at hrec
        rw [wordLoop, if_neg hne]
        exact hrec
      change (put s j (some word)).bind (wordLoop put command (fuel + 1) _ j) =
        (put s j (some word)).bind _
      congr 1
      funext s
      exact hloop s

theorem readWords_eq (command : CString) (s : σ) :
    readWords put command s = putAll put 0 (shell.split command.bytes) s :=
  wordLoop_eq put command (Nat.zero_le _) 0 s
    (Nat.lt_succ_of_le (Lexis.length_split_le shell command.bytes))

end

def collect (words : List (List UInt8)) (_ : ℕ) : Option (List UInt8) → Option (List (List UInt8))
  | none => some words
  | some word => some (words ++ [word])

theorem putAll_collect (j : ℕ) (words before : List (List UInt8)) :
    putAll collect j words before = some (before ++ words, j + words.length) := by
  induction words generalizing j before with
  | nil =>
    rw [List.append_nil]
    rfl
  | cons word words ih =>
    rw [putAll, collect, Option.bind_some, ih, List.append_assoc, List.length_cons, Nat.add_assoc,
      Nat.add_comm 1]
    rfl

/-- A call of `p1getword` returns -1 exactly where only blanks and tabs are left, and otherwise goes on
inside the buffer; the loop ends with at most as many words as the command has bytes. -/
theorem words_terminate (buf : CString) :
    (∀ i ≤ p1strlen buf, ∃ r word, p1getword buf i = some (r, word) ∧
      (r = -1 ↔ ∀ b ∈ buf.bytes.drop i, b = 32 ∨ b = 9) ∧
      (r ≠ -1 → (i : ℤ) < r ∧ r ≤ (p1strlen buf : ℤ))) ∧
    ∃ words, readWords collect buf [] = some (words, words.length) ∧
      words.length ≤ p1strlen buf := by
  refine ⟨fun i hi => p1getword_progress buf hi, shell.split buf.bytes, ?_, ?_⟩
  · rw [readWords_eq, putAll_collect, List.nil_append, Nat.zero_add]
  · exact Lexis.length_split_le shell buf.bytes

/-- The command `ls  "a b ` with a quote that is not closed. -/
def unbalanced : CString := ⟨[108, 115, 32, 32, 34, 97, 32, 98, 32], by decide⟩

/-- The call that starts at the blanks finds the quoted word. -/
theorem words_terminate_quote :
    (∃ r word, p1getword unbalanced 2 = some (r, word) ∧
      (r = -1 ↔ ∀ b ∈ unbalanced.bytes.drop 2, b = 32 ∨ b = 9) ∧
      (r ≠ -1 → ((2 : ℕ) : ℤ) < r ∧ r ≤ (p1strlen unbalanced : ℤ))) ∧
    ∃ words, readWords collect unbalanced [] = some (words, words.length) ∧
      words.length ≤ p1strlen unbalanced :=
  ⟨(words_terminate unbalanced).1 2 (by decide), (words_terminate unbalanced).2⟩

def Short (words : List (List UInt8)) : Prop :=
  ∀ word ∈ words, word.length + 1 ≤ slotSize

/-- `arg` with `words` in its first slots, before the terminator is set. -/
def filled (words : List (List UInt8)) (room : ℕ) : List Arg :=
  words.map (fun word => .slot (some word)) ++ List.replicate room (.slot none)

theorem getElem?_filled (words : List (List UInt8)) (room : ℕ) :
    (filled words (room + 1))[words.length]? = some (.slot none) := by
  rw [filled, List.getElem?_append_right (by rw [List.length_map]), List.length_map, Nat.sub_self]
  rfl

theorem set_filled (words : List (List UInt8)) (room : ℕ) (a : Arg) :
    (filled words (room + 1)).set words.length a =
      words.map (fun word => .slot (some word)) ++ a :: List.replicate room (.slot none) := by
  have hle : (words.map fun word => Arg.slot (some word)).length ≤ words.length :=
    Nat.le_of_eq (List.length_map _)
  rw [filled, List.set_append_right _ _ hle, List.length_map, Nat.sub_self]
  rfl

theorem store_filled (before : List (List UInt8)) (room : ℕ) (word : List UInt8) :
    store (filled before (room + 1)) before.length (some word) =
      if word.length + 1 ≤ slotSize then some (filled (before ++ [word]) room) else none := by
  have hnext : filled (before ++ [word]) room =
      before.map (fun word => Arg.slot (some word)) ++
        Arg.slot (some word) :: List.replicate room (.slot none) := by
    rw [filled, List.map_append, List.append_assoc]
    rfl
  simp only [store, getElem?_filled, set_filled, hnext]

/-- The stores succeed exactly when the words fit, since the slots do not run out. -/
theorem putAll_filled (words before : List (List UInt8)) {room : ℕ} (hroom : words.length ≤ room) :
    (Short words → putAll store before.length words (filled before (room + 1)) =
        some (filled (before ++ words) (room + 1 - words.length), before.length + words.length)) ∧
      (¬ Short words → putAll store before.length words (filled before (room + 1)) = none) := by
  induction words generalizing before room with
  | nil =>
    constructor
    · intro _
      have hnone : store (filled before (room + 1)) before.length none =
          some (filled before (room + 1)) := by
        simp only [store, getElem?_filled]
      rw [putAll, hnone, List.append_nil]
      rfl
    · intro hlong
      exact absurd (fun _ h => absurd h List.not_mem_nil) hlong
  | cons word words ih =>
    obtain ⟨room, rfl⟩ := Nat.exists_eq_add_of_le' (show 1 ≤ room by
      rw [List.length_cons] at hroom; omega)
    rw [List.length_cons] at hroom
    obtain ⟨hfits, hfails⟩ := ih (before ++ [word]) (Nat.le_of_succ_le_succ hroom)
    rw [List.length_append, List.length_singleton] at hfits hfails
    rw [putAll, store_filled]
    by_cases hword : word.length + 1 ≤ slotSize
    · rw [if_pos hword, Option.bind_some]
      have hcons : Short (word :: words) ↔ Short words := by
        rw [Short, List.forall_mem_cons]
        exact and_iff_right hword
      rw [hcons]
      refine ⟨fun h => ?_, hfails⟩
      rw [hfits h, List.append_assoc, List.length_cons]
      congr 2
      · congr 1
        omega
      · omega
    · rw [if_neg hword]
      constructor
      · intro h
        exact absurd (h word List.mem_cons_self) hword
      · intro _
        rfl

theorem readWords_allocate (command : CString) :
    readWords store command (allocate command) =
      putAll store 0 (shell.split command.bytes) (filled [] (p1strlen command + 1)) :=
  readWords_eq store command _

/-- What `main` makes of a command whose words fit: the words, NULL, and the slots that are left. -/
theorem buildArg_short {command : CString} (hshort : Short (shell.split command.bytes)) :
    buildArg command = some ((shell.split command.bytes).map (fun word => .slot (some word)) ++
      .null :: List.replicate (p1strlen command - (shell.split command.bytes).length)
        (.slot none)) := by
  have hle : (shell.split command.bytes).length ≤ p1strlen command :=
    Lexis.length_split_le shell command.bytes
  have hput := (putAll_filled (shell.split command.bytes) [] hle).1 hshort
  have hroom : p1strlen command + 1 - (shell.split command.bytes).length =
      p1strlen command - (shell.split command.bytes).length + 1 := by omega
  rw [List.nil_append, List.length_nil, Nat.zero_add, hroom] at hput
  rw [buildArg, readWords_allocate, hput]
  simp only [Option.bind_eq_bind, Option.bind_some, terminate, getElem?_filled, set_filled]

theorem buildArg_long {command : CString} (hlong : ¬ Short (shell.split command.bytes)) :
    buildArg command = none := by
  have hle : (shell.split command.bytes).length ≤ p1strlen command :=
    Lexis.length_split_le shell command.bytes
  have hput := (putAll_filled (shell.split command.bytes) [] hle).2 hlong
  rw [List.length_nil] at hput
  rw [buildArg, readWords_allocate, hput]
  rfl

theorem buildArg_isSome_iff (command : CString) :
    (buildArg command).isSome ↔ Short (shell.split command.bytes) := by
  by_cases hshort : Short (shell.split command.bytes)
  · rw [buildArg_short hshort]
    exact iff_of_true rfl hshort
  · rw [buildArg_long hshort]
    exact iff_of_false Bool.false_ne_true hshort

/-- Words written on a command line, each shorter than a slot. -/
structure CommandLine where
  line : Lexis.Line shell
  noNul : 0 ∉ line.letters
  short : ∀ word ∈ line.words, word.length < slotSize

namespace CommandLine

def command (l : CommandLine) : CString :=
  ⟨l.line.letters, l.noNul⟩

/-- The words come back in `arg` in their order, and NULL after them. -/
theorem buildArg_command (l : CommandLine) :
    buildArg l.command = some (l.line.words.map (fun word => .slot (some word)) ++
      .null :: List.replicate (p1strlen l.command - l.line.words.length) (.slot none)) := by
  have hwords : shell.split l.command.bytes = l.line.words := l.line.split_letters
  have hshort : Short (shell.split l.command.bytes) := by
    intro word hword
    rw [hwords] at hword
    exact l.short word hword
  rw [buildArg_short hshort, hwords]

def threeWords : CommandLine where
  line :=
    { items :=
        [⟨[32], .bare, [108, 39, 115], by simp [shell], by simp [Lexis.Quoting.Allows, shell]⟩,
          ⟨[32], .quoted 39, [], by simp [shell], by simp [Lexis.Quoting.Allows, shell]⟩,
          ⟨[9], .quoted 34, [97, 32, 98], by simp [shell], by simp [Lexis.Quoting.Allows, shell]⟩]
      after := []
      blanks := by simp
      apart := by simp }
  noNul := by simp [Lexis.Line.letters, Lexis.Item.letters, Lexis.Quoting.write]
  short := by simp [Lexis.Line.words, slotSize]

theorem buildArg_threeWords :
    buildArg ⟨[32, 108, 39, 115, 32, 39, 39, 9, 34, 97, 32, 98, 34], by decide⟩ =
      some ([[108, 39, 115], [], [97, 32, 98]].map (fun word => .slot (some word)) ++
        .null :: List.replicate 10 (.slot none)) :=
  threeWords.buildArg_command

end CommandLine

theorem strneqFrom_append (s t u : List UInt8) : strneqFrom s.length (s ++ t) (s ++ u) = some 1 := by
  induction s with
  | nil => rfl
  | cons b s ih =>
    rw [List.length_cons, List.cons_append, List.cons_append, strneqFrom, if_neg (not_not.mpr rfl)]
    exact ih

theorem p1strneq_append (s t : CString) : p1strneq (s ++ t) s (p1strlen s) = some 1 := by
  rw [p1strneq, CString.bytes_append, List.append_assoc]
  exact strneqFrom_append s.bytes _ _

theorem advance_append (s t : CString) : advance (s ++ t) (p1strlen s) = some t := by
  have hle : p1strlen s ≤ (s ++ t).bytes.length := by
    rw [CString.bytes_append, List.length_append]
    exact Nat.le_add_right _ _
  rw [advance, if_pos hle]
  apply congrArg some
  apply CString.ext_bytes
  exact List.drop_left

theorem readOption_command (o : Options) (text : CString) :
    readOption o (commandPrefix ++ text) = some { o with command := some text } := by
  have hone : ∃ rest, advance (commandPrefix ++ text) 1 = some rest ∧
      p1strlen text + 1 ≤ p1strlen rest := by
    refine ⟨_, if_pos ?_, ?_⟩
    · exact Nat.succ_le_succ (Nat.zero_le _)
    · change _ ≤ ((commandPrefix ++ text).bytes.drop 1).length
      have hprefix : commandPrefix.bytes.length = 10 := rfl
      rw [List.length_drop, CString.bytes_append, List.length_append, hprefix]
      unfold p1strlen
      omega
  obtain ⟨rest, hadvance, hroom⟩ := hone
  have hcopy : p1strcpy (p1strlen rest) text = some text := if_pos hroom
  rw [readOption]
  simp only [p1strneq_append, advance_append, hadvance, hcopy, Option.bind_eq_bind, Option.bind_some]
  rfl

/-- The copy of the command fits its buffer, and the argument vector is built inside `arg` and its slots
exactly when every word of the command is at most 99 bytes long. -/
theorem construction_inside_iff (o : Options) (text : CString) :
    readOption o (commandPrefix ++ text) = some { o with command := some text } ∧
      ((buildArg text).isSome ↔ ∀ word ∈ shell.split text.bytes, word.length + 1 ≤ slotSize) :=
  ⟨readOption_command o text, buildArg_isSome_iff text⟩

def longCommand : CString where
  bytes := List.replicate 100 97
  noNul := by decide

theorem longCommand_overflows : ¬ (buildArg longCommand).isSome := by
  have hnext : shell.nextWord longCommand.bytes = some (List.replicate 100 97, []) := by
    decide
  rw [buildArg_isSome_iff, Lexis.split_of_some hnext]
  intro hshort
  have hword := hshort _ List.mem_cons_self
  revert hword
  decide

end CIS415.Thv
