import Credence.Pattern.Token
/-!
# One token at a time

What a scan does with the characters in front of it: a blank is passed over, and every
other character begins a token that ends where the grammar of tokens says. The scan
goes on behind it.
-/

namespace Credence.Pattern

/-- Whether no character that could go on a symbol comes next. -/
def AtBreak (cs : List Char) : Prop := ∀ c ∈ cs.head?, isSymbolChar c = false

theorem isSymbolChar_iff {c : Char} :
    isSymbolChar c = true ↔ Text.isBlank c = false ∧ c ≠ '(' ∧ c ≠ ')' ∧ c ≠ '"' := by
  simp [isSymbolChar, and_assoc]

/-! ## Runs of characters -/

theorem takeWhile_append_break {word rest : List Char} (hword : ∀ c ∈ word, isSymbolChar c = true)
    (hrest : AtBreak rest) : (word ++ rest).takeWhile isSymbolChar = word := by
  rw [List.takeWhile_append_of_pos hword]
  cases rest with
  | nil => simp
  | cons c rest => simp [hrest c rfl]

theorem dropWhile_append_break {word rest : List Char} (hword : ∀ c ∈ word, isSymbolChar c = true)
    (hrest : AtBreak rest) : (word ++ rest).dropWhile isSymbolChar = rest := by
  rw [List.dropWhile_append_of_pos hword]
  cases rest with
  | nil => rfl
  | cons c rest => simp [hrest c rfl]

theorem atBreak_dropWhile (cs : List Char) : AtBreak (cs.dropWhile isSymbolChar) := by
  intro c hc
  have hhead := List.head?_dropWhile_not isSymbolChar cs
  rw [Option.mem_def.1 hc] at hhead
  simpa using hhead

/-! ## The next token -/

/-- A scan of the first text takes these tokens and goes on with the second one. -/
def Takes (pos : Nat) (cs : List Char) (ts : List Token) (pos' : Nat) (rest : List Char) : Prop :=
  scan pos cs = (scan pos' rest).map (ts ++ ·)

theorem Takes.trans {pos pos' pos'' : Nat} {cs cs' rest : List Char} {ts ts' : List Token}
    (h : Takes pos cs ts pos' cs') (h' : Takes pos' cs' ts' pos'' rest) :
    Takes pos cs (ts ++ ts') pos'' rest := by
  unfold Takes at h h' ⊢
  rw [h, h']
  cases scan pos'' rest with
  | error e => rfl
  | ok us => exact congrArg Except.ok (List.append_assoc ts ts' us).symm

theorem Takes.nothing (pos : Nat) (rest : List Char) : Takes pos rest [] pos rest := by
  unfold Takes
  cases scan pos rest <;> rfl

theorem takes_blank {c : Char} (hc : Text.isBlank c = true) (pos : Nat) (rest : List Char) :
    Takes pos (c :: rest) [] (pos + 1) rest := by
  have hscan : scan pos (c :: rest) = scan (pos + 1) rest := by
    rw [scan.eq_def]
    simp only [hc, if_true]
  unfold Takes
  rw [hscan]
  exact Takes.nothing (pos + 1) rest

theorem takes_opening (pos : Nat) (rest : List Char) :
    Takes pos ('(' :: rest) [⟨.opening, pos⟩] (pos + 1) rest := by
  unfold Takes
  rw [scan.eq_def]
  rfl

theorem takes_closing (pos : Nat) (rest : List Char) :
    Takes pos (')' :: rest) [⟨.closing, pos⟩] (pos + 1) rest := by
  unfold Takes
  rw [scan.eq_def]
  rfl

theorem isBlank_quote : Text.isBlank '"' = false := rfl

theorem takes_name {name rest after : List Char} (h : scanName rest = some (name, after))
    (pos : Nat) :
    Takes pos ('"' :: rest) [⟨.name name, pos + 1⟩] (pos + 1 + (rest.length - after.length))
      after := by
  unfold Takes
  rw [scan.eq_def]
  simp only [isBlank_quote, Bool.false_eq_true, if_false, if_true, Char.reduceEq]
  split
  · next hnone => rw [h] at hnone; cases hnone
  · next name' after' hsome =>
    rw [h] at hsome
    cases hsome
    rfl

theorem takes_symbol {c : Char} {word rest : List Char}
    (hword : ∀ d ∈ c :: word, isSymbolChar d = true) (hrest : AtBreak rest) (pos : Nat) :
    Takes pos (c :: word ++ rest) [⟨.symbol (c :: word), pos⟩] (pos + 1 + word.length) rest := by
  obtain ⟨hc, hword⟩ := List.forall_mem_cons.1 hword
  obtain ⟨hblank, hopen, hclose, hquote⟩ := isSymbolChar_iff.1 hc
  unfold Takes
  rw [List.cons_append, scan.eq_def]
  simp only [hblank, hopen, hclose, hquote, if_false, Bool.false_eq_true,
    takeWhile_append_break hword hrest, dropWhile_append_break hword hrest]
  rfl

theorem scan_nil (pos : Nat) : scan pos [] = .ok [] := by
  rw [scan.eq_def]

theorem scan_unterminated {rest : List Char} (h : scanName rest = none) (pos : Nat) :
    scan pos ('"' :: rest) = .error (.unterminated pos) := by
  rw [scan.eq_def]
  simp only [isBlank_quote, Bool.false_eq_true, if_false, if_true, Char.reduceEq]
  split
  · rfl
  · next hsome => rw [h] at hsome; cases hsome

end Credence.Pattern
