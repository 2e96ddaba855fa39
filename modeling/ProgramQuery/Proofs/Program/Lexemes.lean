/-
  ProgramQuery.Proofs.Program.Lexemes

  The lexemes of a program text.

  A lexeme is a name, a run of digits or a symbol; an integer is written with or
  without leading zeros (`Token.Reads`).  What the scanner takes from the front of
  a text is said without the scanner: it is a lexeme that no longer one starts
  with, and no letter touches a run of digits from behind (`Token.Takes`).  Where
  nothing can be taken, no lexeme starts, or there are digits with a letter behind
  them (`Obstructs`).
-/

import ProgramQuery.Proofs.Program.Scan

namespace ProgramQuery

/-! ## Leading zeros -/

namespace Text

/-- The digits that are left without leading zeros; of zeros only, one is left. -/
inductive DropsZeros : List Char → List Char → Prop where
  | other (zeros : Nat) {c : Char} (cs : List Char) (h : c ≠ '0') :
    DropsZeros (List.replicate zeros '0' ++ c :: cs) (c :: cs)
  | zeros (zeros : Nat) : DropsZeros (List.replicate zeros '0') ['0']

theorem dropsZeros_cons_zero {cs digits : List Char} (h : DropsZeros cs digits) :
    DropsZeros ('0' :: cs) digits := by
  cases h with
  | other zeros cs h => exact .other (zeros + 1) cs h
  | zeros zeros => exact .zeros (zeros + 1)

/-- Canonical forms are what is left without leading zeros. -/
theorem dropsZeros_iff {cs digits : List Char} :
    DropsZeros cs digits ↔ digits = canonicalDigits cs := by
  constructor
  · intro h
    cases h with
    | other zeros cs h =>
      rw [canonicalDigits, List.dropWhile_append_of_pos (by simp),
        List.dropWhile_cons_of_neg (by simpa using h)]
    | zeros zeros => simp [canonicalDigits]
  · rintro rfl
    induction cs with
    | nil => exact .zeros 0
    | cons c cs ih =>
      by_cases h : c = '0'
      · subst h
        exact dropsZeros_cons_zero ih
      · have h_drop : (c :: cs).dropWhile (· == '0') = c :: cs :=
          List.dropWhile_cons_of_neg (by simpa using h)
        rw [canonicalDigits, h_drop]
        exact .other 0 cs h

end Text

/-! ## Symbols -/

namespace Symbol

theorem mem_all (s : Symbol) : s ∈ all := by
  cases s <;> decide

theorem chars_inj {s t : Symbol} (h : s.chars = t.chars) : s = t := by
  have h_front : ∀ u : Symbol, atFront? u.chars = some u := by
    intro u
    cases u <;> rfl
  have h_s := h_front s
  rw [h, h_front t] at h_s
  exact (Option.some.inj h_s).symm

theorem length_le_of_atFront? {s t : Symbol} {cs : List Char} (h : atFront? cs = some s)
    (h_t : t.chars <+: cs) : t.chars.length ≤ s.chars.length := by
  -- The symbols are listed by length, and those before the first match do not match.
  have h_sorted : all.Pairwise (fun u v => v.chars.length ≤ u.chars.length) := by decide
  obtain ⟨-, before, after, h_all, h_before⟩ := List.find?_eq_some_iff_append.1 h
  have h_mem := mem_all t
  rw [h_all] at h_mem h_sorted
  rcases List.mem_append.1 h_mem with h_mem | h_mem
  · have h_not := h_before t h_mem
    rw [List.isPrefixOf_iff_prefix.2 h_t] at h_not
    cases h_not
  · rcases List.mem_cons.1 h_mem with rfl | h_mem
    · exact Nat.le_refl _
    · exact (List.pairwise_cons.1 (List.pairwise_append.1 h_sorted).2.1).1 t h_mem

theorem atFront?_eq_none {cs : List Char} :
    atFront? cs = none ↔ ∀ s : Symbol, ¬ s.chars <+: cs := by
  simp only [atFront?, List.find?_eq_none, List.isPrefixOf_iff_prefix]
  exact ⟨fun h s => h s (mem_all s), fun h s _ => h s⟩

/-- The symbol at the front of a text is the longest one there. -/
theorem atFront?_eq_some {s : Symbol} {cs : List Char} : atFront? cs = some s ↔
    s.chars <+: cs ∧ ∀ t : Symbol, t.chars <+: cs → t.chars.length ≤ s.chars.length := by
  constructor
  · intro h
    exact ⟨⟨_, append_of_atFront? h⟩, fun t h_t => length_le_of_atFront? h h_t⟩
  · rintro ⟨h_s, h_longest⟩
    cases h : atFront? cs with
    | none => exact absurd h_s (atFront?_eq_none.1 h s)
    | some t =>
      -- Two symbols of one length at the front of a text are the same.
      have h_t : t.chars <+: cs := ⟨_, append_of_atFront? h⟩
      have h_length := Nat.le_antisymm (length_le_of_atFront? h h_s) (h_longest t h_t)
      obtain rfl := chars_inj ((List.prefix_of_prefix_length_le h_s h_t h_length.le).eq_of_length
        h_length)
      rfl

end Symbol

/-! ## Lexemes -/

/-- The characters are a lexeme of the token. -/
inductive Token.Reads : Token → List Char → Prop where
  | name {cs : List Char} (h : Text.isName cs = true) : Reads (.name (String.ofList cs)) cs
  | integer {cs digits : List Char} (h_some : cs ≠ []) (h_all : cs.all Char.isDigit = true)
      (h_zeros : Text.DropsZeros cs digits) : Reads (.integer (String.ofList digits)) cs
  | symbol (s : Symbol) : Reads (.symbol s) s.chars

/-- No lexeme at the front of the text `lexeme ++ rest` is longer than `lexeme`. -/
def LongestBefore (rest lexeme : List Char) : Prop :=
  ∀ (token : Token) (other : List Char), token.Reads other → other <+: lexeme ++ rest →
    other.length ≤ lexeme.length

/-- The token is taken from the front of a text: its lexeme is the longest there, and no letter
    touches an integer from behind. -/
structure Token.Takes (token : Token) (lexeme rest : List Char) : Prop where
  reads : token.Reads lexeme
  longest : LongestBefore rest lexeme
  apart : ∀ digits, token = .integer digits → ∀ c ∈ rest.head?, c.isAlpha = false

namespace Token.Reads

variable {token : Token} {lexeme : List Char}

/-- A lexeme is a word of letters and digits, or has neither. -/
theorem word_or_symbol (h : token.Reads lexeme) : (∃ c cs, lexeme = c :: cs ∧
      c.isAlphanum = true ∧ lexeme.all Char.isAlphanum = true) ∨
    ∃ s : Symbol, lexeme = s.chars := by
  cases h with
  | name h =>
    obtain ⟨c, cs, rfl, -, h_all⟩ := isName_iff.1 h
    exact .inl ⟨c, cs, rfl, List.all_eq_true.1 h_all c (List.mem_cons_self ..), h_all⟩
  | integer h_some h_all h_zeros =>
    obtain ⟨c, cs, rfl⟩ := List.exists_cons_of_ne_nil h_some
    have h_word := fun d hd => isAlphanum_of_isDigit (List.all_eq_true.1 h_all d hd)
    exact .inl ⟨c, cs, rfl, h_word c (List.mem_cons_self ..), List.all_eq_true.2 h_word⟩
  | symbol s => exact .inr ⟨s, rfl⟩

/-- A lexeme starts with a character that is not blank. -/
theorem exists_cons (h : token.Reads lexeme) :
    ∃ c cs, lexeme = c :: cs ∧ Text.isBlank c = false := by
  rcases h.word_or_symbol with ⟨c, cs, h_lexeme, h_c, -⟩ | ⟨s, rfl⟩
  · rw [Char.isAlphanum, Bool.or_eq_true] at h_c
    exact ⟨c, cs, h_lexeme, h_c.elim Text.not_isBlank_of_isAlpha Text.not_isBlank_of_isDigit⟩
  · obtain ⟨c, cs, h_chars, h_blank, -⟩ := s.exists_chars
    exact ⟨c, cs, h_chars, h_blank⟩

end Token.Reads

/-! ## The longest lexeme -/

/-- Characters of a class do not go on where the class ends. -/
theorem length_le_of_class {p : Char → Bool} {lexeme rest other : List Char}
    (h_rest : ∀ c ∈ rest.head?, p c = false) (h_all : other.all p = true)
    (h : other <+: lexeme ++ rest) : other.length ≤ lexeme.length := by
  by_contra h_longer
  obtain ⟨more, rfl⟩ := List.prefix_of_prefix_length_le (List.prefix_append lexeme rest) h
    (Nat.le_of_not_le h_longer)
  cases more with
  | nil => simp at h_longer
  | cons c more =>
    obtain ⟨after, rfl⟩ := (List.prefix_append_right_inj lexeme).1 h
    have h_c : p c = true := List.all_eq_true.1 h_all c (by simp)
    rw [h_rest c rfl] at h_c
    cases h_c

/-- Words of letters and digits and symbols do not start alike. -/
theorem Symbol.not_prefix_word {s : Symbol} {c : Char} {text : List Char}
    (h_c : c.isAlphanum = true) : ¬ s.chars <+: c :: text := by
  intro h
  obtain ⟨d, cs, h_chars, -⟩ := s.exists_chars
  rw [h_chars, List.cons_prefix_cons] at h
  obtain ⟨rfl, -⟩ := h
  rw [s.not_isAlphanum d (h_chars ▸ List.mem_cons_self ..)] at h_c
  cases h_c

/-- A word in front of anything but a letter or a digit is the longest lexeme. -/
theorem longestBefore_word {c : Char} {cs rest : List Char} (h_c : c.isAlphanum = true)
    (h_rest : EndsWord rest) : LongestBefore rest (c :: cs) := by
  intro token other h_other h_starts
  obtain ⟨-, -, -, -, h_all⟩ | ⟨s, rfl⟩ := h_other.word_or_symbol
  · exact length_le_of_class h_rest h_all h_starts
  · exact absurd h_starts (Symbol.not_prefix_word h_c)

theorem longestBefore_symbol {s : Symbol} {rest : List Char}
    (h : Symbol.atFront? (s.chars ++ rest) = some s) : LongestBefore rest s.chars := by
  intro token other h_other h_starts
  obtain ⟨c, cs, rfl, h_c, -⟩ | ⟨t, rfl⟩ := h_other.word_or_symbol
  · obtain ⟨after, h_eq⟩ := h_starts
    exact absurd ⟨rest, h_eq.symm⟩ (Symbol.not_prefix_word h_c)
  · exact (Symbol.atFront?_eq_some.1 h).2 t h_starts

/-- A longest lexeme together with the next character is no lexeme. -/
theorem LongestBefore.not_reads_concat {c : Char} {lexeme rest : List Char}
    (h : LongestBefore (c :: rest) lexeme) (token : Token) : ¬ token.Reads (lexeme ++ [c]) := by
  intro h_reads
  have h_length := h token _ h_reads ⟨rest, by simp⟩
  rw [List.length_append] at h_length
  exact Nat.not_succ_le_self _ h_length

theorem endsWord_of_name {lexeme rest : List Char} (h_name : Text.isName lexeme = true)
    (h : LongestBefore rest lexeme) : EndsWord rest := by
  cases rest with
  | nil => exact endsWord_nil
  | cons c rest =>
    obtain ⟨d, ds, rfl, h_d, h_all⟩ := isName_iff.1 h_name
    refine endsWord_cons (Bool.eq_false_iff.2 fun h_c => ?_) rest
    have h_longer : (d :: ds ++ [c]).all Char.isAlphanum = true := by
      rw [List.all_append, h_all, List.all_cons, h_c]
      rfl
    exact h.not_reads_concat _ (.name (isName_iff.2 ⟨d, ds ++ [c], rfl, h_d, h_longer⟩))

theorem endsWord_of_digits {lexeme rest : List Char} (h_all : lexeme.all Char.isDigit = true)
    (h : LongestBefore rest lexeme) (h_apart : ∀ c ∈ rest.head?, c.isAlpha = false) :
    EndsWord rest := by
  cases rest with
  | nil => exact endsWord_nil
  | cons c rest =>
    have h_digit : c.isDigit = false := by
      refine Bool.eq_false_iff.2 fun h_c => ?_
      exact h.not_reads_concat _ (.integer (by simp) (by simp [h_all, h_c])
        (Text.dropsZeros_iff.2 rfl))
    refine endsWord_cons ?_ rest
    rw [Char.isAlphanum, h_apart c rfl, h_digit, Bool.or_false]

/-! ## The token at the front -/

namespace Token

variable {pos : Position} {cs lexeme rest : List Char} {token : Token}

theorem Takes.atFront? (h : token.Takes lexeme rest) (pos : Position) :
    Token.atFront? pos (lexeme ++ rest) = .ok (token, lexeme, rest) := by
  obtain ⟨h_reads, h_longest, h_apart⟩ := h
  cases h_reads with
  | name h_name =>
    have h_rest := endsWord_of_name h_name h_longest
    obtain ⟨c, cs, rfl, h_c, h_all⟩ := isName_iff.1 h_name
    exact atFront?_name h_c h_all h_rest
  | integer h_some h_all h_zeros =>
    have h_rest := endsWord_of_digits h_all h_longest (h_apart _ rfl)
    obtain ⟨c, cs, rfl⟩ := List.exists_cons_of_ne_nil h_some
    rw [Text.dropsZeros_iff.1 h_zeros]
    exact atFront?_integer h_all h_rest
  | symbol s =>
    refine atFront?_symbol (Symbol.atFront?_eq_some.2 ⟨List.prefix_append _ _, fun t h_t => ?_⟩)
    exact h_longest _ _ (.symbol t) h_t

theorem takes_of_atFront? (h : Token.atFront? pos cs = .ok (token, lexeme, rest)) :
    token.Takes lexeme rest := by
  obtain ⟨-, h_eq⟩ := append_of_atFront? h
  rcases cases_of_atFront? h with
    ⟨c, word, rfl, h_c, h_all, h_ends, rfl⟩ | ⟨h_some, h_all, h_ends, rfl⟩ | ⟨s, rfl, rfl, h_symbol⟩
  · have h_word := List.all_eq_true.1 h_all c (List.mem_cons_self ..)
    exact ⟨.name (isName_iff.2 ⟨c, word, rfl, h_c, h_all⟩), longestBefore_word h_word h_ends,
      by simp⟩
  · obtain ⟨c, run, rfl⟩ := List.exists_cons_of_ne_nil h_some
    have h_c := isAlphanum_of_isDigit (List.all_eq_true.1 h_all c (List.mem_cons_self ..))
    refine ⟨.integer h_some h_all (Text.dropsZeros_iff.2 rfl), longestBefore_word h_c h_ends, ?_⟩
    intro digits _ d hd
    have h_d := h_ends d hd
    rw [Char.isAlphanum, Bool.or_eq_false_iff] at h_d
    exact h_d.1
  · rw [← h_eq] at h_symbol
    exact ⟨.symbol s, longestBefore_symbol h_symbol, by simp⟩

/-- Scanning takes the longest lexeme from the front of a text. -/
theorem atFront?_eq_ok : Token.atFront? pos cs = .ok (token, lexeme, rest) ↔
    lexeme ++ rest = cs ∧ token.Takes lexeme rest := by
  constructor
  · intro h
    exact ⟨(append_of_atFront? h).2, takes_of_atFront? h⟩
  · rintro ⟨rfl, h⟩
    exact h.atFront? pos

end Token

/-! ## Obstacles -/

/-- Nothing can be taken from the front of the text `run ++ c :: after`, and `c` is in the way: it
    is not blank and starts no lexeme, or it is a letter behind a run of digits. -/
inductive Obstructs (c : Char) : List Char → List Char → Prop where
  | unknown {after : List Char} (h_blank : Text.isBlank c = false)
      (h : ∀ (token : Token) (lexeme : List Char), token.Reads lexeme → ¬ lexeme <+: c :: after) :
    Obstructs c [] after
  | letter {run after : List Char} (h_some : run ≠ []) (h_all : run.all Char.isDigit = true)
      (h_c : c.isAlpha = true) : Obstructs c run after

theorem Obstructs.exists_cons {c : Char} {run after : List Char} (h : Obstructs c run after) :
    ∃ d ds, run ++ c :: after = d :: ds ∧ Text.isBlank d = false := by
  cases h with
  | unknown h_blank h => exact ⟨c, after, rfl, h_blank⟩
  | letter h_some h_all h_c =>
    obtain ⟨d, ds, rfl⟩ := List.exists_cons_of_ne_nil h_some
    have h_digit : d.isDigit = true := List.all_eq_true.1 h_all d (List.mem_cons_self ..)
    exact ⟨d, _, rfl, Text.not_isBlank_of_isDigit h_digit⟩

/-- Scanning reports the character that is in the way. -/
theorem Obstructs.atFront? {c : Char} {run after : List Char} (h : Obstructs c run after)
    (pos : Position) : Token.atFront? pos (run ++ c :: after) = .error ⟨c, pos.advance run⟩ := by
  cases h with
  | unknown h_blank h =>
    have h_alpha : ¬ c.isAlpha = true := by
      intro h_c
      exact h _ [c] (.name (by simp [Text.isName, h_c])) ⟨after, rfl⟩
    have h_digit : ¬ c.isDigit = true := by
      intro h_c
      exact h _ [c] (.integer (by simp) (by simp [h_c]) (Text.dropsZeros_iff.2 rfl)) ⟨after, rfl⟩
    have h_symbol : Symbol.atFront? (c :: after) = none :=
      Symbol.atFront?_eq_none.2 fun s => h _ _ (.symbol s)
    rw [List.nil_append]
    show (if c.isAlpha then _ else _) = _
    rw [if_neg h_alpha, if_neg h_digit, h_symbol]
    rfl
  | letter h_some h_all h_c =>
    obtain ⟨d, ds, rfl⟩ := List.exists_cons_of_ne_nil h_some
    have h_digit : d.isDigit = true := List.all_eq_true.1 h_all d (List.mem_cons_self ..)
    -- The letter ends the run of digits.
    have h_end : ∀ e ∈ (c :: after).head?, e.isDigit = false := by
      rintro e ⟨⟩
      exact Text.not_isDigit_of_isAlpha h_c
    obtain ⟨h_take, h_drop⟩ := takeWhile_append_run h_end h_all
    show (if d.isAlpha then _ else _) = _
    rw [if_neg (not_isAlpha_of_isDigit h_digit), if_pos h_digit, h_take, h_drop]
    simp only
    rw [if_pos h_c]

/-- Where scanning takes nothing, some character is in the way. -/
theorem exists_obstructs {pos : Position} {d : Char} {cs : List Char} {stray : StrayChar}
    (h_blank : Text.isBlank d = false) (h : Token.atFront? pos (d :: cs) = .error stray) :
    ∃ c run after, run ++ c :: after = d :: cs ∧ Obstructs c run after := by
  unfold Token.atFront? at h
  simp only at h
  split at h
  · cases h
  rename_i h_alpha
  split at h
  · rename_i h_digit
    split at h
    · rename_i c after h_rest
      split at h
      · rename_i h_c
        refine ⟨c, (d :: cs).takeWhile Char.isDigit, after, ?_,
          .letter (by simp [h_digit]) List.all_takeWhile h_c⟩
        rw [← h_rest, List.takeWhile_append_dropWhile]
      · cases h
    · cases h
  rename_i h_digit
  split at h
  · cases h
  rename_i h_symbol
  refine ⟨d, [], cs, rfl, .unknown h_blank fun token lexeme h_reads h_starts => ?_⟩
  obtain ⟨c, word, rfl, h_c, -⟩ | ⟨s, rfl⟩ := h_reads.word_or_symbol
  · obtain ⟨rfl, -⟩ := List.cons_prefix_cons.1 h_starts
    rw [Char.isAlphanum, Bool.or_eq_true] at h_c
    exact h_c.elim h_alpha h_digit
  · exact Symbol.atFront?_eq_none.1 h_symbol s h_starts

end ProgramQuery
