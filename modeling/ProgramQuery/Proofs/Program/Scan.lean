/-
  ProgramQuery.Proofs.Program.Scan

  Scanning, without fuel.

  A scan skips a blank or takes a token, and goes on behind it (`Scanned`).  Since
  every token has a character at least, the fuel of the scanner is always enough.
  What a piece of a text is scanned to depends on the text behind it only through
  the first character there, which must not belong to the last token (`Spells`).
-/

import ProgramQuery.Proofs.Program.Lexical

namespace ProgramQuery

theorem Position.advance_append (pos : Position) (cs ds : List Char) :
    pos.advance (cs ++ ds) = (pos.advance cs).advance ds :=
  List.foldl_append

/-- Tokens in front of a stream. -/
def TokenStream.prepend (stream : TokenStream) (ts : List Located) : TokenStream :=
  ⟨ts ++ stream.tokens, stream.finish⟩

@[simp] theorem TokenStream.prepend_nil (stream : TokenStream) : stream.prepend [] = stream := rfl

@[simp] theorem TokenStream.prepend_append (stream : TokenStream) (ts us : List Located) :
    stream.prepend (ts ++ us) = (stream.prepend us).prepend ts := by
  simp [TokenStream.prepend]

/-! ## Rounds -/

/-- The text is scanned from the position on: blanks are skipped, and tokens are taken. -/
inductive Scanned : Position → List Char → TokenStream → Prop where
  | nil (pos : Position) : Scanned pos [] ⟨[], pos⟩
  | blank {pos : Position} {c : Char} {cs : List Char} {stream : TokenStream}
      (h_blank : Text.isBlank c = true) (h : Scanned (pos.after c) cs stream) :
    Scanned pos (c :: cs) stream
  | token {pos : Position} {c : Char} {cs lexeme rest : List Char} {token : Token}
      {stream : TokenStream} (h_blank : Text.isBlank c = false)
      (h_token : Token.atFront? pos (c :: cs) = .ok (token, lexeme, rest))
      (h : Scanned (pos.advance lexeme) rest stream) :
    Scanned pos (c :: cs) (stream.prepend [⟨token, pos⟩])

theorem Symbol.chars_ne_nil (s : Symbol) : s.chars ≠ [] := by
  cases s <;> exact List.cons_ne_nil _ _

theorem Symbol.append_of_atFront? {s : Symbol} {cs : List Char} (h : atFront? cs = some s) :
    s.chars ++ cs.drop s.chars.length = cs := by
  unfold atFront? at h
  have h_starts := List.find?_some h
  obtain ⟨rest, rfl⟩ := List.isPrefixOf_iff_prefix.1 h_starts
  rw [List.drop_left]

/-- A token takes its characters, one at least, from the front of the text. -/
theorem Token.append_of_atFront? {pos : Position} {cs lexeme rest : List Char} {token : Token}
    (h : Token.atFront? pos cs = .ok (token, lexeme, rest)) :
    lexeme ≠ [] ∧ lexeme ++ rest = cs := by
  unfold Token.atFront? at h
  split at h
  · cases h
  rename_i c cs
  split at h
  · rename_i h_alpha
    have h_first : c.isAlphanum = true := by simp [Char.isAlphanum, h_alpha]
    cases h
    exact ⟨by simp [h_first], List.takeWhile_append_dropWhile⟩
  split at h
  · rename_i h_digit
    have h_run : (c :: cs).takeWhile Char.isDigit ≠ [] := by simp [h_digit]
    simp only at h
    split at h
    · split at h
      · cases h
      · cases h
        exact ⟨h_run, List.takeWhile_append_dropWhile⟩
    · cases h
      exact ⟨h_run, List.takeWhile_append_dropWhile⟩
  · split at h
    · rename_i s h_symbol
      cases h
      exact ⟨s.chars_ne_nil, s.append_of_atFront? h_symbol⟩
    · cases h

theorem Token.length_rest_lt {pos : Position} {cs lexeme rest : List Char} {token : Token}
    (h : Token.atFront? pos cs = .ok (token, lexeme, rest)) : rest.length < cs.length := by
  obtain ⟨h_some, h_eq⟩ := Token.append_of_atFront? h
  have h_pos := List.length_pos_iff.2 h_some
  rw [← h_eq, List.length_append]
  omega

namespace TokenStream

variable {pos : Position} {cs : List Char} {stream : TokenStream}

theorem scanFrom_of_scanned (h : Scanned pos cs stream) {fuel : Nat} (h_fuel : cs.length ≤ fuel) :
    scanFrom fuel pos cs = .ok stream := by
  induction h generalizing fuel with
  | nil pos => cases fuel <;> rfl
  | blank h_blank _ ih =>
    rw [List.length_cons] at h_fuel
    obtain ⟨fuel, rfl⟩ : ∃ k, fuel = k + 1 := ⟨fuel - 1, by omega⟩
    rw [scanFrom, if_pos h_blank]
    exact ih (by omega)
  | token h_blank h_token _ ih =>
    have h_length := Token.length_rest_lt h_token
    rw [List.length_cons] at h_fuel h_length
    obtain ⟨fuel, rfl⟩ : ∃ k, fuel = k + 1 := ⟨fuel - 1, by omega⟩
    rw [scanFrom, h_blank, if_neg Bool.false_ne_true, h_token]
    simp only
    rw [ih (by omega)]
    rfl

theorem scanned_of_scanFrom {fuel : Nat} (h_fuel : cs.length ≤ fuel)
    (h : scanFrom fuel pos cs = .ok stream) : Scanned pos cs stream := by
  induction fuel generalizing pos cs stream with
  | zero =>
    obtain rfl := List.length_eq_zero_iff.1 (Nat.le_zero.1 h_fuel)
    cases h
    exact .nil pos
  | succ fuel ih =>
    cases cs with
    | nil =>
      cases h
      exact .nil pos
    | cons c cs =>
      rw [List.length_cons] at h_fuel
      rw [scanFrom] at h
      split at h
      · rename_i h_blank
        exact .blank h_blank (ih (by omega) h)
      · rename_i h_blank
        split at h
        · cases h
        · rename_i token lexeme rest h_token
          have h_length := Token.length_rest_lt h_token
          rw [List.length_cons] at h_length
          split at h
          · cases h
          · rename_i more h_more
            cases h
            exact .token (Bool.eq_false_iff.2 h_blank) h_token (ih (by omega) h_more)

/-- A scan ends with the tokens that the rounds take. -/
theorem scan_eq_ok : scan cs = .ok stream ↔ Scanned .start cs stream :=
  ⟨scanned_of_scanFrom (Nat.le_refl _), fun h => scanFrom_of_scanned h (Nat.le_refl _)⟩

end TokenStream

/-! ## The token at the front -/

theorem isAlphanum_of_isDigit {c : Char} (h : c.isDigit = true) : c.isAlphanum = true := by
  rw [Char.isAlphanum, h, Bool.or_true]

theorem not_isAlpha_of_isDigit {c : Char} (h : c.isDigit = true) : ¬ c.isAlpha = true := by
  intro h_alpha
  rw [Text.not_isDigit_of_isAlpha h_alpha] at h
  cases h

/-- A name is a letter, then letters and digits. -/
theorem isName_iff {cs : List Char} : Text.isName cs = true ↔
    ∃ c word, cs = c :: word ∧ c.isAlpha = true ∧ cs.all Char.isAlphanum = true := by
  cases cs with
  | nil => simp [Text.isName]
  | cons c cs =>
    rw [Text.isName, Bool.and_eq_true]
    constructor
    · rintro ⟨h_c, h_cs⟩
      exact ⟨c, cs, rfl, h_c, by simpa [Char.isAlphanum, h_c] using h_cs⟩
    · rintro ⟨_, _, ⟨⟩, h_c, h_all⟩
      rw [List.all_cons, Bool.and_eq_true] at h_all
      exact ⟨h_c, h_all.2⟩

/-- No name or number goes on with the text. -/
def EndsWord (rest : List Char) : Prop :=
  ∀ c ∈ rest.head?, c.isAlphanum = false

theorem endsWord_nil : EndsWord [] := by
  simp [EndsWord]

theorem endsWord_cons {c : Char} (h : c.isAlphanum = false) (rest : List Char) :
    EndsWord (c :: rest) := by
  simpa [EndsWord] using h

/-- A run of characters of a class ends where the class ends. -/
theorem takeWhile_append_run {rest cs : List Char} {p : Char → Bool}
    (h_rest : ∀ c ∈ rest.head?, p c = false) (h_cs : cs.all p = true) :
    (cs ++ rest).takeWhile p = cs ∧ (cs ++ rest).dropWhile p = rest := by
  rw [List.all_eq_true] at h_cs
  rw [List.takeWhile_append_of_pos h_cs, List.dropWhile_append_of_pos h_cs]
  cases rest with
  | nil => simp
  | cons c rest =>
    have h_c : ¬ p c = true := Bool.eq_false_iff.1 (h_rest c rfl)
    rw [List.takeWhile_cons_of_neg h_c, List.dropWhile_cons_of_neg h_c, List.append_nil]
    exact ⟨rfl, rfl⟩

theorem EndsWord.takeWhile_append {rest cs : List Char} {p : Char → Bool} (h_rest : EndsWord rest)
    (h_p : ∀ c, p c = true → c.isAlphanum = true) (h_cs : cs.all p = true) :
    (cs ++ rest).takeWhile p = cs ∧ (cs ++ rest).dropWhile p = rest := by
  refine takeWhile_append_run (fun c hc => Bool.eq_false_iff.2 fun h => ?_) h_cs
  exact Bool.false_ne_true ((h_rest c hc).symm.trans (h_p c h))

theorem head?_dropWhile {p : Char → Bool} {cs : List Char} {c : Char}
    (h : (cs.dropWhile p).head? = some c) : p c = false := by
  have h_head := List.head?_dropWhile_not p cs
  rw [h] at h_head
  exact h_head

/-- A token is a name, the canonical form of a run of digits, or a symbol; a name or a run of
    digits ends where no letter or digit follows. -/
theorem Token.cases_of_atFront? {pos : Position} {cs lexeme rest : List Char} {token : Token}
    (h : Token.atFront? pos cs = .ok (token, lexeme, rest)) :
    (∃ c word, lexeme = c :: word ∧ c.isAlpha = true ∧ lexeme.all Char.isAlphanum = true ∧
      EndsWord rest ∧ token = .name (String.ofList lexeme)) ∨
    (lexeme ≠ [] ∧ lexeme.all Char.isDigit = true ∧ EndsWord rest ∧
      token = .integer (String.ofList (Text.canonicalDigits lexeme))) ∨
    ∃ s : Symbol, lexeme = s.chars ∧ token = .symbol s ∧ Symbol.atFront? cs = some s := by
  unfold Token.atFront? at h
  split at h
  · cases h
  rename_i c cs
  split at h
  · rename_i h_alpha
    have h_first : c.isAlphanum = true := by simp [Char.isAlphanum, h_alpha]
    cases h
    exact .inl ⟨c, cs.takeWhile Char.isAlphanum, by simp [h_first], h_alpha, List.all_takeWhile,
      fun _ => head?_dropWhile, rfl⟩
  split at h
  · rename_i h_digit
    have h_run : (c :: cs).takeWhile Char.isDigit ≠ [] := by simp [h_digit]
    simp only at h
    split at h
    · rename_i d after h_rest
      split at h
      · cases h
      · rename_i h_alpha
        cases h
        refine .inr (.inl ⟨h_run, List.all_takeWhile, fun e he => ?_, rfl⟩)
        -- The run goes on as long as there are digits, and a letter behind it is refused.
        have h_e : e.isDigit = false := head?_dropWhile he
        obtain rfl : d = e := by simpa [h_rest] using he
        rw [Char.isAlphanum, h_e, Bool.eq_false_iff.2 h_alpha, Bool.or_false]
    · rename_i h_rest
      cases h
      refine .inr (.inl ⟨h_run, List.all_takeWhile, ?_, rfl⟩)
      rw [h_rest]
      exact endsWord_nil
  · split at h
    · rename_i s h_symbol
      cases h
      exact .inr (.inr ⟨s, rfl, rfl, h_symbol⟩)
    · cases h

namespace Token

variable {pos : Position} {c : Char} {cs rest : List Char}

/-- A name in front of anything but a letter or a digit is taken as a whole. -/
theorem atFront?_name (h_alpha : c.isAlpha = true) (h_all : (c :: cs).all Char.isAlphanum = true)
    (h_rest : EndsWord rest) : Token.atFront? pos (c :: cs ++ rest) =
      .ok (.name (String.ofList (c :: cs)), c :: cs, rest) := by
  obtain ⟨h_take, h_drop⟩ := h_rest.takeWhile_append (fun _ h => h) h_all
  show (if c.isAlpha then _ else _) = _
  rw [if_pos h_alpha, h_take, h_drop]

/-- Digits in front of anything but a letter or a digit are taken as a whole. -/
theorem atFront?_integer (h_all : (c :: cs).all Char.isDigit = true) (h_rest : EndsWord rest) :
    Token.atFront? pos (c :: cs ++ rest) =
      .ok (.integer (String.ofList (Text.canonicalDigits (c :: cs))), c :: cs, rest) := by
  have h_digit : c.isDigit = true := List.all_eq_true.1 h_all c (List.mem_cons_self ..)
  obtain ⟨h_take, h_drop⟩ := h_rest.takeWhile_append (fun _ h => isAlphanum_of_isDigit h) h_all
  show (if c.isAlpha then _ else _) = _
  rw [if_neg (not_isAlpha_of_isDigit h_digit), if_pos h_digit, h_take, h_drop]
  -- No letter stands directly behind the digits.
  cases rest with
  | nil => rfl
  | cons d rest =>
    have h_d : d.isAlpha = false := by
      have h_end := h_rest d rfl
      rw [Char.isAlphanum, Bool.or_eq_false_iff] at h_end
      exact h_end.1
    simp only
    rw [h_d, if_neg Bool.false_ne_true]

end Token

/-! ## Pieces of a text -/

/-- In front of the text `rest`, the characters are scanned to the tokens. -/
def Spells (pos : Position) (cs : List Char) (ts : List Located) (rest : List Char) : Prop :=
  ∀ stream, Scanned (pos.advance cs) rest stream → Scanned pos (cs ++ rest) (stream.prepend ts)

namespace Spells

variable {pos : Position} {rest : List Char}

theorem nil : Spells pos [] [] rest :=
  fun _ h => h

/-- Pieces one after the other. -/
theorem append {cs ds : List Char} {ts us : List Located} (h_cs : Spells pos cs ts (ds ++ rest))
    (h_ds : Spells (pos.advance cs) ds us rest) : Spells pos (cs ++ ds) (ts ++ us) rest := by
  intro stream h
  rw [Position.advance_append] at h
  rw [List.append_assoc, TokenStream.prepend_append]
  exact h_cs _ (h_ds stream h)

theorem space : Spells pos [' '] [] rest :=
  fun _ h => .blank (by decide) h

theorem token {c : Char} {cs : List Char} {token : Token} (h_blank : Text.isBlank c = false)
    (h : Token.atFront? pos (c :: cs ++ rest) = .ok (token, c :: cs, rest)) :
    Spells pos (c :: cs) [⟨token, pos⟩] rest :=
  fun _ h_rest => .token h_blank h h_rest

/-- A name in front of anything but a letter or a digit. -/
theorem name {text : String} (h : Text.isNameString text = true) (h_rest : EndsWord rest) :
    Spells pos text.toList [⟨.name text, pos⟩] rest := by
  obtain ⟨c, cs, h_chars, h_alpha, h_word⟩ := isName_iff.1 h
  have h_text : String.ofList (c :: cs) = text := by rw [← h_chars, String.ofList_toList]
  rw [h_chars] at h_word ⊢
  refine token (Text.not_isBlank_of_isAlpha h_alpha) ?_
  rw [Token.atFront?_name h_alpha h_word h_rest, h_text]

/-- A number in canonical form in front of anything but a letter or a digit. -/
theorem integer {digits : String} (h : Text.isDigitString digits = true)
    (h_canonical : Text.canonicalInteger digits = digits) (h_rest : EndsWord rest) :
    Spells pos digits.toList [⟨.integer digits, pos⟩] rest := by
  obtain ⟨h_some, h_all⟩ := Bool.and_eq_true_iff.1 h
  unfold Text.canonicalInteger at h_canonical
  cases h_chars : digits.toList with
  | nil =>
    rw [h_chars] at h_some
    cases h_some
  | cons c cs =>
    rw [h_chars] at h_all h_canonical
    have h_digit : c.isDigit = true := List.all_eq_true.1 h_all c (List.mem_cons_self ..)
    refine token (Text.not_isBlank_of_isDigit h_digit) ?_
    rw [Token.atFront?_integer h_all h_rest, h_canonical]

end Spells

/-! ## Symbols -/

namespace Symbol

/-- Whether an equals sign makes another symbol of the symbol. -/
def grows : Symbol → Bool
  | .equal | .greater | .less | .bang => true
  | _ => false

/-- A symbol is the longest one at the front of a text, unless it grows. -/
theorem atFront?_chars (s : Symbol) {rest : List Char}
    (h : s.grows = true → '=' ∉ rest.head?) : atFront? (s.chars ++ rest) = some s := by
  cases s with
  | equal | greater | less | bang =>
    cases rest with
    | nil => rfl
    | cons c rest =>
      have h_c : ('=' == c) = false := by
        rw [beq_eq_false_iff_ne]
        rintro rfl
        exact h rfl rfl
      simp only [atFront?, all, chars, List.cons_append, List.nil_append, List.find?_cons,
        List.isPrefixOf, h_c, Bool.false_and, Bool.and_false]
      rfl
  | _ => rfl

theorem exists_chars (s : Symbol) : ∃ c cs, s.chars = c :: cs ∧ Text.isBlank c = false ∧
    c.isAlpha = false ∧ c.isDigit = false := by
  cases s <;> exact ⟨_, _, rfl, by decide, by decide, by decide⟩

/-- No character of a symbol is a letter or a digit. -/
theorem not_isAlphanum (s : Symbol) : ∀ c ∈ s.chars, c.isAlphanum = false := by
  have h_all : s.chars.all (fun c => !c.isAlphanum) = true := by
    cases s <;> rfl
  intro c hc
  simpa using List.all_eq_true.1 h_all c hc

end Symbol

/-- A symbol is taken where it is the longest one. -/
theorem Token.atFront?_symbol {pos : Position} {rest : List Char} {s : Symbol}
    (h : Symbol.atFront? (s.chars ++ rest) = some s) :
    Token.atFront? pos (s.chars ++ rest) = .ok (.symbol s, s.chars, rest) := by
  have h_drop : (s.chars ++ rest).drop s.chars.length = rest := List.drop_left
  obtain ⟨c, cs, h_chars, -, h_alpha, h_digit⟩ := s.exists_chars
  rw [h_chars] at h h_drop ⊢
  show (if c.isAlpha then _ else _) = _
  rw [h_alpha, if_neg Bool.false_ne_true, h_digit, if_neg Bool.false_ne_true, h]
  simp only
  rw [h_chars, h_drop]

theorem Spells.symbol {pos : Position} {rest : List Char} (s : Symbol)
    (h : s.grows = true → '=' ∉ rest.head?) : Spells pos s.chars [⟨.symbol s, pos⟩] rest := by
  have h_front : Token.atFront? pos (s.chars ++ rest) = _ :=
    Token.atFront?_symbol (s.atFront?_chars h)
  obtain ⟨c, cs, h_chars, h_blank, -, -⟩ := s.exists_chars
  rw [h_chars] at h_front ⊢
  exact Spells.token h_blank h_front

end ProgramQuery
