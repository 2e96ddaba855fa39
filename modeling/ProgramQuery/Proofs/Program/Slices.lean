/-
  ProgramQuery.Proofs.Program.Slices

  Where the tokens of a program text stand.

  A slice is a piece of a text between what stands before it and behind it.  The
  tokens of a text fill slices that follow one another with nothing but blanks
  between them, each of them as long as a lexeme can be, and the position of a
  token is found by counting the characters before its slice.  A text that cannot
  be scanned is divided in this way up to the first place where no token can be
  taken, and the position of the reported character is counted likewise.

  Both follow from two facts: every text is divided into slices up to its end or
  up to an obstacle, and scanning passes over slices with their tokens.
-/

import Mathlib.Data.List.Forall2
import ProgramQuery.Proofs.Program.Lexemes

namespace ProgramQuery

/-! ## Positions -/

namespace Position

/-- The place behind a text: its lines are counted by their ends, its columns from the last one. -/
def behind (before : List Char) : Position :=
  ⟨1 + before.count '\n', 1 + (before.reverse.takeWhile (· != '\n')).length⟩

theorem behind_concat (cs : List Char) (c : Char) : behind (cs ++ [c]) = (behind cs).after c := by
  by_cases h : c = '\n'
  · simp [behind, after, h, Nat.add_assoc]
  · simp [behind, after, h, List.count_append, Nat.add_assoc]

/-- Advancing over a text counts its characters. -/
theorem behind_append (cs ds : List Char) : behind (cs ++ ds) = (behind cs).advance ds := by
  induction ds generalizing cs with
  | nil => rw [List.append_nil]; rfl
  | cons d ds ih =>
    rw [← List.singleton_append, ← List.append_assoc, ih, behind_concat]
    rfl

end Position

/-! ## Slices -/

/-- A piece of a text. -/
structure Slice (text : List Char) where
  before : List Char
  chars : List Char
  after : List Char
  joined : before ++ (chars ++ after) = text

namespace Slice

variable {text : List Char}

/-- The number of characters before a slice. -/
def start (s : Slice text) : Nat :=
  s.before.length

/-- The number of characters up to the end of a slice. -/
def stop (s : Slice text) : Nat :=
  s.before.length + s.chars.length

theorem start_le_stop (s : Slice text) : s.start ≤ s.stop :=
  Nat.le_add_right _ _

theorem take_start (s : Slice text) : text.take s.start = s.before := by
  obtain ⟨before, chars, after, rfl⟩ := s
  exact List.take_left

theorem drop_start (s : Slice text) : text.drop s.start = s.chars ++ s.after := by
  obtain ⟨before, chars, after, rfl⟩ := s
  exact List.drop_left

theorem take_stop (s : Slice text) : text.take s.stop = s.before ++ s.chars := by
  obtain ⟨before, chars, after, rfl⟩ := s
  show (before ++ (chars ++ after)).take (before.length + chars.length) = before ++ chars
  rw [List.take_length_add_append, List.take_left]

theorem drop_stop (s : Slice text) : text.drop s.stop = s.after := by
  obtain ⟨before, chars, after, rfl⟩ := s
  show (before ++ (chars ++ after)).drop (before.length + chars.length) = after
  rw [List.drop_length_add_append, List.drop_left]

end Slice

/-- All characters of the text from place `k` up to place `n` are blank. -/
def BlankBetween (text : List Char) (k n : Nat) : Prop :=
  ∀ i c, k ≤ i → i < n → text[i]? = some c → Text.isBlank c = true

/-- The slices stand one behind the other between two places of the text, and every character there
    that is in none of them is blank. -/
structure Tiles {text : List Char} (k n : Nat) (slices : List (Slice text)) : Prop where
  ordered : slices.Pairwise fun s t => s.stop ≤ t.start
  within : ∀ s ∈ slices, k ≤ s.start ∧ s.stop ≤ n
  blank : ∀ i c, k ≤ i → i < n → text[i]? = some c →
    (∀ s ∈ slices, ¬ (s.start ≤ i ∧ i < s.stop)) → Text.isBlank c = true

section Tiles

variable {text : List Char} {k m n : Nat} {s : Slice text} {slices : List (Slice text)}

theorem tiles_nil : Tiles k n ([] : List (Slice text)) ↔ BlankBetween text k n := by
  constructor
  · intro h i c h_k h_n h_c
    exact h.blank i c h_k h_n h_c (by simp)
  · intro h
    exact ⟨.nil, by simp, fun i c h_k h_n h_c _ => h i c h_k h_n h_c⟩

/-- In front of the first slice there are blanks, and the others follow it. -/
theorem tiles_cons : Tiles k n (s :: slices) ↔
    (k ≤ s.start ∧ BlankBetween text k s.start) ∧ s.stop ≤ n ∧ Tiles s.stop n slices := by
  constructor
  · rintro ⟨h_ordered, h_within, h_blank⟩
    obtain ⟨h_first, h_rest⟩ := List.pairwise_cons.1 h_ordered
    obtain ⟨h_s, h_slices⟩ := List.forall_mem_cons.1 h_within
    have h_start := s.start_le_stop
    refine ⟨⟨h_s.1, fun i c h_k h_i h_c => ?_⟩, h_s.2, h_rest,
      fun t ht => ⟨h_first t ht, (h_slices t ht).2⟩, fun i c h_k h_i h_c h_out => ?_⟩
    · refine h_blank i c h_k (by omega) h_c (List.forall_mem_cons.2 ⟨by omega, fun t ht => ?_⟩)
      have h_t := h_first t ht
      omega
    · exact h_blank i c (by omega) h_i h_c (List.forall_mem_cons.2 ⟨by omega, h_out⟩)
  · rintro ⟨⟨h_k, h_gap⟩, h_stop, h_ordered, h_within, h_blank⟩
    have h_start := s.start_le_stop
    refine ⟨List.pairwise_cons.2 ⟨fun t ht => (h_within t ht).1, h_ordered⟩,
      List.forall_mem_cons.2 ⟨⟨h_k, h_stop⟩, fun t ht => ?_⟩, fun i c h_i h_n h_c h_out => ?_⟩
    · have h_t := h_within t ht
      omega
    · -- The place is before the first slice or behind it.
      obtain ⟨h_s, h_out⟩ := List.forall_mem_cons.1 h_out
      by_cases h_before : i < s.start
      · exact h_gap i c h_i h_before h_c
      · exact h_blank i c (by omega) h_n h_c h_out

/-- Blanks in front of the slices. -/
theorem Tiles.after_blanks (h : Tiles m n slices) (h_gap : BlankBetween text k m) (h_le : k ≤ m) :
    Tiles k n slices := by
  obtain ⟨h_ordered, h_within, h_blank⟩ := h
  refine ⟨h_ordered, fun s hs => ?_, fun i c h_k h_n h_c h_out => ?_⟩
  · have h_s := h_within s hs
    omega
  · by_cases h_i : i < m
    · exact h_gap i c h_k h_i h_c
    · exact h_blank i c (by omega) h_n h_c h_out

end Tiles

/-- The token fills the slice. -/
structure Located.Fills {text : List Char} (t : Located) (s : Slice text) : Prop where
  takes : t.token.Takes s.chars s.after
  position : t.pos = .behind s.before

/-! ## Scanning passes over slices -/

namespace TokenStream

/-- Every amount of fuel that is enough gives the same result. -/
theorem scanFrom_eq_of_le {fuel fuel' : Nat} {pos : Position} {cs : List Char}
    (h : cs.length ≤ fuel) (h' : cs.length ≤ fuel') :
    scanFrom fuel pos cs = scanFrom fuel' pos cs := by
  induction fuel generalizing fuel' pos cs with
  | zero =>
    obtain rfl := List.length_eq_zero_iff.1 (Nat.le_zero.1 h)
    cases fuel' <;> rfl
  | succ fuel ih =>
    cases cs with
    | nil => cases fuel' <;> rfl
    | cons c cs =>
      rw [List.length_cons] at h h'
      obtain ⟨fuel', rfl⟩ : ∃ k, fuel' = k + 1 := ⟨fuel' - 1, by omega⟩
      rw [scanFrom, scanFrom]
      split
      · exact ih (by omega) (by omega)
      · split
        · rfl
        · -- The rest behind a token is shorter, so what is left of the fuel is enough for it.
          rename_i lexeme rest h_token
          have h_length := Token.length_rest_lt h_token
          rw [List.length_cons] at h_length
          have h_rest : scanFrom fuel (pos.advance lexeme) rest =
              scanFrom fuel' (pos.advance lexeme) rest := ih (by omega) (by omega)
          rw [h_rest]

/-- The scan of what is behind the first `n` characters of a text. -/
def scanBehind (text : List Char) (n : Nat) : Except StrayChar TokenStream :=
  scanFrom (text.drop n).length (.behind (text.take n)) (text.drop n)

variable {text : List Char} {k n : Nat}

theorem scanBehind_zero (text : List Char) : scanBehind text 0 = scan text := rfl

theorem scanBehind_length (text : List Char) :
    scanBehind text text.length = .ok ⟨[], .behind text⟩ := by
  rw [scanBehind, List.drop_length, List.take_length]
  rfl

theorem scanBehind_blank {c : Char} (h : text[n]? = some c) (h_blank : Text.isBlank c = true) :
    scanBehind text n = scanBehind text (n + 1) := by
  obtain ⟨h_n, h_c⟩ := List.getElem?_eq_some_iff.1 h
  have h_drop : text.drop n = c :: text.drop (n + 1) := by
    rw [← h_c, List.drop_eq_getElem_cons h_n]
  have h_take : text.take (n + 1) = text.take n ++ [c] := by
    rw [← h_c, List.take_succ_eq_append_getElem h_n]
  rw [scanBehind, scanBehind, h_drop, h_take, Position.behind_concat, List.length_cons, scanFrom,
    if_pos h_blank]

theorem scanBehind_blanks (h : BlankBetween text k n) (h_k : k ≤ n) (h_n : n ≤ text.length) :
    scanBehind text k = scanBehind text n := by
  induction n, h_k using Nat.le_induction with
  | base => rfl
  | succ n h_k ih =>
    have h_c := List.getElem?_eq_getElem h_n
    rw [ih (fun i c h_i h_lt => h i c h_i (by omega)) (by omega),
      scanBehind_blank h_c (h n _ h_k (by omega) h_c)]

/-- A token is taken from its slice. -/
theorem scanBehind_slice {t : Located} {s : Slice text} (h : t.Fills s) :
    scanBehind text s.start = (scanBehind text s.stop).map (·.prepend [t]) := by
  obtain ⟨h_takes, h_pos⟩ := h
  have h_front := h_takes.atFront? t.pos
  have h_length := Token.length_rest_lt h_front
  obtain ⟨c, cs, h_chars, h_blank⟩ := h_takes.reads.exists_cons
  rw [scanBehind, scanBehind, s.take_start, s.drop_start, s.take_stop, s.drop_stop,
    Position.behind_append, ← h_pos]
  rw [h_chars] at h_front h_length ⊢
  rw [List.cons_append] at h_front h_length ⊢
  rw [List.length_cons] at h_length ⊢
  -- One round takes the token and leaves more fuel than the text behind it needs.
  have h_rest : scanFrom (cs ++ s.after).length (t.pos.advance (c :: cs)) s.after =
      scanFrom s.after.length (t.pos.advance (c :: cs)) s.after :=
    scanFrom_eq_of_le (by omega) (Nat.le_refl _)
  rw [scanFrom, h_blank, if_neg Bool.false_ne_true, h_front]
  simp only
  rw [h_rest]
  cases scanFrom s.after.length (t.pos.advance (c :: cs)) s.after <;> rfl

/-- A character in the way is reported with its position. -/
theorem scanBehind_obstacle {front run after : List Char} {c : Char}
    (h_text : front ++ (run ++ c :: after) = text) (h : Obstructs c run after) :
    scanBehind text front.length = .error ⟨c, .behind (front ++ run)⟩ := by
  obtain ⟨d, ds, h_rest, h_blank⟩ := h.exists_cons
  have h_front := h.atFront? (.behind front)
  subst h_text
  rw [scanBehind, List.take_left, List.drop_left, Position.behind_append]
  rw [h_rest] at h_front ⊢
  rw [List.length_cons, scanFrom, h_blank, if_neg Bool.false_ne_true, h_front]

/-- Scanning passes over slices that tokens fill. -/
theorem scanBehind_tiles {slices : List (Slice text)} {ts : List Located}
    (h_tiles : Tiles k n slices) (h_ts : List.Forall₂ Located.Fills ts slices) (h_k : k ≤ n)
    (h_n : n ≤ text.length) :
    scanBehind text k = (scanBehind text n).map (·.prepend ts) := by
  induction h_ts generalizing k with
  | nil =>
    rw [scanBehind_blanks (tiles_nil.1 h_tiles) h_k h_n]
    cases scanBehind text n <;> rfl
  | @cons t s ts slices h_t _ ih =>
    obtain ⟨⟨h_start, h_gap⟩, h_stop, h_slices⟩ := tiles_cons.1 h_tiles
    have h_s := s.start_le_stop
    calc scanBehind text k
        = scanBehind text s.start := scanBehind_blanks h_gap h_start (by omega)
      _ = (scanBehind text s.stop).map (·.prepend [t]) := scanBehind_slice h_t
      _ = ((scanBehind text n).map (·.prepend ts)).map (·.prepend [t]) := by
        rw [ih h_slices h_stop]
      _ = (scanBehind text n).map (·.prepend (t :: ts)) := by
        cases scanBehind text n <;> rfl

end TokenStream

/-! ## Texts are divided into slices -/

/-- The tokens fill slices between two places of the text, with blanks only in the other places. -/
def FillBetween (text : List Char) (k n : Nat) (ts : List Located) : Prop :=
  ∃ slices : List (Slice text), Tiles k n slices ∧ List.Forall₂ Located.Fills ts slices

section Divide

variable {text front : List Char}

theorem fillBetween_nil (text : List Char) (n : Nat) : FillBetween text n n [] := by
  refine ⟨[], tiles_nil.2 fun i c h_k h_n => ?_, .nil⟩
  omega

theorem FillBetween.blank {c : Char} {cs : List Char} {n : Nat} {ts : List Located}
    (h_text : front ++ c :: cs = text) (h_blank : Text.isBlank c = true)
    (h : FillBetween text (front ++ [c]).length n ts) : FillBetween text front.length n ts := by
  obtain ⟨slices, h_tiles, h_ts⟩ := h
  refine ⟨slices, h_tiles.after_blanks (fun i d h_k h_i h_d => ?_) (by simp), h_ts⟩
  rw [List.length_append, List.length_singleton] at h_i
  obtain rfl : i = front.length := by omega
  rw [← h_text, List.getElem?_append_right (Nat.le_refl _), Nat.sub_self] at h_d
  obtain rfl := Option.some.inj h_d
  exact h_blank

theorem FillBetween.token {token : Token} {lexeme rest : List Char} {n : Nat} {ts : List Located}
    (h_text : front ++ (lexeme ++ rest) = text) (h_token : token.Takes lexeme rest)
    (h_n : (front ++ lexeme).length ≤ n) (h : FillBetween text (front ++ lexeme).length n ts) :
    FillBetween text front.length n (⟨token, .behind front⟩ :: ts) := by
  obtain ⟨slices, h_tiles, h_ts⟩ := h
  rw [List.length_append] at h_n h_tiles
  refine ⟨⟨front, lexeme, rest, h_text⟩ :: slices, tiles_cons.2 ⟨⟨Nat.le_refl _, ?_⟩, h_n, h_tiles⟩,
    .cons ⟨h_token, rfl⟩ h_ts⟩
  intro i c h_k h_i
  exact absurd h_i (Nat.not_lt.2 h_k)

/-- Every text is divided into slices that tokens fill, up to its end or to a character that is in
    the way. -/
theorem exists_fillBetween {rest : List Char} (h_text : front ++ rest = text) :
    ∃ (done : List Char) (ts : List Located), front.length ≤ done.length ∧
      FillBetween text front.length done.length ts ∧ (done = text ∨
        ∃ c run after, done ++ (run ++ c :: after) = text ∧ Obstructs c run after) := by
  -- By the length of the rest: a blank is passed, a token is taken, or a character is in the way.
  induction h_length : rest.length using Nat.strong_induction_on generalizing front rest with
  | _ length ih =>
    cases rest with
    | nil =>
      rw [List.append_nil] at h_text
      exact ⟨front, [], Nat.le_refl _, fillBetween_nil _ _, .inl h_text⟩
    | cons c cs =>
      subst h_length
      by_cases h_blank : Text.isBlank c = true
      · have h_next : (front ++ [c]) ++ cs = text := by simpa using h_text
        obtain ⟨done, ts, h_le, h_ts, h_end⟩ := ih cs.length (by simp) h_next rfl
        rw [List.length_append] at h_le
        exact ⟨done, ts, by omega, .blank h_text h_blank h_ts, h_end⟩
      cases h_front : Token.atFront? (.behind front) (c :: cs) with
      | error stray =>
        obtain ⟨d, run, after, h_eq, h_stop⟩ :=
          exists_obstructs (Bool.eq_false_iff.2 h_blank) h_front
        rw [← h_eq] at h_text
        exact ⟨front, [], Nat.le_refl _, fillBetween_nil _ _, .inr ⟨d, run, after, h_text, h_stop⟩⟩
      | ok found =>
        obtain ⟨token, lexeme, rest⟩ := found
        have h_shorter := Token.length_rest_lt h_front
        obtain ⟨h_eq, h_token⟩ := Token.atFront?_eq_ok.1 h_front
        rw [← h_eq] at h_text
        have h_next : (front ++ lexeme) ++ rest = text := by rw [List.append_assoc, h_text]
        obtain ⟨done, ts, h_le, h_ts, h_end⟩ := ih rest.length h_shorter h_next rfl
        have h_front_le : front.length ≤ done.length := by
          rw [List.length_append] at h_le
          omega
        exact ⟨done, _, h_front_le, .token h_text h_token h_le h_ts, h_end⟩

end Divide

/-! ## Scanning -/

/-- The tokens of the stream fill slices of the whole text, and it finishes where the text ends. -/
structure TokenStream.Divides (stream : TokenStream) (text : List Char) : Prop where
  tokens : FillBetween text 0 text.length stream.tokens
  finish : stream.finish = .behind text

/-- The character stands in the text at its position and stops the division into slices: what is
    before it is divided, except for the digits that it touches. -/
def StrayChar.Stops (stray : StrayChar) (text : List Char) : Prop :=
  ∃ (front run after : List Char) (ts : List Located),
    front ++ (run ++ stray.char :: after) = text ∧ stray.pos = .behind (front ++ run) ∧
    FillBetween text 0 front.length ts ∧ Obstructs stray.char run after

theorem exists_divides_or_stops (text : List Char) :
    (∃ stream : TokenStream, stream.Divides text) ∨ ∃ stray : StrayChar, stray.Stops text := by
  obtain ⟨done, ts, -, h_ts, rfl | ⟨c, run, after, h_text, h_stop⟩⟩ :=
    exists_fillBetween (List.nil_append text)
  · exact .inl ⟨⟨ts, .behind done⟩, h_ts, rfl⟩
  · exact .inr ⟨⟨c, .behind (done ++ run)⟩, done, run, after, ts, h_text, rfl, h_ts, h_stop⟩

namespace TokenStream

variable {text : List Char}

theorem scan_of_fillBetween {n : Nat} {ts : List Located} (h : FillBetween text 0 n ts)
    (h_n : n ≤ text.length) : scan text = (scanBehind text n).map (·.prepend ts) := by
  obtain ⟨slices, h_tiles, h_ts⟩ := h
  rw [← scanBehind_zero, scanBehind_tiles h_tiles h_ts (Nat.zero_le _) h_n]

theorem scan_of_divides {stream : TokenStream} (h : stream.Divides text) :
    scan text = .ok stream := by
  obtain ⟨ts, finish⟩ := stream
  obtain ⟨h_ts, rfl⟩ := h
  rw [scan_of_fillBetween h_ts (Nat.le_refl _), scanBehind_length]
  show Except.ok (⟨ts ++ [], .behind text⟩ : TokenStream) = _
  rw [List.append_nil]

theorem scan_of_stops {stray : StrayChar} (h : stray.Stops text) : scan text = .error stray := by
  obtain ⟨char, pos⟩ := stray
  obtain ⟨front, run, after, ts, h_text, rfl, h_ts, h_stop⟩ := h
  have h_length : front.length ≤ text.length := by
    rw [← h_text, List.length_append]
    omega
  rw [scan_of_fillBetween h_ts h_length, scanBehind_obstacle h_text h_stop]
  rfl

/-- Scanning divides a text into the longest lexemes and blanks.  It succeeds with the tokens that
    fill slices of the whole text, and it fails with the character that stops the division. -/
theorem scan_divides_text (text : List Char) :
    (∀ stream : TokenStream, scan text = .ok stream ↔ stream.Divides text) ∧
    ∀ stray : StrayChar, scan text = .error stray ↔ stray.Stops text := by
  -- Every text is divided or stopped, and either one settles the result of the scan.
  refine ⟨fun stream => ⟨fun h => ?_, scan_of_divides⟩, fun stray => ⟨fun h => ?_, scan_of_stops⟩⟩
  · rcases exists_divides_or_stops text with ⟨found, h_found⟩ | ⟨stray, h_stray⟩
    · rw [scan_of_divides h_found] at h
      cases h
      exact h_found
    · rw [scan_of_stops h_stray] at h
      cases h
  · rcases exists_divides_or_stops text with ⟨stream, h_stream⟩ | ⟨found, h_found⟩
    · rw [scan_of_divides h_stream] at h
      cases h
    · rw [scan_of_stops h_found] at h
      cases h
      exact h_found

/-- A text of two lines with symbols that touch each other, and a letter behind a digit. -/
theorem scan_divides_two_lines :
    TokenStream.Divides
      ⟨[⟨.name "b2", ⟨1, 1⟩⟩, ⟨.symbol .notEqual, ⟨1, 3⟩⟩, ⟨.symbol .bang, ⟨1, 5⟩⟩,
        ⟨.integer "7", ⟨2, 3⟩⟩], ⟨2, 6⟩⟩ "b2!=!\n  007".toList ∧
    StrayChar.Stops ⟨'a', ⟨2, 3⟩⟩ "x =\n 1abc;".toList :=
  ⟨((scan_divides_text _).1 _).1 (by decide +kernel),
    ((scan_divides_text _).2 _).1 (by decide +kernel)⟩

end TokenStream

end ProgramQuery
