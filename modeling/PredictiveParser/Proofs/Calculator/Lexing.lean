import Mathlib.Data.List.Forall2
import PredictiveParser.Proofs.Calculator.Semantics

/-!
# Words are read as they are laid out

A piece of the source is as long as its first character allows, so a gap makes pieces that are passed over, and a word that
nothing goes on with makes one piece (`lexAt_word`). The lexemes of a text are therefore those of its words, whatever the
gaps between them are (`Laid.lexAt`).
-/

namespace PredictiveParser.Calculator

variable {A : Alphabet} {p : Position} {c : Char} {cs : List Char}

/-- The lexemes and errors of a text that begins at a position. -/
def lexAt (A : Alphabet) (p : Position) (cs : List Char) : List (Except Error Lexed) :=
  (pieces p cs).filterMap (lexPiece? A)

/-- What a word stands for at a place of the source. -/
def Word.read (A : Alphabet) (w : Word) (span : Span) : Except Error Lexed :=
  (tokenOf A w.lexeme (.ofList w.text) span).map fun token => ⟨w.lexeme, .ofList w.text, token⟩

/-- What a character can begin, and what goes on with it. -/
inductive Kind.Starts : Char → Kind × (Char → Bool) → Prop
  | blank {c : Char} : isBlank c → Starts c (.blank, isBlank)
  | comment : Starts '#' (.blank, (· != '\n'))
  | ident {c : Char} : isIdentStart c → Starts c (.lexeme .ident, isIdentPart)
  | number {c : Char} : c.isDigit → Starts c (.lexeme .number, Char.isDigit)
  | mark {c : Char} {l : Lexeme} : Lexeme.ofChar? c = some l → Starts c (.lexeme l, fun _ => false)
  | unknown {c : Char} : Starts c (.unknown, fun _ => false)

theorem Kind.starts {k : Kind} {more : Char → Bool} (hc : Kind.starting c = (k, more)) : Kind.Starts c (k, more) := by
  rw [← hc, Kind.starting]
  split
  · next hblank => exact .blank hblank
  split
  · next hcomment => exact hcomment ▸ .comment
  split
  · next hident => exact .ident hident
  split
  · next hdigit => exact .number hdigit
  split
  · next hmark => exact .mark hmark
  · exact .unknown

theorem lexAt_nil (A : Alphabet) (p : Position) : lexAt A p [] = [] := by
  rw [lexAt, pieces]
  rfl

theorem positionAfter_cons (p : Position) (c : Char) (cs : List Char) :
    positionAfter p (c :: cs) = positionAfter (nextPosition p c) cs :=
  rfl

/-- A character that begins a piece to be passed over is passed over with all that goes on with it. -/
theorem lexAt_of_blank {more : Char → Bool} (hc : Kind.starting c = (.blank, more)) (A : Alphabet) (p : Position)
    (cs : List Char) : lexAt A p (c :: cs) = lexAt A (positionAfter p (c :: cs.takeWhile more)) (cs.dropWhile more) := by
  rw [lexAt, pieces, hc]
  rfl

theorem starting_of_isBlank (hc : isBlank c) : Kind.starting c = (.blank, isBlank) := by
  rw [Kind.starting, if_pos hc]

theorem starting_comment : Kind.starting '#' = (.blank, (· != '\n')) :=
  rfl

/-- A blank is passed over. -/
theorem lexAt_blank (hc : isBlank c) (p : Position) (cs : List Char) :
    lexAt A p (c :: cs) = lexAt A (nextPosition p c) cs := by
  rw [lexAt_of_blank (starting_of_isBlank hc), positionAfter_cons]
  -- the blanks behind it make a piece with it or without it
  cases cs with
  | nil => rfl
  | cons d ds =>
    by_cases hd : isBlank d
    · rw [List.takeWhile_cons_of_pos hd, List.dropWhile_cons_of_pos hd, lexAt_of_blank (starting_of_isBlank hd)]
    · rw [List.takeWhile_cons_of_neg hd, List.dropWhile_cons_of_neg hd]
      rfl

/-- Characters that go on, with one behind them that does not, are what is taken. -/
theorem takeWhile_append_of_head {more : Char → Bool} {ds : List Char} (hds : ∀ d ∈ ds, more d = true)
    (hcs : ∀ d ∈ cs.head?, more d = false) : (ds ++ cs).takeWhile more = ds ∧ (ds ++ cs).dropWhile more = cs := by
  rw [List.takeWhile_append_of_pos hds, List.dropWhile_append_of_pos hds]
  cases cs with
  | nil => exact ⟨List.append_nil ds, rfl⟩
  | cons d cs =>
    have hd : ¬ more d := Bool.eq_false_iff.1 (hcs d rfl)
    rw [List.takeWhile_cons_of_neg hd, List.dropWhile_cons_of_neg hd, List.append_nil]
    exact ⟨rfl, rfl⟩

/-- A comment is passed over. -/
theorem lexAt_comment {body : List Char} (hbody : '\n' ∉ body) (p : Position) (cs : List Char)
    (hcs : ∀ d ∈ cs.head?, d = '\n') : lexAt A p ('#' :: body ++ cs) = lexAt A (positionAfter p ('#' :: body)) cs := by
  have hall : ∀ d ∈ body, (d != '\n') = true := fun d hd => bne_iff_ne.2 fun e => hbody (e ▸ hd)
  obtain ⟨htake, hdrop⟩ := takeWhile_append_of_head hall fun d hd => by rw [hcs d hd]; rfl
  rw [List.cons_append, lexAt_of_blank starting_comment, htake, hdrop]

/-- A gap is passed over. -/
theorem Gap.lexAt {gap : List Char} (hg : Gap gap) (A : Alphabet) (p : Position) (cs : List Char) :
    ∃ q, Calculator.lexAt A p (gap ++ cs) = Calculator.lexAt A q cs := by
  induction hg generalizing p with
  | nil => exact ⟨p, rfl⟩
  | @blank c gap hc _ ih =>
    rw [List.cons_append, lexAt_blank hc]
    exact ih _
  | @comment body gap hbody _ ih =>
    have hend : ∀ d ∈ ('\n' :: gap ++ cs).head?, d = '\n' := fun d hd => (Option.some.inj hd).symm
    rw [List.append_assoc, lexAt_comment hbody p _ hend, List.cons_append, lexAt_blank (by decide)]
    exact ih _

/-! ## Words -/

/-- No blank begins a word. -/
theorem not_isBlank_of {start : Char → Bool} (hstart : [' ', '\t', '\r', '\n', '\x0c'].any start = false)
    (hc : start c) : ¬ isBlank c := by
  intro hblank
  have hmem : c ∈ [' ', '\t', '\r', '\n', '\x0c'] := by
    simpa [isBlank, or_assoc] using hblank
  exact List.any_eq_false.1 hstart c hmem hc

/-- No digit begins an identifier. -/
theorem not_isIdentStart_of_isDigit (hc : c.isDigit) : ¬ isIdentStart c := by
  intro hstart
  delta Char.isDigit at hc
  delta isIdentStart Char.isAlpha Char.isUpper Char.isLower at hstart
  simp only [Bool.or_eq_true, Bool.and_eq_true, decide_eq_true_eq, beq_iff_eq, UInt32.le_iff_toNat_le, ge_iff_le] at hc hstart
  obtain ⟨-, hhi⟩ := hc
  rcases hstart with (⟨hlo, -⟩ | ⟨hlo, -⟩) | rfl
  · exact absurd (Nat.le_trans hlo hhi) (by decide)
  · exact absurd (Nat.le_trans hlo hhi) (by decide)
  · exact absurd hhi (by decide)

theorem starting_of_isIdentStart (hc : isIdentStart c) : Kind.starting c = (.lexeme .ident, isIdentPart) := by
  have hne : c ≠ '#' := fun e => absurd hc (by rw [e]; decide)
  rw [Kind.starting, if_neg (not_isBlank_of rfl hc), if_neg hne, if_pos hc]

theorem starting_of_isDigit (hc : c.isDigit) : Kind.starting c = (.lexeme .number, Char.isDigit) := by
  have hne : c ≠ '#' := fun e => absurd hc (by rw [e]; decide)
  rw [Kind.starting, if_neg (not_isBlank_of rfl hc), if_neg hne, if_neg (not_isIdentStart_of_isDigit hc), if_pos hc]

/-- A lexeme with only one text is a single character. -/
theorem Lexeme.exists_mark {l : Lexeme} (hi : l ≠ .ident) (hn : l ≠ .number) :
    ∃ c, l.name.toList = [c] ∧ Kind.starting c = (.lexeme l, l.continues) := by
  cases l with
  | ident => exact absurd rfl hi
  | number => exact absurd rfl hn
  | assign => exact ⟨'=', rfl, rfl⟩
  | plus => exact ⟨'+', rfl, rfl⟩
  | minus => exact ⟨'-', rfl, rfl⟩
  | star => exact ⟨'*', rfl, rfl⟩
  | slash => exact ⟨'/', rfl, rfl⟩
  | lparen => exact ⟨'(', rfl, rfl⟩
  | rparen => exact ⟨')', rfl, rfl⟩
  | semi => exact ⟨';', rfl, rfl⟩

/-- The text of a lexeme that is neither an identifier nor a number. -/
theorem Word.Spelled.text_eq {w : Word} (hw : w.Spelled) (hi : w.lexeme ≠ .ident) (hn : w.lexeme ≠ .number) :
    w.text = w.lexeme.name.toList := by
  unfold Word.Spelled at hw
  split at hw
  · next h => exact absurd h hi
  · next h => exact absurd h hn
  · exact hw

/-- The first character of a word tells its lexeme, and the others go on with it. -/
theorem Word.Spelled.exists_starting {w : Word} (hw : w.Spelled) : ∃ c cs, w.text = c :: cs ∧
    Kind.starting c = (.lexeme w.lexeme, w.lexeme.continues) ∧ ∀ d ∈ cs, w.lexeme.continues d = true := by
  by_cases hi : w.lexeme = .ident
  · simp only [Word.Spelled, hi] at hw
    obtain ⟨c, cs, htext, hc, hcs⟩ := hw
    refine ⟨c, cs, htext, ?_, hi ▸ hcs⟩
    rw [starting_of_isIdentStart hc, hi]
    rfl
  by_cases hn : w.lexeme = .number
  · simp only [Word.Spelled, hn] at hw
    obtain ⟨c, cs, htext⟩ := List.exists_cons_of_ne_nil hw.1
    obtain ⟨hc, hcs⟩ := List.forall_mem_cons.1 (htext ▸ hw.2)
    refine ⟨c, cs, htext, ?_, hn ▸ hcs⟩
    rw [starting_of_isDigit hc, hn]
    rfl
  · obtain ⟨c, hname, hstart⟩ := Lexeme.exists_mark hi hn
    exact ⟨c, [], (hw.text_eq hi hn).trans hname, hstart, List.forall_mem_nil _⟩

/-- A word that nothing goes on with makes one piece. -/
theorem lexAt_word {w : Word} (hw : w.Spelled) (hcs : ∀ d ∈ cs.head?, w.lexeme.continues d = false) (A : Alphabet)
    (p : Position) : ∃ span q, lexAt A p (w.text ++ cs) = w.read A span :: lexAt A q cs := by
  obtain ⟨c, ds, htext, hstart, hds⟩ := hw.exists_starting
  obtain ⟨htake, hdrop⟩ := takeWhile_append_of_head hds hcs
  refine ⟨⟨p, positionAfter p w.text⟩, positionAfter p w.text, ?_⟩
  rw [Word.read, htext, List.cons_append, lexAt, pieces, hstart]
  dsimp only
  rw [htake, hdrop]
  rfl

/-- **The lexemes of a text are those of its words.** -/
theorem Laid.lexAt {ws : List Word} {text : List Char} (h : Laid ws text) (A : Alphabet) (p : Position) :
    List.Forall₂ (fun w r => ∃ span, r = w.read A span) ws (Calculator.lexAt A p text) := by
  induction h generalizing p with
  | @done gap hg =>
    obtain ⟨q, e⟩ := hg.lexAt A p []
    rw [List.append_nil] at e
    rw [e, lexAt_nil]
    exact .nil
  | @comment gap body hg hbody =>
    obtain ⟨q, e⟩ := hg.lexAt A p ('#' :: body)
    have hcomment := lexAt_comment (A := A) hbody q [] nofun
    rw [List.append_nil] at hcomment
    rw [e, hcomment, lexAt_nil]
    exact .nil
  | @word w ws gap rest hg hw hrest _ ih =>
    obtain ⟨q, e⟩ := hg.lexAt A p (w.text ++ rest)
    obtain ⟨span, q', e'⟩ := lexAt_word hw hrest A q
    rw [List.append_assoc, e, e']
    exact .cons ⟨span, rfl⟩ (ih q')

theorem Laid.spelled {ws : List Word} {text : List Char} (h : Laid ws text) : ∀ w ∈ ws, w.Spelled := by
  induction h with
  | done | comment => exact List.forall_mem_nil _
  | word _ hw _ _ ih => exact List.forall_mem_cons.2 ⟨hw, ih⟩

/-- A text is at least as long as there are words. -/
theorem Laid.length_le {ws : List Word} {text : List Char} (h : Laid ws text) : ws.length ≤ text.length := by
  induction h with
  | done | comment => exact Nat.zero_le _
  | @word w ws gap rest _ hw _ _ ih =>
    obtain ⟨c, cs, htext, -⟩ := hw.exists_starting
    rw [List.length_append, List.length_append, htext, List.length_cons, List.length_cons]
    omega

/-! ## Tokens -/

/-- The token, apart from where it stands. -/
def Token.bare (t : Token) : Token :=
  { t with span := none }

/-- The token of a word, apart from where it stands. -/
def Word.token (A : Alphabet) (w : Word) : Token where
  id := A.id w.lexeme
  payload :=
    match w.lexeme with
    | .ident => .ident (.ofList w.text)
    | .number => .number (Int64.ofNat (decimal w.text))
    | _ => .none

/-- More digits make a number larger. -/
theorem le_foldl_digits (n : Nat) (ds : List Char) :
    n ≤ ds.foldl (fun n d => n * 10 + (d.toNat - '0'.toNat)) n := by
  induction ds generalizing n with
  | nil => exact Nat.le_refl n
  | cons d ds ih => exact Nat.le_trans (show n ≤ n * 10 + (d.toNat - '0'.toNat) by omega) (ih _)

theorem inRange_natCast {n : Nat} : Value.InRange n ↔ n < 0x8000000000000000 := by
  have hmin : Int64.minValue.toInt = -0x8000000000000000 := by decide
  have hmax : Int64.maxValue.toInt = 0x8000000000000000 - 1 := by decide
  unfold Value.InRange
  omega

/-- One more digit is read if the number still fits. -/
theorem readDigits_cons {n : Nat} {d : Char} {ds : List Char} (hd : d.isDigit) : Value.readDigits false n (d :: ds) =
    if n * 10 + (d.toNat - '0'.toNat) < 0x8000000000000000 then
      Value.readDigits false (n * 10 + (d.toNat - '0'.toNat) : Nat) ds
    else .error .tooLarge := by
  have hnext : ((n : Int) * 10 + (d.toNat - '0'.toNat : Nat)) = (n * 10 + (d.toNat - '0'.toNat) : Nat) := by
    rw [Int.natCast_add, Int.natCast_mul]
    rfl
  rw [Value.readDigits, Value.digit?, if_pos hd]
  dsimp only
  rw [if_neg Bool.false_ne_true, hnext]
  exact if_congr inRange_natCast rfl rfl

/-- Digits are read as the number that they stand for, if it fits. -/
theorem readDigits_eq {n : Nat} {ds : List Char} (hds : ∀ d ∈ ds, d.isDigit) (hn : n < 0x8000000000000000) :
    Value.readDigits false n ds =
      if ds.foldl (fun n d => n * 10 + (d.toNat - '0'.toNat)) n < 0x8000000000000000 then
        .ok (Int64.ofNat (ds.foldl (fun n d => n * 10 + (d.toNat - '0'.toNat)) n))
      else .error .tooLarge := by
  induction ds generalizing n with
  | nil => exact (if_pos hn).symm
  | cons d ds ih =>
    obtain ⟨hd, hds⟩ := List.forall_mem_cons.1 hds
    rw [List.foldl_cons, readDigits_cons hd]
    split
    · next hlt => exact ih hds hlt
    · next hge => exact (if_neg fun h => hge (Nat.lt_of_le_of_lt (le_foldl_digits _ ds) h)).symm

/-- Without a sign, a number is read digit by digit. -/
theorem read_ofList {ds : List Char} (hne : ds ≠ []) (hds : ∀ d ∈ ds, d.isDigit) :
    Value.read (.ofList ds) = Value.readDigits false 0 ds := by
  obtain ⟨d, rest, rfl⟩ := List.exists_cons_of_ne_nil hne
  have hd : d.isDigit := hds d List.mem_cons_self
  have hplus : d ≠ '+' := fun e => absurd hd (by rw [e]; decide)
  have hminus : d ≠ '-' := fun e => absurd hd (by rw [e]; decide)
  unfold Value.read
  rw [String.toList_ofList]
  split
  · next h => cases h
  · next h => exact absurd (List.cons.inj h).1 hplus
  · next h => exact absurd (List.cons.inj h).1 hminus
  · next h => exact absurd (List.cons.inj h).1 hplus
  · next h => exact absurd (List.cons.inj h).1 hminus
  · rfl

theorem read_eq {ds : List Char} (hne : ds ≠ []) (hds : ∀ d ∈ ds, d.isDigit) : Value.read (.ofList ds) =
    if decimal ds < 0x8000000000000000 then .ok (Int64.ofNat (decimal ds)) else .error .tooLarge :=
  (read_ofList hne hds).trans (readDigits_eq hds (by decide))

/-- If the word is a number, it fits into 64 bits. -/
def Word.Fits (w : Word) : Prop :=
  w.lexeme = .number → decimal w.text < 0x8000000000000000

/-- A word that fits is read as its token. -/
theorem Word.Spelled.exists_lexed {w : Word} (hw : w.Spelled) (hfits : w.Fits) (A : Alphabet) (span : Span) :
    ∃ l, w.read A span = .ok l ∧ l.token.bare = w.token A := by
  obtain ⟨lexeme, text⟩ := w
  cases lexeme with
  | number =>
    have hread := (read_eq hw.1 hw.2).trans (if_pos (hfits rfl))
    refine ⟨⟨.number, .ofList text, ⟨A.id .number, .number (Int64.ofNat (decimal text)), span⟩⟩, ?_, rfl⟩
    rw [Word.read, tokenOf, hread]
    rfl
  | _ => exact ⟨_, rfl, rfl⟩

/-- **Words that fit are read as their tokens.** -/
theorem Laid.exists_lexed {ws : List Word} {text : List Char} (h : Laid ws text) (hfits : ∀ w ∈ ws, w.Fits) (A : Alphabet)
    (p : Position) : ∃ ls : List Lexed, Calculator.lexAt A p text = ls.map .ok ∧
      ls.map (·.token.bare) = ws.map (Word.token A) := by
  have hspelled := h.spelled
  have hread := h.lexAt A p
  generalize Calculator.lexAt A p text = results at hread
  clear h
  induction hread with
  | nil => exact ⟨[], rfl, rfl⟩
  | @cons w r ws results hr _ ih =>
    obtain ⟨span, rfl⟩ := hr
    obtain ⟨l, hl, htoken⟩ := (hspelled w List.mem_cons_self).exists_lexed (hfits w List.mem_cons_self) A span
    obtain ⟨ls, rfl, htokens⟩ := ih (fun w hw => hfits w (List.mem_cons_of_mem _ hw))
      (fun w hw => hspelled w (List.mem_cons_of_mem _ hw))
    exact ⟨l :: ls, by rw [hl]; rfl, by rw [List.map_cons, List.map_cons, htoken, htokens]⟩

end PredictiveParser.Calculator
