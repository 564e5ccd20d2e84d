import Mathlib.Data.List.TakeWhile
import PredictiveParser.Proofs.Calculator.Descent
import PredictiveParser.Proofs.Calculator.Feeding

/-!
# Any sources

Whatever a source is, the lexemes in front of the first error are those of words (`spells_fed`), and without an error the source is
laid out with them (`laid_of_lexAt`). Lines that stand before another text move the spans of its lexemes and change nothing else
(`lexAt_append`), and the pieces at the beginning of a source make a text whose pieces they are (`pieces_of_append`).
-/

namespace PredictiveParser

/-- The position some lines further down. -/
def Position.down (n : Nat) (p : Position) : Position :=
  ⟨p.line + n, p.column⟩

/-- The span some lines further down. -/
def Span.down (n : Nat) (s : Span) : Span :=
  ⟨s.start.down n, s.stop.down n⟩

namespace Calculator

variable {A : Alphabet} {p : Position} {c : Char} {cs ds : List Char} {k : Kind} {l : Lexeme} {more : Char → Bool}

/-! ## Pieces -/

/-- A character that begins a piece, and the piece. -/
theorem lexAt_cons (hc : Kind.starting c = (k, more)) (A : Alphabet) (p : Position) (cs : List Char) :
    lexAt A p (c :: cs) =
      (lexPiece? A ⟨k, c :: cs.takeWhile more, ⟨p, positionAfter p (c :: cs.takeWhile more)⟩⟩).toList ++
        lexAt A (positionAfter p (c :: cs.takeWhile more)) (cs.dropWhile more) := by
  rw [lexAt, pieces, hc]
  dsimp only
  rw [List.filterMap_cons]
  cases lexPiece? A ⟨k, c :: cs.takeWhile more, ⟨p, positionAfter p (c :: cs.takeWhile more)⟩⟩ <;> rfl

/-- Only blanks go on behind the end of a line. -/
theorem more_newline (hc : Kind.starting c = (k, more)) (hblank : ¬ isBlank c) : more '\n' = false := by
  cases Kind.starts hc with
  | blank h => exact absurd h hblank
  | comment | ident | number | mark | unknown => rfl

/-- A character that begins a lexeme begins a word, with all that goes on with it. -/
theorem spelled_of_starting (hc : Kind.starting c = (.lexeme l, more)) :
    more = l.continues ∧ ∀ cs : List Char, Word.Spelled ⟨l, c :: cs.takeWhile more⟩ := by
  cases Kind.starts hc with
  | ident hident => exact ⟨rfl, fun cs => ⟨c, _, rfl, hident, fun d hd => List.mem_takeWhile_imp hd⟩⟩
  | number hdigit =>
    have hdigits (cs : List Char) : ∀ d ∈ c :: cs.takeWhile Char.isDigit, d.isDigit :=
      List.forall_mem_cons.2 ⟨hdigit, fun d hd => List.mem_takeWhile_imp hd⟩
    exact ⟨rfl, fun cs => ⟨List.cons_ne_nil _ _, hdigits cs⟩⟩
  | mark hl =>
    have hnil (cs : List Char) : cs.takeWhile (fun _ => false) = [] := by cases cs <;> rfl
    unfold Lexeme.ofChar? at hl
    split at hl <;> cases hl <;> exact ⟨rfl, fun cs => by rw [hnil]; rfl⟩

theorem exists_starting_of_mem {x : Piece} (hx : x ∈ pieces p cs) : ∃ (c : Char) (ds : List Char) (more : Char → Bool),
    x.text = c :: ds.takeWhile more ∧ Kind.starting c = (x.kind, more) := by
  fun_induction pieces p cs with
  | case1 => exact absurd hx List.not_mem_nil
  | case2 p c cs kind more hk text stop ih =>
    rcases List.mem_cons.1 hx with rfl | hx
    · exact ⟨c, cs, more, rfl, hk⟩
    · exact ih hx

theorem head?_dropWhile {d : Char} (hd : d ∈ (cs.dropWhile more).head?) : more d = false := by
  have := List.head?_dropWhile_not more cs
  rwa [Option.mem_def.1 hd] at this

/-- The pieces at the beginning of a text are pieces also if the others are missing. -/
theorem pieces_of_append {ps qs : List Piece} (h : pieces p cs = ps ++ qs) : pieces p (ps.flatMap (·.text)) = ps := by
  induction ps generalizing p cs with
  | nil => rw [List.flatMap_nil, pieces]
  | cons x ps ih =>
    cases cs with
    | nil =>
      rw [pieces] at h
      cases h
    | cons c cs =>
      obtain ⟨k, more, hc⟩ : ∃ k more, Kind.starting c = (k, more) := ⟨_, _, rfl⟩
      rw [pieces, hc] at h
      obtain ⟨rfl, hrest⟩ := List.cons.inj h
      have htext : ps.flatMap (·.text) ++ qs.flatMap (·.text) = cs.dropWhile more := by
        rw [← List.flatMap_append]
        exact (congrArg (List.flatMap (·.text)) hrest).symm.trans (text_pieces _ _)
      have hhead : ∀ d ∈ (ps.flatMap (·.text)).head?, more d = false := by
        intro d hd
        have hd' : d ∈ (cs.dropWhile more).head? := by
          rw [← htext, List.head?_append, Option.mem_def.1 hd]
          rfl
        exact head?_dropWhile hd'
      obtain ⟨htake, hdrop⟩ := takeWhile_append_of_head (fun d => List.mem_takeWhile_imp) hhead
      rw [List.flatMap_cons, List.cons_append, pieces, hc]
      dsimp only
      rw [htake, hdrop, ih hrest]

/-! ## Lexemes in front of the first error -/

/-- The words in front of the first error. -/
def wordsOf : List (Except Error Lexed) → List Word
  | .ok l :: rs => ⟨l.lexeme, l.text.toList⟩ :: wordsOf rs
  | _ => []

section Results

variable {rs rs' : List (Except Error Lexed)} {e : Error}

theorem mem_of_unread? (h : Engine.unread? rs = some e) : .error e ∈ rs := by
  induction rs with
  | nil => cases h
  | cons r rs ih =>
    cases r with
    | error e' =>
      cases h
      exact List.mem_cons_self
    | ok l => exact List.mem_cons_of_mem _ (ih h)

/-- Lexemes without an error stand in front of the first error behind them. -/
theorem append_of_unread?_eq_none (h : Engine.unread? rs = none) (rs' : List (Except Error Lexed)) :
    Engine.unread? (rs ++ rs') = Engine.unread? rs' ∧ wordsOf (rs ++ rs') = wordsOf rs ++ wordsOf rs' ∧
      (wordsOf rs).length = rs.length := by
  induction rs with
  | nil => exact ⟨rfl, rfl, rfl⟩
  | cons r rs ih =>
    cases r with
    | error e => cases h
    | ok l =>
      obtain ⟨hunread, hwords, hlength⟩ := ih h
      exact ⟨hunread, congrArg (_ :: ·) hwords, congrArg (· + 1) hlength⟩

/-- The words are those of the lexemes, one by one. -/
theorem getElem?_wordsOf {k : Nat} {l : Lexed} (h : rs[k]? = some (.ok l)) (hk : k < (wordsOf rs).length) :
    (wordsOf rs)[k]? = some ⟨l.lexeme, l.text.toList⟩ := by
  induction rs generalizing k with
  | nil => cases h
  | cons r rs ih =>
    cases r with
    | error e => cases hk
    | ok l' =>
      cases k with
      | zero =>
        cases h
        rfl
      | succ k => exact ih h (Nat.lt_of_succ_lt_succ hk)

/-- Without an error, the last word is that of the last lexeme. -/
theorem exists_getLast?_wordsOf (h : Engine.unread? rs = none) : ∀ r ∈ rs.getLast?, ∃ l : Lexed, r = .ok l ∧
    (wordsOf rs).getLast? = some ⟨l.lexeme, l.text.toList⟩ := by
  induction rs with
  | nil => exact nofun
  | cons r rs ih =>
    cases r with
    | error e => cases h
    | ok l =>
      intro r hr
      rw [wordsOf, List.getLast?_cons]
      rw [List.getLast?_cons] at hr
      cases hlast : rs.getLast? with
      | none =>
        rw [hlast] at hr
        cases hr
        rw [List.getLast?_eq_none_iff.1 hlast]
        exact ⟨l, rfl, rfl⟩
      | some r' =>
        rw [hlast] at hr
        cases hr
        obtain ⟨l', rfl, hl'⟩ := ih h r' hlast
        rw [hl']
        exact ⟨l', rfl, rfl⟩

/-- The end of the input is fed exactly if there is no error. -/
theorem exists_fed_append (h : Engine.unread? rs = none) :
    ∃ ts, ∀ span rs', Engine.fed span (rs ++ rs') = ts ++ Engine.fed span rs' := by
  induction rs with
  | nil => exact ⟨[], fun _ _ => rfl⟩
  | cons r rs ih =>
    cases r with
    | error e => cases h
    | ok l =>
      obtain ⟨ts, hts⟩ := ih h
      exact ⟨l.token :: ts, fun span rs' => congrArg (_ :: ·) (hts span rs')⟩

theorem exists_unread? {span : Span} (h : ∀ t ∈ Engine.fed span rs, t.id ≠ endToken) : ∃ e, Engine.unread? rs = some e := by
  induction rs with
  | nil => exact absurd rfl (h _ List.mem_cons_self)
  | cons r rs ih =>
    cases r with
    | error e => exact ⟨e, rfl⟩
    | ok l => exact ih fun t ht => h t (List.mem_cons_of_mem _ ht)

theorem unread?_eq_none {span : Span} {t : Token} (ht : t ∈ Engine.fed span rs) (hid : t.id = endToken)
    (hends : ∀ l, .ok l ∈ rs → l.token.id ≠ endToken) : Engine.unread? rs = none := by
  induction rs with
  | nil => rfl
  | cons r rs ih =>
    cases r with
    | error e => exact absurd ht List.not_mem_nil
    | ok l =>
      rcases List.mem_cons.1 ht with rfl | ht
      · exact absurd hid (hends l List.mem_cons_self)
      · exact ih ht fun l' hl' => hends l' (List.mem_cons_of_mem _ hl')

/-- Tokens that are fed in front of others are those of lexemes in front of others. -/
theorem exists_append_of_fed {span : Span} {used rest : List Token} (h : Engine.fed span rs = used ++ rest)
    (hused : ∀ t ∈ used, t.id ≠ endToken) : ∃ rs₁ rs₂, rs = rs₁ ++ rs₂ ∧ rs₁.length = used.length ∧
      Engine.unread? rs₁ = none ∧ ∀ span rs', Engine.fed span (rs₁ ++ rs') = used ++ Engine.fed span rs' := by
  induction used generalizing rs with
  | nil => exact ⟨[], rs, rfl, rfl, rfl, fun _ _ => rfl⟩
  | cons t used ih =>
    cases rs with
    | nil =>
      obtain ⟨rfl, -⟩ := List.cons.inj h
      exact absurd rfl (hused _ List.mem_cons_self)
    | cons r rs =>
      cases r with
      | error e => cases h
      | ok l =>
        obtain ⟨rfl, hrest⟩ := List.cons.inj h
        obtain ⟨rs₁, rs₂, rfl, hlength, hunread, hfed⟩ := ih hrest fun t ht => hused t (List.mem_cons_of_mem _ ht)
        exact ⟨.ok l :: rs₁, rs₂, rfl, congrArg (· + 1) hlength, hunread, fun span rs' => congrArg (_ :: ·) (hfed span rs')⟩

end Results

/-! ## Words -/

/-- A piece that is read is a lexeme with its text and its token. -/
theorem eq_of_lexPiece? {x : Piece} {l : Lexed} (h : lexPiece? A x = some (.ok l)) : x.kind = .lexeme l.lexeme ∧
    l.text = .ofList x.text ∧ tokenOf A l.lexeme (.ofList x.text) x.span = .ok l.token := by
  obtain ⟨k, text, span⟩ := x
  cases k with
  | blank | unknown => cases h
  | lexeme k =>
    rw [lexPiece?] at h
    dsimp only at h
    cases ht : tokenOf A k (.ofList text) span with
    | error e =>
      rw [ht] at h
      cases h
    | ok t =>
      rw [ht] at h
      cases h
      exact ⟨rfl, rfl, ht⟩

/-- A lexeme that is read is a word, and its token is that of the word. -/
theorem lexed_of_mem {l : Lexed} (hl : .ok l ∈ lexAt A p cs) : Word.Spelled ⟨l.lexeme, l.text.toList⟩ ∧
    Word.Fits ⟨l.lexeme, l.text.toList⟩ ∧ l.token.bare = Word.token A ⟨l.lexeme, l.text.toList⟩ := by
  obtain ⟨x, hx, hxl⟩ := List.mem_filterMap.1 hl
  obtain ⟨c, ds, more, htext, hc⟩ := exists_starting_of_mem hx
  obtain ⟨hkind, hltext, ht⟩ := eq_of_lexPiece? hxl
  obtain ⟨k, text, token⟩ := l
  obtain rfl : text = .ofList x.text := hltext
  rw [hkind] at hc
  rw [htext] at ht ⊢
  rw [String.toList_ofList]
  have hw : Word.Spelled ⟨k, c :: ds.takeWhile more⟩ := (spelled_of_starting hc).2 ds
  have hfits : Word.Fits ⟨k, c :: ds.takeWhile more⟩ := by
    rintro rfl
    by_contra hlarge
    rw [tokenOf, (read_eq hw.1 hw.2).trans (if_neg hlarge)] at ht
    cases ht
  obtain ⟨l, hl, hbare⟩ := hw.exists_lexed hfits A x.span
  rw [Word.read, ht] at hl
  cases hl
  exact ⟨hw, hfits, hbare⟩

/-- What cannot be read is documented. -/
theorem documented_of_unread? {e : Error} (h : Engine.unread? (lexAt A p cs) = some e) : e.Documented := by
  obtain ⟨x, -, hx⟩ := List.mem_filterMap.1 (mem_of_unread? h)
  obtain ⟨k, text, span⟩ := x
  cases k with
  | blank => cases hx
  | unknown =>
    cases hx
    trivial
  | lexeme l =>
    rw [lexPiece?] at hx
    dsimp only at hx
    unfold tokenOf at hx
    split at hx
    · cases hx
    · split at hx
      · cases hx
      · cases hx
        trivial
    · cases hx

/-- Unless a piece cannot be read, the tokens are those of the words. -/
theorem spells_fed (hA : A = .standard) (span : Span) : Spells (wordsOf (lexAt A p cs)) (Engine.fed span (lexAt A p cs)) := by
  subst hA
  have hmem : ∀ l : Lexed, .ok l ∈ lexAt .standard p cs → _ := fun l hl => lexed_of_mem hl
  generalize lexAt .standard p cs = rs at hmem
  induction rs with
  | nil => exact .stop rfl
  | cons r rs ih =>
    cases r with
    | error e => exact .nil
    | ok l =>
      obtain ⟨hw, hfits, hbare⟩ := hmem l List.mem_cons_self
      exact .cons hw hfits hbare (ih fun l' hl' => hmem l' (List.mem_cons_of_mem _ hl'))

/-! ## Layout -/

theorem Gap.append {gap gap' : List Char} (hg : Gap gap) (hg' : Gap gap') : Gap (gap ++ gap') := by
  induction hg with
  | nil => exact hg'
  | blank hc _ ih => exact .blank hc ih
  | @comment body gap hbody _ ih =>
    rw [List.append_assoc]
    exact .comment hbody ih

/-- A gap may stand before a text. -/
theorem Laid.behind {gap text : List Char} {ws : List Word} (h : Laid ws text) (hg : Gap gap) : Laid ws (gap ++ text) := by
  cases h with
  | done hg' => exact .done (hg.append hg')
  | comment hg' hbody =>
    rw [← List.append_assoc]
    exact .comment (hg.append hg') hbody
  | word hg' hw hrest hlaid =>
    rw [← List.append_assoc, ← List.append_assoc]
    exact .word (hg.append hg') hw hrest hlaid

theorem lexAt_of_lexeme (hc : Kind.starting c = (.lexeme l, more)) (A : Alphabet) (p : Position) (cs : List Char) :
    ∃ span q, lexAt A p (c :: cs) = Word.read A ⟨l, c :: cs.takeWhile more⟩ span :: lexAt A q (cs.dropWhile more) := by
  rw [lexAt_cons hc]
  exact ⟨_, _, rfl⟩

/-- Without an error, the first word is that of the lexeme which the first character begins. -/
theorem wordsOf_of_lexeme {cs : List Char} (hc : Kind.starting c = (.lexeme l, more))
    (h : Engine.unread? (lexAt A p (c :: cs)) = none) : ∃ q, Engine.unread? (lexAt A q (cs.dropWhile more)) = none ∧
      wordsOf (lexAt A p (c :: cs)) = ⟨l, c :: cs.takeWhile more⟩ :: wordsOf (lexAt A q (cs.dropWhile more)) := by
  obtain ⟨span, q, hlex⟩ := lexAt_of_lexeme hc A p cs
  rw [hlex, Word.read] at h ⊢
  dsimp only at h ⊢
  cases ht : tokenOf A l (.ofList (c :: cs.takeWhile more)) span with
  | error e =>
    rw [ht] at h
    cases h
  | ok t =>
    rw [ht] at h
    dsimp only [Except.map, wordsOf]
    rw [String.toList_ofList]
    exact ⟨q, h, rfl⟩

/-- A character that is read for itself begins a lexeme, or nothing. -/
theorem eq_lexeme_or_unknown (hc : Kind.starting c = (k, more)) (hblank : ¬ isBlank c) (hcomment : c ≠ '#') :
    (∃ l, k = .lexeme l) ∨ k = .unknown := by
  cases Kind.starts hc with
  | blank h => exact absurd h hblank
  | comment => exact absurd rfl hcomment
  | ident | number | mark => exact .inl ⟨_, rfl⟩
  | unknown => exact .inr rfl

/-- **A text without an error is laid out with its words.** -/
theorem laid_of_lexAt (h : Engine.unread? (lexAt A p cs) = none) : Laid (wordsOf (lexAt A p cs)) cs := by
  induction hlength : cs.length using Nat.strong_induction_on generalizing p cs with
  | _ n ih =>
    subst hlength
    cases cs with
    | nil =>
      rw [lexAt_nil]
      exact .done .nil
    | cons c cs =>
      by_cases hblank : isBlank c
      · rw [lexAt_blank hblank] at h ⊢
        exact (ih cs.length (Nat.lt_succ_self _) h rfl).behind (.blank hblank .nil)
      by_cases hcomment : c = '#'
      · subst hcomment
        by_cases hline : '\n' ∈ cs
        · obtain ⟨body, rest, rfl, hbody⟩ := List.eq_append_cons_of_mem hline
          have hhead : ∀ d ∈ ('\n' :: rest).head?, d = '\n' := fun d hd => (Option.some.inj hd).symm
          have hlex := (lexAt_comment (A := A) hbody p _ hhead).trans (lexAt_blank (by decide) _ _)
          rw [List.cons_append] at hlex
          rw [hlex] at h ⊢
          have hlt : rest.length < ('#' :: (body ++ '\n' :: rest)).length := by
            rw [List.length_cons, List.length_append, List.length_cons]
            omega
          have hlaid := (ih rest.length hlt h rfl).behind (.comment hbody .nil)
          rwa [List.append_assoc] at hlaid
        · have hlex := lexAt_comment (A := A) hline p [] nofun
          rw [List.append_nil, lexAt_nil] at hlex
          rw [hlex]
          exact .comment .nil hline
      obtain ⟨k, more, hc⟩ : ∃ k more, Kind.starting c = (k, more) := ⟨_, _, rfl⟩
      rcases eq_lexeme_or_unknown hc hblank hcomment with ⟨l, rfl⟩ | rfl
      · obtain ⟨hmore, hspelled⟩ := spelled_of_starting hc
        obtain ⟨q, hrest, hwords⟩ := wordsOf_of_lexeme hc h
        have hlaid := ih _ (length_dropWhile_lt_cons more c cs) hrest rfl
        have hword := Laid.word .nil (hspelled cs) (fun d hd => hmore ▸ head?_dropWhile hd) hlaid
        rw [List.nil_append, List.cons_append, List.takeWhile_append_dropWhile] at hword
        rwa [hwords]
      · rw [lexAt_cons hc] at h
        cases h

/-! ## Lines before a text -/

theorem pieces_length_le (p : Position) (cs : List Char) : (pieces p cs).length ≤ cs.length := by
  fun_induction pieces p cs with
  | case1 => exact Nat.le_refl 0
  | case2 p c cs kind more hk text stop ih =>
    exact Nat.succ_le_succ (Nat.le_trans ih (List.dropWhile_suffix more).length_le)

/-- There are no more lexemes than characters. -/
theorem lexAt_length_le (A : Alphabet) (p : Position) (cs : List Char) : (lexAt A p cs).length ≤ cs.length :=
  Nat.le_trans (List.length_filterMap_le ..) (pieces_length_le p cs)

/-- Pieces end with their lines, apart from blanks. -/
theorem lexAt_append (A : Alphabet) (p : Position) (cs ds : List Char) :
    lexAt A p (cs ++ '\n' :: ds) = lexAt A p cs ++ lexAt A (positionAfter p (cs ++ ['\n'])) ds := by
  induction hlength : cs.length using Nat.strong_induction_on generalizing p cs with
  | _ n ih =>
    subst hlength
    cases cs with
    | nil =>
      rw [lexAt_nil, List.nil_append, lexAt_blank (by decide)]
      rfl
    | cons c cs =>
      by_cases hblank : isBlank c
      · rw [List.cons_append, lexAt_blank hblank, lexAt_blank hblank, ih cs.length (Nat.lt_succ_self _) _ cs rfl]
        rfl
      · obtain ⟨k, more, hc⟩ : ∃ k more, Kind.starting c = (k, more) := ⟨_, _, rfl⟩
        have hmore := more_newline hc hblank
        have hwhile : cs ++ '\n' :: ds = cs.takeWhile more ++ (cs.dropWhile more ++ '\n' :: ds) := by
          rw [← List.append_assoc, List.takeWhile_append_dropWhile]
        have hhead : ∀ d ∈ (cs.dropWhile more ++ '\n' :: ds).head?, more d = false := by
          intro d hd
          rw [List.head?_append] at hd
          cases hrest : (cs.dropWhile more).head? with
          | none =>
            rw [hrest] at hd
            cases hd
            exact hmore
          | some x =>
            rw [hrest] at hd
            cases hd
            exact head?_dropWhile hrest
        obtain ⟨htake, hdrop⟩ := takeWhile_append_of_head (fun d hd => List.mem_takeWhile_imp hd) hhead
        rw [← hwhile] at htake hdrop
        have hposition : positionAfter (positionAfter p (c :: cs.takeWhile more)) (cs.dropWhile more ++ ['\n']) =
            positionAfter p (c :: cs ++ ['\n']) := by
          rw [positionAfter, positionAfter, positionAfter, ← List.foldl_append, List.cons_append, List.cons_append,
            ← List.append_assoc, List.takeWhile_append_dropWhile]
        rw [List.cons_append, lexAt_cons hc, lexAt_cons hc, htake, hdrop, ih _ (length_dropWhile_lt_cons more c cs) _ _ rfl,
          hposition, List.append_assoc]

theorem positionAfter_down (n : Nat) (p : Position) (cs : List Char) :
    positionAfter (p.down n) cs = (positionAfter p cs).down n := by
  induction cs generalizing p with
  | nil => rfl
  | cons c cs ih =>
    have hnext : nextPosition (p.down n) c = (nextPosition p c).down n := by
      unfold nextPosition
      split
      · rw [Position.down, Position.down, Nat.add_right_comm]
      · rfl
    rw [positionAfter_cons, positionAfter_cons, hnext, ih]

/-- The end of a line is in the next one. -/
theorem positionAfter_newline (cs : List Char) :
    positionAfter ⟨0, 0⟩ (cs ++ ['\n']) = Position.down (cs.count '\n' + 1) ⟨0, 0⟩ := by
  have hline : ∀ p, (positionAfter p cs).line = p.line + cs.count '\n' := by
    induction cs with
    | nil => exact fun p => rfl
    | cons c cs ih =>
      intro p
      rw [positionAfter_cons, ih]
      unfold nextPosition
      by_cases hc : c = '\n'
      · subst hc
        rw [if_pos rfl, List.count_cons_self]
        dsimp only
        omega
      · rw [if_neg hc, List.count_cons_of_ne hc]
  rw [positionAfter, List.foldl_append]
  show Position.mk ((positionAfter ⟨0, 0⟩ cs).line + 1) 0 = _
  rw [hline]
  exact congrArg (Position.mk · 0) (Nat.add_assoc ..)

/-- What a piece is read as, with its span moved. -/
def moveLexed (g : Span → Span) : Except Error Lexed → Except Error Lexed
  | .ok l => .ok { l with token := l.token.move g }
  | .error e => .error (e.move g)

/-- Further down, a text has the same lexemes. -/
theorem lexAt_down (n : Nat) (A : Alphabet) (p : Position) (cs : List Char) :
    lexAt A (p.down n) cs = (lexAt A p cs).map (moveLexed (Span.down n)) := by
  have hpieces : pieces (p.down n) cs = (pieces p cs).map fun x => { x with span := x.span.down n } := by
    fun_induction pieces p cs with
    | case1 => rw [pieces, List.map_nil]
    | case2 p c cs kind more hk text stop ih =>
      rw [pieces, hk, List.map_cons, ← ih]
      dsimp only
      rw [positionAfter_down]
      rfl
  rw [lexAt, lexAt, hpieces, List.filterMap_map, List.map_filterMap]
  refine List.filterMap_congr fun x _ => ?_
  obtain ⟨k, text, span⟩ := x
  cases k with
  | blank | unknown => rfl
  | lexeme l =>
    rw [Function.comp_apply, lexPiece?, lexPiece?]
    cases l with
    | number =>
      dsimp only [tokenOf]
      cases Value.read (.ofList text) <;> rfl
    | _ => rfl

section Moved

variable (g : Span → Span) (rs : List (Except Error Lexed))

theorem fed_map (span : Span) : Engine.fed (g span) (rs.map (moveLexed g)) = (Engine.fed span rs).map (Token.move g) := by
  induction rs with
  | nil => rfl
  | cons r rs ih =>
    cases r with
    | error e => rfl
    | ok l => exact congrArg (_ :: ·) ih

theorem unread?_map : Engine.unread? (rs.map (moveLexed g)) = (Engine.unread? rs).map (Error.move g) := by
  induction rs with
  | nil => rfl
  | cons r rs ih =>
    cases r with
    | error e => rfl
    | ok l => exact ih

end Moved

end Calculator

end PredictiveParser
