import PredictiveParser.Proofs.Calculator.Sources

/-!
# Layout does not matter

The kinds of pieces have patterns, and a source is cut by the longest match: the pieces are the only way in which every piece
is the longest text at its place that a pattern matches (`munched_iff`). Words that are written one after the other with separators
between them come out again whatever the separators are, as long as there is one where two words would stick together
(`lex_layout`).
-/

namespace PredictiveParser.Calculator

variable {A : Alphabet} {p : Position} {c : Char} {cs ds : List Char} {k : Kind} {more : Char → Bool}

/-! ## The longest match -/

/-- The pattern of the kind matches the text: blanks, a comment without the end of its line, or a word. -/
def Kind.Matches : Kind → List Char → Prop
  | .blank, text => (text ≠ [] ∧ ∀ d ∈ text, isBlank d) ∨ ∃ body, '\n' ∉ body ∧ text = '#' :: body
  | .lexeme l, text => Word.Spelled ⟨l, text⟩
  | .unknown, _ => False

/-- The text is cut into these pieces: each is the longest that a pattern matches where it begins, or a single character if
none matches there. -/
inductive Munched : List Char → List (Kind × List Char) → Prop
  | nil : Munched [] []
  | longest {k : Kind} {text rest : List Char} {ps : List (Kind × List Char)} : k.Matches text →
      (∀ k' u, Kind.Matches k' u → u <+: text ++ rest → u.length ≤ text.length) → Munched rest ps →
      Munched (text ++ rest) ((k, text) :: ps)
  | unknown {c : Char} {rest : List Char} {ps : List (Kind × List Char)} :
      (∀ k u, Kind.Matches k u → ¬ u <+: c :: rest) → Munched rest ps → Munched (c :: rest) ((.unknown, [c]) :: ps)

/-- The first character of a text tells which pattern matches it. -/
theorem Kind.Matches.exists_cons {text : List Char} (h : k.Matches text) :
    ∃ c ds more, text = c :: ds ∧ Kind.starting c = (k, more) ∧ ∀ d ∈ ds, more d = true := by
  cases k with
  | blank =>
    obtain ⟨hne, hall⟩ | ⟨body, hbody, rfl⟩ := h
    · obtain ⟨c, ds, rfl⟩ := List.exists_cons_of_ne_nil hne
      obtain ⟨hc, hds⟩ := List.forall_mem_cons.1 hall
      exact ⟨c, ds, _, rfl, starting_of_isBlank hc, hds⟩
    · exact ⟨'#', body, _, rfl, starting_comment, fun d hd => bne_iff_ne.2 fun e => hbody (e ▸ hd)⟩
  | lexeme l =>
    obtain ⟨c, ds, htext, hc, hds⟩ := Word.Spelled.exists_starting h
    exact ⟨c, ds, _, htext, hc, hds⟩
  | unknown => exact h.elim

/-- A pattern matches what its first character and the characters behind it allow. -/
theorem matches_iff (hc : Kind.starting c = (k, more)) (hk : k ≠ .unknown) :
    k.Matches (c :: ds) ↔ ∀ d ∈ ds, more d = true := by
  constructor
  · intro h
    obtain ⟨_, _, more', e, hc', hds⟩ := h.exists_cons
    obtain ⟨rfl, rfl⟩ := List.cons.inj e
    obtain ⟨-, rfl⟩ := Prod.mk.inj (hc.symm.trans hc')
    exact hds
  · intro hds
    have spelled : ∀ l, k = .lexeme l → Word.Spelled ⟨l, c :: ds⟩ := by
      rintro l rfl
      have hspelled := (spelled_of_starting hc).2 ds
      rwa [List.takeWhile_eq_self_iff.2 hds] at hspelled
    cases Kind.starts hc with
    | blank hblank => exact .inl ⟨List.cons_ne_nil c ds, List.forall_mem_cons.2 ⟨hblank, hds⟩⟩
    | comment => exact .inr ⟨ds, fun hmem => bne_iff_ne.1 (hds '\n' hmem) rfl, rfl⟩
    | ident | number | mark => exact spelled _ rfl
    | unknown => exact absurd rfl hk

/-- Nothing goes on with a character that begins nothing. -/
theorem alone_of_unknown (hc : Kind.starting c = (.unknown, more)) (cs : List Char) :
    cs.takeWhile more = [] ∧ cs.dropWhile more = cs := by
  cases Kind.starts hc
  cases cs <;> exact ⟨rfl, rfl⟩

/-- No text that a pattern matches at the beginning is longer than the first piece. -/
theorem Kind.Matches.length_le {u : List Char} (h : k.Matches u) (hc : Kind.starting c = (k', more)) (hu : u <+: c :: cs) :
    k = k' ∧ u.length ≤ (c :: cs.takeWhile more).length := by
  obtain ⟨_, us, more', rfl, hc', hus⟩ := h.exists_cons
  obtain ⟨rfl, t, rfl⟩ := List.cons_prefix_cons.1 hu
  obtain ⟨rfl, rfl⟩ := Prod.mk.inj (hc'.symm.trans hc)
  refine ⟨rfl, Nat.succ_le_succ ?_⟩
  rw [List.takeWhile_append_of_pos hus, List.length_append]
  exact Nat.le_add_right _ _

/-- **The pieces of a text are cut by the longest match.** -/
theorem munched_pieces (p : Position) (cs : List Char) : Munched cs ((pieces p cs).map fun x => (x.kind, x.text)) := by
  fun_induction pieces p cs with
  | case1 => exact .nil
  | case2 p c cs k more hc text stop ih =>
    rw [List.map_cons]
    by_cases hk : k = .unknown
    · subst hk
      obtain ⟨htake, hdrop⟩ := alone_of_unknown hc cs
      rw [hdrop] at ih ⊢
      rw [show text = [c] from congrArg (c :: ·) htake]
      refine .unknown (fun k u hu hprefix => ?_) ih
      rw [(hu.length_le hc hprefix).1] at hu
      exact hu
    · have hmatch : k.Matches text := (matches_iff hc hk).2 fun d => List.mem_takeWhile_imp
      have hsource : c :: cs = text ++ cs.dropWhile more := by
        rw [List.cons_append, List.takeWhile_append_dropWhile]
      rw [hsource]
      exact .longest hmatch (fun k' u hu hprefix => (hu.length_le hc (hsource ▸ hprefix)).2) ih

/-- **There is no other way to cut a text by the longest match.** -/
theorem munched_iff (p : Position) {ps : List (Kind × List Char)} :
    Munched cs ps ↔ ps = (pieces p cs).map fun x => (x.kind, x.text) := by
  refine ⟨fun h => ?_, fun h => h ▸ munched_pieces p cs⟩
  induction h generalizing p with
  | nil => rw [pieces]; rfl
  | @longest k text rest ps hmatch hlongest _ ih =>
    obtain ⟨c, ds, more, rfl, hc, hds⟩ := hmatch.exists_cons
    have hk : k ≠ .unknown := by
      rintro rfl
      exact hmatch
    have hrest : ∀ d ∈ rest.head?, more d = false := by
      intro d hd
      by_contra hmore
      rw [Bool.not_eq_false] at hmore
      -- with one more character there were a longer match
      obtain ⟨rest, rfl⟩ := List.head?_eq_some_iff.1 hd
      have hmatch' : k.Matches (c :: (ds ++ [d])) := (matches_iff hc hk).2 (by simpa [or_imp, forall_and] using ⟨hds, hmore⟩)
      have hle := hlongest k _ hmatch' ⟨rest, by simp⟩
      simp at hle
    obtain ⟨htake, hdrop⟩ := takeWhile_append_of_head hds hrest
    rw [List.cons_append, pieces, hc]
    dsimp only
    rw [htake, hdrop, List.map_cons, ← ih]
  | @unknown c rest ps hnone _ ih =>
    obtain ⟨k, more, hc⟩ : ∃ k more, Kind.starting c = (k, more) := ⟨_, _, rfl⟩
    obtain rfl : k = .unknown := by
      by_contra hk
      exact hnone k [c] ((matches_iff hc hk).2 (List.forall_mem_nil _)) ⟨rest, rfl⟩
    obtain ⟨htake, hdrop⟩ := alone_of_unknown hc rest
    rw [pieces, hc]
    dsimp only
    rw [htake, hdrop, List.map_cons, ← ih]

/-! ## Words with separators -/

/-- Written one behind the other, the two words would be read as one or cut in other places. -/
def Word.SticksTo (w w' : Word) : Prop :=
  w.lexeme = .ident ∧ (w'.lexeme = .ident ∨ w'.lexeme = .number) ∨ w.lexeme = .number ∧ w'.lexeme = .number

/-- The words, each behind its separator, and a separator behind the last. -/
def layout (rows : List (List Char × Word)) (last : List Char) : List Char :=
  rows.flatMap (fun r => r.1 ++ r.2.text) ++ last

/-- The separators are blanks and comments, and there is one where two words would stick together. The text may end in a
comment. -/
structure Separated (rows : List (List Char × Word)) (last : List Char) : Prop where
  spelled : ∀ r ∈ rows, r.2.Spelled
  gaps : ∀ r ∈ rows, Gap r.1
  apart : rows.IsChain fun r r' => r.2.SticksTo r'.2 → r'.1 ≠ []
  last : Gap last ∨ ∃ gap body, Gap gap ∧ '\n' ∉ body ∧ last = gap ++ '#' :: body

/-- No word goes on with a blank. -/
theorem continues_of_isBlank (hc : isBlank c) (l : Lexeme) : l.continues c = false := by
  by_contra h
  rw [Bool.not_eq_false] at h
  exact not_isBlank_of (by cases l <;> rfl) h hc

theorem continues_comment (l : Lexeme) : l.continues '#' = false := by
  cases l <;> rfl

/-- No word goes on with a separator. -/
theorem Gap.continues_eq_false {gap : List Char} (h : Gap gap) (l : Lexeme) : ∀ d ∈ gap.head?, l.continues d = false := by
  cases h with
  | nil => exact nofun
  | blank hc _ =>
    rintro d ⟨⟩
    exact continues_of_isBlank hc l
  | comment =>
    rintro d ⟨⟩
    exact continues_comment l

/-- A word does not go on with one that does not stick to it. -/
theorem Word.continues_eq_false {w w' : Word} (hw' : w'.Spelled) (h : ¬ w.SticksTo w') :
    ∀ d ∈ w'.text.head?, w.lexeme.continues d = false := by
  obtain ⟨c, ds, htext, hc, -⟩ := hw'.exists_starting
  rw [htext]
  rintro d ⟨⟩
  by_contra hd
  rw [Bool.not_eq_false] at hd
  -- the first character tells the lexeme of the second word
  have isIdent : isIdentStart c → w'.lexeme = .ident := fun hs =>
    Kind.lexeme.inj (congrArg Prod.fst (hc.symm.trans (starting_of_isIdentStart hs)))
  have isNumber : c.isDigit → w'.lexeme = .number := fun hs =>
    Kind.lexeme.inj (congrArg Prod.fst (hc.symm.trans (starting_of_isDigit hs)))
  cases hl : w.lexeme with
  | ident =>
    rw [hl] at hd
    change isIdentPart c = true at hd
    have hstart : isIdentStart c ∨ c.isDigit := by
      unfold isIdentStart
      unfold isIdentPart Char.isAlphanum at hd
      simp only [Bool.or_eq_true] at hd ⊢
      tauto
    exact h (.inl ⟨hl, hstart.imp isIdent isNumber⟩)
  | number =>
    rw [hl] at hd
    exact h (.inr ⟨hl, isNumber hd⟩)
  | _ =>
    rw [hl] at hd
    cases hd

/-- A separator behind the last word does not go on with it. -/
theorem Separated.continues_eq_false {last : List Char} (h : Separated [] last) (l : Lexeme) :
    ∀ d ∈ last.head?, l.continues d = false := by
  obtain hgap | ⟨gap, body, hgap, -, rfl⟩ := h.last
  · exact hgap.continues_eq_false l
  · intro d hd
    rw [List.head?_append] at hd
    cases hhead : gap.head? with
    | none =>
      rw [hhead] at hd
      cases hd
      exact continues_comment l
    | some d' =>
      rw [hhead] at hd
      cases hd
      exact hgap.continues_eq_false l d hhead

/-- Words with separators have gaps that keep them apart. -/
theorem Separated.laid {rows : List (List Char × Word)} {last : List Char} (h : Separated rows last) :
    Laid (rows.map (·.2)) (layout rows last) := by
  induction rows with
  | nil =>
    obtain hgap | ⟨gap, body, hgap, hbody, rfl⟩ := h.last
    · exact .done hgap
    · exact .comment hgap hbody
  | cons r rows ih =>
    obtain ⟨gap, w⟩ := r
    obtain ⟨hw, hspelled⟩ := List.forall_mem_cons.1 h.spelled
    obtain ⟨hgap, hgaps⟩ := List.forall_mem_cons.1 h.gaps
    have hlayout : layout ((gap, w) :: rows) last = gap ++ w.text ++ layout rows last := by
      rw [layout, List.flatMap_cons, List.append_assoc]
      rfl
    rw [hlayout]
    refine .word hgap hw ?_ (ih ⟨hspelled, hgaps, h.apart.tail, h.last⟩)
    cases rows with
    | nil => exact Separated.continues_eq_false ⟨hspelled, hgaps, .nil, h.last⟩ w.lexeme
    | cons r' rows =>
      obtain ⟨gap', w'⟩ := r'
      have hapart : w.SticksTo w' → gap' ≠ [] := (List.isChain_cons_cons.1 h.apart).1
      have hw' : w'.Spelled := hspelled _ List.mem_cons_self
      have hhead : (layout ((gap', w') :: rows) last).head? = (gap' ++ w'.text).head? := by
        obtain ⟨c, ds, htext, -⟩ := hw'.exists_starting
        rw [layout, List.flatMap_cons, List.append_assoc, List.head?_append_of_ne_nil]
        simp [htext]
      rw [hhead]
      cases gap' with
      | nil => exact Word.continues_eq_false hw' fun hsticks => hapart hsticks rfl
      | cons d gap' => exact (hgaps _ List.mem_cons_self).continues_eq_false w.lexeme

/-! ## Layout does not matter -/

/-- The lexeme, apart from where it stands. -/
def Lexed.bare (l : Lexed) : Lexed :=
  { l with token := l.token.bare }

/-- What a word is read as, apart from where it stands: a number that does not fit into 64 bits is an error. -/
def Word.lexed (A : Alphabet) (w : Word) : Except Error Lexed :=
  if w.lexeme = .number ∧ 0x8000000000000000 ≤ decimal w.text then .error (.literal .tooLarge)
  else .ok ⟨w.lexeme, .ofList w.text, w.token A⟩

/-- **A word is read as its text tells,** wherever it stands. -/
theorem Word.Spelled.read_eq_lexed {w : Word} (hw : w.Spelled) (A : Alphabet) (span : Span) :
    (w.read A span).map Lexed.bare = w.lexed A := by
  by_cases hlarge : w.lexeme = .number ∧ 0x8000000000000000 ≤ decimal w.text
  · obtain ⟨l, text⟩ := w
    obtain ⟨rfl, hlarge⟩ := id hlarge
    have hread : Value.read (.ofList text) = .error .tooLarge := (read_eq hw.1 hw.2).trans (if_neg hlarge.not_gt)
    rw [Word.lexed, if_pos ⟨rfl, hlarge⟩, Word.read, tokenOf, hread]
    rfl
  · have hfits : w.Fits := fun hl => Nat.lt_of_not_le fun hle => hlarge ⟨hl, hle⟩
    obtain ⟨l, hl, hbare⟩ := hw.exists_lexed hfits A span
    rw [Word.lexed, if_neg hlarge, hl, Except.map, Lexed.bare, hbare]
    unfold Word.read at hl
    cases ht : tokenOf A w.lexeme (.ofList w.text) span with
    | error e =>
      rw [ht] at hl
      cases hl
    | ok t =>
      rw [ht] at hl
      cases hl
      rfl

/-- **Layout does not matter.** A source is cut by the longest match. So words that are written with separators are read one
by one, each as its text tells, and the separators do not show. -/
theorem lex_layout (A : Alphabet) {rows : List (List Char × Word)} {last : List Char} (h : Separated rows last) :
    (∀ ps, Munched (layout rows last) ps ↔ ps = (pieces ⟨0, 0⟩ (layout rows last)).map fun x => (x.kind, x.text)) ∧
      (lex A (.ofList (layout rows last))).map (Except.map Lexed.bare) = rows.map fun r => r.2.lexed A := by
  refine ⟨fun ps => munched_iff ⟨0, 0⟩, ?_⟩
  have hread := h.laid.lexAt A ⟨0, 0⟩
  have hspelled := h.laid.spelled
  have hrows : (rows.map fun r => r.2.lexed A) = (rows.map (·.2)).map (Word.lexed A) := by
    rw [List.map_map]
    rfl
  rw [lex, String.toList_ofList, ← lexAt, hrows]
  generalize lexAt A ⟨0, 0⟩ (layout rows last) = results at hread
  generalize rows.map (·.2) = ws at hread hspelled
  induction hread with
  | nil => rfl
  | @cons w r ws results hr _ ih =>
    obtain ⟨span, rfl⟩ := hr
    obtain ⟨hw, hspelled⟩ := List.forall_mem_cons.1 hspelled
    rw [List.map_cons, List.map_cons, hw.read_eq_lexed, ih hspelled]

/-- The words `x`, `=`, `12`, `ab` and a number that does not fit. Only the last has a separator, which is a comment. -/
def crowded : List (List Char × Word) :=
  [([], ⟨.ident, ['x']⟩), ([], Lexeme.assign.word), ([], ⟨.number, ['1', '2']⟩), ([], ⟨.ident, ['a', 'b']⟩),
    (['#', 'c', '\n'], ⟨.number, List.replicate 20 '9'⟩)]

theorem separated_crowded : Separated crowded [' ', '#'] where
  spelled := by
    simp only [crowded, List.forall_mem_cons]
    exact ⟨⟨'x', [], rfl, rfl, nofun⟩, rfl, ⟨List.cons_ne_nil _ _, List.all_eq_true.1 rfl⟩,
      ⟨'a', ['b'], rfl, rfl, List.all_eq_true.1 rfl⟩, ⟨List.cons_ne_nil _ _, List.all_eq_true.1 rfl⟩, nofun⟩
  gaps := by
    simp only [crowded, List.forall_mem_cons]
    exact ⟨.nil, .nil, .nil, .nil, @Gap.comment ['c'] [] (by decide) .nil, nofun⟩
  apart := by simp [crowded, Word.SticksTo, Lexeme.word]
  last := .inr ⟨[' '], [], .blank rfl .nil, by decide, rfl⟩

/-- They are read one by one, and the last of them is an error. -/
theorem lex_crowded : (lex .standard "x=12ab#c\n99999999999999999999 #").map (Except.map Lexed.bare) =
    [.ok ⟨.ident, "x", ⟨Lexeme.ident.terminal, .ident "x", none⟩⟩,
      .ok ⟨.assign, "=", ⟨Lexeme.assign.terminal, .none, none⟩⟩,
      .ok ⟨.number, "12", ⟨Lexeme.number.terminal, .number 12, none⟩⟩,
      .ok ⟨.ident, "ab", ⟨Lexeme.ident.terminal, .ident "ab", none⟩⟩, .error (.literal .tooLarge)] :=
  (lex_layout .standard separated_crowded).2

end PredictiveParser.Calculator
