import Mathlib.Data.List.Induction
import PredictiveParser.Proofs.Calculator.Layout

/-!
# Byte offsets and positions

The lexemes and errors of a source lie in it one behind the other, with blanks and comments in between (`Covers`); their
ranges are counted in bytes, and their spans in lines and characters. A position can be found without reading the source
from its beginning, by a search in a table of the offsets where lines start (`locate`). That gives the same positions as
going from character to character (`locate_byteSize`), and both count the ends of lines before the offset and the
characters behind the last of them.
-/

namespace PredictiveParser

/-! ## The order of positions -/

theorem Position.order_eq_lt {p q : Position} :
    p.order q = .lt ↔ p.line < q.line ∨ p.line = q.line ∧ p.column < q.column := by
  unfold order
  rw [Ordering.then_eq_lt, Nat.compare_eq_lt, Nat.compare_eq_eq, Nat.compare_eq_lt]

theorem Position.order_trans {p q r : Position} (h : p.order q = .lt) (h' : q.order r = .lt) : p.order r = .lt := by
  rw [order_eq_lt] at *
  omega

theorem Position.isLE_of_order {p q : Position} (h : p.order q = .lt) : p.isLE q = true := by
  rw [isLE, h]
  rfl

/-- A span that starts before another one is before it. -/
theorem Span.order_of_start {a b : Span} (h : a.start.order b.start = .lt) : a.order b = .lt := by
  rw [order, h]
  rfl

namespace Calculator

variable {A : Alphabet} {source : String} {p : Position} {c : Char} {as bs cs : List Char}

theorem order_nextPosition (p : Position) (c : Char) : p.order (nextPosition p c) = .lt := by
  rw [Position.order_eq_lt]
  unfold nextPosition
  split
  · exact .inl (Nat.lt_succ_self _)
  · exact .inr ⟨rfl, Nat.lt_succ_self _⟩

/-- The position after a text that is not empty is a later one. -/
theorem order_positionAfter (p : Position) (hcs : cs ≠ []) : p.order (positionAfter p cs) = .lt := by
  induction cs generalizing p with
  | nil => exact absurd rfl hcs
  | cons c cs ih =>
    rw [positionAfter_cons]
    have hnext := order_nextPosition p c
    cases cs with
    | nil => exact hnext
    | cons d ds => exact Position.order_trans hnext (ih _ (List.cons_ne_nil d ds))

theorem positionAfter_append (p : Position) (as bs : List Char) :
    positionAfter p (as ++ bs) = positionAfter (positionAfter p as) bs :=
  List.foldl_append

/-! ## Bytes -/

/-- The number of bytes of a text. -/
def byteSize (cs : List Char) : Nat :=
  (String.ofList cs).utf8ByteSize

@[simp] theorem byteSize_nil : byteSize [] = 0 := by
  rw [byteSize, String.ofList_nil, String.utf8ByteSize_empty]

@[simp] theorem byteSize_append (as bs : List Char) : byteSize (as ++ bs) = byteSize as + byteSize bs := by
  rw [byteSize, String.ofList_append, String.utf8ByteSize_append, byteSize, byteSize]

theorem byteSize_singleton (c : Char) : byteSize [c] = c.utf8Size := by
  rw [byteSize, ← String.singleton_eq_ofList, String.utf8ByteSize_singleton]

@[simp] theorem byteSize_cons (c : Char) (cs : List Char) : byteSize (c :: cs) = c.utf8Size + byteSize cs := by
  rw [← List.singleton_append, byteSize_append, byteSize_singleton]

theorem byteSize_pos (hcs : cs ≠ []) : 0 < byteSize cs := by
  obtain ⟨c, ds, rfl⟩ := List.exists_cons_of_ne_nil hcs
  rw [byteSize_cons]
  exact Nat.add_pos_left c.utf8Size_pos _

/-- The offsets behind the ends of lines, in a text that begins at the offset `o`. -/
def lineStarts (o : Nat) : List Char → List Nat
  | [] => []
  | c :: cs => (if c = '\n' then [o + c.utf8Size] else []) ++ lineStarts (o + c.utf8Size) cs

/-- The characters from the offset `i` up to `j`, of a text that begins at the offset `o`. -/
def slice (i j o : Nat) : List Char → List Char
  | [] => []
  | c :: cs => (if i ≤ o ∧ o < j then [c] else []) ++ slice i j (o + c.utf8Size) cs

/-- The position of a byte offset: the last line that starts there or before, and the number of characters from its start
to the offset. -/
def locate (source : String) (o : Nat) : Position :=
  let starts := 0 :: lineStarts 0 source.toList
  let line := (starts.takeWhile (· ≤ o)).length - 1
  ⟨line, (slice (starts.getD line 0) o 0 source.toList).length⟩

theorem lineStarts_append (o : Nat) (as bs : List Char) :
    lineStarts o (as ++ bs) = lineStarts o as ++ lineStarts (o + byteSize as) bs := by
  induction as generalizing o with
  | nil => simp [lineStarts]
  | cons c as ih => rw [List.cons_append, lineStarts, ih, lineStarts, List.append_assoc, byteSize_cons, Nat.add_assoc]

theorem slice_append (i j o : Nat) (as bs : List Char) :
    slice i j o (as ++ bs) = slice i j o as ++ slice i j (o + byteSize as) bs := by
  induction as generalizing o with
  | nil => simp [slice]
  | cons c as ih => rw [List.cons_append, slice, ih, slice, List.append_assoc, byteSize_cons, Nat.add_assoc]

theorem mem_lineStarts {n o : Nat} (h : n ∈ lineStarts o cs) : o < n ∧ n ≤ o + byteSize cs := by
  induction cs generalizing o with
  | nil => cases h
  | cons c cs ih =>
    have hpos := c.utf8Size_pos
    rw [byteSize_cons]
    rcases List.mem_append.1 h with h | h
    · split at h
      · rw [List.mem_singleton.1 h]
        omega
      · cases h
    · have := ih h
      omega

theorem length_lineStarts (o : Nat) (cs : List Char) : (lineStarts o cs).length = cs.count '\n' := by
  induction cs generalizing o with
  | nil => rfl
  | cons c cs ih =>
    rw [lineStarts, List.length_append, ih, List.count_cons, Nat.add_comm]
    by_cases hc : c = '\n' <;> simp [hc]

/-- Nothing of a text lies in a range that ends before it or starts behind it. -/
theorem slice_eq_nil {i j o : Nat} (h : o + byteSize cs ≤ i ∨ j ≤ o) : slice i j o cs = [] := by
  induction cs generalizing o with
  | nil => rfl
  | cons c cs ih =>
    have hpos := c.utf8Size_pos
    rw [byteSize_cons] at h
    rw [slice, if_neg (by omega), List.nil_append, ih (by omega)]

/-- All of a text lies in a range that reaches over it. -/
theorem slice_eq_self {i j o : Nat} (hi : i ≤ o) (hj : o + byteSize cs ≤ j) : slice i j o cs = cs := by
  induction cs generalizing o with
  | nil => rfl
  | cons c cs ih =>
    have hpos := c.utf8Size_pos
    rw [byteSize_cons] at hj
    rw [slice, if_pos (by omega), ih (by omega) (by omega), List.singleton_append]

/-- The characters behind the last end of a line. -/
def lastLine (cs : List Char) : List Char :=
  (cs.reverse.takeWhile (· != '\n')).reverse

theorem lastLine_concat (cs : List Char) (c : Char) :
    lastLine (cs ++ [c]) = if c = '\n' then [] else lastLine cs ++ [c] := by
  unfold lastLine
  rw [List.reverse_concat, List.takeWhile_cons]
  by_cases hc : c = '\n' <;> simp [hc]

/-- The last line of a text starts where the table says. -/
theorem exists_lastLine (cs : List Char) : ∃ as, cs = as ++ lastLine cs ∧
    (0 :: lineStarts 0 cs)[cs.count '\n']? = some (byteSize as) := by
  induction cs using List.reverseRecOn with
  | nil => exact ⟨[], rfl, by simp⟩
  | append_singleton cs c ih =>
    have hlength := length_lineStarts 0 cs
    obtain ⟨as, hcs, hget⟩ := ih
    rw [lastLine_concat, lineStarts_append, List.count_append]
    by_cases hc : c = '\n'
    · refine ⟨cs ++ [c], by simp [hc], ?_⟩
      subst hc
      simp [lineStarts, ← hlength]
    · refine ⟨as, by rw [if_neg hc, ← List.append_assoc, ← hcs], ?_⟩
      simpa [lineStarts, hc] using hget

theorem positionAfter_eq (cs : List Char) : positionAfter ⟨0, 0⟩ cs = ⟨cs.count '\n', (lastLine cs).length⟩ := by
  induction cs using List.reverseRecOn with
  | nil => rfl
  | append_singleton cs c ih =>
    rw [positionAfter_append, ih, lastLine_concat, List.count_append]
    by_cases hc : c = '\n' <;> simp [positionAfter, nextPosition, hc]

/-- The lines that start at an offset or before are those behind the ends of lines before it. -/
theorem takeWhile_lineStarts (as bs : List Char) :
    (0 :: lineStarts 0 (as ++ bs)).takeWhile (· ≤ byteSize as) = 0 :: lineStarts 0 as := by
  have hle : ∀ n ∈ 0 :: lineStarts 0 as, decide (n ≤ byteSize as) = true := by
    intro n hn
    rw [decide_eq_true_eq]
    rcases List.mem_cons.1 hn with rfl | hn
    · exact Nat.zero_le _
    · simpa using (mem_lineStarts hn).2
  have hgt : (lineStarts (byteSize as) bs).takeWhile (· ≤ byteSize as) = [] := by
    cases hbs : lineStarts (byteSize as) bs with
    | nil => rfl
    | cons n ns =>
      have hn := (mem_lineStarts (hbs ▸ List.mem_cons_self : n ∈ lineStarts (byteSize as) bs)).1
      exact List.takeWhile_cons_of_neg (by simpa using hn)
  rw [lineStarts_append, Nat.zero_add, ← List.cons_append, List.takeWhile_append_of_pos hle, hgt, List.append_nil]

/-- **The search in the table finds the line and the column:** the number of ends of lines before an offset, and the number
of characters behind the last of them. -/
theorem locate_eq (h : source.toList = as ++ bs) :
    locate source (byteSize as) = ⟨as.count '\n', (lastLine as).length⟩ := by
  obtain ⟨before, hbefore, hget⟩ := exists_lastLine as
  have hstart : (0 :: lineStarts 0 (as ++ bs)).getD (as.count '\n') 0 = byteSize before := by
    have hlt : as.count '\n' < (0 :: lineStarts 0 as).length := (List.getElem?_eq_some_iff.1 hget).1
    rw [lineStarts_append, ← List.cons_append, List.getD_eq_getElem?_getD, List.getElem?_append_left hlt, hget,
      Option.getD_some]
  have hsize : byteSize as = byteSize before + byteSize (lastLine as) := by
    rw [← byteSize_append, ← hbefore]
  have hline : slice (byteSize before) (byteSize as) 0 (before ++ lastLine as) = lastLine as := by
    rw [slice_append, slice_eq_nil (.inl (by omega)), slice_eq_self (by omega) (by omega), List.nil_append]
  have hslice : slice (byteSize before) (byteSize as) 0 (as ++ bs) = lastLine as := by
    rw [slice_append, slice_eq_nil (.inr (Nat.le_add_left _ 0)), List.append_nil]
    rwa [← hbefore] at hline
  unfold locate
  dsimp only
  rw [h, takeWhile_lineStarts, List.length_cons, length_lineStarts, Nat.add_sub_cancel, hstart, hslice]

example : [0, 2, 3, 6, 7].map (locate "é\n€x") = [⟨0, 0⟩, ⟨0, 1⟩, ⟨1, 0⟩, ⟨1, 1⟩, ⟨1, 2⟩] := by
  decide +kernel

/-- Going from character to character leads to the same positions. -/
theorem locate_byteSize (h : source.toList = as ++ bs) : locate source (byteSize as) = positionAfter ⟨0, 0⟩ as := by
  rw [locate_eq h, positionAfter_eq]

/-- The byte offset is that of a character, or of the end. -/
def Boundary (source : String) (o : Nat) : Prop :=
  ∃ before after, source.toList = before ++ after ∧ o = byteSize before

/-- A later offset has a later position. -/
theorem Boundary.order_locate {o o' : Nat} (h : Boundary source o) (h' : Boundary source o') (hlt : o < o') :
    (locate source o).order (locate source o') = .lt := by
  obtain ⟨as, xs, hs, rfl⟩ := h
  obtain ⟨bs, ys, hs', rfl⟩ := h'
  rw [locate_byteSize hs, locate_byteSize hs']
  rcases List.prefix_or_prefix_of_prefix ⟨xs, hs.symm⟩ ⟨ys, hs'.symm⟩ with ⟨cs, rfl⟩ | ⟨cs, rfl⟩
  · rw [positionAfter_append]
    refine order_positionAfter _ fun hcs => ?_
    rw [hcs, List.append_nil] at hlt
    exact Nat.lt_irrefl _ hlt
  · rw [byteSize_append] at hlt
    omega

theorem Boundary.isLE_locate {o o' : Nat} (h : Boundary source o) (h' : Boundary source o') (hle : o ≤ o') :
    (locate source o).isLE (locate source o') = true := by
  rcases Nat.lt_or_eq_of_le hle with hlt | rfl
  · exact Position.isLE_of_order (h.order_locate h' hlt)
  · exact Position.isLE_refl _

theorem utf8ByteSize_eq (source : String) : source.utf8ByteSize = byteSize source.toList := by
  rw [byteSize, String.ofList_toList]

/-! ## The ranges of lexemes -/

/-- What a text that is not passed over is read as: a word, or a character that begins nothing. -/
inductive ReadAs (A : Alphabet) (text : List Char) (span : Span) : Except Error Lexed → Prop
  | word {l : Lexeme} : Word.Spelled ⟨l, text⟩ → ReadAs A text span (Word.read A ⟨l, text⟩ span)
  | unknown {c : Char} : text = [c] → (∀ k, ¬ Kind.Matches k text) →
      ReadAs A text span (.error (.unrecognized (.ofList text) span))

/-- The span of a byte range. -/
def spanOf (source : String) (r : Nat × Nat) : Span :=
  ⟨locate source r.1, locate source r.2⟩

/-- From the byte offset `o` on, where the text `cs` is left, the source is cut into blanks and comments, which are passed
over, and the texts of the items. Each of these has its byte range, and is read with the span of it. -/
inductive Covers (A : Alphabet) (source : String) :
    (o : Nat) → (cs : List Char) → (items : List (Except Error Lexed)) → (ranges : List (Nat × Nat)) → Prop
  | done : Covers A source source.utf8ByteSize [] [] []
  | skip {o : Nat} {text cs : List Char} {items : List (Except Error Lexed)} {ranges : List (Nat × Nat)} :
      Kind.blank.Matches text → Covers A source (o + byteSize text) cs items ranges →
      Covers A source o (text ++ cs) items ranges
  | item {o : Nat} {text cs : List Char} {x : Except Error Lexed} {items : List (Except Error Lexed)}
      {ranges : List (Nat × Nat)} : ReadAs A text (spanOf source (o, o + byteSize text)) x →
      Covers A source (o + byteSize text) cs items ranges →
      Covers A source o (text ++ cs) (x :: items) ((o, o + byteSize text) :: ranges)

theorem ReadAs.ne_nil {text : List Char} {span : Span} {x : Except Error Lexed} (h : ReadAs A text span x) : text ≠ [] := by
  cases h with
  | word hw =>
    obtain ⟨c, ds, htext, -⟩ := hw.exists_starting
    exact fun e => List.cons_ne_nil c ds (htext.symm.trans e)
  | unknown htext => exact htext ▸ List.cons_ne_nil _ _

/-- **The lexemes and errors, with blanks and comments in between, make up the source.** -/
theorem exists_covers (A : Alphabet) (source : String) (p : Position) (cs : List Char) :
    ∀ as, source.toList = as ++ cs → p = positionAfter ⟨0, 0⟩ as →
      ∃ ranges, Covers A source (byteSize as) cs (lexAt A p cs) ranges := by
  fun_induction pieces p cs with
  | case1 p =>
    intro as h _
    rw [List.append_nil] at h
    rw [lexAt_nil, ← h, ← utf8ByteSize_eq]
    exact ⟨[], .done⟩
  | case2 p c cs k more hc text stop ih =>
    intro as h hp
    have htext : c :: cs = text ++ cs.dropWhile more := by
      rw [List.cons_append, List.takeWhile_append_dropWhile]
    have hsource : source.toList = as ++ text ++ cs.dropWhile more := by
      rw [h, htext, List.append_assoc]
    have hstop : stop = positionAfter ⟨0, 0⟩ (as ++ text) := by
      rw [positionAfter_append, ← hp]
    obtain ⟨ranges, hcovers⟩ := ih (as ++ text) hsource hstop
    have hspan : spanOf source (byteSize as, byteSize (as ++ text)) = ⟨p, stop⟩ := by
      rw [spanOf, locate_byteSize h, locate_byteSize hsource, ← hp, ← hstop]
    rw [byteSize_append] at hcovers hspan
    rw [lexAt_cons hc, htext]
    change ∃ ranges, Covers A source (byteSize as) (text ++ cs.dropWhile more)
      ((lexPiece? A ⟨k, text, ⟨p, stop⟩⟩).toList ++ lexAt A stop (cs.dropWhile more)) ranges
    cases k with
    | blank => exact ⟨ranges, .skip ((matches_iff hc (by decide)).2 fun d => List.mem_takeWhile_imp) hcovers⟩
    | lexeme l =>
      have hread : ReadAs A text (spanOf source (byteSize as, byteSize as + byteSize text))
          (Word.read A ⟨l, text⟩ ⟨p, stop⟩) := hspan ▸ .word ((spelled_of_starting hc).2 cs)
      exact ⟨_, .item hread hcovers⟩
    | unknown =>
      have halone : text = [c] := congrArg (c :: ·) (alone_of_unknown hc cs).1
      have hnone : ∀ k, ¬ Kind.Matches k text := by
        intro k hk
        obtain ⟨d, ds, more', e, hd, -⟩ := hk.exists_cons
        obtain ⟨rfl, -⟩ := List.cons.inj e
        obtain ⟨rfl, -⟩ := Prod.mk.inj (hc.symm.trans hd)
        exact hk
      have hread : ReadAs A text (spanOf source (byteSize as, byteSize as + byteSize text))
          (.error (.unrecognized (.ofList text) (some ⟨p, stop⟩))) := hspan ▸ .unknown halone hnone
      exact ⟨_, .item hread hcovers⟩

/-- The span that comes with a lexeme or an error. A number that does not fit is an error without one. -/
def spanOf? : Except Error Lexed → Option Span
  | .ok l => l.token.span
  | .error (.unrecognized _ span) => span
  | .error _ => none

theorem ReadAs.spanOf? {text : List Char} {span : Span} {x : Except Error Lexed} (h : ReadAs A text span x) :
    Calculator.spanOf? x = some span ∨ ∃ e, x = .error (.literal e) := by
  cases h with
  | unknown => exact .inl rfl
  | @word l hw =>
    cases l with
    | number =>
      unfold Word.read tokenOf
      dsimp only
      cases Value.read (.ofList text) with
      | ok value => exact .inl rfl
      | error e => exact .inr ⟨e, rfl⟩
    | _ => exact .inl rfl

namespace Covers

variable {o : Nat} {items : List (Except Error Lexed)} {ranges : List (Nat × Nat)}

/-- The items come with the spans of their ranges. -/
theorem spanOf? (h : Covers A source o cs items ranges) :
    List.Forall₂ (fun x r => Calculator.spanOf? x = some (spanOf source r) ∨ ∃ e, x = .error (.literal e)) items ranges := by
  induction h with
  | done => exact .nil
  | skip _ _ ih => exact ih
  | item hread _ ih => exact .cons hread.spanOf? ih

theorem le_of_mem (h : Covers A source o cs items ranges) : ∀ r ∈ ranges, o ≤ r.1 := by
  induction h with
  | done => exact List.forall_mem_nil _
  | skip _ _ ih => exact fun r hr => Nat.le_trans (Nat.le_add_right _ _) (ih r hr)
  | item _ _ ih =>
    exact List.forall_mem_cons.2 ⟨Nat.le_refl _, fun r hr => Nat.le_trans (Nat.le_add_right _ _) (ih r hr)⟩

/-- No range is empty. -/
theorem lt_of_mem (h : Covers A source o cs items ranges) : ∀ r ∈ ranges, r.1 < r.2 := by
  induction h with
  | done => exact List.forall_mem_nil _
  | skip _ _ ih => exact ih
  | item hread _ ih =>
    exact List.forall_mem_cons.2 ⟨Nat.lt_add_of_pos_right (byteSize_pos hread.ne_nil), ih⟩

/-- The ranges lie one behind the other. -/
theorem pairwise (h : Covers A source o cs items ranges) : ranges.Pairwise fun r r' => r.2 ≤ r'.1 := by
  induction h with
  | done => exact .nil
  | skip _ _ ih => exact ih
  | item _ hrest ih => exact .cons hrest.le_of_mem ih

/-- The ranges begin and end between characters. -/
theorem boundaries (h : Covers A source o cs items ranges) (hsource : source.toList = as ++ cs) (ho : o = byteSize as) :
    ∀ r ∈ ranges, Boundary source r.1 ∧ Boundary source r.2 := by
  induction h generalizing as with
  | done => exact List.forall_mem_nil _
  | @skip o text cs _ _ _ _ ih =>
    rw [← List.append_assoc] at hsource
    exact ih hsource (by rw [byteSize_append, ho])
  | @item o text cs _ _ _ _ _ ih =>
    have hstart : Boundary source o := ⟨as, _, hsource, ho⟩
    rw [← List.append_assoc] at hsource
    have hstop : o + byteSize text = byteSize (as ++ text) := by rw [byteSize_append, ho]
    exact List.forall_mem_cons.2 ⟨⟨hstart, as ++ text, cs, hsource, hstop⟩, ih hsource hstop⟩

end Covers

/-- The lexemes and errors of a source have these byte ranges, and each is where its span says. -/
structure Positioned (A : Alphabet) (source : String) (ranges : List (Nat × Nat)) : Prop where
  /-- One behind the other, with blanks and comments in between, they make up the source. -/
  covers : Covers A source 0 source.toList (lex A source) ranges
  carried : List.Forall₂ (fun x r => spanOf? x = some (spanOf source r) ∨ ∃ e, x = .error (.literal e)) (lex A source) ranges
  /-- No range begins or ends within a character. -/
  boundaries : ∀ r ∈ ranges, Boundary source r.1 ∧ Boundary source r.2
  nonempty : ∀ r ∈ ranges, r.1 < r.2
  increasing : ranges.Pairwise fun r r' => r.2 ≤ r'.1
  spans_nonempty : ∀ r ∈ ranges, (spanOf source r).start.order (spanOf source r).stop = .lt
  spans_increasing : (ranges.map (spanOf source)).Pairwise fun a b => a.order b = .lt ∧ a.stop.isLE b.start
  /-- Lines are counted by their ends, and columns by characters. -/
  located : ∀ before after, source.toList = before ++ after →
    locate source (byteSize before) = ⟨before.count '\n', (lastLine before).length⟩
  endSpan : endSpan source = .point (locate source source.utf8ByteSize)

/-- **Where lexemes and errors are.** Whatever the source, its lexemes and errors lie one behind the other, and with blanks
and comments in between they make up the source. Their spans, and the one at the end, count ends of lines and characters. -/
theorem exists_positioned (A : Alphabet) (source : String) : ∃ ranges, Positioned A source ranges := by
  obtain ⟨ranges, hcovers⟩ := exists_covers A source ⟨0, 0⟩ source.toList [] rfl rfl
  rw [byteSize_nil] at hcovers
  have hboundaries := hcovers.boundaries (show source.toList = [] ++ source.toList from rfl) byteSize_nil.symm
  have hlt := hcovers.lt_of_mem
  refine ⟨ranges, hcovers, hcovers.spanOf?, hboundaries, hlt, hcovers.pairwise, fun r hr => ?_, ?_,
    fun before after h => locate_eq h, ?_⟩
  · exact (hboundaries r hr).1.order_locate (hboundaries r hr).2 (hlt r hr)
  · rw [List.pairwise_map]
    refine hcovers.pairwise.imp_of_mem fun {r r'} hr hr' hle => ?_
    obtain ⟨hstart, hstop⟩ := hboundaries r hr
    obtain ⟨hstart', -⟩ := hboundaries r' hr'
    have hbefore := hstart.order_locate hstart' (Nat.lt_of_lt_of_le (hlt r hr) hle)
    exact ⟨Span.order_of_start hbefore, hstop.isLE_locate hstart' hle⟩
  · rw [Calculator.endSpan, utf8ByteSize_eq, locate_byteSize (List.append_nil _).symm]

end Calculator

end PredictiveParser
