import AlterCatalog.Proofs.Room
import Mathlib.Data.String.Basic

/-!
# Writing into a text that is under way

Of what a writer holds already, a statement notices only a pending space and the number of open
lists. Inside of lists its text is its own text with the lines indented further, and the lines of
quoted texts are left alone. No other token has a line break in it, so the text alone shows where a
line begins that the writer began. All that holds as long as the text fits on its page, and where it
does not, nothing is written at all.
-/

namespace AlterCatalog

/-- Indents further every line that begins outside quotes; the quote that is open, if any, is
carried along. -/
def indentLines (n : Nat) : Option Char → List Char → List Char
  | _, [] => []
  | none, c :: s =>
    if c = '\n' then '\n' :: (List.replicate n ' ' ++ indentLines n none s)
    else if c = '\x27' ∨ c = '\x60' then c :: indentLines n (some c) s
    else c :: indentLines n none s
  | some q, c :: s => c :: indentLines n (if c = q then none else some q) s

def indented (n : Nat) (text : String) : String := String.ofList (indentLines n none text.toList)

/-! ## Lines of lexemes -/

section
variable (n : Nat)

theorem indentLines_plain {s : List Char} (h : ∀ c ∈ s, c ≠ '\n' ∧ c ≠ '\x27' ∧ c ≠ '\x60')
    (rest : List Char) : indentLines n none (s ++ rest) = s ++ indentLines n none rest := by
  induction s with
  | nil => rfl
  | cons c s ih =>
    obtain ⟨hc, hs⟩ := List.forall_mem_cons.1 h
    simp [indentLines, hc, ih hs]

theorem indentLines_double {q : Char} (hq : q = '\x27' ∨ q = '\x60') (v rest : List Char) :
    indentLines n (some q) (Quoted.double q v ++ q :: rest) =
      Quoted.double q v ++ q :: indentLines n none rest := by
  have hn : q ≠ '\n' := by rcases hq with rfl | rfl <;> decide
  induction v with
  | nil => simp [Quoted.double, indentLines]
  | cons c v ih =>
    by_cases hc : c = q
    · -- The first quote of a pair closes the text, and the second opens it again.
      simp [Quoted.double, indentLines, hc, hq, hn, ih]
    · simp [Quoted.double, indentLines, hc, ih]

theorem indentLines_enclose {q : Char} (hq : q = '\x27' ∨ q = '\x60') (v rest : List Char) :
    indentLines n none (Quoted.enclose q v ++ rest) =
      Quoted.enclose q v ++ indentLines n none rest := by
  have hn : q ≠ '\n' := by rcases hq with rfl | rfl <;> decide
  simp [Quoted.enclose, indentLines, hq, hn, indentLines_double n hq]

theorem plain_of_isWordPart {c : Char} (h : isWordPart c = true) :
    c ≠ '\n' ∧ c ≠ '\x27' ∧ c ≠ '\x60' := by
  refine ⟨?_, ?_, ?_⟩ <;> rintro rfl <;> cases h

theorem plain_of_isDigit {c : Char} (h : c.isDigit = true) :
    c ≠ '\n' ∧ c ≠ '\x27' ∧ c ≠ '\x60' := by
  refine ⟨?_, ?_, ?_⟩ <;> rintro rfl <;> cases h

theorem plain_of_isSign {sign : List Char} (h : IsSign sign) :
    ∀ c ∈ sign, c ≠ '\n' ∧ c ≠ '\x27' ∧ c ≠ '\x60' := by
  rcases h with rfl | rfl
  · exact List.forall_mem_nil _
  · exact List.forall_mem_singleton.2 (by decide)

/-- No line begins inside a token. -/
theorem indentLines_lexeme {s : List Char} {t : Token} (h : Lexeme s (some t)) (rest : List Char) :
    indentLines n none (s ++ rest) = s ++ indentLines n none rest := by
  generalize ht : some t = token at h
  cases h with
  | blank | lineComment | blockComment => cases ht
  | string v => exact indentLines_enclose n (.inl rfl) v rest
  | delimited v => exact indentLines_enclose n (.inr rfl) v rest
  | decimal hd =>
    obtain ⟨sign, whole, fraction, hsign, hwhole, hfraction, rfl⟩ := hd
    apply indentLines_plain
    simp only [List.forall_mem_append, List.forall_mem_cons]
    exact ⟨⟨plain_of_isSign hsign, fun c hc => plain_of_isDigit (hwhole.2 c hc)⟩, by decide,
      fun c hc => plain_of_isDigit (hfraction.2 c hc)⟩
  | integer hsign hdigits =>
    apply indentLines_plain
    rw [List.forall_mem_append]
    exact ⟨plain_of_isSign hsign, fun c hc => plain_of_isDigit (hdigits.2 c hc)⟩
  | @word s hw =>
    apply indentLines_plain
    cases s with
    | nil => cases hw
    | cons c s =>
      rw [isWord, Bool.and_eq_true] at hw
      rw [List.forall_mem_cons]
      exact ⟨plain_of_isWordPart (Lexer.isWordPart_of_isWordStart hw.1),
        fun c hc => plain_of_isWordPart (List.all_eq_true.1 hw.2 c hc)⟩
  | symbol c =>
    apply indentLines_plain
    rw [List.forall_mem_singleton]
    cases c <;> decide

end

/-! ## Pieces at another depth -/

open Spelling

/-- The second pieces are the first with their lines indented further. -/
def Deepens (l : Layout) (further : Nat) (ps qs : List Piece) : Prop := ∀ rest : List Char,
  indentLines (further * l.indentWidth.toNat) none (ps.flatMap Piece.text ++ rest) =
    qs.flatMap Piece.text ++ indentLines (further * l.indentWidth.toNat) none rest

section
variable {l : Layout} {further : Nat}

theorem Deepens.append {ps ps' qs qs' : List Piece} (hp : Deepens l further ps ps')
    (hq : Deepens l further qs qs') : Deepens l further (ps ++ qs) (ps' ++ qs') := by
  intro rest
  rw [List.flatMap_append, List.flatMap_append, List.append_assoc, hp, hq, List.append_assoc]

theorem indented_join {ps qs : List Piece} (h : Deepens l further ps qs) :
    indented (further * l.indentWidth.toNat) (Piece.join ps) = Piece.join qs := by
  have hj := h []
  rw [List.append_nil] at hj
  rw [indented, Piece.join, String.toList_ofList, hj, Piece.join]
  simp [indentLines]

/-- A piece that begins no line. -/
def Inline (p : Piece) : Prop := p = space ∨ ∃ t, p.token = some t ∧ Lexeme p.text (some t)

theorem inline_of_lexeme {p : Piece} {t : Token} (ht : p.token = some t)
    (h : Lexeme p.text p.token) : Inline p :=
  .inr ⟨t, ht, ht ▸ h⟩

theorem deepens_inline : ∀ {ps : List Piece}, (∀ p ∈ ps, Inline p) → Deepens l further ps ps
  | [], _, _ => rfl
  | p :: ps, h, rest => by
    obtain ⟨hp, hps⟩ := List.forall_mem_cons.1 h
    have later := deepens_inline hps rest
    rw [List.flatMap_cons, List.append_assoc, List.append_assoc, ← later]
    rcases hp with rfl | ⟨t, -, ht⟩
    · exact indentLines_plain _ (List.forall_mem_singleton.2 (by decide)) _
    · exact indentLines_lexeme _ ht _

end

theorem inline_space : Inline space := .inl rfl

theorem inline_symbol (c : Symbol) : Inline (symbol c) := .inr ⟨_, rfl, .symbol c⟩

section
variable (l : Layout)

theorem inline_keyword (k : Keyword) : Inline (keyword l k) :=
  inline_of_lexeme rfl (lexeme_keyword l k)

theorem inline_name (parts : List String) : ∀ p ∈ name l parts, Inline p := by
  have part : ∀ n, Inline (part l n) := fun n =>
    inline_of_lexeme (part_token l n).choose_spec.1 (lexeme_part l n)
  fun_induction name l parts with
  | case1 => exact List.forall_mem_nil _
  | case2 p => exact List.forall_mem_singleton.2 (part p)
  | case3 p ps _ ih => simpa [part, inline_symbol] using ih

theorem inline_literal {v : LiteralValue} (h : v.Legible) : Inline (literal l v) :=
  inline_of_lexeme (value_literal l v).choose_spec.1 (lexeme_literal l h)

theorem inline_setting {s : Setting} (hk : s.key.value.Legible) (hv : s.value.value.Legible) :
    ∀ p ∈ setting l s, Inline p := by
  simp [setting, inline_literal l hk, inline_literal l hv, inline_symbol, inline_space]

theorem deepens_lineStart {depth further : Nat}
    (h : (depth + further) * l.indentWidth.toNat < UInt64.size) :
    Deepens l further [lineStart l depth] [lineStart l (depth + further)] := by
  intro rest
  have blanks : ∀ c ∈ List.replicate (l.indent depth) ' ',
      c ≠ '\n' ∧ c ≠ '\x27' ∧ c ≠ '\x60' := by
    intro c hc
    rw [(List.mem_replicate.1 hc).2]
    decide
  have width : further * l.indentWidth.toNat + l.indent depth = l.indent (depth + further) := by
    rw [Nat.add_mul] at h
    rw [l.indent_eq (by omega), l.indent_eq (by rwa [Nat.add_mul]), Nat.add_mul, Nat.add_comm]
  simp only [lineStart, List.flatMap_cons, List.flatMap_nil, List.append_nil, List.cons_append,
    indentLines, if_pos]
  rw [indentLines_plain _ blanks, ← List.append_assoc, List.replicate_append_replicate, width]

section
variable {l} {depth further : Nat} (hc : l.Counts (depth + further + 1))
include hc

theorem deepens_nextLine (hp : l.pretty = true) :
    Deepens l further [lineStart l (depth + 1)] [lineStart l (depth + further + 1)] := by
  have hcount := hc hp
  rw [Nat.add_right_comm] at hcount ⊢
  exact deepens_lineStart l hcount

theorem deepens_opening :
    Deepens l further (opening l depth) (opening l (depth + further)) := by
  unfold opening
  cases hp : l.pretty with
  | true => exact deepens_nextLine hc hp
  | false => exact fun _ => rfl

theorem deepens_closing :
    Deepens l further (closing l depth) (closing l (depth + further)) := by
  unfold closing
  cases hp : l.pretty with
  | true =>
    have hless := Nat.mul_le_mul_right l.indentWidth.toNat (Nat.le_succ (depth + further))
    exact deepens_lineStart l (Nat.lt_of_le_of_lt hless (hc hp))
  | false => exact fun _ => rfl

theorem deepens_between :
    Deepens l further (between l depth) (between l (depth + further)) := by
  have comma : ∀ p ∈ [symbol .comma], Inline p := List.forall_mem_singleton.2 (inline_symbol _)
  unfold between
  cases hp : l.pretty with
  | true => exact (deepens_inline comma).append (deepens_nextLine hc hp)
  | false =>
    apply deepens_inline
    simp [inline_symbol, inline_space]

theorem deepens_joined : ∀ {is : List (List Piece)}, (∀ i ∈ is, ∀ p ∈ i, Inline p) →
    Deepens l further (is.flatMap fun j => between l depth ++ j)
      (is.flatMap fun j => between l (depth + further) ++ j)
  | [], _ => fun _ => rfl
  | i :: is, h => by
    obtain ⟨hi, his⟩ := List.forall_mem_cons.1 h
    rw [List.flatMap_cons, List.flatMap_cons]
    exact ((deepens_between hc).append (deepens_inline hi)).append (deepens_joined his)

theorem deepens_listing {is : List (List Piece)} (h : ∀ i ∈ is, ∀ p ∈ i, Inline p) :
    Deepens l further (listing l depth is) (listing l (depth + further) is) := by
  have paren : ∀ c, Deepens l further [symbol c] [symbol c] := fun c =>
    deepens_inline (List.forall_mem_singleton.2 (inline_symbol c))
  have items : Deepens l further (items l depth is) (items l (depth + further) is) := by
    cases is with
    | nil => exact fun _ => rfl
    | cons i is =>
      obtain ⟨hi, his⟩ := List.forall_mem_cons.1 h
      exact (deepens_opening hc).append
        ((deepens_inline hi).append (deepens_joined hc his))
  exact (paren .leftParen).append
    ((items.append (deepens_closing hc)).append (paren .rightParen))

end

section
variable {l} {depth further : Nat}

theorem deepens_action {a : Action} (h : ∀ v ∈ a.literals, v.value.Legible)
    (hc : a.listed = true → l.Counts (depth + further + 1)) :
    Deepens l further (action l depth a) (action l (depth + further) a) := by
  have words : ∀ k, Deepens l further [keyword l k, space] [keyword l k, space] := by
    intro k
    apply deepens_inline
    simp [inline_keyword, inline_space]
  cases a with
  | set settings =>
    apply (words .set).append
    refine deepens_listing (hc rfl) (List.forall_mem_map.2 fun s hs => ?_)
    obtain ⟨hk, hv⟩ := Writer.legible_setting h hs
    exact inline_setting l hk hv
  | reset keys =>
    apply (words .reset).append
    refine deepens_listing (hc rfl) (List.forall_mem_map.2 fun k hk => ?_)
    exact List.forall_mem_singleton.2 (inline_literal l (h k hk))
  | rename newName =>
    exact ((words .rename).append (words .to_)).append (deepens_inline (inline_name l _))
  | comment text =>
    have hv := h text (List.mem_singleton.2 rfl)
    exact (words .comment).append
      (deepens_inline (List.forall_mem_singleton.2 (inline_literal l hv)))

theorem deepens_statement {s : Statement} (h : ∀ v ∈ s.action.literals, v.value.Legible)
    (hc : s.action.listed = true → l.Counts (depth + further + 1)) :
    Deepens l further (statement l depth s) (statement l (depth + further) s) := by
  have words : ∀ p ∈ [keyword l .alter, space, keyword l .catalog, space], Inline p := by
    simp [inline_keyword, inline_space]
  have blank : ∀ p ∈ [space], Inline p := List.forall_mem_singleton.2 inline_space
  exact (deepens_inline words).append ((deepens_inline (inline_name l _)).append
    ((deepens_inline blank).append (deepens_action h hc)))

end

end

/-- On one line the depth does not show. -/
theorem statement_compact {l : Layout} (h : l.pretty = false) (depth depth' : Nat) (s : Statement) :
    statement l depth s = statement l depth' s := by
  obtain ⟨span, catalog, action⟩ := s
  cases action <;>
    simp [statement, Spelling.action, listing, items, opening, between, closing, h]

/-! ## Statements on a page -/

theorem size_le_indented (n : Nat) (text : String) :
    text.utf8ByteSize ≤ (indented n text).utf8ByteSize := by
  have hchars : ∀ q s, String.utf8Len s ≤ String.utf8Len (indentLines n q s) := by
    intro q s
    fun_induction indentLines n q s <;> simp only [String.utf8Len_nil, String.utf8Len_cons,
      String.utf8Len_append] <;> omega
  rw [← String.utf8Len_toList, ← String.utf8Len_toList (indented n text), indented,
    String.toList_ofList]
  exact hchars none _

theorem statement_write_eq {s : Statement} (h : ∀ v ∈ s.action.literals, v.value.Legible)
    (w : Writer) :
    s.write w = { w with
      text := w.text ++ (if w.spacePending then " " else "") ++
        Piece.join (statement w.layout w.lists.length s)
      lists := Writer.markItem w.lists
      spacePending := true } := by
  rw [Writer.statement_write s w h, Writer.put, Writer.token, Writer.beginToken]
  cases w.spacePending <;> simp

/-- The text of a statement inside of lists is its own text with the lines indented further. -/
theorem join_statement_embedded {s : Statement} (h : ∀ v ∈ s.action.literals, v.value.Legible)
    {l : Layout} {depth : Nat} (hc : s.action.listed = true → l.Counts (depth + 1)) :
    Piece.join (statement l depth s) =
      indented (depth * l.indentWidth.toNat) (l.text s.write) := by
  have deeper : Deepens l depth (statement l 0 s) (statement l (0 + depth) s) :=
    deepens_statement h (by rwa [Nat.zero_add])
  rw [Nat.zero_add] at deeper
  rw [← indented_join deeper, Statement.text_eq h]

/-- Outside of lists, or on one line, no line of a statement is indented further. -/
theorem indented_text_eq {s : Statement} (h : ∀ v ∈ s.action.literals, v.value.Legible)
    {l : Layout} {depth : Nat} (hc : s.action.listed = true → l.Counts (depth + 1))
    (hflat : depth = 0 ∨ l.pretty = false) :
    indented (depth * l.indentWidth.toNat) (l.text s.write) = l.text s.write := by
  have flat : statement l depth s = statement l 0 s := by
    rcases hflat with hd | hp
    · rw [hd]
    · exact statement_compact hp _ _ s
  rw [← join_statement_embedded h hc, flat]
  exact (Statement.text_eq h l).symm

/-- A RESET of one key that has a line break in it. -/
def Statement.resetTwoLines : Statement where
  catalog := ⟨["c"], {}⟩
  action := .reset ⟨[⟨.text "a\nb", {}⟩], {}⟩

/-- A page that holds an open list and a token in it. -/
def Page.underWay : Page where
  writer := { layout := {}, text := "(x", lists := [⟨")", true⟩], spacePending := true }

end AlterCatalog
