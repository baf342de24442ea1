import AlterCatalog.CommandLine.Run
import AlterCatalog.Proofs.Bare
import AlterCatalog.Proofs.RoundTrip

/-!
# Formatting a script

A formatted script is its statements, each closed by a semicolon, with blanks between them. There is
one if each statement has room, and the whole of them fits. It reads back as the same trees up to
spans, and a text depends on the tree alone. So formatting once fixes the text of every layout.
-/

namespace AlterCatalog

theorem formatted_bare (l : Layout) (ss : List Statement) :
    Transcript.formatted l (ss.map Statement.bare) = Transcript.formatted l ss := by
  simp only [Transcript.formatted, List.mapM_map, Function.comp_def, Statement.sql_bare]

/-! ## The text of a script -/

namespace Spelling

def lineFeeds (n : Nat) : Piece := ⟨List.replicate (n + 1) '\n', none⟩

/-- A statement with its semicolon. -/
def closed (l : Layout) (s : Statement) : List Piece := statement l 0 s ++ [symbol .semicolon]

def script (l : Layout) : List Statement → List Piece
  | [] => [lineFeeds 0]
  | [s] => closed l s ++ [lineFeeds 0]
  | s :: ss => closed l s ++ lineFeeds 1 :: script l ss

theorem lexeme_lineFeeds (n : Nat) : Lexeme (lineFeeds n).text none := by
  refine .blank (by simp [lineFeeds]) fun c hc => ?_
  rw [(List.mem_replicate.1 hc).2]
  rfl

theorem join_closed (l : Layout) {s : Statement} (h : s.Legible) :
    Piece.join (closed l s) = l.text s.write ++ ";" := by
  obtain ⟨-, -, hl⟩ := Statement.legible_iff.1 h
  rw [closed, Piece.join_append, ← Statement.text_eq hl]
  rfl

theorem join_script (l : Layout) : ∀ {ss : List Statement}, (∀ s ∈ ss, s.Legible) →
    Piece.join (script l ss) = "\n\n".intercalate (ss.map fun s => l.text s.write ++ ";") ++ "\n"
  | [], _ => rfl
  | [s], h => by
    rw [script, Piece.join_append, join_closed l (h s (by simp)), List.map_singleton,
      String.intercalate_singleton]
    rfl
  | s :: s' :: ss, h => by
    obtain ⟨hs, hss⟩ := List.forall_mem_cons.1 h
    have hf : String.ofList (lineFeeds 1).text = "\n\n" := rfl
    rw [script, Piece.join_append, Piece.join_cons, join_closed l hs, join_script l hss, hf]
    · simp only [List.map_cons, String.intercalate_cons_cons, String.append_assoc]
    · simp

/-- The text of a script goes on with no blank where a statement begins. -/
theorem script_first_char (l : Layout) {s : Statement} (h : s.Legible) (ss : List Statement) :
    ∃ c r, (script l (s :: ss)).flatMap Piece.text = c :: r ∧ isBlank c = false := by
  obtain ⟨c, r, hc, hb⟩ := (block_statement l 0 h).first_char
  obtain ⟨rest, hr⟩ : ∃ rest, script l (s :: ss) = statement l 0 s ++ rest := by
    cases ss with
    | nil => exact ⟨_, List.append_assoc _ _ _⟩
    | cons s' ss => exact ⟨_, List.append_assoc _ _ _⟩
  exact ⟨c, r ++ rest.flatMap Piece.text, by rw [hr, List.flatMap_append, hc, List.cons_append], hb⟩

theorem cuts_closed (l : Layout) {s : Statement} (h : s.Legible) (rest : List Char) :
    Lexer.Cuts (closed l s) rest :=
  Lexer.cuts_append.2 ⟨(block_statement l 0 h).cuts _ (sealed_semicolon _), .symbol .semicolon,
    trivial, trivial⟩

theorem cuts_script (l : Layout) : ∀ {ss : List Statement}, (∀ s ∈ ss, s.Legible) →
    Lexer.Cuts (script l ss) []
  | [], _ => ⟨lexeme_lineFeeds 0, by rintro c ⟨⟩, trivial⟩
  | [s], h => by
    refine Lexer.cuts_append.2 ⟨cuts_closed l (h s (by simp)) _, lexeme_lineFeeds 0, ?_, trivial⟩
    rintro c ⟨⟩
  | s :: s' :: ss, h => by
    obtain ⟨hs, hss⟩ := List.forall_mem_cons.1 h
    obtain ⟨c, r, hc, hb⟩ := script_first_char l (hss s' (by simp)) ss
    refine Lexer.cuts_append.2 ⟨cuts_closed l hs _, lexeme_lineFeeds 1, ?_, cuts_script l hss⟩
    rw [hc]
    intro d hd
    cases hd
    exact hb

theorem filterMap_script (l : Layout) : ∀ ss : List Statement,
    (script l ss).filterMap Piece.token =
      ss.flatMap fun s => (statement l 0 s).filterMap Piece.token ++ [.symbol .semicolon]
  | [] => rfl
  | [s] => by simp [script, closed, symbol, lineFeeds]
  | s :: s' :: ss => by
    have ih := filterMap_script l (s' :: ss)
    simp [script, closed, symbol, lineFeeds, ih]

end Spelling

/-- What it takes for a script to be formatted: that each statement has room, and that all of them
together fit, the last line not yet ended. -/
def Layout.Fits (l : Layout) (ss : List Statement) : Prop :=
  (∀ s ∈ ss, s.room l ≤ Page.limit) ∧
    ("\n\n".intercalate (ss.map fun s => l.text s.write ++ ";")).utf8ByteSize ≤ Page.limit

instance (l : Layout) (ss : List Statement) : Decidable (l.Fits ss) :=
  inferInstanceAs (Decidable (_ ∧ _))

namespace Transcript

theorem mapM_sql (l : Layout) : ∀ {ss : List Statement}, (∀ s ∈ ss, s.Legible) →
    (ss.mapM fun s => s.sql l) =
      if ∀ s ∈ ss, s.room l ≤ Page.limit then some (ss.map fun s => l.text s.write) else none
  | [], _ => rfl
  | s :: ss, h => by
    obtain ⟨hs, hss⟩ := List.forall_mem_cons.1 h
    obtain ⟨-, -, hl⟩ := Statement.legible_iff.1 hs
    simp only [List.mapM_cons, mapM_sql l hss, Statement.sql_eq hl, List.forall_mem_cons]
    by_cases hr : s.room l ≤ Page.limit
    · by_cases hrs : ∀ s ∈ ss, s.room l ≤ Page.limit
      · simp only [if_pos hr, if_pos hrs, if_pos (And.intro hr hrs)]
        rfl
      · simp [hr, hrs]
    · simp [hr]

theorem formatted_eq (l : Layout) {ss : List Statement} (h : ∀ s ∈ ss, s.Legible) :
    formatted l ss = if l.Fits ss then some (Piece.join (Spelling.script l ss)) else none := by
  have hmap : ((ss.map fun s => l.text s.write).map (· ++ ";")) =
      ss.map fun s => l.text s.write ++ ";" := by
    rw [List.map_map]
    rfl
  rw [Spelling.join_script l h, formatted, mapM_sql l h]
  by_cases hr : ∀ s ∈ ss, s.room l ≤ Page.limit
  · by_cases ht : ("\n\n".intercalate (ss.map fun s => l.text s.write ++ ";")).utf8ByteSize ≤
        Page.limit
    · have hf : l.Fits ss := ⟨hr, ht⟩
      rw [if_pos hr, if_pos hf, Option.bind_eq_bind, Option.bind_some, hmap, if_pos ht]
      simp [endLines, String.join]
    · have hf : ¬l.Fits ss := fun hf => ht hf.2
      rw [if_pos hr, if_neg hf, Option.bind_eq_bind, Option.bind_some, hmap, if_neg ht]
  · have hf : ¬l.Fits ss := fun hf => hr hf.1
    rw [if_neg hr, if_neg hf]
    rfl

theorem formatted_eq_some {l : Layout} {ss : List Statement} (h : ∀ s ∈ ss, s.Legible)
    {text : String} : formatted l ss = some text ↔
      l.Fits ss ∧ text = Piece.join (Spelling.script l ss) := by
  rw [formatted_eq l h]
  split
  · rename_i hf
    simp [hf, eq_comm]
  · rename_i hf
    simp [hf]

end Transcript

/-- A formatted script reads back. -/
theorem parseScript_formatted {l : Layout} {ss : List Statement} (hne : ss ≠ [])
    (h : ∀ s ∈ ss, s.Legible) {text : String} (ht : Transcript.formatted l ss = some text) :
    ∃ ts, parseScript text = .ok ts ∧ ts.map Statement.bare = ss.map Statement.bare := by
  obtain ⟨-, rfl⟩ := (Transcript.formatted_eq_some h).1 ht
  obtain ⟨us, htok, hmap⟩ := readsAs_of_cuts (Spelling.cuts_script l h)
  rw [Spelling.filterMap_script] at hmap
  obtain ⟨ts, hts, hscript⟩ :=
    Parser.script_complete (fun s hs => Spelling.statementOf_statement l 0 (h s hs)) hmap
  refine ⟨ts, parseScript_eq_ok_iff.2 ⟨?_, _, htok, hscript⟩, hts⟩
  rintro rfl
  exact hne (List.map_eq_nil_iff.1 hts.symm)

/-- What the command answers to a script that is read. -/
theorem Transcript.format_of_parse {sur : Surroundings} {o : FormatOptions} {d : Layout}
    (ho : o.layout sur = .ok d) {input : String} {xs : List Statement}
    (h : parseScript input = .ok xs) :
    ∃ log, format sur (some input) o = match formatted d xs with
      | some text => { output := text, log }
      | none => { log, failure := some .overlong } := by
  refine ⟨layoutRecords o ++ parseScriptRecords input, ?_⟩
  cases hf : formatted d xs <;> simp [format, onScript, ho, h, hf]

end AlterCatalog
