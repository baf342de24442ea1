import AlterCatalog.Proofs.ChangeJson
import AlterCatalog.Proofs.Mismatch
import AlterCatalog.Proofs.RoundTrip
import AlterCatalog.Proofs.Slices
import AlterCatalog.Proofs.StatementJson
import AlterCatalog.Report

/-!
# Explanations read back

An explanation holds each statement three times: as a tree, as text and as a change. Each is read
back by its own reader, and all three give what the script said.
-/

namespace AlterCatalog

/-! ## Places of a short text -/

theorem length_le_utf8Len (s : List Char) : s.length ≤ String.utf8Len s := by
  induction s with
  | nil => rfl
  | cons c s ih =>
    have hc := c.utf8Size_pos
    rw [List.length_cons, String.utf8Len_cons]
    omega

/-- A place counts at most one more than the bytes before it. -/
theorem Location.fits_advance {s : List Char} (h : String.utf8Len s + 1 < UInt64.size) :
    (Location.advance .origin s).Fits := by
  have length := length_le_utf8Len s
  constructor
  case line =>
    have count : s.count '\n' ≤ s.length := List.count_le_length
    rw [line_advance_origin]
    omega
  case column =>
    have column := (List.takeWhile_sublist (· != '\n') (l := s.reverse)).length_le
    rw [List.length_reverse] at column
    rw [column_advance_origin]
    omega
  case offset =>
    rw [offset_advance_origin]
    omega

theorem Parser.Covers.fits {us : List Placed} {sp : Span} (hc : Parser.Covers sp us)
    (hu : ∀ t ∈ us, t.span.Fits) : sp.Fits := by
  obtain ⟨t, ht, hs⟩ := hc.exists_start
  obtain ⟨u, hu', hf⟩ := hc.exists_finish
  exact ⟨hs ▸ (hu t ht).start, hf ▸ (hu u hu').finish⟩

section
variable {input : String} (hi : input.utf8ByteSize + 1 < UInt64.size)
include hi

theorem fits_of_append {s : List Char} (rest : List Char) (h : input.toList = s ++ rest) :
    (Location.advance .origin s).Fits := by
  rw [← String.utf8Len_toList, h, String.utf8Len_append] at hi
  exact Location.fits_advance (by omega)

theorem fits_of_tokenize {ts : List Placed} (h : tokenize input = .ok ts) :
    ∀ t ∈ ts, t.span.Fits := by
  obtain ⟨ps, hp, rfl⟩ := tokenize_eq_ok_iff.1 h
  have text := (Lexer.pieces_eq_iff.1 hp).1
  intro t ht
  rcases List.mem_append.1 ht with ht | ht
  · obtain ⟨before, p, after, rfl, -, hs⟩ := Lexer.mem_place ht
    rw [hs]
    exact ⟨fits_of_append hi (p.text ++ after.flatMap Piece.text) (by simp [text]),
      fits_of_append hi (after.flatMap Piece.text) (by simp [text])⟩
  · rw [List.mem_singleton.1 ht]
    have whole := fits_of_append hi [] (List.append_nil input.toList).symm
    exact ⟨whole, whole⟩

theorem fits_of_parseScript {ss : List Statement} (h : parseScript input = .ok ss) :
    ∀ s ∈ ss, s.Fits := by
  obtain ⟨-, ts, ht, hs⟩ := parseScript_eq_ok_iff.1 h
  have hrow := Parser.script_row ts
  rw [hs] at hrow
  intro s hm n hn
  obtain ⟨us, hu, hphrase, hseats⟩ := hrow.of_mem hm
  have ho := ordered_of_tokenize ht hu (Parser.endOfInput_not_mem_statementOf hphrase)
  obtain ⟨vs, hv, hseated⟩ := (hseats ho).2 n hn
  exact hseated.covers.fits fun t hm => fits_of_tokenize hi ht t ((hv.trans hu).subset hm)

end

/-! ## Entries -/

namespace Json

/-- The value of a member of an object that has one of that name. -/
def member? (j : Json) (key : String) : Option Json :=
  match j with
  | .object fields => field fields key
  | _ => none

/-- An entry that tells of a statement what it is, how it is written and what it resolves to. -/
structure Explains (entry : Json) (s : Statement) : Prop where
  ast : ∃ v, entry.member? "ast" = some v ∧ Statement.ofJson? v = some s
  sql : ∃ text t, entry.member? "sql" = some (.string text) ∧ parseStatement text = .ok t ∧
    t.same s = true
  kind : ∃ label, entry.member? "kind" = some (.string label) ∧
    ∀ k : Kind, k.label = label ↔ k = s.kind
  change : ∃ v, entry.member? "change" = some v ∧
    match s.change with
    | .ok c => Change.ofJson? v = some c ∧ ∀ message, v ≠ .object [("error", .string message)]
    | .error e => v = .object [("error", .string e.message)] ∧ ∃ found, e = .mismatch .text found

end Json

open Json

theorem Kind.label_injective {k l : Kind} (h : k.label = l.label) : k = l := by
  cases k <;> cases l <;> first | rfl | exact absurd h (by decide)

/-! ### The change -/

/-- A statement that resolves to nothing has a literal that is no text. -/
theorem Statement.change_eq_error {s : Statement} {e : NodeError} (h : s.change = .error e) :
    ∃ found, e = .mismatch .text found := by
  obtain ⟨l, -, rfl⟩ := Option.map_eq_some_iff.1 ((s.change_eq_error_iff e).1 h)
  exact ⟨l.kind, rfl⟩

theorem Statement.legible_changeJson (s : Statement) : s.changeJson.Legible := by
  unfold changeJson
  split
  · next c _ => exact c.legible_toJson
  · next e _ => exact .object (List.forall_mem_singleton.2 (.string e.message))

theorem Statement.legible_explanationJson {s : Statement} (h : s.Fits) :
    s.explanationJson.Legible := by
  apply Json.Legible.object
  simp [legible_toJson h, legible_changeJson, Json.Legible.string]

theorem Change.ofJson?_error (message : String) :
    Change.ofJson? (.object [("error", .string message)]) = none := by
  rw [ofJson?_object]
  simp [field, valuesOf]

theorem Statement.explains {s : Statement} (hl : s.Legible) (hf : s.Fits) :
    s.explanationJson.Explains s := by
  constructor
  case ast => exact ⟨_, rfl, Statement.ofJson?_rearranged hf (.refl _)⟩
  case sql =>
    obtain ⟨t, hb, ht, -⟩ := (Spelling.block_statement .compact 0 hl).parse
      (Spelling.statementOf_statement .compact 0 hl)
    obtain ⟨-, -, hv⟩ := Statement.legible_iff.1 hl
    rw [← Statement.text_eq hv] at ht
    exact ⟨s.line, t, rfl, ht, Statement.same_iff.2 hb⟩
  case kind => exact ⟨s.kind.label, rfl, fun k => ⟨Kind.label_injective, fun h => h ▸ rfl⟩⟩
  case change =>
    refine ⟨s.changeJson, rfl, ?_⟩
    cases hc : s.change with
    | ok c =>
      have json : s.changeJson = c.toJson := by simp only [changeJson, hc]
      have read := c.ofJson?_toJson
      rw [json]
      -- An object with an error alone has no tag, so it is no change.
      refine ⟨read, fun message he => ?_⟩
      rw [he, Change.ofJson?_error] at read
      cases read
    | error e => exact ⟨by simp only [changeJson, hc], change_eq_error hc⟩

/-- **Explanations are self-consistent.** The explanation of a script whose places fit 64 bits reads
as an array of one entry for each statement, in order. From its entry each statement is read back
with every span, and as the same statement from its text; the kind is named, and the change is read
back, or an error in its place tells of the literal that is no text. -/
theorem explainJson_faithful {input : String} {ss : List Statement}
    (hi : input.utf8ByteSize + 1 < UInt64.size) (h : parseScript input = .ok ss) :
    ∃ entries, Json.parse? (explainJson ss) = some (.array entries) ∧
      List.Forall₂ Json.Explains entries ss := by
  have fits := fits_of_parseScript hi h
  have legible := legible_of_parseScript h
  refine ⟨ss.map Statement.explanationJson, ?_, ?_⟩
  · apply Json.parse?_pretty
    exact .array (List.forall_mem_map.2 fun s hs => Statement.legible_explanationJson (fits s hs))
  · rw [List.forall₂_map_left_iff, List.forall₂_same]
    exact fun s hs => s.explains (legible s hs) (fits s hs)

/-- A script of which the first statement resolves and the second does not. -/
def halfResolved : String :=
  "ALTER CATALOG a RESET (\x27k\x27, \x27k\x27); ALTER CATALOG b COMMENT NULL"

theorem explainJson_faithful_half_resolved : ∃ ss entries, parseScript halfResolved = .ok ss ∧
    Json.parse? (explainJson ss) = some (.array entries) ∧
    List.Forall₂ Json.Explains entries ss := by
  have accepted : (parseScript halfResolved).isOk = true := by decide +kernel
  cases h : parseScript halfResolved with
  | error e =>
    rw [h] at accepted
    cases accepted
  | ok ss =>
    obtain ⟨entries, hp, he⟩ := explainJson_faithful (by decide) h
    exact ⟨ss, entries, rfl, hp, he⟩

end AlterCatalog
