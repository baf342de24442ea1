import AlterCatalog.Proofs.JsonText
import AlterCatalog.Proofs.Legible
import AlterCatalog.Proofs.Records
import AlterCatalog.Statement.Json

/-!
# Statements read back from JSON

Node by node, what is written of a node is read as that node, with its span, and in whatever order
the fields stand. Only the places have to fit 64 bits, and then all of what is written is legible.
-/

namespace AlterCatalog

/-- A place whose counts fit 64 bits. -/
structure Location.Fits (l : Location) : Prop where
  line : l.line < UInt64.size
  column : l.column < UInt64.size
  offset : l.offset < UInt64.size

structure Span.Fits (s : Span) : Prop where
  start : s.start.Fits
  finish : s.finish.Fits

/-- A statement with spans of 64 bits all over. -/
def Statement.Fits (s : Statement) : Prop := ∀ n ∈ s.nodes, n.span.Fits

theorem Statement.fits_iff {s : Statement} :
    s.Fits ↔ s.span.Fits ∧ s.catalog.span.Fits ∧ ∀ n ∈ s.action.nodes, n.span.Fits := by
  rw [Fits, nodes_eq, List.forall_mem_cons, List.forall_mem_cons]
  rfl

/-! ## Nodes -/

theorem Location.ofJson?_rearranged {l : Location} (hl : l.Fits) {j : Json}
    (h : j.Rearranges l.toJson) : ofJson? j = some l := by
  obtain ⟨_, _, _, hc, hn, ho, hr⟩ := h.triple
  cases hc
  cases hn
  cases ho
  have hf : (Json.object [("column", .int l.column), ("line", .int l.line),
      ("offset", .int l.offset)]).record ["line", "column", "offset"] =
      some [.int l.line, .int l.column, .int l.offset] := rfl
  simp [ofJson?, hr, hf, Json.asCount?_natCast hl.line, Json.asCount?_natCast hl.column,
    Json.asCount?_natCast hl.offset]

theorem Span.ofJson?_rearranged {s : Span} (hs : s.Fits) {j : Json} (h : j.Rearranges s.toJson) :
    ofJson? j = some s := by
  obtain ⟨f, i, hf, hi, hr⟩ := h.pair
  have hrec : (Json.object [("end", f), ("start", i)]).record ["start", "end"] = some [i, f] := rfl
  simp [ofJson?, hr, hrec, Location.ofJson?_rearranged hs.start hi,
    Location.ofJson?_rearranged hs.finish hf]

theorem Name.ofJson?_rearranged {n : Name} (hn : n.span.Fits) {j : Json}
    (h : j.Rearranges n.toJson) : ofJson? j = some n := by
  obtain ⟨p, s, hp, hs, hr⟩ := h.pair
  have hrec : (Json.object [("names", p), ("span", s)]).record ["names", "span"] = some [p, s] :=
    rfl
  simp [ofJson?, hr, hrec, Json.strings_rearranged hp, Span.ofJson?_rearranged hn hs]

theorem LiteralValue.ofJson?_rearranged {v : LiteralValue} {j : Json} (h : j.Rearranges v.toJson) :
    ofJson? j = some v := by
  cases v with
  | text value =>
    obtain ⟨_, hc, hj⟩ := h.variant
    cases hc
    simp [ofJson?, hj, Json.asString?]
  | integer value =>
    obtain ⟨_, hc, hj⟩ := h.variant
    cases hc
    simp [ofJson?, hj, Json.asInt64?_toInt]
  | decimal digits =>
    obtain ⟨_, hc, hj⟩ := h.variant
    cases hc
    simp [ofJson?, hj, Json.asString?]
  | boolean value =>
    obtain ⟨_, hc, hj⟩ := h.variant
    cases hc
    simp [ofJson?, hj, Json.asBool?]
  | null =>
    cases h
    rfl

theorem Literal.ofJson?_rearranged {l : Literal} (hl : l.span.Fits) {j : Json}
    (h : j.Rearranges l.toJson) : ofJson? j = some l := by
  obtain ⟨s, v, hs, hv, hr⟩ := h.pair
  have hrec : (Json.object [("span", s), ("value", v)]).record ["value", "span"] = some [v, s] :=
    rfl
  simp [ofJson?, hr, hrec, LiteralValue.ofJson?_rearranged hv, Span.ofJson?_rearranged hl hs]

theorem Setting.ofJson?_rearranged {s : Setting} (hs : s.span.Fits) (hk : s.key.span.Fits)
    (hv : s.value.span.Fits) {j : Json} (h : j.Rearranges s.toJson) : ofJson? j = some s := by
  obtain ⟨k, p, v, hjk, hjp, hjv, hr⟩ := h.triple
  have hrec : (Json.object [("key", k), ("span", p), ("value", v)]).record
      ["key", "value", "span"] = some [k, v, p] := rfl
  simp [ofJson?, hr, hrec, Literal.ofJson?_rearranged hk hjk, Literal.ofJson?_rearranged hv hjv,
    Span.ofJson?_rearranged hs hjp]

theorem Listing.ofJson?_rearranged {α : Type} {write : α → Json} {read : Json → Option α}
    {l : Listing α} (hl : l.span.Fits)
    (hr : ∀ a ∈ l.items, ∀ j : Json, j.Rearranges (write a) → read j = some a) {j : Json}
    (h : j.Rearranges (l.toJson write)) : ofJson? read j = some l := by
  obtain ⟨i, s, hi, hs, hrec⟩ := h.pair
  have hf : (Json.object [("items", i), ("span", s)]).record ["items", "span"] = some [i, s] := rfl
  simp [ofJson?, hrec, hf, Json.asList?_rearranged hr hi, Span.ofJson?_rearranged hl hs]

/-! ## Statements -/

theorem Setting.fits_of_nodes {settings : Listing Setting}
    (h : ∀ n ∈ (Action.set settings).nodes, n.span.Fits) {s : Setting} (hs : s ∈ settings.items) :
    s.span.Fits ∧ s.key.span.Fits ∧ s.value.span.Fits := by
  have hn : ∀ n ∈ [Node.setting s, .literal s.key, .literal s.value], n.span.Fits := fun n hn =>
    h n (List.mem_cons_of_mem _ (List.mem_flatMap.2 ⟨s, hs, hn⟩))
  exact ⟨hn (.setting s) (by simp), hn (.literal s.key) (by simp), hn (.literal s.value) (by simp)⟩

theorem Literal.fits_of_nodes {keys : Listing Literal}
    (h : ∀ n ∈ (Action.reset keys).nodes, n.span.Fits) {l : Literal} (hl : l ∈ keys.items) :
    l.span.Fits :=
  h (.literal l) (List.mem_cons_of_mem _ (List.mem_map_of_mem hl))

namespace Statement

/-- The four records differ in the key of the operand alone. -/
theorem ofRecord?_rearranged {s : Statement} (hspan : s.span.Fits) (hcat : s.catalog.span.Fits)
    {key : String} (hkey : key ≠ "catalog_name" ∧ key ≠ "span") {operand : Json}
    {action? : Json → Option Action}
    (ha : ∀ j : Json, j.Rearranges operand → action? j = some s.action) {j : Json}
    (h : j.Rearranges (.object [("catalog_name", s.catalog.toJson), (key, operand),
      ("span", s.span.toJson)])) : ofRecord? key action? j = some s := by
  obtain ⟨c, o, p, hc, ho, hp, hr⟩ := h.triple
  have hrec : (Json.object [("catalog_name", c), (key, o), ("span", p)]).record
      ["span", "catalog_name", key] = some [p, c, o] := by
    simp [Json.record, Json.field, Json.valuesOf, hkey.1, hkey.2, hkey.1.symm, hkey.2.symm]
  simp [ofRecord?, hr, hrec, Span.ofJson?_rearranged hspan hp, Name.ofJson?_rearranged hcat hc,
    ha o ho]

theorem ofJson?_rearranged {s : Statement} (hs : s.Fits) {j : Json} (h : j.Rearranges s.toJson) :
    ofJson? j = some s := by
  obtain ⟨hspan, hcat, hnodes⟩ := fits_iff.1 hs
  obtain ⟨span, catalog, action⟩ := s
  cases action with
  | set settings =>
    obtain ⟨c, hc, hj⟩ := h.variant
    simp only [ofJson?, hj]
    refine ofRecord?_rearranged hspan hcat (by decide) (fun k hk => ?_) hc
    rw [Listing.ofJson?_rearranged (hnodes _ (List.mem_cons_self ..)) _ hk]
    · rfl
    · intro a ha i hi
      obtain ⟨hs, hk, hv⟩ := Setting.fits_of_nodes hnodes ha
      exact Setting.ofJson?_rearranged hs hk hv hi
  | reset keys =>
    obtain ⟨c, hc, hj⟩ := h.variant
    simp only [ofJson?, hj]
    refine ofRecord?_rearranged hspan hcat (by decide) (fun k hk => ?_) hc
    rw [Listing.ofJson?_rearranged (hnodes _ (List.mem_cons_self ..)) _ hk]
    · rfl
    · exact fun a ha i hi => Literal.ofJson?_rearranged (Literal.fits_of_nodes hnodes ha) hi
  | rename newName =>
    obtain ⟨c, hc, hj⟩ := h.variant
    simp only [ofJson?, hj]
    refine ofRecord?_rearranged hspan hcat (by decide) (fun k hk => ?_) hc
    rw [Name.ofJson?_rearranged (hnodes _ (List.mem_cons_self ..)) hk]
    rfl
  | comment text =>
    obtain ⟨c, hc, hj⟩ := h.variant
    simp only [ofJson?, hj]
    refine ofRecord?_rearranged hspan hcat (by decide) (fun k hk => ?_) hc
    rw [Literal.ofJson?_rearranged (hnodes _ (List.mem_cons_self ..)) hk]
    rfl

end Statement

/-! ## Legible nodes -/

theorem Location.legible_toJson {l : Location} (hl : l.Fits) : l.toJson.Legible := by
  apply Json.Legible.object
  simp [Json.legible_natCast hl.line, Json.legible_natCast hl.column,
    Json.legible_natCast hl.offset]

theorem Span.legible_toJson {s : Span} (hs : s.Fits) : s.toJson.Legible := by
  apply Json.Legible.object
  simp [Location.legible_toJson hs.start, Location.legible_toJson hs.finish]

theorem Name.legible_toJson {n : Name} (hn : n.span.Fits) : n.toJson.Legible := by
  apply Json.Legible.object
  simp [Json.legible_ofStrings, Span.legible_toJson hn]

theorem LiteralValue.legible_toJson (v : LiteralValue) : v.toJson.Legible := by
  cases v with
  | text value => exact .object (List.forall_mem_singleton.2 (.string value))
  | integer value => exact .object (List.forall_mem_singleton.2 (Json.legible_toInt value))
  | decimal digits => exact .object (List.forall_mem_singleton.2 (.string digits))
  | boolean value => exact .object (List.forall_mem_singleton.2 (.bool value))
  | null => exact .string "Null"

theorem Literal.legible_toJson {l : Literal} (hl : l.span.Fits) : l.toJson.Legible := by
  apply Json.Legible.object
  simp [LiteralValue.legible_toJson, Span.legible_toJson hl]

theorem Setting.legible_toJson {s : Setting} (hs : s.span.Fits) (hk : s.key.span.Fits)
    (hv : s.value.span.Fits) : s.toJson.Legible := by
  apply Json.Legible.object
  simp [Literal.legible_toJson hk, Literal.legible_toJson hv, Span.legible_toJson hs]

theorem Listing.legible_toJson {α : Type} {write : α → Json} {l : Listing α} (hl : l.span.Fits)
    (hi : ∀ a ∈ l.items, (write a).Legible) : (l.toJson write).Legible := by
  have items : (Json.array (l.items.map write)).Legible := .array (List.forall_mem_map.2 hi)
  apply Json.Legible.object
  simp [items, Span.legible_toJson hl]

theorem Statement.legible_toJson {s : Statement} (hs : s.Fits) : s.toJson.Legible := by
  obtain ⟨hspan, hcat, hnodes⟩ := fits_iff.1 hs
  have node : ∀ {kind key : String} {operand : Json}, operand.Legible →
      (Json.object [(kind, .object [("catalog_name", s.catalog.toJson), (key, operand),
        ("span", s.span.toJson)])]).Legible := by
    intro kind key operand ho
    refine .object (List.forall_mem_singleton.2 (.object ?_))
    simp [ho, Name.legible_toJson hcat, Span.legible_toJson hspan]
  obtain ⟨span, catalog, action⟩ := s
  cases action with
  | set settings =>
    refine node (Listing.legible_toJson (hnodes _ (List.mem_cons_self ..)) fun a ha => ?_)
    obtain ⟨hs, hk, hv⟩ := Setting.fits_of_nodes hnodes ha
    exact Setting.legible_toJson hs hk hv
  | reset keys =>
    refine node (Listing.legible_toJson (hnodes _ (List.mem_cons_self ..)) fun a ha => ?_)
    exact Literal.legible_toJson (Literal.fits_of_nodes hnodes ha)
  | rename newName => exact node (Name.legible_toJson (hnodes _ (List.mem_cons_self ..)))
  | comment text => exact node (Literal.legible_toJson (hnodes _ (List.mem_cons_self ..)))

/-- **Statements round-trip through JSON.** A statement whose places fit 64 bits is read back from
its JSON with every span, from one line and over several, and is written alike again; and so it is
from every text that differs in the order of fields alone. -/
theorem statement_json_roundTrip {s : Statement} (hs : s.Fits) :
    (Json.parse? s.toJson.compact).bind Statement.ofJson? = some s ∧
    (Json.parse? s.toJson.pretty).bind Statement.ofJson? = some s ∧
    ((Json.parse? s.toJson.compact).bind Statement.ofJson?).map Statement.toJson = some s.toJson ∧
    ∀ j : Json, j.Rearranges s.toJson →
      Json.parse? j.compact = some j ∧ Json.parse? j.pretty = some j ∧
      Statement.ofJson? j = some s := by
  have read : ∀ j : Json, j.Rearranges s.toJson →
      Json.parse? j.compact = some j ∧ Json.parse? j.pretty = some j ∧
      Statement.ofJson? j = some s := fun j hj =>
    have legible := (Statement.legible_toJson hs).of_rearranges hj
    ⟨Json.parse?_compact legible, Json.parse?_pretty legible, Statement.ofJson?_rearranged hs hj⟩
  obtain ⟨compact, pretty, tree⟩ := read _ (.refl _)
  refine ⟨?_, ?_, ?_, read⟩
  · rw [compact, Option.bind_some, tree]
  · rw [pretty, Option.bind_some, tree]
  · rw [compact, Option.bind_some, tree, Option.map_some]

/-- The last place that fits. -/
def Location.last : Location := ⟨UInt64.size - 1, UInt64.size - 1, UInt64.size - 1⟩

theorem Location.fits_last : Location.last.Fits := ⟨by decide, by decide, by decide⟩

/-- A statement of extremes: no parts, characters that are escaped, the least integer. -/
def Statement.extreme : Statement :=
  let span : Span := ⟨.last, .last⟩
  ⟨span, ⟨[], span⟩,
    .set ⟨[⟨⟨.text "\x00\n\"\\", span⟩, ⟨.integer Int64.minValue, span⟩, span⟩], span⟩⟩

theorem statement_json_roundTrip_extreme : Statement.extreme.Fits ∧
    (Json.parse? Statement.extreme.toJson.compact).bind Statement.ofJson? =
      some Statement.extreme := by
  have last : (⟨.last, .last⟩ : Span).Fits := ⟨Location.fits_last, Location.fits_last⟩
  have fits : Statement.extreme.Fits := by
    refine Statement.fits_iff.2 ⟨last, last, ?_⟩
    simp [Statement.extreme, Action.nodes, Node.span, last]
  exact ⟨fits, (statement_json_roundTrip fits).1⟩

end AlterCatalog
