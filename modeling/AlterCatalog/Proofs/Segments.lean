import AlterCatalog.Proofs.Locality
import AlterCatalog.Proofs.Script
import Mathlib.Data.List.Forall2

/-!
# A script is the list of its segments

Cut the tokens of a text at every semicolon. Each segment is read or refused by its own tokens and
the stop after them, since no reader looks past a stop. So a script is read segment by segment: the
empty ones do not count, the others are one statement each, and the first of them that is none gives
the error.
-/

namespace AlterCatalog.Parser

open Grammar

/-- The tokens between two stops, and the stop after them. -/
structure Segment where
  tokens : Tokens
  close : Placed

def segments : Tokens → List Segment
  | [] => []
  | t :: ts =>
    if isStop t then ⟨[], t⟩ :: segments ts
    else
      match segments ts with
      | [] => []
      | g :: gs => ⟨t :: g.tokens, g.close⟩ :: gs

def filled (gs : List Segment) : List Segment := gs.filter fun g => !g.tokens.isEmpty

/-- The segments that are not empty. -/
def phrases (ts : Tokens) : List Segment := filled (segments ts)

namespace Segment

/-- Reads a segment on its own. -/
def read (g : Segment) : Except ParseError Statement := single (g.tokens ++ [g.close])

/-- Whether a segment is one statement of the grammar. -/
def IsStatement (g : Segment) : Prop := ∃ s, StatementOf (g.tokens.map Placed.token) s

/-- What a segment looks like: stops stand at its end only. -/
structure Sealed (g : Segment) : Prop where
  tokens : ∀ t ∈ g.tokens, isStop t = false
  close : isStop g.close = true

end Segment

/-- The segments from which tokens are put together; the last one ends the input. -/
inductive Cut : Tokens → List Segment → Prop
  | last {g : Segment} : g.Sealed → g.close.token = .endOfInput → Cut (g.tokens ++ [g.close]) [g]
  | next {g : Segment} {ts : Tokens} {gs : List Segment} : g.Sealed → isSemicolon g.close = true →
      Cut ts gs → Cut (g.tokens ++ g.close :: ts) (g :: gs)

theorem isStop_iff {t : Placed} : isStop t = true ↔ isSemicolon t = true ∨ t.token = .endOfInput := by
  simp [isStop]

/-- One more token before the first stop belongs to the first segment. -/
theorem Cut.cons {t : Placed} (ht : isStop t = false) {ts : Tokens} {gs : List Segment}
    (h : Cut ts gs) : ∃ g gs', gs = g :: gs' ∧ Cut (t :: ts) (⟨t :: g.tokens, g.close⟩ :: gs') := by
  have more : ∀ {g : Segment}, g.Sealed → (⟨t :: g.tokens, g.close⟩ : Segment).Sealed :=
    fun hg => ⟨List.forall_mem_cons.2 ⟨ht, hg.tokens⟩, hg.close⟩
  cases h with
  | last hg he => exact ⟨_, _, rfl, .last (more hg) he⟩
  | next hg hc hrest => exact ⟨_, _, rfl, .next (more hg) hc hrest⟩

theorem cut_segments {ts : Tokens} (h : Terminated ts) : Cut ts (segments ts) := by
  have alone : ∀ {t : Placed}, isStop t = true → (⟨[], t⟩ : Segment).Sealed :=
    fun ht => ⟨by simp, ht⟩
  induction h with
  | @stop t he =>
    have ht : isStop t = true := isStop_iff.2 (.inr he)
    simp only [segments, ht, if_true]
    exact .last (alone ht) he
  | @more t ts hne _ ih =>
    by_cases ht : isStop t = true
    · have hc : isSemicolon t = true := (isStop_iff.1 ht).resolve_right hne
      simp only [segments, ht, if_true]
      exact .next (alone ht) hc ih
    · obtain ⟨g, gs, hgs, hcut⟩ := ih.cons (Bool.eq_false_iff.2 ht)
      simp only [segments, ht, hgs]
      exact hcut

theorem Cut.flatMap {ts : Tokens} {gs : List Segment} (h : Cut ts gs) :
    gs.flatMap (fun g => g.tokens ++ [g.close]) = ts := by
  induction h with
  | last => simp
  | next _ _ _ ih => simp [ih]

theorem Cut.sealed {ts : Tokens} {gs : List Segment} (h : Cut ts gs) : ∀ g ∈ gs, g.Sealed := by
  induction h with
  | last hg => simpa using hg
  | next hg _ _ ih => exact List.forall_mem_cons.2 ⟨hg, ih⟩

theorem Cut.map_tokens {ts : Tokens} {gs : List Segment} (h : Cut ts gs) :
    gs.map Segment.tokens = ts.dropLast.splitOnP isSemicolon := by
  have plain : ∀ {g : Segment}, g.Sealed → ∀ t ∈ g.tokens, isSemicolon t = false := by
    intro g hg t ht
    have hs := hg.tokens t ht
    rw [isStop, Bool.or_eq_false_iff] at hs
    exact hs.1
  induction h with
  | @last g hg he => rw [List.dropLast_concat, List.splitOnP_eq_singleton (plain hg)]; rfl
  | @next g ts gs hg hc h ih =>
    have hne : ts ≠ [] := by cases h <;> simp
    rw [List.dropLast_append_of_ne_nil (by simp), List.dropLast_cons_of_ne_nil hne,
      List.splitOnP_append_cons_of_forall_mem (plain hg) _ hc, List.map_cons, ih]

/-! ## Reading one segment -/

theorem not_isStop_iff {t : Placed} :
    isStop t = false ↔ isSemicolon t = false ∧ t.token ≠ .endOfInput := by
  simp [isStop]

section
variable {t : Placed} (ht : isStop t = false) {ts rest : Tokens}
include ht

theorem script_of_ok {s : Statement} (h : statement (t :: ts) = .ok (s, rest)) :
    script (t :: ts) = if rest.head?.all isStop then (s :: (script rest).1, (script rest).2)
      else ([], some (.atHead rest)) := by
  obtain ⟨hs, he⟩ := not_isStop_iff.1 ht
  have hr : (atEnd rest || rest.head?.any isSemicolon) = rest.head?.all isStop := by
    cases rest with
    | nil => rfl
    | cons u rest => exact Bool.or_comm _ _
  rw [script_cons_of_ok hs he h, hr]

theorem afterSemicolon_of_not_isStop : afterSemicolon (t :: ts) = t :: ts := by
  simp [afterSemicolon, (not_isStop_iff.1 ht).1]

end

theorem atEnd_afterSemicolon {c : Placed} (h : isStop c = true) :
    atEnd (afterSemicolon [c]) = true := by
  rcases token_of_isStop h with h | h <;> simp [afterSemicolon, isSemicolon, atEnd, h]

/-- A failure inside a segment is told by one token of it or by its stop. -/
theorem atHead_of_suffix {us vs : Tokens} (h : vs <:+ us) (c : Placed) :
    ∃ t ∈ us ++ [c], ∀ later, ParseError.atHead (vs ++ c :: later) = .atHead [t] := by
  cases vs with
  | nil => exact ⟨c, by simp, fun _ => rfl⟩
  | cons t vs => exact ⟨t, List.mem_append_left _ (h.subset (by simp)), fun _ => rfl⟩

/-- A segment is read whole or refused at one of its tokens, whatever comes after it. -/
theorem segment_cases {f c : Placed} {us : Tokens} (hn : ∀ t ∈ f :: us, isStop t = false)
    (hc : isStop c = true) :
    (∃ s, Segment.read ⟨f :: us, c⟩ = .ok s ∧
      StatementOf ((f :: us).map Placed.token) s.bare ∧ ∀ later, script (f :: us ++ c :: later) =
        (s :: (script (c :: later)).1, (script (c :: later)).2)) ∨
    ∃ t ∈ f :: us ++ [c], Segment.read ⟨f :: us, c⟩ = .error (.atHead [t]) ∧
      ∀ later, script (f :: us ++ c :: later) = ([], some (.atHead [t])) := by
  have hf : isStop f = false := hn f (by simp)
  obtain ⟨hsemi, hend⟩ := not_isStop_iff.1 hf
  obtain ⟨r, vs, hs, hr⟩ := local_statement (f :: us) hc
  obtain ⟨t, ht, hat⟩ := atHead_of_suffix hs c
  cases r with
  | none =>
    refine .inr ⟨t, ht, ?_, fun later => ?_⟩
    · rw [← hat []]
      exact single_cons_of_error hend (hr [])
    · rw [← hat later]
      exact script_cons_of_error hsemi hend (hr later)
  | some s =>
    have hsingle : Segment.read ⟨f :: us, c⟩ = _ := single_cons_of_ok hend (hr [])
    have hscript := fun later => script_of_ok hf (hr later)
    cases vs with
    | nil =>
      refine .inl ⟨s, ?_, ?_, fun later => ?_⟩
      · rw [hsingle]
        exact if_pos (atEnd_afterSemicolon hc)
      · obtain ⟨ws, hws, hst, -⟩ := statement_sound (hr [])
        rw [List.append_cancel_right hws]
        exact hst
      · exact (hscript later).trans (if_pos hc)
    | cons u vs =>
      -- The statement ends inside the segment, so the segment is more than a statement.
      have hu : isStop u = false := hn u (hs.subset (by simp))
      refine .inr ⟨t, ht, ?_, fun later => ?_⟩
      · have he : ¬atEnd (u :: vs ++ [c]) = true := by simp [atEnd, (not_isStop_iff.1 hu).2]
        rw [hsingle, ← hat [], List.cons_append, afterSemicolon_of_not_isStop hu]
        exact if_neg he
      · rw [← hat later]
        refine (hscript later).trans (if_neg ?_)
        simp [hu]

namespace Segment

theorem Sealed.read_complete {g : Segment} (hg : g.Sealed) {s : Statement}
    (h : StatementOf (g.tokens.map Placed.token) s) : ∃ s', s'.bare = s ∧ g.read = .ok s' := by
  have hd : ∀ t ∈ [g.close].head?, t.token ≠ .symbol .dot := by
    rintro t ⟨⟩
    exact symbol_ne_of_isStop hg.close (by simp)
  obtain ⟨s', rfl, hs⟩ := statement_complete [g.close] hd h
  refine ⟨s', rfl, ?_⟩
  rw [read, single_of_statement h hs, if_pos (atEnd_afterSemicolon hg.close)]

theorem Sealed.read_sound {g : Segment} (hg : g.Sealed) (hne : g.tokens ≠ []) {s : Statement}
    (h : g.read = .ok s) : StatementOf (g.tokens.map Placed.token) s.bare := by
  obtain ⟨us, c⟩ := g
  obtain ⟨f, us, rfl⟩ := List.exists_cons_of_ne_nil hne
  rcases segment_cases hg.tokens hg.close with ⟨s', hs, hst, -⟩ | ⟨t, -, he, -⟩
  · rw [hs] at h
    cases h
    exact hst
  · rw [he] at h
    cases h

theorem Sealed.isStatement_iff {g : Segment} (hg : g.Sealed) (hne : g.tokens ≠ []) :
    g.IsStatement ↔ ∃ s, g.read = .ok s := by
  constructor
  · rintro ⟨s, hs⟩
    obtain ⟨s', -, h⟩ := hg.read_complete hs
    exact ⟨s', h⟩
  · rintro ⟨s, hs⟩
    exact ⟨_, hg.read_sound hne hs⟩

theorem Sealed.read_refused {g : Segment} (hg : g.Sealed) (hne : g.tokens ≠ [])
    (h : ¬g.IsStatement) : ∃ t ∈ g.tokens ++ [g.close], g.read = .error (.atHead [t]) := by
  obtain ⟨us, c⟩ := g
  obtain ⟨f, us, rfl⟩ := List.exists_cons_of_ne_nil hne
  rcases segment_cases hg.tokens hg.close with ⟨s, -, hst, -⟩ | ⟨t, ht, he, -⟩
  · exact absurd ⟨_, hst⟩ h
  · exact ⟨t, ht, he⟩

theorem Sealed.read_error {g : Segment} (hg : g.Sealed) (hne : g.tokens ≠ [])
    {e : ParseError} (h : g.read = .error e) : ∃ t ∈ g.tokens ++ [g.close], e = .atHead [t] := by
  have hn : ¬g.IsStatement := by
    intro hs
    obtain ⟨s, hs⟩ := (hg.isStatement_iff hne).1 hs
    rw [hs] at h
    cases h
  obtain ⟨t, ht, he⟩ := hg.read_refused hne hn
  exact ⟨t, ht, Except.error.inj (h.symm.trans he)⟩

end Segment

/-! ## Reading all segments -/

/-- The statements of the segments before the first that is refused, and its error. -/
def readAll : List Segment → List Statement × Option ParseError
  | [] => ([], none)
  | g :: gs =>
    match g.read with
    | .error e => ([], some e)
    | .ok s => (s :: (readAll gs).1, (readAll gs).2)

theorem script_segment {g : Segment} (hg : g.Sealed) {later : Tokens} {gs : List Segment}
    (h : script (g.close :: later) = readAll (filled gs)) :
    script (g.tokens ++ g.close :: later) = readAll (filled (g :: gs)) := by
  obtain ⟨us, c⟩ := g
  cases us with
  | nil => exact h
  | cons f us =>
    have hf : filled (⟨f :: us, c⟩ :: gs) = ⟨f :: us, c⟩ :: filled gs := rfl
    rw [hf, readAll]
    rcases segment_cases hg.tokens hg.close with ⟨s, hs, -, hscript⟩ | ⟨t, -, he, hscript⟩
    · simp only [hs, hscript, h]
    · simp only [he, hscript]

theorem script_of_cut {ts : Tokens} {gs : List Segment} (h : Cut ts gs) :
    script ts = readAll (filled gs) := by
  induction h with
  | last hg he => exact script_segment hg (script_of_end he)
  | next hg hc _ ih =>
    apply script_segment hg
    rw [script_semicolon (by simpa [isSemicolon] using hc), ih]

theorem readAll_eq_ok_iff : ∀ {gs : List Segment} {ss : List Statement},
    readAll gs = (ss, none) ↔ List.Forall₂ (fun g s => g.read = .ok s) gs ss
  | [], ss => by simp [readAll, eq_comm]
  | g :: gs, ss => by
    rw [List.forall₂_cons_left_iff, readAll]
    cases hg : g.read with
    | error e => simp
    | ok s =>
      constructor
      · intro h
        rw [Prod.mk.injEq] at h
        exact ⟨s, _, rfl, readAll_eq_ok_iff.1 (Prod.ext rfl h.2), h.1.symm⟩
      · rintro ⟨s', ss', hs, hss, rfl⟩
        cases hs
        rw [readAll_eq_ok_iff.2 hss]

theorem exists_forall₂_iff {α β : Type} {r : α → β → Prop} {as : List α} :
    (∃ bs, List.Forall₂ r as bs) ↔ ∀ a ∈ as, ∃ b, r a b := by
  induction as with
  | nil => simp
  | cons a as ih =>
    rw [List.forall_mem_cons, ← ih]
    constructor
    · rintro ⟨_, _ | ⟨hb, hbs⟩⟩
      exact ⟨⟨_, hb⟩, _, hbs⟩
    · rintro ⟨⟨b, hb⟩, bs, hbs⟩
      exact ⟨b :: bs, .cons hb hbs⟩

/-- The first segment that is refused gives the error. -/
theorem readAll_refused {g : Segment} {e : ParseError} (he : g.read = .error e)
    (after : List Segment) : ∀ {before : List Segment}, (∀ b ∈ before, ∃ s, b.read = .ok s) →
      (readAll (before ++ g :: after)).2 = some e
  | [], _ => by rw [List.nil_append, readAll, he]
  | b :: before, h => by
    obtain ⟨⟨s, hs⟩, hb⟩ := List.forall_mem_cons.1 h
    rw [List.cons_append, readAll, hs]
    exact readAll_refused he after hb

theorem script_phrases {ts : Tokens} (h : Terminated ts) : script ts = readAll (phrases ts) :=
  script_of_cut (cut_segments h)

theorem sealed_of_mem_phrases {ts : Tokens} (h : Terminated ts) {g : Segment}
    (hg : g ∈ phrases ts) : g.Sealed ∧ g.tokens ≠ [] := by
  obtain ⟨hg, hne⟩ := List.mem_filter.1 hg
  exact ⟨(cut_segments h).sealed g hg, by simpa using hne⟩

theorem readAll_error : ∀ {gs : List Segment} {e : ParseError}, (readAll gs).2 = some e →
    ∃ g ∈ gs, g.read = .error e
  | g :: gs, e, h => by
    rw [readAll] at h
    split at h
    · next he => exact ⟨g, by simp, by rw [he, Option.some.inj h]⟩
    · obtain ⟨g', hg, he⟩ := readAll_error h
      exact ⟨g', List.mem_cons_of_mem g hg, he⟩

theorem script_refused {ts : Tokens} {e : ParseError} (ht : Terminated ts)
    (h : (script ts).2 = some e) : ∃ t ∈ ts, e = .atHead [t] := by
  rw [script_phrases ht] at h
  obtain ⟨g, hg, he⟩ := readAll_error h
  obtain ⟨hsealed, hne⟩ := sealed_of_mem_phrases ht hg
  obtain ⟨t, hmem, rfl⟩ := hsealed.read_error hne he
  refine ⟨t, ?_, rfl⟩
  rw [← (cut_segments ht).flatMap]
  exact List.mem_flatMap.2 ⟨g, (List.mem_filter.1 hg).1, hmem⟩

end AlterCatalog.Parser

namespace AlterCatalog

open Grammar

theorem parseScript_of_error {input : String} {ts : List Placed} {e : ParseError}
    (h : tokenize input = .ok ts) (hs : (Parser.script ts).2 = some e) :
    parseScript input = .error e := by
  rw [parseScript_eq_verdict h]
  rcases hr : Parser.script ts with ⟨ss, stop⟩
  rw [hr] at hs
  subst hs
  rfl

theorem parseScript_of_empty {input : String} {ts : List Placed} (h : tokenize input = .ok ts)
    (hs : Parser.script ts = ([], none)) : parseScript input = .error .emptyInput := by
  rw [parseScript_eq_verdict h, hs]
  rfl

section
variable {input : String} {ts : List Placed} (h : tokenize input = .ok ts)
include h

theorem parseScript_eq_ok_iff_phrases {ss : List Statement} : parseScript input = .ok ss ↔
    ss ≠ [] ∧ List.Forall₂ (fun g s => g.read = .ok s) (Parser.phrases ts) ss := by
  rw [parseScript_eq_ok_iff, ← Parser.readAll_eq_ok_iff,
    ← Parser.script_phrases (Parser.terminated_of_tokenize h)]
  simp [h]

theorem exists_parseScript_iff : (∃ ss, parseScript input = .ok ss) ↔
    Parser.phrases ts ≠ [] ∧ ∀ g ∈ Parser.phrases ts, ∃ s, g.read = .ok s := by
  simp only [parseScript_eq_ok_iff_phrases h, ← Parser.exists_forall₂_iff]
  constructor
  · rintro ⟨ss, hne, hss⟩
    refine ⟨fun hnil => hne ?_, ss, hss⟩
    rw [hnil] at hss
    exact List.forall₂_nil_left_iff.1 hss
  · rintro ⟨hne, ss, hss⟩
    refine ⟨ss, fun hnil => hne ?_, hss⟩
    rw [hnil] at hss
    exact List.forall₂_nil_right_iff.1 hss

theorem forall₂_of_parseScript {ss : List Statement} (hss : parseScript input = .ok ss) :
    List.Forall₂ (fun g s => g.read = .ok s ∧ StatementOf (g.tokens.map Placed.token) s.bare)
      (Parser.phrases ts) ss := by
  have hsealed : ∀ g ∈ Parser.phrases ts, g.Sealed ∧ g.tokens ≠ [] :=
    fun g => Parser.sealed_of_mem_phrases (Parser.terminated_of_tokenize h)
  have hread := ((parseScript_eq_ok_iff_phrases h).1 hss).2
  have hall := (List.forall₂_and_left _ _).2 ⟨hsealed, hread⟩
  exact hall.imp fun g s ⟨⟨hg, hne⟩, hs⟩ => ⟨hs, hg.read_sound hne hs⟩

theorem parseScript_of_refused {before after : List Parser.Segment} {g : Parser.Segment}
    (hg : Parser.phrases ts = before ++ g :: after) (hb : ∀ b ∈ before, ∃ s, b.read = .ok s)
    {e : ParseError} (he : g.read = .error e) : parseScript input = .error e := by
  apply parseScript_of_error h
  rw [Parser.script_phrases (Parser.terminated_of_tokenize h), hg]
  exact Parser.readAll_refused he after hb

end

/-- **A script is the list of its segments.** It reads when some segment is not empty and all of
these are statements; otherwise the first that is none gives the error, at one of its tokens or at
the stop after it. An error of the tokens comes before all others. -/
theorem parseScript_segments (input : String) :
    match tokenize input with
    | .error e => parseScript input = .error (.lexical e)
    | .ok ts =>
      (Parser.segments ts).map Parser.Segment.tokens = ts.dropLast.splitOnP Parser.isSemicolon ∧
      (Parser.segments ts).flatMap (fun g => g.tokens ++ [g.close]) = ts ∧
      ((∃ ss, parseScript input = .ok ss) ↔
        Parser.phrases ts ≠ [] ∧ ∀ g ∈ Parser.phrases ts, g.IsStatement) ∧
      (∀ ss, parseScript input = .ok ss → List.Forall₂ (fun g s => g.read = .ok s ∧
        StatementOf (g.tokens.map Placed.token) s.bare) (Parser.phrases ts) ss) ∧
      (Parser.phrases ts = [] → parseScript input = .error .emptyInput) ∧
      ∀ before g after, Parser.phrases ts = before ++ g :: after →
        (∀ b ∈ before, b.IsStatement) → ¬g.IsStatement →
          ∃ t ∈ g.tokens ++ [g.close], g.read = .error (.atHead [t]) ∧
            parseScript input = .error (.atHead [t]) := by
  cases h : tokenize input with
  | error e => simp [parseScript, readScript, h]
  | ok ts =>
    have hterm := Parser.terminated_of_tokenize h
    have hstatement : ∀ g ∈ Parser.phrases ts, g.IsStatement ↔ ∃ s, g.read = .ok s := by
      intro g hg
      obtain ⟨hsealed, hne⟩ := Parser.sealed_of_mem_phrases hterm hg
      exact hsealed.isStatement_iff hne
    have hcut := Parser.cut_segments hterm
    refine ⟨hcut.map_tokens, hcut.flatMap, ?_, fun ss => forall₂_of_parseScript h, ?_, ?_⟩
    · rw [exists_parseScript_iff h]
      exact and_congr_right fun _ => forall₂_congr fun g hg => (hstatement g hg).symm
    · intro hnil
      apply parseScript_of_empty h
      rw [Parser.script_phrases hterm, hnil]
      rfl
    · intro before g after hg hb hn
      have hmem : ∀ b ∈ before, b ∈ Parser.phrases ts := fun b hb => by simp [hg, hb]
      obtain ⟨hsealed, hne⟩ := Parser.sealed_of_mem_phrases hterm (g := g) (by simp [hg])
      obtain ⟨t, ht, he⟩ := hsealed.read_refused hne hn
      exact ⟨t, ht, he, parseScript_of_refused h hg (fun b hb' =>
        (hstatement b (hmem b hb')).1 (hb b hb')) he⟩

end AlterCatalog
