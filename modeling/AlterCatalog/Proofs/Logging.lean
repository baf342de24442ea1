import AlterCatalog.Log
import AlterCatalog.Proofs.Findings
import AlterCatalog.Proofs.Segments

/-!
# Reading and validating at a level

Reading and validating log on the way: each statement as soon as it is read, with its outline where
that would be seen, and each key as soon as it stands again. Said with the level at hand and a log
that grows, one step after the other, this comes to the same results at every level, and the log is
what a reader at the level sees of all records.
-/

namespace AlterCatalog

namespace Record

variable (level : Level)

/-- The log with one more record, where the level lets it through. -/
def report (log : List Record) (r : Record) : List Record :=
  if r.level.rank ≤ level.rank then log ++ [r] else log

theorem report_eq (log : List Record) (r : Record) :
    report level log r = log ++ upTo level [r] := by
  unfold report upTo
  by_cases h : r.level.rank ≤ level.rank <;> simp [h]

theorem upTo_append (rs rs' : List Record) :
    upTo level (rs ++ rs') = upTo level rs ++ upTo level rs' := List.filter_append ..

theorem foldl_report : ∀ (rs log : List Record),
    rs.foldl (report level) log = log ++ upTo level rs
  | [], log => (List.append_nil log).symm
  | r :: rs, log => by
    rw [List.foldl_cons, foldl_report rs, report_eq, List.append_assoc, ← upTo_append]
    rfl

end Record

namespace Statement

/-- Logs the outline; below debug it is not even drawn. -/
def logOutline (level : Level) (log : List Record) (s : Statement) : List Record :=
  if Level.debug.rank ≤ level.rank then s.outlineRecords.foldl (Record.report level) log else log

theorem level_of_mem_outlineRecords {s : Statement} : ∀ r ∈ s.outlineRecords, r.level = .debug := by
  intro r hr
  simp only [outlineRecords, List.cons_append, List.mem_cons, List.mem_append, List.mem_map,
    List.not_mem_nil, or_false] at hr
  obtain rfl | ⟨_, _, rfl⟩ | rfl := hr <;> rfl

theorem logOutline_eq (level : Level) (log : List Record) (s : Statement) :
    s.logOutline level log = log ++ Record.upTo level s.outlineRecords := by
  unfold logOutline
  by_cases h : Level.debug.rank ≤ level.rank
  · rw [if_pos h, Record.foldl_report]
  · have hn : Record.upTo level s.outlineRecords = [] := by
      refine List.filter_eq_nil_iff.2 fun r hr => ?_
      simpa [level_of_mem_outlineRecords r hr] using h
    rw [if_neg h, hn, List.append_nil]

end Statement

/-! ## Reading -/

namespace Parser

/-- Reads on after the statements `done`. -/
def readOn (level : Level) (ts : Tokens) (done : List Statement) (log : List Record) :
    Except ParseError (List Statement) × List Record :=
  if atEnd (ts.dropWhile isSemicolon) then
    (if done = [] then .error .emptyInput else .ok done, log)
  else
    match h : statement (ts.dropWhile isSemicolon) with
    | .error rest => (.error (.atHead rest), log)
    | .ok (s, rest) =>
      have : rest.length < ts.length :=
        Nat.lt_of_lt_of_le (statement_shorter h) (List.dropWhile_sublist _).length_le
      if atEnd rest || rest.head?.any isSemicolon then
        let message := "Parsed statement " ++ toString (done.length + 1) ++
          " of script: ALTER CATALOG " ++ s.kind.label
        readOn level rest (done ++ [s])
          (s.logOutline level (Record.report level log (.parsing message)))
      else (.error (.atHead rest), log)
termination_by ts.length

/-- The records of statements that stand from a place on. -/
def recordsFrom (place : Nat) (ss : List Statement) : List Record :=
  (ss.zipIdx place).flatMap fun (s, place) => s.scriptRecords place

theorem readOn_eq (level : Level) (ts : Tokens) (done : List Statement) (log : List Record) :
    readOn level ts done log = (verdict (done ++ (script ts).1, (script ts).2),
      log ++ Record.upTo level (recordsFrom (done.length + 1) (script ts).1)) := by
  fun_induction readOn level ts done log with
  | case1 ts done log h =>
    rw [script_eq, if_pos h]
    cases done <;> simp [verdict, recordsFrom, Record.upTo]
  | case2 ts done log h rest hs =>
    rw [script_eq, if_neg h, hs]
    simp [verdict, recordsFrom, Record.upTo]
  | case3 ts done log h s rest hs _ hr message ih =>
    -- One more statement is done, so the records after it count from the next place.
    have hscript : script ts = (s :: (script rest).1, (script rest).2) := by
      rw [script_eq, if_neg h, hs]
      exact if_pos hr
    have hrecords : recordsFrom (done.length + 1) (s :: (script rest).1) = [.parsing message] ++
        (s.outlineRecords ++ recordsFrom (done.length + 2) (script rest).1) := by
      simp [recordsFrom, Statement.scriptRecords, message]
    rw [ih, hscript, hrecords, Record.upTo_append, Record.upTo_append, Statement.logOutline_eq,
      Record.report_eq]
    simp only [List.append_assoc, List.cons_append, List.nil_append, List.length_append,
      List.length_singleton]
  | case4 ts done log h s rest hs _ hr =>
    rw [script_eq, if_neg h, hs]
    simp [verdict, recordsFrom, Record.upTo, hr]

end Parser

def parseAt (level : Level) (input : String) : Except ParseError (List Statement) × List Record :=
  match tokenize input with
  | .error e => (.error (.lexical e), [])
  | .ok ts => Parser.readOn level ts [] []

theorem parseAt_eq (level : Level) (input : String) :
    parseAt level input = (parseScript input, Record.upTo level (parseScriptRecords input)) := by
  unfold parseAt
  cases h : tokenize input with
  | error e => simp [parseScript, parseScriptRecords, readScript, h, Record.upTo]
  | ok ts =>
    simp only [Parser.readOn_eq, parseScript_eq_verdict h, parseScriptRecords, readScript_fst h]
    rfl

/-! ## Validating -/

/-- What validating has found and logged so far. -/
structure Findings where
  seen : List String := []
  faults : List Fault := []
  warnings : List Warning := []
  log : List Record := []

namespace Findings

variable {α : Type} (level : Level) (faultsOf : α → List Fault) (key? : α → Option String)
  (warning : String → α → Warning)

def warn (c : Findings) (w : Warning) : Findings :=
  { c with
    warnings := c.warnings ++ [w]
    log := Record.report level c.log (.validating w.describe) }

/-- Validates the next entry of a list: its faults, and its key against those seen. -/
def entry (c : Findings) (a : α) : Findings :=
  let c := { c with faults := c.faults ++ faultsOf a }
  match key? a with
  | none => c
  | some k => if k ∈ c.seen then c.warn level (warning k a) else { c with seen := k :: c.seen }

/-- The warnings of a list after keys that were seen. -/
def again (seen : List String) (as : List α) : List Warning :=
  (Validation.repeated key? seen as).map fun (k, a) => warning k a

/-- What a list adds to the findings before it. -/
structure Adds (as : List α) (c d : Findings) : Prop where
  faults : d.faults = c.faults ++ as.flatMap faultsOf
  warnings : d.warnings = c.warnings ++ again key? warning c.seen as
  log : d.log = c.log ++ Record.upTo level
    ((again key? warning c.seen as).map fun w => .validating w.describe)

theorem adds_foldl : ∀ (as : List α) (c : Findings), Adds level faultsOf key? warning as c
    (as.foldl (entry level faultsOf key? warning) c)
  | [], c => by constructor <;> simp [again, Validation.repeated, Record.upTo]
  | a :: as, c => by
    obtain ⟨hf, hw, hl⟩ := adds_foldl as (entry level faultsOf key? warning c a)
    cases ha : key? a with
    | none =>
      have hr : again key? warning c.seen (a :: as) = again key? warning c.seen as := by
        simp [again, Validation.repeated, ha]
      simp only [entry, ha] at hf hw hl
      constructor <;> simp [entry, ha, hf, hw, hl, hr]
    | some k =>
      -- A key is warned of and not added where it is seen, and added where it is not.
      by_cases hk : k ∈ c.seen
      · have hr : again key? warning c.seen (a :: as) =
            [warning k a] ++ again key? warning c.seen as := by
          simp [again, Validation.repeated, ha, hk]
        simp only [entry, ha, hk, if_true, warn, Record.report_eq] at hf hw hl
        constructor
        · simp [entry, ha, hk, warn, Record.report_eq, hf]
        · simp [entry, ha, hk, warn, Record.report_eq, hw, hr]
        · rw [hr, List.map_append, Record.upTo_append, ← List.append_assoc]
          simpa only [List.foldl_cons, entry, ha, hk, if_true, warn, Record.report_eq,
            List.map_singleton] using hl
      · have hr : again key? warning c.seen (a :: as) = again key? warning (k :: c.seen) as := by
          simp [again, Validation.repeated, ha, hk]
        simp only [entry, ha, hk, if_false] at hf hw hl
        constructor <;> simp [entry, ha, hk, hf, hw, hl, hr]

def ofStatement (level : Level) (s : Statement) : Findings :=
  let c : Findings := { faults := s.nodes.flatMap Validation.nameFaults }
  match s.action with
  | .set settings => settings.items.foldl (entry level Validation.settingFaults
      (fun s => Validation.key? s.key) fun key s => .setAgain key s.span) c
  | .reset keys => keys.items.foldl (entry level Validation.keyFaults Validation.key?
      fun key l => .resetAgain key l.span) c
  | .rename newName =>
    { c with faults := c.faults ++ Validation.actionFaults s.catalog (.rename newName) }
  | .comment text =>
    { c with faults := c.faults ++ Validation.actionFaults s.catalog (.comment text) }

theorem ofStatement_eq (level : Level) (s : Statement) :
    (ofStatement level s).faults = s.faults ∧ (ofStatement level s).warnings = s.warnings ∧
      (ofStatement level s).log = Record.upTo level s.warningRecords := by
  obtain ⟨span, catalog, action⟩ := s
  cases action with
  | set settings =>
    obtain ⟨hf, hw, hl⟩ := adds_foldl level Validation.settingFaults
      (fun s => Validation.key? s.key) (fun key s => .setAgain key s.span) settings.items
      { faults := Statement.nodes ⟨span, catalog, .set settings⟩ |>.flatMap Validation.nameFaults }
    exact ⟨hf, hw, hl⟩
  | reset keys =>
    obtain ⟨hf, hw, hl⟩ := adds_foldl level Validation.keyFaults Validation.key?
      (fun key l => .resetAgain key l.span) keys.items
      { faults := Statement.nodes ⟨span, catalog, .reset keys⟩ |>.flatMap Validation.nameFaults }
    exact ⟨hf, hw, hl⟩
  | rename newName => exact ⟨rfl, rfl, rfl⟩
  | comment text => exact ⟨rfl, rfl, rfl⟩

end Findings

def validateAt (level : Level) (s : Statement) :
    Except (List Fault) (List Warning) × List Record :=
  let c := Findings.ofStatement level s
  (if c.faults = [] then .ok c.warnings else .error c.faults, c.log)

theorem validateAt_eq (level : Level) (s : Statement) :
    validateAt level s = (s.validate, Record.upTo level s.warningRecords) := by
  obtain ⟨hf, hw, hl⟩ := Findings.ofStatement_eq level s
  simp only [validateAt, Statement.validate, hf, hw, hl]

/-! ## Both -/

/-- Reads a script and validates its statements. -/
def checkAt (level : Level) (input : String) :
    Except ParseError (List (Except (List Fault) (List Warning))) × List Record :=
  match parseAt level input with
  | (.error e, log) => (.error e, log)
  | (.ok ss, log) =>
    (.ok (ss.map fun s => (validateAt level s).1),
      log ++ ss.flatMap fun s => (validateAt level s).2)

/-- All records of reading a script and validating its statements. -/
def checkRecords (input : String) : List Record :=
  parseScriptRecords input ++
    ((parseScript input).toOption.getD []).flatMap Statement.warningRecords

theorem upTo_flatMap {α : Type} (level : Level) (f : α → List Record) (as : List α) :
    Record.upTo level (as.flatMap f) = as.flatMap fun a => Record.upTo level (f a) :=
  List.filter_flatMap ..

theorem checkAt_eq (level : Level) (input : String) : checkAt level input =
    ((parseScript input).map fun ss => ss.map Statement.validate,
      Record.upTo level (checkRecords input)) := by
  unfold checkAt checkRecords
  rw [parseAt_eq]
  cases parseScript input with
  | error e => simp [Except.map, Except.toOption]
  | ok ss =>
    simp only [validateAt_eq, Record.upTo_append, upTo_flatMap, Except.map, Except.toOption,
      Option.getD_some]

theorem level_of_mem_parseScriptRecords {input : String} :
    ∀ r ∈ parseScriptRecords input, r.level = .debug := by
  intro r hr
  obtain ⟨⟨s, place⟩, _, hr⟩ := List.mem_flatMap.1 hr
  obtain rfl | hr := List.mem_cons.1 hr
  · rfl
  · exact Statement.level_of_mem_outlineRecords r hr

theorem level_of_mem_warningRecords {s : Statement} : ∀ r ∈ s.warningRecords, r.level = .warn :=
  List.forall_mem_map.2 fun _ _ => rfl

theorem level_of_mem_checkRecords {input : String} :
    ∀ r ∈ checkRecords input, r.level = .debug ∨ r.level = .warn := by
  intro r hr
  rcases List.mem_append.1 hr with hr | hr
  · exact .inl (level_of_mem_parseScriptRecords r hr)
  · obtain ⟨s, _, hr⟩ := List.mem_flatMap.1 hr
    exact .inr (level_of_mem_warningRecords r hr)

theorem upTo_debug {rs : List Record} (h : ∀ r ∈ rs, r.level = .debug ∨ r.level = .warn) :
    Record.upTo .debug rs = rs := by
  refine List.filter_eq_self.2 fun r hr => ?_
  obtain hl | hl := h r hr <;> simp [hl, Level.rank]

theorem upTo_warn {rs : List Record} (h : ∀ r ∈ rs, r.level = .debug ∨ r.level = .warn) :
    Record.upTo .warn rs = rs.filter fun r => r.level = .warn := by
  refine List.filter_congr fun r hr => ?_
  obtain hl | hl := h r hr <;> simp [hl, Level.rank]

/-! ## The part that was read -/

theorem Parser.readAll_prefix : ∀ gs : List Segment, ∃ before after, gs = before ++ after ∧
    List.Forall₂ (fun g s => g.read = .ok s) before (readAll gs).1 ∧
      ∀ g ∈ after.head?, ∃ e, g.read = .error e
  | [] => ⟨[], [], rfl, .nil, nofun⟩
  | g :: gs => by
    cases hg : g.read with
    | error e =>
      refine ⟨[], g :: gs, rfl, ?_, ?_⟩
      · rw [readAll, hg]
        exact .nil
      · rintro _ ⟨⟩
        exact ⟨e, hg⟩
    | ok s =>
      obtain ⟨before, after, hgs, hread, hstop⟩ := readAll_prefix gs
      refine ⟨g :: before, after, by rw [hgs, List.cons_append], ?_, hstop⟩
      rw [readAll, hg]
      exact .cons hg hread

/-- The statements that were read are those of the phrases before the first that is none. -/
theorem phrases_of_readScript {input : String} {ts : List Placed} (h : tokenize input = .ok ts) :
    ∃ before after, Parser.phrases ts = before ++ after ∧
      List.Forall₂ (fun g s => g.read = .ok s ∧
        Grammar.StatementOf (g.tokens.map Placed.token) s.bare) before (readScript input).1 ∧
      ∀ g ∈ after.head?, ¬g.IsStatement := by
  have hterm := Parser.terminated_of_tokenize h
  obtain ⟨before, after, hgs, hread, hstop⟩ := Parser.readAll_prefix (Parser.phrases ts)
  have hsealed : ∀ g ∈ before ++ after, g.Sealed ∧ g.tokens ≠ [] := by
    rw [← hgs]
    exact fun g => Parser.sealed_of_mem_phrases hterm
  rw [← Parser.script_phrases hterm, ← readScript_fst h] at hread
  refine ⟨before, after, hgs, ?_, fun g hg => ?_⟩
  · have hb : ∀ g ∈ before, g.Sealed ∧ g.tokens ≠ [] :=
      fun g hg => hsealed g (List.mem_append_left _ hg)
    have hall := (List.forall₂_and_left _ _).2 ⟨hb, hread⟩
    exact hall.imp fun g s ⟨⟨hg, hne⟩, hs⟩ => ⟨hs, hg.read_sound hne hs⟩
  · obtain ⟨hs, hne⟩ := hsealed g (List.mem_append_right _ (List.mem_of_mem_head? hg))
    obtain ⟨e, he⟩ := hstop g hg
    rw [hs.isStatement_iff hne]
    rintro ⟨s, hok⟩
    rw [hok] at he
    cases he

/-- **The log is that of the part that was read.** At debug level, reading logs each statement before
the first that is none, in order and with its outline, and nothing else; validating logs one warning
for each position whose key stands before it, whatever the faults. At warn level only the warnings
are left, and at no level does the log change a result. -/
theorem log_of_parsed_prefix :
    (∀ level input,
      parseAt level input = (parseScript input, Record.upTo level (parseScriptRecords input))) ∧
    (∀ level s, validateAt level s = (s.validate, Record.upTo level s.warningRecords)) ∧
    (∀ input,
      match tokenize input with
      | .error _ => (parseAt .debug input).2 = []
      | .ok ts => ∃ before after ss, Parser.phrases ts = before ++ after ∧
          List.Forall₂ (fun g s => g.read = .ok s ∧
            Grammar.StatementOf (g.tokens.map Placed.token) s.bare) before ss ∧
          (∀ g ∈ after.head?, ¬g.IsStatement) ∧
          (parseAt .debug input).2 = (ss.zipIdx 1).flatMap fun (s, place) =>
            Record.parsing ("Parsed statement " ++ toString place ++
              " of script: ALTER CATALOG " ++ s.kind.label) ::
            (["Starting AST pretty printing"] ++ s.outline ++
              ["AST pretty printing completed"]).map Record.outlining) ∧
    (∀ s, List.Forall₂ (fun r i => ∃ w, s.action.WarnedAt w i ∧ r = Record.validating w.describe)
      (validateAt .debug s).2
      ((repeats s.action.keyValues).filter fun i => s.action.keyValues[i]?.any Validation.isKey)) ∧
    ∀ input,
      (checkAt .warn input).2 = (checkAt .debug input).2.filter (fun r => r.level = .warn) ∧
      ∀ level level', (checkAt level input).1 = (checkAt level' input).1 := by
  refine ⟨parseAt_eq, validateAt_eq, fun input => ?_, fun s => ?_, fun input => ⟨?_, ?_⟩⟩
  · rw [parseAt_eq, upTo_debug fun r hr => .inl (level_of_mem_parseScriptRecords r hr)]
    cases h : tokenize input with
    | error e => simp [parseScriptRecords, readScript, h]
    | ok ts =>
      obtain ⟨before, after, hgs, hread, hstop⟩ := phrases_of_readScript h
      refine ⟨before, after, _, hgs, hread, hstop, ?_⟩
      simp [parseScriptRecords, Statement.scriptRecords, Statement.outlineRecords]
  · rw [validateAt_eq, upTo_debug fun r hr => .inr (level_of_mem_warningRecords r hr)]
    exact List.forall₂_map_left_iff.2 (s.warnedAt_keyed.imp fun w i hw => ⟨w, hw, rfl⟩)
  · rw [checkAt_eq, checkAt_eq, upTo_debug level_of_mem_checkRecords]
    exact upTo_warn level_of_mem_checkRecords
  · intro level level'
    rw [checkAt_eq, checkAt_eq]

/-- Of the keys that stand again, only one can serve as a key; the others are faults. -/
theorem log_of_parsed_prefix_faulty_keys :
    let s : Statement := ⟨{}, ⟨["c"], {}⟩, .reset ⟨[⟨.text "a", {}⟩, ⟨.integer 1, {}⟩,
      ⟨.text "", {}⟩, ⟨.text "a", {}⟩, ⟨.text "", {}⟩, ⟨.integer 1, {}⟩], {}⟩⟩
    (validateAt .debug s).1.isOk = false ∧
      ∃ w, s.action.WarnedAt w 3 ∧ (validateAt .debug s).2 = [.validating w.describe] := by
  intro s
  have again : ((repeats s.action.keyValues).filter fun i =>
      s.action.keyValues[i]?.any Validation.isKey) = [3] := by decide +kernel
  obtain ⟨_, _, _, hwarn, _⟩ := log_of_parsed_prefix
  have hs := hwarn s
  rw [again] at hs
  obtain ⟨r, _, ⟨w, hw, rfl⟩, hnil, hr⟩ := List.forall₂_cons_right_iff.1 hs
  rw [List.forall₂_nil_right_iff.1 hnil] at hr
  exact ⟨by decide +kernel, w, hw, hr⟩

end AlterCatalog
