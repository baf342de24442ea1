import AlterCatalog.Proofs.Formatting

/-!
# What the commands answer

Validating goes through the statements one by one. It writes the verdict on each and counts those
with faults, and it stops at none of them, so in the end the counts are those of the script. A
script that does not read as a whole leaves nothing written by any command: its error is all that
the command fails with.

A script comes from standard input, or it is an argument. As an argument it must not look like an
option, unless it stands after two dashes.
-/

namespace AlterCatalog

/-! ## What a verdict holds -/

/-- Lines that are a headline, and after it one for each of some things, numbered from one. -/
structure Numbered {α : Type} (headline : String) (line : Nat → α → String) (as : List α)
    (lines : List String) : Prop where
  headline : lines[0]? = some headline
  line : ∀ i a, as[i]? = some a → lines[i + 1]? = some (line (i + 1) a)
  length : lines.length = as.length + 1

/-- Lines that judge a statement: it is valid, with its warnings, or it is not, with its faults. -/
def Statement.Judged (color : Bool) (place : Nat) (s : Statement) (lines : List String) : Prop :=
  match s.validate with
  | .ok warnings => Numbered
      (Style.green.paint color ("✅ Statement " ++ toString place ++ ":") ++ " " ++ s.line)
      (fun k w => "  " ++ Style.yellow.paint color (toString k ++ ". " ++ w.describe))
      warnings lines
  | .error faults => Numbered
      (Style.boldRed.paint color ("❌ Statement " ++ toString place ++ ":") ++ " " ++ s.line)
      (fun k f => "  " ++ toString k ++ ". [" ++ f.category.label ++ "] " ++
        Style.red.paint color f.describe)
      faults lines

/-- Numbered lines are given by what they number. -/
theorem numbered_iff {α : Type} {headline : String} {line : Nat → α → String} {as : List α}
    {lines : List String} : Numbered headline line as lines ↔
      lines = headline :: (as.zipIdx 1).map fun (a, k) => line k a := by
  constructor
  · intro ⟨hhead, hline, hlen⟩
    apply List.ext_getElem?
    rintro (_ | i)
    · exact hhead
    · cases ha : as[i]? with
      | some a => simp [hline i a ha, ha, Nat.add_comm]
      | none =>
        have hi := List.getElem?_eq_none_iff.1 ha
        rw [List.getElem?_eq_none_iff.2 (by omega), List.getElem?_eq_none_iff.2 (by simpa using hi)]
  · rintro rfl
    exact ⟨rfl, fun i a ha => by simp [ha, Nat.add_comm], by simp⟩

/-- The lines that judge a statement are those of its verdict. -/
theorem Statement.judged_iff {color : Bool} {place : Nat} {s : Statement} {lines : List String} :
    s.Judged color place lines ↔ lines = s.verdictLines color place := by
  have hgood : "✅" ++ " Statement " = "✅ Statement " := by decide
  have hbad : "❌" ++ " Statement " = "❌ Statement " := by decide
  unfold Judged verdictLines headline
  cases s.validate with
  | ok warnings =>
    dsimp only
    rw [hgood]
    exact numbered_iff
  | error faults =>
    dsimp only
    rw [hbad]
    exact numbered_iff

/-- The verdicts on the statements of a script, in its order. -/
def verdictsOn (color : Bool) (ss : List Statement) : List (List String) :=
  (ss.zipIdx 1).map fun (t, place) => t.verdictLines color place

/-- Blocks of lines that judge the statements of a script, each at its place. -/
structure Judgements (color : Bool) (ss : List Statement) (blocks : List (List String)) : Prop where
  length : blocks.length = ss.length
  judged : ∀ i (t : Statement) lines, ss[i]? = some t → blocks[i]? = some lines →
    t.Judged color (i + 1) lines

theorem judgements_iff {color : Bool} {ss : List Statement} {blocks : List (List String)} :
    Judgements color ss blocks ↔ blocks = verdictsOn color ss := by
  unfold verdictsOn
  constructor
  · intro ⟨hlen, hjudged⟩
    apply List.ext_getElem?
    intro i
    cases ht : ss[i]? with
    | none =>
      have hi := List.getElem?_eq_none_iff.1 ht
      rw [List.getElem?_eq_none_iff.2 (by omega), List.getElem?_eq_none_iff.2 (by simpa using hi)]
    | some t =>
      obtain ⟨lines, hl⟩ : ∃ lines, blocks[i]? = some lines := by
        have hi := (List.getElem?_eq_some_iff.1 ht).1
        exact ⟨_, List.getElem?_eq_getElem (by omega)⟩
      rw [hl, Statement.judged_iff.1 (hjudged i t lines ht hl)]
      simp [ht, Nat.add_comm]
  · rintro rfl
    refine ⟨by simp, fun i t lines ht hl => Statement.judged_iff.2 ?_⟩
    simpa [ht, Nat.add_comm, eq_comm] using hl

/-- What validating has done after some statements. -/
structure Tally where
  output : String := ""
  log : List Record := []
  checked : Nat := 0
  failed : Nat := 0

namespace Tally

variable (color : Bool)

def step (t : Tally) (s : Statement) : Tally where
  output := t.output ++ s.verdict color (t.checked + 1)
  log := t.log ++ s.warningRecords
  checked := t.checked + 1
  failed := if s.validate.isOk then t.failed else t.failed + 1

def transcript (t : Tally) : Transcript :=
  if t.failed = 0 then
    let summary := "All " ++ toString t.checked ++ " statements are valid"
    { output := t.output ++ endLines [Style.green.paint color summary], log := t.log }
  else { output := t.output, log := t.log, failure := some (.invalid t.failed t.checked) }

/-- What is true of the tally after the statements `done`. -/
structure Counts (done : List Statement) (t : Tally) : Prop where
  output : t.output = String.join ((verdictsOn color done).map endLines)
  log : t.log = done.flatMap Statement.warningRecords
  checked : t.checked = done.length
  failed : t.failed = done.countP fun s => !s.validate.isOk

variable {color}

theorem Counts.step {done : List Statement} {t : Tally} (h : Counts color done t) (s : Statement) :
    Counts color (done ++ [s]) (t.step color s) where
  output := by
    rw [Tally.step, h.output, h.checked, verdictsOn, verdictsOn, List.zipIdx_append,
      List.map_append, List.map_append, String.join_append, Nat.add_comm 1]
    simp [String.join, Statement.verdict]
  log := by simp [Tally.step, h.log]
  checked := by simp [Tally.step, h.checked]
  failed := by
    rw [List.countP_append, ← h.failed]
    by_cases hs : s.validate.isOk = true <;> simp [Tally.step, hs]

theorem counts_foldl : ∀ (ss : List Statement) {done : List Statement} {t : Tally},
    Counts color done t → Counts color (done ++ ss) (ss.foldl (Tally.step color) t)
  | [], done, t, h => by simpa using h
  | s :: ss, done, t, h => by
    have hs := counts_foldl ss (h.step s)
    rwa [List.append_assoc] at hs

theorem counts_run (color : Bool) (ss : List Statement) :
    Counts color ss (ss.foldl (Tally.step color) {}) := by
  have start : Counts color [] {} := ⟨rfl, rfl, rfl, rfl⟩
  exact counts_foldl ss start

end Tally

theorem isOk_validate (s : Statement) : s.validate.isOk = decide (s.faults = []) := by
  unfold Statement.validate
  by_cases h : s.faults = [] <;> simp [h, Except.isOk, Except.toBool]

theorem isOk_iff {ε α : Type} {x : Except ε α} : x.isOk = true ↔ ∃ a, x = .ok a := by
  cases x <;> simp [Except.isOk, Except.toBool]

/-- Validating statement by statement comes to the verdicts on all of them. -/
theorem Transcript.verdicts_eq_run (color : Bool) (ss : List Statement) :
    verdicts color ss = (ss.foldl (Tally.step color) {}).transcript color := by
  obtain ⟨ho, hl, hc, hf⟩ := Tally.counts_run color ss
  have hp : (ss.countP fun s => decide (s.faults ≠ [])) = ss.countP fun s => !s.validate.isOk := by
    congr 1
    funext s
    rw [isOk_validate, decide_not]
  have hb : (verdictsOn color ss).map endLines =
      (ss.zipIdx 1).map fun (s, place) => s.verdict color place := by
    rw [verdictsOn, List.map_map]
    rfl
  unfold verdicts Tally.transcript
  simp only [ho, hl, hc, hf, hp, hb]

/-- The commands that read a script, each with what it logs before it does. -/
inductive Command.ReadsScript (s : Surroundings) (sql : Option String) :
    Command → List Record → Prop
  | validate : ReadsScript s sql (.validate sql) []
  | explain (form : ExplainFormat) : ReadsScript s sql (.explain sql form) []
  | format {o : FormatOptions} {l : Layout} (h : o.layout s = .ok l) :
      ReadsScript s sql (.format sql o) (Transcript.layoutRecords o)

/-- The lines of a log that a reader at a level sees. -/
def logLines (level : Level) (log : List Record) : String :=
  endLines ((Record.upTo level log).map Record.line)

section
variable {s : Surroundings} {sql : Option String} {text : String}

theorem Transcript.onScript_of_ok (h : sql.or s.input = some text) {ss : List Statement}
    (hss : parseScript text = .ok ss) (log : List Record) (f : List Statement → Transcript) :
    onScript s sql log f = { f ss with log := log ++ parseScriptRecords text ++ (f ss).log } := by
  simp only [onScript, h, hss]

theorem Transcript.onScript_of_error (h : sql.or s.input = some text) {e : ParseError}
    (he : parseScript text = .error e) (log : List Record) (f : List Statement → Transcript) :
    onScript s sql log f =
      { log := log ++ parseScriptRecords text, failure := some (.parse e) } := by
  simp only [onScript, h, he]

theorem Transcript.exit_eq_zero_iff {level : Level} {t : Transcript} :
    (t.outcome level).exit = 0 ↔ t.failure = none := by
  unfold outcome
  cases t.failure with
  | none => simp
  | some f => cases f <;> simp [Failure.exit]

/-- What writes something about any statements does so exactly when the script reads. -/
theorem Transcript.exit_onScript (h : sql.or s.input = some text) (level : Level)
    (log : List Record) {f : List Statement → Transcript} (hf : ∀ ss, (f ss).failure = none) :
    ((onScript s sql log f).outcome level).exit = 0 ↔ ∃ ss, parseScript text = .ok ss := by
  rw [exit_eq_zero_iff]
  cases hp : parseScript text with
  | error e => simp [onScript_of_error h hp]
  | ok ss => simp [onScript_of_ok h hp, hf]

theorem Transcript.failure_verdicts (color : Bool) (ss : List Statement) :
    (verdicts color ss).failure = none ↔ ∀ t ∈ ss, ∃ ws, t.validate = .ok ws := by
  have hf := (Tally.counts_run color ss).failed
  rw [verdicts_eq_run]
  unfold Tally.transcript
  by_cases h0 : (ss.foldl (Tally.step color) {}).failed = 0
  · rw [if_pos h0]
    rw [h0] at hf
    simpa [isOk_iff] using hf.symm
  · rw [if_neg h0]
    rw [hf] at h0
    simpa [isOk_iff] using h0

theorem Transcript.outcome_validate (h : sql.or s.input = some text) {ss : List Statement}
    (hss : parseScript text = .ok ss) (level : Level) :
    let verdicts := String.join ((verdictsOn s.color ss).map endLines)
    let failed := ss.countP fun t => !t.validate.isOk
    let total := toString ss.length
    let log := logLines level (parseScriptRecords text ++ ss.flatMap Statement.warningRecords)
    (validate s sql).outcome level =
      if failed = 0 then
        ⟨0, verdicts ++
          endLines [Style.green.paint s.color ("All " ++ total ++ " statements are valid")], log⟩
      else
        ⟨1, verdicts, log ++ endLines ["Error: " ++ Inspect.text
          (toString failed ++ " of " ++ total ++ " statements failed validation")]⟩ := by
  intro verdicts failed total log
  obtain ⟨ho, hl, hc, hf⟩ := Tally.counts_run s.color ss
  rw [validate, onScript_of_ok h hss, verdicts_eq_run]
  unfold Tally.transcript
  by_cases h0 : failed = 0
  · have h0' : (ss.foldl (Tally.step s.color) {}).failed = 0 := hf.trans h0
    rw [if_pos h0, if_pos h0']
    simp only [outcome, ho, hl, hc, List.nil_append]
    rfl
  · have h0' : (ss.foldl (Tally.step s.color) {}).failed ≠ 0 := fun he => h0 (hf.symm.trans he)
    rw [if_neg h0, if_neg h0']
    simp only [outcome, ho, hl, hc, hf, List.nil_append]
    rfl

theorem Transcript.exit_validate (h : sql.or s.input = some text) (level : Level) :
    ((validate s sql).outcome level).exit = 0 ↔
      ∃ ss, parseScript text = .ok ss ∧ ∀ t ∈ ss, ∃ ws, t.validate = .ok ws := by
  rw [exit_eq_zero_iff]
  cases hp : parseScript text with
  | error e => simp [validate, onScript_of_error h hp]
  | ok ss => simp [validate, onScript_of_ok h hp, failure_verdicts]

/-- What formatting answers to a script that reads. -/
theorem Transcript.outcome_format (h : sql.or s.input = some text) {ss : List Statement}
    (hss : parseScript text = .ok ss) {o : FormatOptions} {l : Layout} (hl : o.layout s = .ok l)
    (level : Level) :
    (format s sql o).outcome level =
      let log := logLines level (layoutRecords o ++ parseScriptRecords text)
      match formatted l ss with
      | some output => ⟨0, output, log⟩
      | none => ⟨101, "", log⟩ := by
  rw [format, hl]
  dsimp only
  rw [onScript_of_ok h hss]
  cases formatted l ss with
  | some output => simp [outcome, logLines]
  | none => simp [outcome, logLines, Failure.exit, Failure.report, endLines, String.join]

theorem Transcript.outcome_format_unfit (h : sql.or s.input = some text) {ss : List Statement}
    (hss : parseScript text = .ok ss) {o : FormatOptions} {l : Layout} (hl : o.layout s = .ok l)
    (hf : ¬l.Fits ss) (level : Level) :
    (format s sql o).outcome level =
      ⟨101, "", logLines level (layoutRecords o ++ parseScriptRecords text)⟩ := by
  rw [outcome_format h hss hl, formatted_eq l (legible_of_parseScript hss), if_neg hf]

theorem Transcript.exit_format (h : sql.or s.input = some text) {o : FormatOptions} {l : Layout}
    (hl : o.layout s = .ok l) (level : Level) :
    ((format s sql o).outcome level).exit = 0 ↔
      ∃ ss, parseScript text = .ok ss ∧ l.Fits ss := by
  cases hp : parseScript text with
  | error e =>
    rw [exit_eq_zero_iff, format, hl]
    simp [onScript_of_error h hp]
  | ok ss =>
    by_cases hf : l.Fits ss
    · rw [outcome_format h hp hl, formatted_eq l (legible_of_parseScript hp)]
      simp [hf]
    · rw [outcome_format_unfit h hp hl hf]
      simp [hf]

/-- A script that does not read leaves nothing written, whichever command reads it. -/
theorem Command.ReadsScript.outcome_of_error (h : sql.or s.input = some text) {e : ParseError}
    (he : parseScript text = .error e) {c : Command} {log : List Record}
    (hc : ReadsScript s sql c log) (level : Level) :
    Invocation.outcome s ⟨level, c⟩ =
      ⟨1, "", logLines level (log ++ parseScriptRecords text) ++
        endLines ["Error: " ++ e.inspect]⟩ := by
  have failed : ∀ f, (Transcript.onScript s sql log f).outcome level =
      ⟨1, "", logLines level (log ++ parseScriptRecords text) ++
        endLines ["Error: " ++ e.inspect]⟩ := by
    intro f
    rw [Transcript.onScript_of_error h he]
    rfl
  cases hc with
  | validate => exact failed _
  | explain form => exact failed _
  | format hl =>
    show (Transcript.format s sql _).outcome level = _
    rw [Transcript.format, hl]
    exact failed _

end

/-! ## Commands on the command line -/

namespace Arguments

theorem shape_plain {argument : String} (h : argument.toList.head? ≠ some '-') :
    shape argument = .plain := by
  unfold shape
  split <;> simp_all

/-- An SQL text after the command, where nothing tells it from an option but its first character. -/
theorem afterVerb_plain (outer : Given) (verb : Verb) {sql : String}
    (h : sql.toList.head? ≠ some '-') (hv : plainLimit verb = 1) :
    afterVerb outer verb {} [sql] =
      .run ⟨level outer { plain := [sql] }, command verb { plain := [sql] }⟩ := by
  simp [afterVerb, step, shape_plain h, finish, hv]

end Arguments

/-- The words for commands that read a script, each with what it runs when no option is given. -/
def scriptCommands : List (String × (Option String → Command)) :=
  [("format", (.format · {})), ("explain", (.explain · .text)), ("validate", .validate)]

theorem ofArguments_scriptCommand {word : String} {c : Option String → Command}
    (h : (word, c) ∈ scriptCommands) :
    Asked.ofArguments [word] = .run ⟨.warn, c none⟩ ∧ ∀ sql : String,
      Asked.ofArguments [word, "--", sql] = .run ⟨.warn, c (some sql)⟩ ∧
      (sql.toList.head? ≠ some '-' →
        Asked.ofArguments [word, sql] = .run ⟨.warn, c (some sql)⟩) := by
  simp only [scriptCommands, List.mem_cons, List.not_mem_nil, or_false, Prod.mk.injEq] at h
  obtain ⟨rfl, rfl⟩ | ⟨rfl, rfl⟩ | ⟨rfl, rfl⟩ := h
  · exact ⟨rfl, fun sql => ⟨rfl, fun hs => Arguments.afterVerb_plain {} .format hs rfl⟩⟩
  · exact ⟨rfl, fun sql => ⟨rfl, fun hs => Arguments.afterVerb_plain {} .explain hs rfl⟩⟩
  · exact ⟨rfl, fun sql => ⟨rfl, fun hs => Arguments.afterVerb_plain {} .validate hs rfl⟩⟩

end AlterCatalog
