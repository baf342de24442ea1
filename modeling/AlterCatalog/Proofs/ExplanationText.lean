import AlterCatalog.Report
import AlterCatalog.Statement.Parser
import Mathlib.Data.List.TakeWhile

/-!
# Explanations as text

An explanation is the blocks of its statements, with an empty line between two of them, and with
the white space at its very end cut off. The last line of a block ends with text of its statement,
and what is cut may be a part of that: the last block then says less than it does before others.
-/

namespace AlterCatalog

/-! ## Blocks -/

/-- What a statement resolves to, or why it resolves to nothing. -/
def Statement.changeText (s : Statement) : String :=
  "Change: " ++ match s.change with
    | .ok change => change.describe
    | .error e => e.message

def Statement.explanationBlock (place : Nat) (s : Statement) : String :=
  "\n".intercalate (("Statement " ++ toString place ++ ": " ++ s.line) ::
    (s.outline ++ [s.changeText]).map ("  " ++ ·))

/-- The blocks of a script, with an empty line between two of them. -/
def explanationBlocks (ss : List Statement) : String :=
  "\n\n".intercalate ((ss.zipIdx 1).map fun (s, place) => s.explanationBlock place)

/-- The text of the statement that its change ends with. -/
def Change.ending (c : Change) : String :=
  match c.effect with
  | .rename newName => ".".intercalate newName
  | .setComment comment => comment
  | _ => ".".intercalate c.catalog

theorem join_ended (sep : String) : ∀ xs : List String, xs ≠ [] →
    String.join (xs.map (· ++ sep)) = sep.intercalate xs ++ sep
  | [x], _ => by simp [String.join]
  | x :: y :: ys, _ => by
    have ih := join_ended sep (y :: ys) (by simp)
    rw [List.map_cons, String.join_cons, ih, String.intercalate_cons_cons]
    simp only [String.append_assoc]

theorem endLines_append (a b : List String) : endLines (a ++ b) = endLines a ++ endLines b := by
  unfold endLines
  rw [List.map_append, String.join_append]

theorem changeLine_eq (s : Statement) : s.changeLine false = s.changeText := by
  unfold Statement.changeLine Statement.changeText
  cases s.change <;> rfl

theorem endLines_explanation (place : Nat) (s : Statement) :
    endLines (s.explanationLines false place ++ [""]) = s.explanationBlock place ++ "\n\n" := by
  have hl : endLines (s.explanationLines false place) = s.explanationBlock place ++ "\n" := by
    rw [Statement.explanationLines, changeLine_eq]
    exact join_ended "\n" _ (by simp)
  rw [endLines_append, hl, String.append_assoc]
  rfl

theorem endLines_flatMap {α : Type} (f : α → List String) (as : List α) :
    endLines (as.flatMap f) = String.join (as.map fun a => endLines (f a)) := by
  induction as with
  | nil => rfl
  | cons a as ih =>
    rw [List.flatMap_cons, endLines_append, ih, List.map_cons, String.join_cons]

theorem explainText_eq (ss : List Statement) :
    explainText false ss = String.ofList (trimEnd isBlank (explanationBlocks ss).toList) := by
  unfold explainText explanationBlocks
  simp only [endLines_flatMap, endLines_explanation]
  by_cases h : ss = []
  · rw [h]
    rfl
  · have hj := join_ended "\n\n" ((ss.zipIdx 1).map fun (s, place) => s.explanationBlock place)
      (by simpa using h)
    rw [List.map_map] at hj
    have ht : trimEnd isBlank "\n\n".toList = [] := by decide
    refine congrArg String.ofList ?_
    refine (congrArg (fun t => trimEnd isBlank t.toList) hj).trans ?_
    rw [String.toList_append, trimEnd_append, if_pos ht]

/-! ## The end of the last block -/

theorem trimEnd_eq_self_iff {p : Char → Bool} {s : List Char} :
    trimEnd p s = s ↔ ∀ c ∈ s.getLast?, p c = false := by
  unfold trimEnd
  rw [List.reverse_eq_iff, List.dropWhile_eq_self_iff, ← List.head?_reverse]
  cases s.reverse <;> simp

theorem exists_intercalate_concat (sep x : String) (xs : List String) :
    ∃ before, sep.intercalate (xs ++ [x]) = before ++ x := by
  by_cases h : xs = []
  · exact ⟨"", by simp [h]⟩
  · exact ⟨sep.intercalate xs ++ sep,
      by rw [String.intercalate_append_of_ne_nil h (by simp), String.intercalate_singleton]⟩

theorem exists_blocks_concat (ss : List Statement) (s : Statement) :
    ∃ before, explanationBlocks (ss ++ [s]) = before ++ s.changeText := by
  obtain ⟨a, ha⟩ := exists_intercalate_concat "\n\n" (s.explanationBlock (1 + ss.length))
    ((ss.zipIdx 1).map fun (s, place) => s.explanationBlock place)
  obtain ⟨b, hb⟩ := exists_intercalate_concat "\n" ("  " ++ s.changeText)
    (("Statement " ++ toString (1 + ss.length) ++ ": " ++ s.line) :: s.outline.map ("  " ++ ·))
  have hblocks : explanationBlocks (ss ++ [s]) = a ++ s.explanationBlock (1 + ss.length) := by
    rw [← ha, explanationBlocks, List.zipIdx_append]
    simp
  have hblock : s.explanationBlock (1 + ss.length) = b ++ ("  " ++ s.changeText) := by
    rw [← hb, Statement.explanationBlock]
    simp
  exact ⟨a ++ b ++ "  ", by rw [hblocks, hblock]; simp only [String.append_assoc]⟩

theorem trimEnd_ne_nil {p : Char → Bool} {text : List Char} {c : Char} (hc : c ∈ text)
    (hp : p c = false) : trimEnd p text ≠ [] := by
  intro h
  obtain ⟨rest, ht, hr⟩ := exists_eq_trimEnd_append p text
  rw [h, List.nil_append] at ht
  rw [hr c (ht ▸ hc)] at hp
  cases hp

theorem trimEnd_changeText (s : Statement) : trimEnd isBlank s.changeText.toList ≠ [] :=
  trimEnd_ne_nil (show 'C' ∈ _ by simp [Statement.changeText]) (by decide)

theorem Change.exists_describe (c : Change) :
    ∃ before, c.describe.toList = before ++ ' ' :: c.ending.toList := by
  obtain ⟨catalog, effect⟩ := c
  cases effect with
  | resetProperties keys =>
    exact ⟨("reset [" ++ ", ".intercalate keys.keys ++ "] on catalog").toList,
      by simp [describe, ending]⟩
  | setProperties properties =>
    exact ⟨("set [" ++ ", ".intercalate (properties.entries.map fun e => e.1 ++ "=" ++ e.2) ++
      "] on catalog").toList, by simp [describe, ending]⟩
  | rename newName =>
    exact ⟨("rename catalog " ++ ".".intercalate catalog ++ " to").toList,
      by simp [describe, ending]⟩
  | setComment comment =>
    exact ⟨("comment on catalog " ++ ".".intercalate catalog ++ ":").toList,
      by simp [describe, ending]⟩

theorem NodeError.getLast?_message (e : NodeError) : e.message.toList.getLast? = some 'l' := by
  unfold message
  cases e with
  | missing part => rw [String.toList_append, List.getLast?_append]; rfl
  | mismatch expected actual => rw [String.toList_append, List.getLast?_append]; rfl

/-- The change line ends in white space where the text of the statement does, or where it is empty;
an error never does. -/
theorem changeText_ends (s : Statement) :
    (∀ c ∈ s.changeText.toList.getLast?, isBlank c = false) ↔
      ∀ change, s.change = .ok change → ∃ c ∈ change.ending.toList.getLast?, isBlank c = false := by
  unfold Statement.changeText
  cases s.change with
  | error e =>
    have hl : ("Change: " ++ e.message).toList.getLast? = some 'l' := by
      rw [String.toList_append, List.getLast?_append, e.getLast?_message, Option.some_or]
    refine ⟨fun _ change hs => (by cases hs), fun _ c hc => ?_⟩
    rw [Option.mem_def, hl] at hc
    cases hc
    decide
  | ok change =>
    obtain ⟨before, hd⟩ := change.exists_describe
    have hl : ("Change: " ++ change.describe).toList.getLast? =
        change.ending.toList.getLast?.or (some ' ') := by
      rw [String.toList_append, hd, ← List.singleton_append, ← List.append_assoc,
        ← List.append_assoc, List.getLast?_append, List.getLast?_concat]
    have hb : isBlank ' ' = true := by decide
    simp only [hl, Except.ok.injEq, forall_eq']
    cases change.ending.toList.getLast? <;> simp [hb]

/-! ## Blocks that others follow -/

theorem exists_intercalate_cons (sep x : String) (xs : List String) :
    ∃ after, sep.intercalate (x :: xs) = x ++ after := by
  cases xs with
  | nil => exact ⟨"", by simp⟩
  | cons y ys => exact ⟨sep ++ sep.intercalate (y :: ys),
      by rw [String.intercalate_cons_cons, String.append_assoc]⟩

/-- A block that others follow is there to its last character. -/
theorem explainText_followed (ss : List Statement) (s t : Statement) (rest : List Statement) :
    ∃ after, explainText false (ss ++ s :: t :: rest) =
      explanationBlocks (ss ++ [s]) ++ "\n\n" ++ after := by
  obtain ⟨a, ha⟩ := exists_intercalate_cons "\n\n" (t.explanationBlock (ss.length + 2))
    ((rest.zipIdx (ss.length + 3)).map fun (s, place) => s.explanationBlock place)
  obtain ⟨b, hb⟩ := exists_intercalate_cons "\n"
    ("Statement " ++ toString (ss.length + 2) ++ ": " ++ t.line)
    ((t.outline ++ [t.changeText]).map ("  " ++ ·))
  have hblocks : explanationBlocks (ss ++ s :: t :: rest) =
      explanationBlocks (ss ++ [s]) ++ "\n\n" ++ (t.explanationBlock (ss.length + 2) ++ a) := by
    have hn : 1 + (ss ++ [s]).length = ss.length + 2 := by
      simp
      omega
    rw [← ha, ← List.singleton_append, ← List.append_assoc, explanationBlocks, List.zipIdx_append,
      List.map_append, String.intercalate_append_of_ne_nil (by simp) (by simp), hn]
    rfl
  have hs : 'S' ∈ (t.explanationBlock (ss.length + 2) ++ a).toList := by
    rw [Statement.explanationBlock, hb]
    simp
  rw [explainText_eq, hblocks, String.toList_append, trimEnd_append,
    if_neg (trimEnd_ne_nil hs (by decide)), String.ofList_append, String.ofList_toList]
  exact ⟨_, rfl⟩

/-- **What an explanation drops.** A block that others follow is there to its last character. Of the
last block only white space at the end of its change line is dropped: some exactly when the
statement resolves to a change, and the text that this ends with is empty or ends in white space. -/
theorem explainText_blocks (ss : List Statement) (s : Statement) :
    (∃ before, explanationBlocks (ss ++ [s]) = before ++ s.changeText ∧
      explainText false (ss ++ [s]) =
        before ++ String.ofList (trimEnd isBlank s.changeText.toList)) ∧
    (explainText false (ss ++ [s]) = explanationBlocks (ss ++ [s]) ↔
      ∀ change, s.change = .ok change → ∃ c ∈ change.ending.toList.getLast?, isBlank c = false) ∧
    ∀ t rest, ∃ after, explainText false (ss ++ s :: t :: rest) =
      explanationBlocks (ss ++ [s]) ++ "\n\n" ++ after := by
  obtain ⟨before, hb⟩ := exists_blocks_concat ss s
  have he : explainText false (ss ++ [s]) =
      before ++ String.ofList (trimEnd isBlank s.changeText.toList) := by
    rw [explainText_eq, hb, String.toList_append, trimEnd_append, if_neg (trimEnd_changeText s),
      String.ofList_append, String.ofList_toList]
  refine ⟨⟨before, hb, he⟩, ?_, explainText_followed ss s⟩
  rw [← changeText_ends, ← trimEnd_eq_self_iff, he, hb, String.append_right_inj,
    ← String.toList_inj, String.toList_ofList]

theorem explainText_drops_blank :
    let input := "ALTER CATALOG c COMMENT 'note '"
    let shown := "Statement 1: ALTER CATALOG c COMMENT 'note '\n" ++
      "  Alter Catalog COMMENT Statement\n    Identifier: c\n" ++
      "    Literal (CHAR): String(\"note \")\n  Change: comment on catalog c: note"
    (parseScript input).map (explainText false) = .ok shown ∧
      (parseScript input).map explanationBlocks = .ok (shown ++ " ") := by
  decide +kernel

end AlterCatalog
