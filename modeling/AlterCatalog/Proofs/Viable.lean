import AlterCatalog.Proofs.Sentences

/-!
# Viable prefixes

Tokens are viable as long as some sentence begins with them. A viable prefix ends in one of a few
stages: after a word of the statement, after a whole name, item or statement, or within an item
that has been begun. Within an item it matters where the item began, together with the separator
that introduces it, so a stage has its tokens in two parts.
-/

namespace AlterCatalog.Grammar

def Viable (ts : List Token) : Prop := ∃ rest s, Sentence (ts ++ rest) s

abbrev PartOf (ts : List Token) (part : String) : Prop := ∃ t, ts = [t] ∧ Part t part

/-- The words with a list after them, and the phrases of its items. -/
inductive Entries : Keyword → {α : Type} → (List Token → α → Prop) → Prop
  | set : Entries .set SettingOf
  | reset : Entries .reset LiteralOf

/-- A place in a statement for an item that can be left unfinished: what stands before it, what
introduces it, and its phrases. An item that is not the first is introduced by a separator. -/
inductive Slot : List Token → List Token → {α : Type} → (List Token → α → Prop) → Prop
  | catalog {ts : List Token} {n : Name} : NameOf ts n →
      Slot (.keyword .alter :: .keyword .catalog :: ts) [.symbol .dot] PartOf
  | newName {ts us : List Token} {n m : Name} : NameOf ts n → NameOf us m →
      Slot (.keyword .alter :: .keyword .catalog :: (ts ++ .keyword .rename :: .keyword .to_ :: us))
        [.symbol .dot] PartOf
  | first {ts : List Token} {n : Name} {k : Keyword} {α : Type} {phrase : List Token → α → Prop} :
      NameOf ts n → Entries k phrase →
      Slot (.keyword .alter :: .keyword .catalog :: (ts ++ [.keyword k, .symbol .leftParen])) []
        phrase
  | later {ts us : List Token} {n : Name} {k : Keyword} {α : Type} {phrase : List Token → α → Prop}
      {as : List α} : NameOf ts n → Entries k phrase → Separated .comma phrase us as →
      Slot (.keyword .alter :: .keyword .catalog :: (ts ++ .keyword k :: .symbol .leftParen :: us))
        [.symbol .comma] phrase

/-- Tokens that are not a phrase yet but can become one. -/
def Begun {α : Type} (phrase : List Token → α → Prop) (ts : List Token) : Prop :=
  ∃ missing a, missing ≠ [] ∧ phrase (ts ++ missing) a

/-- The tokens end within an item that has been begun, with its separator, at a position. -/
inductive Within : List Token → Nat → Prop
  | intro {before opening begun : List Token} {α : Type} {phrase : List Token → α → Prop} :
      Slot before opening phrase → Begun phrase begun → opening ++ begun ≠ [] →
      Within (before ++ (opening ++ begun)) before.length

/-- The tokens end where no item has been begun: after a word, a whole name, item or statement. -/
inductive Between : List Token → Prop
  | start : Between []
  | alter : Between [.keyword .alter]
  | catalog : Between [.keyword .alter, .keyword .catalog]
  | named {ts : List Token} {n : Name} : NameOf ts n →
      Between (.keyword .alter :: .keyword .catalog :: ts)
  | list {ts : List Token} {n : Name} {k : Keyword} {α : Type} {phrase : List Token → α → Prop} :
      NameOf ts n → Entries k phrase →
      Between (.keyword .alter :: .keyword .catalog :: (ts ++ [.keyword k]))
  | items {ts us : List Token} {n : Name} {k : Keyword} {α : Type} {phrase : List Token → α → Prop}
      {as : List α} : NameOf ts n → Entries k phrase → Separated .comma phrase us as →
      Between
        (.keyword .alter :: .keyword .catalog :: (ts ++ .keyword k :: .symbol .leftParen :: us))
  | rename {ts : List Token} {n : Name} : NameOf ts n →
      Between (.keyword .alter :: .keyword .catalog :: (ts ++ [.keyword .rename]))
  | renameTo {ts : List Token} {n : Name} : NameOf ts n →
      Between (.keyword .alter :: .keyword .catalog :: (ts ++ [.keyword .rename, .keyword .to_]))
  | comment {ts : List Token} {n : Name} : NameOf ts n →
      Between (.keyword .alter :: .keyword .catalog :: (ts ++ [.keyword .comment]))
  | whole {ts : List Token} {s : Statement} : StatementOf ts s → Between ts
  | closed {ts : List Token} {s : Statement} : StatementOf ts s →
      Between (ts ++ [.symbol .semicolon])

/-- The stages of reading a sentence. The second list are the tokens of an item that has been begun,
with its separator. -/
inductive Stage : List Token → List Token → Prop
  | between {ts : List Token} : Between ts → Stage ts []
  | within {before opening begun : List Token} {α : Type} {phrase : List Token → α → Prop} :
      Slot before opening phrase → Begun phrase begun → Stage before (opening ++ begun)

/-! ## Phrases -/

theorem Separated.concat {α : Type} {separator : Symbol} {phrase : List Token → α → Prop}
    {ts us : List Token} {as : List α} {a : α} (h : Separated separator phrase ts as)
    (ha : phrase us a) :
    Separated separator phrase (ts ++ .symbol separator :: us) (as ++ [a]) := by
  induction h with
  | one hp => exact .more hp (.one ha)
  | more hp _ ih =>
    rw [List.append_assoc]
    exact .more hp ih

theorem NameOf.single {us : List Token} {part : String} (h : PartOf us part) :
    NameOf us ⟨[part], {}⟩ :=
  .intro (.one h)

theorem NameOf.concat {ts us : List Token} {n : Name} {part : String} (h : NameOf ts n)
    (hp : PartOf us part) : NameOf (ts ++ .symbol .dot :: us) ⟨n.parts ++ [part], {}⟩ := by
  obtain ⟨hs⟩ := h
  exact .intro (hs.concat hp)

theorem Entries.action {k : Keyword} {α : Type} {phrase : List Token → α → Prop} {ts : List Token}
    {l : Listing α} (h : Entries k phrase) (hl : Listed phrase ts l) :
    ∃ a, ActionOf (.keyword k :: ts) a := by
  cases h with
  | set => exact ⟨_, .set hl⟩
  | reset => exact ⟨_, .reset hl⟩

theorem Entries.length {k : Keyword} {α : Type} {phrase : List Token → α → Prop}
    (h : Entries k phrase) : ∃ m, ∀ {ts a}, phrase ts a → ts.length = m := by
  cases h with
  | set =>
    refine ⟨3, ?_⟩
    rintro _ _ ⟨⟨_⟩, ⟨_⟩⟩
    rfl
  | reset =>
    refine ⟨1, ?_⟩
    rintro _ _ ⟨_⟩
    rfl

theorem PartOf.length {ts : List Token} {part : String} (h : PartOf ts part) : ts.length = 1 := by
  obtain ⟨t, rfl, -⟩ := h
  rfl

theorem Entries.begun {k : Keyword} {α : Type} {phrase : List Token → α → Prop}
    (h : Entries k phrase) : Begun phrase [] := by
  cases h with
  | set =>
    have hp := SettingOf.intro (.intro .null) (.intro .null)
    exact ⟨_, _, List.cons_ne_nil _ _, hp⟩
  | reset =>
    have hp := LiteralOf.intro .null
    exact ⟨_, _, List.cons_ne_nil _ _, hp⟩

theorem PartOf.begun : Begun PartOf [] := ⟨_, _, by simp, _, rfl, .bare "c"⟩

/-- An item of a list does not begin with the parenthesis that closes the list. -/
theorem Entries.head_ne {k : Keyword} {α : Type} {phrase : List Token → α → Prop} {t : Token}
    {ts : List Token} {a : α} (h : Entries k phrase) (hp : phrase (t :: ts) a) :
    t ≠ .symbol .rightParen := by
  rintro rfl
  cases h with
  | set =>
    generalize hu : Token.symbol .rightParen :: ts = us at hp
    obtain ⟨⟨hv⟩, -⟩ := hp
    cases hu
    cases hv
  | reset =>
    obtain ⟨hv⟩ := hp
    cases hv

/-! ## Stages are viable -/

theorem viable_of_append (ts : List Token) {us : List Token} (h : Viable (ts ++ us)) :
    Viable ts := by
  obtain ⟨rest, s, hs⟩ := h
  exact ⟨us ++ rest, s, by rwa [List.append_assoc] at hs⟩

theorem viable_take {ts : List Token} (h : Viable ts) (n : Nat) : Viable (ts.take n) :=
  viable_of_append _ ((List.take_append_drop n ts).symm ▸ h)

theorem viable_statement {ts : List Token} {s : Statement} (h : StatementOf ts s) : Viable ts :=
  ⟨[.endOfInput], s, .plain h⟩

/-- After a name, what an action begins with is viable. -/
theorem viable_of_action {ts : List Token} {n : Name} {a : Action} (us rest : List Token)
    (hn : NameOf ts n) (ha : ActionOf (us ++ rest) a) :
    Viable (.keyword .alter :: .keyword .catalog :: (ts ++ us)) := by
  have h := viable_statement (.intro hn ha)
  rw [← List.append_assoc] at h
  exact viable_of_append _ h

theorem viable_named {ts : List Token} {n : Name} (h : NameOf ts n) :
    Viable (.keyword .alter :: .keyword .catalog :: ts) := by
  have hv := viable_of_action [] [.keyword .comment, .keyword .null] h (.comment (.intro .null))
  rwa [List.append_nil] at hv

theorem viable_items {ts us : List Token} {n : Name} {k : Keyword} {α : Type}
    {phrase : List Token → α → Prop} {as : List α} (hn : NameOf ts n) (he : Entries k phrase)
    (hs : Separated .comma phrase us as) :
    Viable
      (.keyword .alter :: .keyword .catalog :: (ts ++ .keyword k :: .symbol .leftParen :: us)) := by
  obtain ⟨a, ha⟩ := he.action (.some hs)
  exact viable_of_action _ [.symbol .rightParen] hn ha

theorem Slot.viable {before opening us : List Token} {α : Type} {phrase : List Token → α → Prop}
    {a : α} (h : Slot before opening phrase) (hp : phrase us a) :
    Viable (before ++ (opening ++ us)) := by
  cases h with
  | catalog hn => exact viable_named (hn.concat hp)
  | newName hn hm =>
    have hv := viable_statement (.intro hn (.rename (hm.concat hp)))
    simpa using hv
  | first hn he => simpa using viable_items hn he (.one hp)
  | later hn he hs => simpa using viable_items hn he (hs.concat hp)

theorem Between.viable {ts : List Token} (h : Between ts) : Viable ts := by
  have word : NameOf [.identifier "c"] ⟨["c"], {}⟩ := .single ⟨_, rfl, .bare "c"⟩
  cases h with
  | start => exact viable_of_append [] (viable_named word)
  | alter => exact viable_of_append [_] (viable_named word)
  | catalog => exact viable_of_append [_, _] (viable_named word)
  | named hn => exact viable_named hn
  | list hn he =>
    obtain ⟨a, ha⟩ := he.action .none
    exact viable_of_action _ [.symbol .leftParen, .symbol .rightParen] hn ha
  | items hn he hs => exact viable_items hn he hs
  | rename hn => exact viable_of_action _ [.keyword .to_, .identifier "c"] hn (.rename word)
  | renameTo hn => exact viable_of_action _ [.identifier "c"] hn (.rename word)
  | comment hn => exact viable_of_action _ [.keyword .null] hn (.comment (.intro .null))
  | whole hs => exact viable_statement hs
  | closed hs => exact ⟨[.endOfInput], _, by simpa using Sentence.closed hs⟩

theorem Stage.viable {done opened : List Token} (h : Stage done opened) :
    Viable (done ++ opened) := by
  cases h with
  | between hb =>
    rw [List.append_nil]
    exact hb.viable
  | within hslot hb =>
    obtain ⟨missing, a, -, hp⟩ := hb
    have hv := hslot.viable hp
    rw [← List.append_assoc, ← List.append_assoc] at hv
    rw [← List.append_assoc]
    exact viable_of_append _ hv

theorem Stage.within_of_ne_nil {done opened : List Token} (h : Stage done opened)
    (hne : opened ≠ []) : Within (done ++ opened) done.length := by
  cases h with
  | between => exact absurd rfl hne
  | within hslot hb => exact .intro hslot hb hne

/-! ## The end of a sentence -/

theorem Sentence.ends {ts : List Token} {s : Statement} (h : Sentence ts s) :
    ∃ us, ts = us ++ [.endOfInput] ∧ .endOfInput ∉ us := by
  cases h with
  | plain hs => exact ⟨_, rfl, Parser.endOfInput_not_mem_statementOf hs⟩
  | @closed us s hs =>
    refine ⟨us ++ [.symbol .semicolon], by simp, ?_⟩
    simp [Parser.endOfInput_not_mem_statementOf hs]

/-- Nothing comes after the end of the input. -/
theorem sentence_of_viable {ts : List Token} (h : Viable (ts ++ [.endOfInput])) :
    ∃ s, Sentence (ts ++ [.endOfInput]) s := by
  obtain ⟨rest, s, hs⟩ := h
  obtain ⟨us, he, hn⟩ := hs.ends
  rcases List.eq_nil_or_concat rest with rfl | ⟨rest, t, rfl⟩
  · rw [List.append_nil] at hs
    exact ⟨s, hs⟩
  · rw [List.concat_eq_append, ← List.append_assoc] at he
    obtain ⟨rfl, -⟩ := List.append_inj' he rfl
    simp at hn

end AlterCatalog.Grammar
