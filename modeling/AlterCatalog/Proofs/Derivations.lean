import AlterCatalog.Statement.Grammar

/-!
# Derivations

A derivation of a sentence is data: what stands at each choice of the grammar. It has a yield,
which is the sentence, and a statement, which is the tree with its choices of spelling forgotten.
The grammar derives a statement from tokens exactly when some derivation has both (`sentence_iff`).

No two derivations have the same yield (`Derivation.tokens_inj`). Read from the left, one token
decides at every place: a literal and a part are one token each, a separator tells that another
item follows, and the word after the name tells the action.
-/

namespace AlterCatalog.Grammar

/-- A part of a name as it is written. -/
inductive PartTree where
  | bare (name : String)
  | delimited (name : String)

namespace PartTree

def tokens : PartTree → List Token
  | bare name => [.identifier name]
  | delimited name => [.quotedIdentifier name]

def name : PartTree → String
  | bare name => name
  | delimited name => name

end PartTree

def literalTokens : LiteralValue → List Token
  | .text value => [.string value]
  | .integer value => [.integer value]
  | .decimal digits => [.decimal digits]
  | .boolean true => [.keyword .true]
  | .boolean false => [.keyword .false]
  | .null => [.keyword .null]

abbrev SettingTree := LiteralValue × LiteralValue

def settingTokens (s : SettingTree) : List Token :=
  literalTokens s.1 ++ .symbol .equal :: literalTokens s.2

section
variable {α : Type} (tokens : α → List Token)

/-- Items with a separator before each. -/
def tailTokens (separator : Symbol) (as : List α) : List Token :=
  as.flatMap fun a => .symbol separator :: tokens a

def listTokens : List α → List Token
  | [] => [.symbol .leftParen, .symbol .rightParen]
  | a :: as => .symbol .leftParen :: (tokens a ++ tailTokens tokens .comma as ++ [.symbol .rightParen])

end

structure NameTree where
  first : PartTree
  more : List PartTree

namespace NameTree

def tokens (n : NameTree) : List Token := n.first.tokens ++ tailTokens PartTree.tokens .dot n.more

def name (n : NameTree) : Name := ⟨n.first.name :: n.more.map PartTree.name, {}⟩

end NameTree

inductive ActionTree where
  | set (settings : List SettingTree)
  | reset (keys : List LiteralValue)
  | rename (newName : NameTree)
  | comment (text : LiteralValue)

namespace ActionTree

def tokens : ActionTree → List Token
  | set settings => .keyword .set :: listTokens settingTokens settings
  | reset keys => .keyword .reset :: listTokens literalTokens keys
  | rename newName => .keyword .rename :: .keyword .to_ :: newName.tokens
  | comment text => .keyword .comment :: literalTokens text

def action : ActionTree → Action
  | set settings => .set ⟨settings.map fun s => ⟨⟨s.1, {}⟩, ⟨s.2, {}⟩, {}⟩, {}⟩
  | reset keys => .reset ⟨keys.map fun v => ⟨v, {}⟩, {}⟩
  | rename newName => .rename newName.name
  | comment text => .comment ⟨text, {}⟩

end ActionTree

/-- A derivation of a sentence; a closed one has the semicolon. -/
structure Derivation where
  catalog : NameTree
  action : ActionTree
  closed : Bool

namespace Derivation

def ending (d : Derivation) : List Token :=
  if d.closed then [.symbol .semicolon, .endOfInput] else [.endOfInput]

def tokens (d : Derivation) : List Token :=
  .keyword .alter :: .keyword .catalog :: (d.catalog.tokens ++ (d.action.tokens ++ d.ending))

def statement (d : Derivation) : Statement := ⟨{}, d.catalog.name, d.action.action⟩

end Derivation

/-! ## Derivations and the grammar -/

section
variable {α β : Type} {item : List Token → β → Prop} {tokens : α → List Token} {tree : α → β}
  (h : ∀ ts b, item ts b ↔ ∃ a, tokens a = ts ∧ tree a = b)
include h

theorem separated_iff (separator : Symbol) (ts : List Token) (bs : List β) :
    Separated separator item ts bs ↔ ∃ a as,
      tokens a ++ tailTokens tokens separator as = ts ∧ tree a :: as.map tree = bs := by
  constructor
  · intro hs
    induction hs with
    | one hi =>
      obtain ⟨a, rfl, rfl⟩ := (h _ _).1 hi
      exact ⟨a, [], by simp [tailTokens], rfl⟩
    | more hi _ ih =>
      obtain ⟨a, rfl, rfl⟩ := (h _ _).1 hi
      obtain ⟨b, bs, rfl, rfl⟩ := ih
      exact ⟨a, b :: bs, by simp [tailTokens], rfl⟩
  · intro ⟨a, as, hts, hbs⟩
    subst hts hbs
    induction as generalizing a with
    | nil => simpa [tailTokens] using Separated.one ((h _ _).2 ⟨a, rfl, rfl⟩)
    | cons b bs ih =>
      have hm := Separated.more ((h _ _).2 ⟨a, rfl, rfl⟩) (ih b)
      simpa [tailTokens] using hm

theorem listed_iff (ts : List Token) (l : Listing β) :
    Listed item ts l ↔ ∃ as, listTokens tokens as = ts ∧ ⟨as.map tree, {}⟩ = l := by
  constructor
  · intro hl
    cases hl with
    | none => exact ⟨[], rfl, rfl⟩
    | some hs =>
      obtain ⟨a, as, rfl, rfl⟩ := (separated_iff h _ _ _).1 hs
      exact ⟨a :: as, rfl, rfl⟩
  · intro ⟨as, hts, hl⟩
    subst hts hl
    cases as with
    | nil => exact .none
    | cons a as => exact .some ((separated_iff h _ _ _).2 ⟨a, as, rfl, rfl⟩)

end

theorem part_iff (ts : List Token) (name : String) :
    (∃ t, ts = [t] ∧ Part t name) ↔ ∃ p : PartTree, p.tokens = ts ∧ p.name = name := by
  constructor
  · intro ⟨t, hts, hp⟩
    subst hts
    cases hp with
    | bare => exact ⟨.bare name, rfl, rfl⟩
    | delimited => exact ⟨.delimited name, rfl, rfl⟩
  · intro ⟨p, hts, hn⟩
    subst hts hn
    cases p with
    | bare name => exact ⟨_, rfl, .bare name⟩
    | delimited name => exact ⟨_, rfl, .delimited name⟩

theorem nameOf_iff (ts : List Token) (n : Name) :
    NameOf ts n ↔ ∃ t : NameTree, t.tokens = ts ∧ t.name = n := by
  constructor
  · intro ⟨hs⟩
    obtain ⟨p, ps, rfl, rfl⟩ := (separated_iff part_iff _ _ _).1 hs
    exact ⟨⟨p, ps⟩, rfl, rfl⟩
  · intro ⟨t, hts, hn⟩
    subst hts hn
    exact .intro ((separated_iff part_iff _ _ _).2 ⟨t.first, t.more, rfl, rfl⟩)

theorem literalOf_iff (ts : List Token) (l : Literal) :
    LiteralOf ts l ↔ ∃ v, literalTokens v = ts ∧ ⟨v, {}⟩ = l := by
  constructor
  · intro ⟨hv⟩
    cases hv <;> exact ⟨_, rfl, rfl⟩
  · intro ⟨v, hts, hl⟩
    subst hts hl
    cases v with
    | text value => exact .intro (.text value)
    | integer value => exact .intro (.integer value)
    | decimal digits => exact .intro (.decimal digits)
    | boolean value =>
      cases value with
      | true => exact .intro .yes
      | false => exact .intro .no
    | null => exact .intro .null

theorem settingOf_iff (ts : List Token) (s : Setting) :
    SettingOf ts s ↔ ∃ t : SettingTree, settingTokens t = ts ∧ ⟨⟨t.1, {}⟩, ⟨t.2, {}⟩, {}⟩ = s := by
  constructor
  · intro ⟨hk, hv⟩
    obtain ⟨k, rfl, rfl⟩ := (literalOf_iff _ _).1 hk
    obtain ⟨v, rfl, rfl⟩ := (literalOf_iff _ _).1 hv
    exact ⟨(k, v), rfl, rfl⟩
  · intro ⟨t, hts, hs⟩
    subst hts hs
    exact .intro ((literalOf_iff _ _).2 ⟨t.1, rfl, rfl⟩) ((literalOf_iff _ _).2 ⟨t.2, rfl, rfl⟩)

theorem actionOf_iff (ts : List Token) (a : Action) :
    ActionOf ts a ↔ ∃ t : ActionTree, t.tokens = ts ∧ t.action = a := by
  constructor
  · intro ha
    cases ha with
    | set hl =>
      obtain ⟨as, rfl, rfl⟩ := (listed_iff settingOf_iff _ _).1 hl
      exact ⟨.set as, rfl, rfl⟩
    | reset hl =>
      obtain ⟨as, rfl, rfl⟩ := (listed_iff literalOf_iff _ _).1 hl
      exact ⟨.reset as, rfl, rfl⟩
    | rename hn =>
      obtain ⟨t, rfl, rfl⟩ := (nameOf_iff _ _).1 hn
      exact ⟨.rename t, rfl, rfl⟩
    | comment hl =>
      obtain ⟨v, rfl, rfl⟩ := (literalOf_iff _ _).1 hl
      exact ⟨.comment v, rfl, rfl⟩
  · intro ⟨t, hts, ha⟩
    subst hts ha
    cases t with
    | set settings => exact .set ((listed_iff settingOf_iff _ _).2 ⟨settings, rfl, rfl⟩)
    | reset keys => exact .reset ((listed_iff literalOf_iff _ _).2 ⟨keys, rfl, rfl⟩)
    | rename newName => exact .rename ((nameOf_iff _ _).2 ⟨newName, rfl, rfl⟩)
    | comment text => exact .comment ((literalOf_iff _ _).2 ⟨text, rfl, rfl⟩)

theorem sentence_iff (ts : List Token) (s : Statement) :
    Sentence ts s ↔ ∃ d : Derivation, d.tokens = ts ∧ d.statement = s := by
  constructor
  · intro hs
    cases hs with
    | plain hs =>
      obtain ⟨hn, ha⟩ := hs
      obtain ⟨n, rfl, rfl⟩ := (nameOf_iff _ _).1 hn
      obtain ⟨a, rfl, rfl⟩ := (actionOf_iff _ _).1 ha
      exact ⟨⟨n, a, false⟩, by simp [Derivation.tokens, Derivation.ending], rfl⟩
    | closed hs =>
      obtain ⟨hn, ha⟩ := hs
      obtain ⟨n, rfl, rfl⟩ := (nameOf_iff _ _).1 hn
      obtain ⟨a, rfl, rfl⟩ := (actionOf_iff _ _).1 ha
      exact ⟨⟨n, a, true⟩, by simp [Derivation.tokens, Derivation.ending], rfl⟩
  · intro ⟨⟨n, a, closed⟩, hts, hs⟩
    subst hts hs
    have hst := StatementOf.intro ((nameOf_iff _ _).2 ⟨n, rfl, rfl⟩) ((actionOf_iff _ _).2 ⟨a, rfl, rfl⟩)
    cases closed with
    | false => simpa [Derivation.tokens, Derivation.ending, Derivation.statement] using Sentence.plain hst
    | true => simpa [Derivation.tokens, Derivation.ending, Derivation.statement] using Sentence.closed hst

/-! ## No two derivations of one sentence -/

/-- Yields that show where they end, whatever comes after them. -/
def Readable {α : Type} (tokens : α → List Token) : Prop :=
  ∀ a b r r', tokens a ++ r = tokens b ++ r' → a = b ∧ r = r'

theorem readable_partTokens : Readable PartTree.tokens := by
  intro a b r r' h
  cases a <;> cases b <;> simp [PartTree.tokens] at h ⊢ <;> exact h

theorem readable_literalTokens : Readable literalTokens := by
  intro a b r r' h
  rcases a with _ | _ | _ | (_ | _) | _ <;> rcases b with _ | _ | _ | (_ | _) | _ <;>
    simp [literalTokens] at h ⊢ <;> exact h

theorem readable_settingTokens : Readable settingTokens := by
  intro ⟨k, v⟩ ⟨k', v'⟩ r r' h
  simp only [settingTokens, List.append_assoc, List.cons_append] at h
  obtain ⟨rfl, hv⟩ := readable_literalTokens k k' _ _ h
  obtain ⟨rfl, hr⟩ := readable_literalTokens v v' _ _ (List.cons.inj hv).2
  exact ⟨rfl, hr⟩

section
variable {α : Type} {tokens : α → List Token} (h : Readable tokens)
include h

/-- A separator tells that one more item follows. -/
theorem tailTokens_inj (separator : Symbol) : ∀ (as bs : List α) {r r' : List Token},
    r.head? ≠ some (.symbol separator) → r'.head? ≠ some (.symbol separator) →
      tailTokens tokens separator as ++ r = tailTokens tokens separator bs ++ r' → as = bs ∧ r = r'
  | [], [], r, r', _, _, he => ⟨rfl, he⟩
  | [], b :: bs, r, r', hr, _, he => by
    rw [show r = .symbol separator :: _ from he] at hr
    exact absurd rfl hr
  | a :: as, [], r, r', _, hr', he => by
    rw [show r' = .symbol separator :: _ from he.symm] at hr'
    exact absurd rfl hr'
  | a :: as, b :: bs, r, r', hr, hr', he => by
    simp only [tailTokens, List.flatMap_cons, List.cons_append, List.append_assoc] at he
    obtain ⟨rfl, hs⟩ := h a b _ _ (List.cons.inj he).2
    obtain ⟨rfl, hrr⟩ := tailTokens_inj separator as bs hr hr' hs
    exact ⟨rfl, hrr⟩

/-- A closing parenthesis begins no item, so an empty list is told from any other. -/
theorem readable_listTokens (hp : ∀ a r r', tokens a ++ r ≠ .symbol .rightParen :: r') :
    Readable (listTokens tokens) := by
  intro as bs r r' he
  have close : ∀ r, (Token.symbol .rightParen :: r).head? ≠ some (.symbol .comma) := by
    intro r
    simp
  cases as with
  | nil =>
    cases bs with
    | nil => exact ⟨rfl, by simpa [listTokens] using he⟩
    | cons b bs =>
      simp only [listTokens, List.cons_append, List.append_assoc, List.cons.injEq] at he
      exact absurd he.2.symm (hp b _ _)
  | cons a as =>
    cases bs with
    | nil =>
      simp only [listTokens, List.cons_append, List.append_assoc, List.cons.injEq] at he
      exact absurd he.2 (hp a _ _)
    | cons b bs =>
      simp only [listTokens, List.cons_append, List.append_assoc, List.cons.injEq] at he
      obtain ⟨rfl, hs⟩ := h a b _ _ he.2
      obtain ⟨rfl, hr⟩ := tailTokens_inj h .comma as bs (close r) (close r') hs
      exact ⟨rfl, (List.cons.inj hr).2⟩

end

theorem readable_settings : Readable (listTokens settingTokens) := by
  apply readable_listTokens readable_settingTokens
  intro ⟨k, v⟩ r r'
  rcases k with _ | _ | _ | (_ | _) | _ <;> simp [settingTokens, literalTokens]

theorem readable_keys : Readable (listTokens literalTokens) := by
  apply readable_listTokens readable_literalTokens
  intro v r r'
  rcases v with _ | _ | _ | (_ | _) | _ <;> simp [literalTokens]

/-- A name shows its end where no dot follows it. -/
theorem NameTree.tokens_inj (n m : NameTree) {r r' : List Token}
    (hr : r.head? ≠ some (.symbol .dot)) (hr' : r'.head? ≠ some (.symbol .dot))
    (h : n.tokens ++ r = m.tokens ++ r') : n = m ∧ r = r' := by
  obtain ⟨p, ps⟩ := n
  obtain ⟨q, qs⟩ := m
  simp only [tokens, List.append_assoc] at h
  obtain ⟨rfl, hs⟩ := readable_partTokens p q _ _ h
  obtain ⟨rfl, hrr⟩ := tailTokens_inj readable_partTokens .dot ps qs hr hr' hs
  exact ⟨rfl, hrr⟩

theorem ActionTree.tokens_inj (a b : ActionTree) {r r' : List Token}
    (hr : r.head? ≠ some (.symbol .dot)) (hr' : r'.head? ≠ some (.symbol .dot))
    (h : a.tokens ++ r = b.tokens ++ r') : a = b ∧ r = r' := by
  cases a <;> cases b <;> simp only [tokens, List.cons_append, List.cons.injEq] at h
  case set.set as bs =>
    obtain ⟨rfl, hrr⟩ := readable_settings as bs _ _ h.2
    exact ⟨rfl, hrr⟩
  case reset.reset as bs =>
    obtain ⟨rfl, hrr⟩ := readable_keys as bs _ _ h.2
    exact ⟨rfl, hrr⟩
  case rename.rename n m =>
    obtain ⟨rfl, hrr⟩ := NameTree.tokens_inj n m hr hr' h.2.2
    exact ⟨rfl, hrr⟩
  case comment.comment v u =>
    obtain ⟨rfl, hrr⟩ := readable_literalTokens v u _ _ h.2
    exact ⟨rfl, hrr⟩
  all_goals cases h.1

theorem Derivation.tokens_inj (d e : Derivation) (h : d.tokens = e.tokens) : d = e := by
  have hend : ∀ d : Derivation, d.ending.head? ≠ some (.symbol .dot) := by
    intro d
    unfold ending
    split <;> simp
  have haction : ∀ d : Derivation, (d.action.tokens ++ d.ending).head? ≠ some (.symbol .dot) := by
    intro ⟨_, a, _⟩
    cases a <;> simp [ActionTree.tokens]
  simp only [tokens, List.cons.injEq, true_and] at h
  obtain ⟨hn, hs⟩ := NameTree.tokens_inj d.catalog e.catalog (haction d) (haction e) h
  obtain ⟨ha, hc⟩ := ActionTree.tokens_inj d.action e.action (hend d) (hend e) hs
  obtain ⟨n, a, closed⟩ := d
  obtain ⟨m, b, closed'⟩ := e
  subst hn ha
  cases closed <;> cases closed' <;> simp [ending] at hc ⊢

end AlterCatalog.Grammar
