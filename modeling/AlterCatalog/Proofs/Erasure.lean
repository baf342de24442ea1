import AlterCatalog.Proofs.Script

/-!
# Reading does not look at places

A reader compares tokens and only copies their spans. So over tokens without places it does what it
does over the tokens of a text: it makes the same tree without spans, or stops at the same token.
Two texts of the same tokens read alike, then, wherever these stand.
-/

namespace AlterCatalog

def Placed.bare (t : Placed) : Placed := ⟨t.token, {}⟩

/-- An error without the place where it arose. -/
def ParseError.bare : ParseError → ParseError
  | lexical e => lexical ⟨e.fault, {}⟩
  | unexpectedToken found _ => unexpectedToken found {}
  | unexpectedEnd _ => unexpectedEnd {}
  | emptyInput => emptyInput

theorem ParseError.bare_atHead (ts : List Placed) :
    (ParseError.atHead ts).bare = .atHead (ts.map Placed.bare) := by
  cases ts with
  | nil => rfl
  | cons t ts =>
    by_cases h : t.token = .endOfInput <;> simp [atHead, Placed.bare, h, ParseError.bare]

namespace Parser

theorem map_bare_eq {ts us : Tokens} (h : ts.map Placed.token = us.map Placed.token) :
    ts.map Placed.bare = us.map Placed.bare := by
  have hm : ∀ vs : Tokens,
      vs.map Placed.bare = (vs.map Placed.token).map fun t => ⟨t, {}⟩ := by
    simp [Placed.bare]
  rw [hm, hm, h]

section
variable {α β : Type} {forget : α → α} {forget' : β → β}

/-- How a reader ends, places forgotten. -/
def bareEnding (forget : α → α) : Except Tokens (α × Tokens) → Except Tokens (α × Tokens)
  | .ok (a, rest) => .ok (forget a, rest.map Placed.bare)
  | .error rest => .error (rest.map Placed.bare)

/-- A reader that does over bare tokens what another one does over the tokens with their places. -/
def Blind (forget : α → α) (read bareRead : Tokens → Except Tokens (α × Tokens)) : Prop :=
  ∀ ts, bareRead (ts.map Placed.bare) = bareEnding forget (read ts)

/-- The same of an item. -/
def Item.Blind (forget : α → α) (item : Item α) : Prop :=
  ∀ ts, item.read (ts.map Placed.bare) =
    (item.read ts).map fun p => (forget p.1, p.2.map Placed.bare)

theorem Blind.bind {read bareRead : Tokens → Except Tokens (α × Tokens)}
    {next bareNext : α → Tokens → Except Tokens (β × Tokens)} (h : Blind forget read bareRead)
    (hn : ∀ a b, forget a = b → Blind forget' (next a) (bareNext b)) :
    Blind forget' (fun ts => read ts >>= fun p => next p.1 p.2)
      fun ts => bareRead ts >>= fun p => bareNext p.1 p.2 := by
  intro ts
  simp only [h ts]
  cases read ts with
  | error rest => rfl
  | ok p => exact hn p.1 _ rfl p.2

theorem blind_pure (forget : α → α) (a b : α) (h : forget a = b) :
    Blind forget (fun ts => .ok (a, ts)) fun ts => .ok (b, ts) := by
  intro ts
  rw [← h]
  rfl

theorem blind_expect (token : Token) : Blind (fun _ => {}) (expect token) (expect token) := by
  intro ts
  cases ts with
  | nil => rfl
  | cons t ts => by_cases h : t.token = token <;> simp [expect, Placed.bare, h, bareEnding]

theorem Item.blind_ofToken {f : Placed → Option α} (hf : ∀ t, f t.bare = (f t).map forget) :
    (Item.ofToken f).Blind forget := by
  intro ts
  cases ts with
  | nil => rfl
  | cons t ts => cases h : f t <;> simp [Item.ofToken, hf, h]

variable {item : Item α} (hi : item.Blind forget)
include hi

theorem blind_following (separator : Symbol) (ts : Tokens) :
    following separator item (ts.map Placed.bare) =
      ((following separator item ts).1.map forget,
        (following separator item ts).2.map Placed.bare) := by
  fun_induction following separator item ts with
  | case1 => simp [following]
  | case2 t rest ht a rest' hr _ ih =>
    have hb : item.read (rest.map Placed.bare) = some (forget a, rest'.map Placed.bare) := by
      rw [hi, hr]
      rfl
    rw [List.map_cons, following_some (t := t.bare) ht hb, ih]
    rfl
  | case3 t rest ht hr =>
    rw [List.map_cons, following_none (by rw [hi, hr]; rfl)]
    rfl
  | case4 t rest ht =>
    refine following_stop item fun u hu => ?_
    cases hu
    exact ht

theorem blind_series : Blind (List.map forget) (fun ts => .ok (series item ts))
    fun ts => .ok (series item ts) := by
  intro ts
  simp only [series, hi ts]
  cases item.read ts with
  | none => rfl
  | some p => simp only [Option.map_some, blind_following hi, bareEnding, List.map_cons]

theorem blind_listing : Blind (Listing.bare forget) (listing item) (listing item) :=
  (blind_expect _).bind fun o o' ho => (blind_series hi).bind fun as as' has =>
    (blind_expect _).bind fun c c' hc => blind_pure (Listing.bare forget) ⟨as, o.merge c⟩
      ⟨as', o'.merge c'⟩ (by rw [← ho, ← has, ← hc]; rfl)

end

/-! ## The readers of the grammar -/

theorem blind_part : part.Blind fun p => (p.1, {}) := by
  apply Item.blind_ofToken
  intro t
  obtain ⟨token, span⟩ := t
  cases token <;> rfl

theorem literalOf?_bare (t : Placed) : literalOf? t.bare = (literalOf? t).map Literal.bare := by
  obtain ⟨token, span⟩ := t
  cases token with
  | keyword k => cases k <;> rfl
  | _ => rfl

theorem blind_literal : literal.Blind Literal.bare := Item.blind_ofToken literalOf?_bare

theorem blind_setting : setting.Blind Setting.bare := by
  intro ts
  match ts with
  | [] => rfl
  | [_] => rfl
  | [_, _] => rfl
  | k :: e :: v :: rest =>
    simp only [List.map_cons, setting, literalOf?_bare]
    cases literalOf? k with
    | none => rfl
    | some key =>
      cases literalOf? v with
      | none => simp
      | some value =>
        by_cases he : e.token = .symbol .equal
        · simp [Placed.bare, he]
          rfl
        · simp [Placed.bare, he]

theorem blind_name : Blind Name.bare name name := by
  intro ts
  have hmerge : ∀ spans : List Span, (spans.map fun _ => ({} : Span)).foldl Span.merge {} = {} := by
    intro spans
    induction spans with
    | nil => rfl
    | cons _ _ ih => exact ih
  simp only [name, blind_part ts]
  cases part.read ts with
  | none => rfl
  | some p =>
    have hspans := hmerge ((following .dot part p.2).1.map Prod.snd)
    rw [List.map_map] at hspans
    simp only [Option.map_some, blind_following blind_part, List.map_map, bareEnding, Name.bare]
    exact congrArg (fun sp => Except.ok (Name.mk _ sp, _)) hspans

theorem blind_action : Blind (fun p => (p.1.bare, {})) action action := by
  intro ts
  cases ts with
  | nil => rfl
  | cons t ts =>
    have after : ∀ {next : Tokens → Except Tokens ((Action × Span) × Tokens)},
        Blind (fun p => (p.1.bare, {})) next next →
        (∀ {u : Placed}, u.token = t.token → ∀ ts, action (u :: ts) = next ts) →
        action ((t :: ts).map Placed.bare) =
          bareEnding (fun p => (p.1.bare, {})) (action (t :: ts)) := by
      intro next hn h
      rw [List.map_cons, h (u := t.bare) rfl, h rfl, hn]
    cases ht : t.token with
    | keyword k =>
      cases k with
      | set =>
        exact after ((blind_listing blind_setting).bind fun l l' hl =>
          blind_pure _ (Action.set l, l.span) (.set l', l'.span) (by rw [← hl]; rfl))
          fun hu ts => action_set ts (hu.trans ht)
      | reset =>
        exact after ((blind_listing blind_literal).bind fun l l' hl =>
          blind_pure _ (Action.reset l, l.span) (.reset l', l'.span) (by rw [← hl]; rfl))
          fun hu ts => action_reset ts (hu.trans ht)
      | rename =>
        exact after ((blind_expect _).bind fun _ _ _ => blind_name.bind fun n n' hn =>
          blind_pure _ (Action.rename n, n.span) (.rename n', n'.span) (by rw [← hn]; rfl))
          fun hu ts => action_rename ts (hu.trans ht)
      | comment =>
        simp only [List.map_cons, action, Placed.bare, ht, blind_literal ts]
        cases literal.read ts <;> rfl
      | _ => simp only [List.map_cons, action, Placed.bare, ht, bareEnding]
    | _ => simp only [List.map_cons, action, Placed.bare, ht, bareEnding]

theorem blind_statement : Blind Statement.bare statement statement :=
  (blind_expect _).bind fun f f' hf => (blind_expect _).bind fun _ _ _ =>
    blind_name.bind fun n n' hn => blind_action.bind fun a a' ha =>
      blind_pure Statement.bare ⟨f.merge a.2, n, a.1⟩ ⟨f'.merge a'.2, n', a'.1⟩
        (by rw [← hf, ← hn, ← ha]; rfl)

/-! ## Whole texts -/

theorem atEnd_bare (ts : Tokens) : atEnd (ts.map Placed.bare) = atEnd ts := by
  cases ts <;> rfl

theorem head?_bare_semicolon (ts : Tokens) :
    (ts.map Placed.bare).head?.any isSemicolon = ts.head?.any isSemicolon := by
  cases ts <;> rfl

theorem afterSemicolon_bare (ts : Tokens) :
    afterSemicolon (ts.map Placed.bare) = (afterSemicolon ts).map Placed.bare := by
  unfold afterSemicolon
  rw [head?_bare_semicolon]
  split
  · exact List.map_tail.symm
  · rfl

theorem script_bare (ts : Tokens) : script (ts.map Placed.bare) =
    ((script ts).1.map Statement.bare, (script ts).2.map ParseError.bare) := by
  have hd : ∀ ts : Tokens, (ts.map Placed.bare).dropWhile isSemicolon =
      (ts.dropWhile isSemicolon).map Placed.bare := fun _ => List.dropWhile_map
  fun_induction script ts with
  | case1 ts he => rw [script_eq, hd, atEnd_bare, if_pos he]; rfl
  | case2 ts he rest hs =>
    rw [script_eq, hd, atEnd_bare, if_neg he, blind_statement, hs]
    simp [bareEnding, ParseError.bare_atHead]
  | case3 ts he s rest hs _ hr ih =>
    rw [script_eq, hd, atEnd_bare, if_neg he, blind_statement, hs]
    simp only [bareEnding, atEnd_bare, head?_bare_semicolon, hr, if_true, ih]
    rfl
  | case4 ts he s rest hs _ hr =>
    rw [script_eq, hd, atEnd_bare, if_neg he, blind_statement, hs]
    simp only [bareEnding, atEnd_bare, head?_bare_semicolon, hr]
    simp [ParseError.bare_atHead]

end Parser

/-- The outcome of reading a text, places forgotten. -/
def bareOutcome {α : Type} (forget : α → α) : Except ParseError α → Except ParseError α
  | .ok a => .ok (forget a)
  | .error e => .error e.bare

namespace Parser

theorem single_bare (ts : Tokens) :
    single (ts.map Placed.bare) = bareOutcome Statement.bare (single ts) := by
  rw [single_eq, single_eq, atEnd_bare, blind_statement ts]
  split
  · rfl
  · cases statement ts with
    | error rest => simp [bareEnding, bareOutcome, ParseError.bare_atHead]
    | ok p =>
      simp only [bareEnding, afterSemicolon_bare, atEnd_bare]
      split
      · rfl
      · simp [bareOutcome, ParseError.bare_atHead]

end Parser

/-- Two texts that both readers read alike: as the same statements without their spans, or with the
same error without its place. -/
structure ReadAlike (a b : String) : Prop where
  statement : bareOutcome Statement.bare (parseStatement a) =
    bareOutcome Statement.bare (parseStatement b)
  script : bareOutcome (List.map Statement.bare) (parseScript a) =
    bareOutcome (List.map Statement.bare) (parseScript b)

theorem parseStatement_bare {input : String} {ts : List Placed} (h : tokenize input = .ok ts) :
    bareOutcome Statement.bare (parseStatement input) = Parser.single (ts.map Placed.bare) := by
  rw [Parser.single_bare, parseStatement, h]

theorem parseScript_bare {input : String} {ts : List Placed} (h : tokenize input = .ok ts) :
    bareOutcome (List.map Statement.bare) (parseScript input) =
      Parser.verdict (Parser.script (ts.map Placed.bare)) := by
  rw [parseScript_eq_verdict h, Parser.script_bare]
  rcases Parser.script ts with ⟨_ | ⟨s, ss⟩, _ | e⟩ <;> rfl

/-- Texts of the same tokens read alike. -/
theorem readAlike_of_map_token {a b : String} {ts us : List Placed} (ha : tokenize a = .ok ts)
    (hb : tokenize b = .ok us) (h : ts.map Placed.token = us.map Placed.token) : ReadAlike a b where
  statement := by rw [parseStatement_bare ha, parseStatement_bare hb, Parser.map_bare_eq h]
  script := by rw [parseScript_bare ha, parseScript_bare hb, Parser.map_bare_eq h]

end AlterCatalog
