import AlterCatalog.Proofs.Reading

/-!
# Reading looks no further than a stop

A semicolon and the end of the input stop every reader: no phrase has one inside. So whether a
reader succeeds, what it reads and where it stands afterwards is settled by the tokens up to the
first stop, and it never stands behind that stop (`Local`). What comes later counts for nothing.
-/

namespace AlterCatalog.Parser

def isStop (t : Placed) : Bool := isSemicolon t || t.token = .endOfInput

/-- How a reader ends, from where it stands: with a result, or with none. -/
def ending {α : Type} : Option α → Tokens → Except Tokens (α × Tokens)
  | some a, rest => .ok (a, rest)
  | none, rest => .error rest

/-- A reader of which the tokens up to a stop settle the result and the place where it ends. -/
def Local {α : Type} (read : Tokens → Except Tokens (α × Tokens)) : Prop :=
  ∀ (us : Tokens) {c : Placed}, isStop c = true → ∃ r us', us' <:+ us ∧
    ∀ later, read (us ++ c :: later) = ending r (us' ++ c :: later)

/-- The same of an item, which fails without a place. -/
def Item.Local {α : Type} (item : Item α) : Prop :=
  ∀ (us : Tokens) {c : Placed}, isStop c = true →
    (∀ later, item.read (us ++ c :: later) = none) ∨
      ∃ a us', us' <:+ us ∧ ∀ later, item.read (us ++ c :: later) = some (a, us' ++ c :: later)

theorem token_of_isStop {c : Placed} (h : isStop c = true) :
    c.token = .symbol .semicolon ∨ c.token = .endOfInput := by
  simpa [isStop, isSemicolon] using h

section
variable {α β : Type}

theorem Local.bind {read : Tokens → Except Tokens (α × Tokens)}
    {next : α → Tokens → Except Tokens (β × Tokens)} (h : Local read) (hn : ∀ a, Local (next a)) :
    Local fun ts => read ts >>= fun p => next p.1 p.2 := by
  intro us c hc
  obtain ⟨r, us', hs, hr⟩ := h us hc
  cases r with
  | none => exact ⟨none, us', hs, fun later => by simp only [hr]; rfl⟩
  | some a =>
    obtain ⟨r', us'', hs', hr'⟩ := hn a us' hc
    refine ⟨r', us'', hs'.trans hs, fun later => ?_⟩
    rw [← hr' later]
    simp only [hr]
    rfl

theorem local_pure (a : α) : Local fun ts => .ok (a, ts) :=
  fun us _ _ => ⟨some a, us, List.suffix_rfl, fun _ => rfl⟩

/-- What a reader takes has no stop inside, for no reader comes past one. -/
theorem Local.not_isStop_of_mem {read : Tokens → Except Tokens (α × Tokens)} (h : Local read)
    {us rest : Tokens} {a : α} (hr : read (us ++ rest) = .ok (a, rest)) :
    ∀ t ∈ us, isStop t = false := by
  intro t ht
  refine Bool.eq_false_iff.2 fun hs => ?_
  obtain ⟨vs, ws, rfl⟩ := List.append_of_mem ht
  obtain ⟨r, vs', -, hlater⟩ := h vs hs
  rw [List.append_assoc, List.cons_append, hlater] at hr
  cases r with
  | none => cases hr
  | some b =>
    have hrest : vs' ++ t :: (ws ++ rest) = rest := congrArg (·.2) (Except.ok.inj hr)
    have hlen := congrArg List.length hrest
    simp only [List.length_append, List.length_cons] at hlen
    omega

theorem local_expect {token : Token} (hs : token ≠ .symbol .semicolon) (he : token ≠ .endOfInput) :
    Local (expect token) := by
  intro us c hc
  cases us with
  | nil =>
    have hne : c.token ≠ token := by
      rcases token_of_isStop hc with h | h
      · exact h ▸ hs.symm
      · exact h ▸ he.symm
    exact ⟨none, [], List.suffix_rfl, fun later => by simp [expect, hne, ending]⟩
  | cons t us =>
    by_cases ht : t.token = token
    · exact ⟨some t.span, us, List.suffix_cons t us, fun later => by simp [expect, ht, ending]⟩
    · exact ⟨none, t :: us, List.suffix_rfl, fun later => by simp [expect, ht, ending]⟩

theorem Item.local_ofToken {f : Placed → Option α} (hf : ∀ {c}, isStop c = true → f c = none) :
    (Item.ofToken f).Local := by
  intro us c hc
  cases us with
  | nil => exact .inl fun later => by simp [Item.ofToken, hf hc]
  | cons t us =>
    cases ht : f t with
    | none => exact .inl fun later => by simp [Item.ofToken, ht]
    | some a => exact .inr ⟨a, us, List.suffix_cons t us, fun later => by simp [Item.ofToken, ht]⟩

theorem symbol_ne_of_isStop {c : Placed} (hc : isStop c = true) {s : Symbol} (hs : s ≠ .semicolon) :
    c.token ≠ .symbol s := by
  rcases token_of_isStop hc with h | h <;> simp [h, hs.symm]

variable {item : Item α} (hi : item.Local)
include hi

theorem local_following (separator : Symbol) (hsep : separator ≠ .semicolon) {c : Placed}
    (hc : isStop c = true) : ∀ us : Tokens, ∃ as us', us' <:+ us ∧
      ∀ later, following separator item (us ++ c :: later) = (as, us' ++ c :: later)
  | [] => ⟨[], [], List.suffix_rfl, fun _ => following_stop item fun t ht => by
      cases ht
      exact symbol_ne_of_isStop hc hsep⟩
  | t :: us => by
    by_cases ht : t.token = .symbol separator
    · rcases hi us hc with hn | ⟨a, us', hs, hr⟩
      · exact ⟨[], t :: us, List.suffix_rfl, fun later => following_none (hn later)⟩
      · have hlen := hs.length_le
        obtain ⟨as, us'', hs', hf⟩ := local_following separator hsep hc us'
        refine ⟨a :: as, us'', hs'.trans (hs.trans (List.suffix_cons t us)), fun later => ?_⟩
        rw [List.cons_append, following_some ht (hr later), hf]
    · refine ⟨[], t :: us, List.suffix_rfl, fun later => following_stop item fun u hu => ?_⟩
      cases hu
      exact ht
termination_by us => us.length

theorem local_series : Local fun ts => .ok (series item ts) := by
  intro us c hc
  rcases hi us hc with hn | ⟨a, us', hs, hr⟩
  · exact ⟨some [], us, List.suffix_rfl, fun later => by simp only [series, hn, ending]⟩
  · obtain ⟨as, us'', hs', hf⟩ := local_following hi .comma (by simp) hc us'
    exact ⟨some (a :: as), us'', hs'.trans hs, fun later => by simp only [series, hr, hf, ending]⟩

theorem local_listing : Local (listing item) :=
  (local_expect (by simp) (by simp)).bind fun opening => (local_series hi).bind fun items =>
    (local_expect (by simp) (by simp)).bind fun closing =>
      local_pure (⟨items, opening.merge closing⟩ : Listing α)

end

/-! ## The readers of the grammar -/

theorem local_part : part.Local := by
  apply Item.local_ofToken
  intro c hc
  rcases token_of_isStop hc with h | h <;> rw [h]

theorem literalOf?_of_isStop {c : Placed} (hc : isStop c = true) : literalOf? c = none := by
  rcases token_of_isStop hc with h | h <;> rw [literalOf?, h]

theorem local_literal : literal.Local := Item.local_ofToken literalOf?_of_isStop

theorem local_setting : setting.Local := by
  intro us c hc
  have hl := literalOf?_of_isStop hc
  have he := symbol_ne_of_isStop hc (s := .equal) (by simp)
  match us with
  | [] =>
    left
    intro later
    match later with
    | [] => rfl
    | [_] => rfl
    | _ :: _ :: _ => simp [setting, hl]
  | [k] =>
    left
    intro later
    match later with
    | [] => rfl
    | _ :: _ => simp [setting, he]
  | [k, e] => exact .inl fun later => by simp [setting, hl]
  | k :: e :: v :: us =>
    have hs : us <:+ k :: e :: v :: us := ⟨[k, e, v], rfl⟩
    cases hk : literalOf? k with
    | none => exact .inl fun later => by simp [setting, hk]
    | some key =>
      cases hv : literalOf? v with
      | none => exact .inl fun later => by simp [setting, hv]
      | some value =>
        by_cases ht : e.token = .symbol .equal
        · refine .inr ⟨⟨key, value, key.span.merge value.span⟩, us, hs, fun later => ?_⟩
          simp only [List.cons_append, setting, hk, hv, ht]
        · exact .inl fun later => by simp [setting, ht]

theorem local_name : Local name := by
  intro us c hc
  rcases local_part us hc with hn | ⟨p, us', hs, hr⟩
  · exact ⟨none, us, List.suffix_rfl, fun later => by simp only [name, hn, ending]⟩
  · obtain ⟨as, us'', hs', hf⟩ := local_following local_part .dot (by simp) hc us'
    exact ⟨some _, us'', hs'.trans hs, fun later => by simp only [name, hr, hf]; rfl⟩

theorem local_action : Local action := by
  intro us c hc
  cases us with
  | nil =>
    refine ⟨none, [], List.suffix_rfl, fun later => ?_⟩
    rcases token_of_isStop hc with h | h <;> simp [action, h, ending]
  | cons t us =>
    have other : (∀ later, action (t :: (us ++ c :: later)) = .error (t :: (us ++ c :: later))) →
        ∃ r us', us' <:+ t :: us ∧
          ∀ later, action (t :: us ++ c :: later) = ending r (us' ++ c :: later) :=
      fun h => ⟨none, t :: us, List.suffix_rfl, h⟩
    have after : ∀ {next : Tokens → Except Tokens ((Action × Span) × Tokens)}, Local next →
        (∀ ts, action (t :: ts) = next ts) →
        ∃ r us', us' <:+ t :: us ∧
          ∀ later, action (t :: us ++ c :: later) = ending r (us' ++ c :: later) := by
      intro next hn h
      obtain ⟨r, us', hs, hr⟩ := hn us hc
      exact ⟨r, us', hs.trans (List.suffix_cons t us), fun later => (h _).trans (hr later)⟩
    cases ht : t.token with
    | keyword k =>
      cases k with
      | set =>
        exact after ((local_listing local_setting).bind fun l => local_pure (.set l, l.span))
          fun ts => action_set ts ht
      | reset =>
        exact after ((local_listing local_literal).bind fun l => local_pure (.reset l, l.span))
          fun ts => action_reset ts ht
      | rename =>
        have hto : Local (expect (.keyword .to_)) := local_expect (by simp) (by simp)
        exact after (hto.bind fun _ => local_name.bind fun n => local_pure (.rename n, n.span))
          fun ts => action_rename ts ht
      | comment =>
        rcases local_literal us hc with hn | ⟨l, us', hs, hr⟩
        · refine ⟨none, us, List.suffix_cons t us, fun later => ?_⟩
          simp only [List.cons_append, action, ht, hn, ending]
        · refine ⟨some (.comment l, l.span), us', hs.trans (List.suffix_cons t us), fun later => ?_⟩
          simp only [List.cons_append, action, ht, hr, ending]
      | _ => exact other fun later => by simp only [action, ht]
    | _ => exact other fun later => by simp only [action, ht]

theorem local_statement : Local statement :=
  (local_expect (by simp) (by simp)).bind fun first =>
    (local_expect (by simp) (by simp)).bind fun _ => local_name.bind fun catalog =>
      local_action.bind fun a => local_pure (⟨first.merge a.2, catalog, a.1⟩ : Statement)

end AlterCatalog.Parser
