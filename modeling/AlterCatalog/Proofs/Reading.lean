import AlterCatalog.Statement.Grammar
import AlterCatalog.Statement.Parser

/-!
# Reading follows the grammar

Each reader takes the tokens of one phrase off the front and leaves the rest: what it takes is
derived by the grammar (`_sound`), and every phrase of the grammar is taken whole (`_complete`).
One token decides whether a name goes on, so a phrase that ends in a name asks that no dot follows.
The span of a phrase runs from its first token to its last.
-/

namespace AlterCatalog.Parser

open Grammar

theorem bind_eq_ok {ε α β : Type} {x : Except ε α} {f : α → Except ε β} {b : β} :
    (x >>= f) = .ok b ↔ ∃ a, x = .ok a ∧ f a = .ok b := by
  cases x with
  | error e => simp [bind, Except.bind]
  | ok a => simp [bind, Except.bind]

/-! ## Spans of phrases -/

/-- Tokens as they stand in a text: none is empty, and each is over before the next begins. -/
structure Ordered (ts : Tokens) : Prop where
  nonempty : ∀ t ∈ ts, t.span.start.offset < t.span.finish.offset
  apart : ts.Pairwise fun a b => a.span.finish.offset ≤ b.span.start.offset

/-- A span from the start of the first token to the end of the last. -/
def Covers (span : Span) (ts : Tokens) : Prop :=
  ts.head?.map (fun t => t.span.start) = some span.start ∧
    ts.getLast?.map (fun t => t.span.finish) = some span.finish

theorem Ordered.of_append {ts us : Tokens} (h : Ordered (ts ++ us)) : Ordered ts ∧ Ordered us := by
  obtain ⟨hn, ha⟩ := h
  obtain ⟨hts, hus, _⟩ := List.pairwise_append.1 ha
  exact ⟨⟨fun t ht => hn t (List.mem_append_left _ ht), hts⟩,
    ⟨fun t ht => hn t (List.mem_append_right _ ht), hus⟩⟩

theorem covers_singleton (t : Placed) : Covers t.span [t] := ⟨rfl, rfl⟩

theorem Covers.merge {a b : Span} {us vs : Tokens} (ha : Covers a us) (hb : Covers b vs)
    (mid : Tokens) (h : Ordered (us ++ mid ++ vs)) : Covers (a.merge b) (us ++ mid ++ vs) := by
  obtain ⟨u, hu, hau⟩ := Option.map_eq_some_iff.1 ha.1
  obtain ⟨u', hu', hau'⟩ := Option.map_eq_some_iff.1 ha.2
  obtain ⟨v, hv, hbv⟩ := Option.map_eq_some_iff.1 hb.1
  obtain ⟨v', hv', hbv'⟩ := Option.map_eq_some_iff.1 hb.2
  have cross : ∀ x ∈ us, ∀ y ∈ vs, x.span.finish.offset ≤ y.span.start.offset := by
    intro x hx y hy
    exact (List.pairwise_append.1 h.apart).2.2 x (List.mem_append_left _ hx) y hy
  have hum := List.mem_of_mem_head? hu
  have hvm' := List.mem_of_mem_getLast? hv'
  have h1 := cross u hum v (List.mem_of_mem_head? hv)
  have h2 := cross u' (List.mem_of_mem_getLast? hu') v' hvm'
  have h3 := h.nonempty u (by simp [hum])
  have h4 := h.nonempty v' (by simp [hvm'])
  have hs : ¬b.start.offset < a.start.offset := by
    rw [← hau, ← hbv]
    omega
  have hf : a.finish.offset < b.finish.offset := by
    rw [← hau', ← hbv']
    omega
  constructor
  · simp [List.head?_append, hu, Span.merge, hs, hau]
  · simp [List.getLast?_append, hv', Span.merge, hf, hbv']

/-! ## Items -/

/-- An item that reads the phrases of a grammar. -/
structure Item.Reads {α β : Type} (item : Item α) (view : α → β) (span : α → Span)
    (phrase : List Token → β → Prop) : Prop where
  sound : ∀ {ts rest : Tokens} {a : α}, item.read ts = some (a, rest) →
    ∃ us, ts = us ++ rest ∧ phrase (us.map Placed.token) (view a) ∧ (Ordered us → Covers (span a) us)
  complete : ∀ {us : Tokens} {b : β}, phrase (us.map Placed.token) b →
    ∃ a, view a = b ∧ ∀ rest, item.read (us ++ rest) = some (a, rest)

theorem Item.reads_ofToken {α β : Type} {f : Placed → Option α} {view : α → β} {span : α → Span}
    {phrase : Token → β → Prop} (hs : ∀ {t a}, f t = some a → phrase t.token (view a) ∧ span a = t.span)
    (hc : ∀ {t b}, phrase t.token b → ∃ a, view a = b ∧ f t = some a) :
    (Item.ofToken f).Reads view span fun ts b => ∃ t, ts = [t] ∧ phrase t b where
  sound := by
    intro ts rest a h
    cases ts with
    | nil => cases h
    | cons t ts =>
      obtain ⟨a', ha, he⟩ := Option.map_eq_some_iff.1 h
      cases he
      obtain ⟨hp, hspan⟩ := hs ha
      exact ⟨[t], rfl, ⟨t.token, rfl, hp⟩, fun _ => hspan ▸ covers_singleton t⟩
  complete := by
    intro us b ⟨t, ht, hp⟩
    obtain ⟨u, rfl, rfl⟩ := List.map_eq_singleton_iff.1 ht
    obtain ⟨a, hv, ha⟩ := hc hp
    exact ⟨a, hv, fun rest => by simp [Item.ofToken, ha]⟩

theorem part_reads :
    part.Reads Prod.fst Prod.snd fun ts name => ∃ t, ts = [t] ∧ Part t name := by
  apply Item.reads_ofToken
  · intro t a h
    split at h
    · next name ht =>
      cases h
      exact ⟨ht ▸ .bare name, rfl⟩
    · next name ht =>
      cases h
      exact ⟨ht ▸ .delimited name, rfl⟩
    · cases h
  · intro t b h
    generalize ht : t.token = token at h
    cases h with
    | bare => exact ⟨(b, t.span), rfl, rfl⟩
    | delimited => exact ⟨(b, t.span), rfl, rfl⟩

theorem literalOf?_sound {t : Placed} {l : Literal} (h : literalOf? t = some l) :
    Value t.token l.value ∧ l.span = t.span := by
  cases ht : t.token with
  | string value =>
    rw [literalOf?, ht] at h
    cases h
    exact ⟨.text value, rfl⟩
  | integer value =>
    rw [literalOf?, ht] at h
    cases h
    exact ⟨.integer value, rfl⟩
  | decimal digits =>
    rw [literalOf?, ht] at h
    cases h
    exact ⟨.decimal digits, rfl⟩
  | keyword k =>
    cases k with
    | true =>
      rw [literalOf?, ht] at h
      cases h
      exact ⟨.yes, rfl⟩
    | false =>
      rw [literalOf?, ht] at h
      cases h
      exact ⟨.no, rfl⟩
    | null =>
      rw [literalOf?, ht] at h
      cases h
      exact ⟨.null, rfl⟩
    | _ =>
      rw [literalOf?, ht] at h
      cases h
  | _ =>
    rw [literalOf?, ht] at h
    cases h

theorem literalOf?_complete {t : Placed} {v : LiteralValue} (h : Value t.token v) :
    literalOf? t = some ⟨v, t.span⟩ := by
  generalize ht : t.token = token at h
  cases h <;> simp [literalOf?, ht]

theorem literal_reads : literal.Reads Literal.bare Literal.span LiteralOf where
  sound := by
    intro ts rest a h
    cases ts with
    | nil => cases h
    | cons t ts =>
      obtain ⟨l, hl, he⟩ := Option.map_eq_some_iff.1 h
      cases he
      obtain ⟨hv, hspan⟩ := literalOf?_sound hl
      exact ⟨[t], rfl, .intro hv, fun _ => hspan ▸ covers_singleton t⟩
  complete := by
    intro us b h
    generalize hu : us.map Placed.token = ts at h
    obtain ⟨hv⟩ := h
    obtain ⟨t, rfl, rfl⟩ := List.map_eq_singleton_iff.1 hu
    exact ⟨⟨_, t.span⟩, rfl, fun rest => by simp [literal, Item.ofToken, literalOf?_complete hv]⟩

theorem setting_reads : setting.Reads Setting.bare Setting.span SettingOf where
  sound := by
    intro ts rest a h
    simp only [setting] at h
    split at h
    · next k e v rest' =>
      split at h
      · next key value hk he hv =>
        cases h
        obtain ⟨hkv, hks⟩ := literalOf?_sound hk
        obtain ⟨hvv, hvs⟩ := literalOf?_sound hv
        refine ⟨[k, e, v], rfl, ?_, fun ho => ?_⟩
        · have hp := SettingOf.intro (.intro hkv) (.intro hvv)
          rw [← he] at hp
          exact hp
        · rw [hks, hvs]
          exact (covers_singleton k).merge (covers_singleton v) [e] ho
      · cases h
    · cases h
  complete := by
    intro us b h
    generalize hu : us.map Placed.token = ts at h
    obtain ⟨⟨hk⟩, ⟨hv⟩⟩ := h
    obtain ⟨u, us', rfl, rfl, hu'⟩ := List.map_eq_cons_iff.1 hu
    obtain ⟨e, vs, rfl, he, hv'⟩ := List.map_eq_cons_iff.1 hu'
    obtain ⟨v, rfl, rfl⟩ := List.map_eq_singleton_iff.1 hv'
    refine ⟨⟨⟨_, u.span⟩, ⟨_, v.span⟩, u.span.merge v.span⟩, rfl, fun rest => ?_⟩
    simp [setting, literalOf?_complete hk, literalOf?_complete hv, he]

/-! ## Lists of items -/

theorem following_some {α : Type} {separator : Symbol} {item : Item α} {t : Placed}
    {rest rest' : Tokens} {a : α} (ht : t.token = .symbol separator)
    (h : item.read rest = some (a, rest')) :
    following separator item (t :: rest) =
      (a :: (following separator item rest').1, (following separator item rest').2) := by
  rw [following, if_pos ht]
  split
  · next h' =>
    rw [h] at h'
    cases h'
    rfl
  · next h' =>
    rw [h] at h'
    cases h'

theorem following_none {α : Type} {separator : Symbol} {item : Item α} {t : Placed} {rest : Tokens}
    (h : item.read rest = none) : following separator item (t :: rest) = ([], t :: rest) := by
  rw [following]
  split
  · split
    · next h' =>
      rw [h] at h'
      cases h'
    · rfl
  · rfl

theorem following_stop {α : Type} {separator : Symbol} (item : Item α) {ts : Tokens}
    (h : ∀ t ∈ ts.head?, t.token ≠ .symbol separator) : following separator item ts = ([], ts) := by
  cases ts with
  | nil => rw [following]
  | cons t ts => rw [following, if_neg (h t rfl)]

/-- A list of items does not go on with the given tokens: no separator comes first, or one that no
whole item follows. -/
def Stops {α : Type} (separator : Symbol) (item : Item α) (rest : Tokens) : Prop :=
  following separator item rest = ([], rest)

section
variable {α β : Type} {item : Item α} {view : α → β} {span : α → Span}
  {phrase : List Token → β → Prop} (hi : item.Reads view span phrase)
include hi

theorem following_sound (separator : Symbol) (ts : Tokens) : ∃ us,
    ts = us ++ (following separator item ts).2 ∧
      ∀ first a, phrase first a → Separated separator phrase (first ++ us.map Placed.token)
        (a :: (following separator item ts).1.map view) := by
  fun_induction following separator item ts with
  | case1 => exact ⟨[], rfl, fun first a h => by simpa using .one h⟩
  | case2 t rest ht a rest' hr _ ih =>
    obtain ⟨us, rfl, hp, _⟩ := hi.sound hr
    obtain ⟨vs, hvs, hsep⟩ := ih
    refine ⟨t :: (us ++ vs), by simp [← hvs], fun first b h => ?_⟩
    have hm := Separated.more h (hsep _ _ hp)
    simpa [ht] using hm
  | case3 t rest => exact ⟨[], rfl, fun first a h => by simpa using .one h⟩
  | case4 t rest => exact ⟨[], rfl, fun first a h => by simpa using .one h⟩

/-- The span of a list of phrases, merged from left to right. -/
theorem following_covers (separator : Symbol) (ts : Tokens) : ∀ {us ws : Tokens} {sp : Span},
    ts = us ++ (following separator item ts).2 → Covers sp ws → Ordered (ws ++ us) →
      Covers (((following separator item ts).1.map span).foldl Span.merge sp) (ws ++ us) := by
  have stop : ∀ {ts us ws : Tokens} {sp : Span}, ts = us ++ ts → Covers sp ws →
      Covers sp (ws ++ us) := by
    intro ts us ws sp h hc
    rw [List.self_eq_append_left.1 h, List.append_nil]
    exact hc
  fun_induction following separator item ts with
  | case1 => exact fun h hc _ => stop h hc
  | case2 t rest ht a rest' hr _ ih =>
    intro us ws sp h hc ho
    obtain ⟨vs, rfl, _, hcov⟩ := hi.sound hr
    -- The span so far covers `ws`; with the separator and the item it covers `ws ++ [t] ++ vs`.
    obtain ⟨vs', hvs', _⟩ := following_sound hi separator rest'
    have hus : us ++ (following separator item rest').2 =
        t :: (vs ++ vs') ++ (following separator item rest').2 := by
      rw [← h, List.cons_append, List.append_assoc, ← hvs']
    obtain rfl := List.append_cancel_right hus
    have hassoc : ws ++ t :: (vs ++ vs') = ws ++ [t] ++ vs ++ vs' := by simp
    rw [hassoc] at ho ⊢
    obtain ⟨ho', _⟩ := ho.of_append
    rw [List.map_cons, List.foldl_cons]
    exact ih hvs' (hc.merge (hcov ho'.of_append.2) [t] ho') ho
  | case3 => exact fun h hc _ => stop h hc
  | case4 => exact fun h hc _ => stop h hc

theorem following_complete {separator : Symbol} {rest : Tokens} (hr : Stops separator item rest)
    {ts : List Token} {bs : List β} (h : Separated separator phrase ts bs) :
    ∀ {us : Tokens}, us.map Placed.token = ts →
      ∃ a rest', item.read (us ++ rest) = some (a, rest') ∧
        (following separator item rest').2 = rest ∧
        view a :: (following separator item rest').1.map view = bs := by
  induction h with
  | one hp =>
    intro us hu
    obtain ⟨a, rfl, ha⟩ := hi.complete (hu ▸ hp)
    have stop : following separator item rest = ([], rest) := hr
    exact ⟨a, rest, ha rest, by simp [stop]⟩
  | more hp _ ih =>
    intro us hu
    obtain ⟨vs, ws, rfl, hvs, hws⟩ := List.map_eq_append_iff.1 hu
    obtain ⟨t, ws', rfl, ht, hws'⟩ := List.map_eq_cons_iff.1 hws
    obtain ⟨a, rfl, ha⟩ := hi.complete (hvs ▸ hp)
    obtain ⟨b, rest', hb, hrest, hbs⟩ := ih hws'
    refine ⟨a, t :: (ws' ++ rest), by rw [List.append_assoc]; exact ha _, ?_⟩
    rw [following_some ht hb]
    exact ⟨hrest, by rw [← hbs]; rfl⟩

end

theorem name_sound {ts rest : Tokens} {n : Name} (h : name ts = .ok (n, rest)) :
    ∃ us, ts = us ++ rest ∧ NameOf (us.map Placed.token) n.bare ∧
      (Ordered us → Covers n.span us) := by
  unfold name at h
  split at h
  · next p rest' hp =>
    cases h
    obtain ⟨us, rfl, hpart, hcov⟩ := part_reads.sound hp
    obtain ⟨vs, hvs, hsep⟩ := following_sound part_reads .dot rest'
    refine ⟨us ++ vs, by rw [List.append_assoc, ← hvs], ?_, fun ho => ?_⟩
    · have hs := hsep _ _ hpart
      rw [← List.map_append] at hs
      exact .intro hs
    · exact following_covers part_reads .dot rest' hvs (hcov ho.of_append.1) ho
  · cases h

theorem name_complete {us rest : Tokens} {n : Name} (hr : Stops .dot part rest)
    (h : NameOf (us.map Placed.token) n) :
    ∃ n', n'.bare = n ∧ name (us ++ rest) = .ok (n', rest) := by
  obtain ⟨hs⟩ := h
  obtain ⟨p, rest', hp, hrest, hparts⟩ := following_complete part_reads hr hs rfl
  refine ⟨⟨p.1 :: (following .dot part rest').1.map Prod.fst,
    ((following .dot part rest').1.map Prod.snd).foldl Span.merge p.2⟩, ?_, ?_⟩
  · rw [Name.bare, ← hparts]
  · simp only [name, hp, hrest]

theorem expect_eq_ok {token : Token} {ts rest : Tokens} {sp : Span} :
    expect token ts = .ok (sp, rest) ↔ ∃ t, ts = t :: rest ∧ t.token = token ∧ t.span = sp := by
  constructor
  · intro h
    cases ts with
    | nil => cases h
    | cons t ts =>
      simp only [expect] at h
      split at h <;> cases h
      next ht => exact ⟨t, rfl, ht, rfl⟩
  · rintro ⟨t, rfl, rfl, rfl⟩
    simp [expect]

theorem expect_cons {token : Token} {t : Placed} (h : t.token = token) (rest : Tokens) :
    expect token (t :: rest) = .ok (t.span, rest) :=
  expect_eq_ok.2 ⟨t, rfl, h, rfl⟩

/-- The parentheses around the items of a listing. -/
theorem parens_of_listing {α : Type} {item : Item α} {ts rest : Tokens} {l : Listing α}
    (h : listing item ts = .ok (l, rest)) : ∃ o ts' c, ts = o :: ts' ∧
      o.token = .symbol .leftParen ∧ (series item ts').2 = c :: rest ∧
      c.token = .symbol .rightParen ∧ l = ⟨(series item ts').1, o.span.merge c.span⟩ := by
  obtain ⟨⟨opening, ts'⟩, ho, h⟩ := bind_eq_ok.1 h
  obtain ⟨⟨closing, rest'⟩, hc, h⟩ := bind_eq_ok.1 h
  cases h
  obtain ⟨o, rfl, hot, rfl⟩ := expect_eq_ok.1 ho
  obtain ⟨c, hts, hct, rfl⟩ := expect_eq_ok.1 hc
  exact ⟨o, ts', c, rfl, hot, hts, hct, rfl⟩

section
variable {α : Type} {item : Item α} {bare : α → α} {span : α → Span}
  {phrase : List Token → α → Prop} (hi : item.Reads bare span phrase)
include hi

theorem listing_sound {ts rest : Tokens} {l : Listing α} (h : listing item ts = .ok (l, rest)) :
    ∃ us, ts = us ++ rest ∧ Listed phrase (us.map Placed.token) (l.bare bare) ∧
      (Ordered us → Covers l.span us) := by
  obtain ⟨o, ts', c, rfl, hot, hrest, hct, rfl⟩ := parens_of_listing h
  have close : ∀ mid : Tokens, Ordered (o :: (mid ++ [c])) →
      Covers (o.span.merge c.span) (o :: (mid ++ [c])) :=
    fun mid ho => (covers_singleton o).merge (covers_singleton c) mid ho
  cases hread : item.read ts' with
  | none =>
    simp only [series, hread] at hrest ⊢
    refine ⟨[o, c], by simp [hrest], ?_, close []⟩
    simp only [Listing.bare, List.map_cons, List.map_nil, hot, hct]
    exact .none
  | some p =>
    obtain ⟨a, rest'⟩ := p
    simp only [series, hread] at hrest ⊢
    obtain ⟨us, rfl, hp, _⟩ := hi.sound hread
    obtain ⟨vs, hvs, hsep⟩ := following_sound hi .comma rest'
    rw [hrest] at hvs
    refine ⟨o :: (us ++ vs ++ [c]), by simp [hvs], ?_, close (us ++ vs)⟩
    have hl := Listed.some (hsep _ _ hp)
    simpa [Listing.bare, hot, hct] using hl

theorem listing_complete (hnone : ∀ {t : Placed} {rest : Tokens}, t.token = .symbol .rightParen →
      item.read (t :: rest) = none) {us : Tokens} {l : Listing α}
    (h : Listed phrase (us.map Placed.token) l) (rest : Tokens) :
    ∃ l', l'.bare bare = l ∧ listing item (us ++ rest) = .ok (l', rest) := by
  generalize hu : us.map Placed.token = ts at h
  cases h with
  | none =>
    obtain ⟨o, us', rfl, ho, hu'⟩ := List.map_eq_cons_iff.1 hu
    obtain ⟨c, rfl, hc⟩ := List.map_eq_singleton_iff.1 hu'
    refine ⟨⟨[], o.span.merge c.span⟩, rfl, ?_⟩
    simp [listing, expect_cons ho, series, hnone hc, expect_cons hc, bind, Except.bind, pure,
      Except.pure]
  | some hs =>
    obtain ⟨o, us', rfl, ho, hu'⟩ := List.map_eq_cons_iff.1 hu
    obtain ⟨vs, ws, rfl, hvs, hws⟩ := List.map_eq_append_iff.1 hu'
    obtain ⟨c, rfl, hc⟩ := List.map_eq_singleton_iff.1 hws
    have hr : ∀ t ∈ (c :: rest).head?, t.token ≠ .symbol .comma := by
      intro t ht
      cases ht
      simp [hc]
    obtain ⟨a, rest', ha, hrest, has⟩ := following_complete hi (following_stop item hr) hs hvs
    refine ⟨⟨a :: (following .comma item rest').1, o.span.merge c.span⟩, ?_, ?_⟩
    · rw [Listing.bare, ← has]
      rfl
    · simp [listing, expect_cons ho, series, ha, hrest, expect_cons hc, bind, Except.bind, pure,
        Except.pure]

end

theorem literalOf?_rightParen {t : Placed} (h : t.token = .symbol .rightParen) :
    literalOf? t = none := by
  rw [literalOf?, h]

theorem literal_of_rightParen {t : Placed} {rest : Tokens} (h : t.token = .symbol .rightParen) :
    literal.read (t :: rest) = none := by
  simp [literal, Item.ofToken, literalOf?_rightParen h]

theorem setting_of_rightParen {t : Placed} {rest : Tokens} (h : t.token = .symbol .rightParen) :
    setting.read (t :: rest) = none := by
  match rest with
  | [] => rfl
  | [e] => rfl
  | e :: v :: rest => simp [setting, literalOf?_rightParen h]

/-! ## Statements -/

section
variable {t : Placed} (ts : Tokens)

theorem action_set (h : t.token = .keyword .set) : action (t :: ts) =
    listing setting ts >>= fun p => .ok ((.set p.1, p.1.span), p.2) := by
  simp only [action, h]
  rfl

theorem action_reset (h : t.token = .keyword .reset) : action (t :: ts) =
    listing literal ts >>= fun p => .ok ((.reset p.1, p.1.span), p.2) := by
  simp only [action, h]
  rfl

theorem action_rename (h : t.token = .keyword .rename) : action (t :: ts) =
    expect (.keyword .to_) ts >>= fun p => name p.2 >>= fun q =>
      .ok ((.rename q.1, q.1.span), q.2) := by
  simp only [action, h]
  rfl

end

/-- The span that an action hands on covers the last phrase of it. -/
theorem action_sound {ts rest : Tokens} {a : Action} {sp : Span}
    (h : action ts = .ok ((a, sp), rest)) : ∃ us vs, ts = us ++ vs ++ rest ∧
      ActionOf ((us ++ vs).map Placed.token) a.bare ∧ (Ordered vs → Covers sp vs) := by
  cases ts with
  | nil => cases h
  | cons t ts =>
    simp only [action] at h
    split at h
    · next ht =>
      obtain ⟨⟨l, rest'⟩, hl, h⟩ := bind_eq_ok.1 h
      cases h
      obtain ⟨us, rfl, hp, hc⟩ := listing_sound setting_reads hl
      refine ⟨[t], us, rfl, ?_, hc⟩
      rw [List.map_append, List.map_singleton, ht]
      exact .set hp
    · next ht =>
      obtain ⟨⟨l, rest'⟩, hl, h⟩ := bind_eq_ok.1 h
      cases h
      obtain ⟨us, rfl, hp, hc⟩ := listing_sound literal_reads hl
      refine ⟨[t], us, rfl, ?_, hc⟩
      rw [List.map_append, List.map_singleton, ht]
      exact .reset hp
    · next ht =>
      obtain ⟨⟨second, ts'⟩, he, h⟩ := bind_eq_ok.1 h
      obtain ⟨⟨n, rest'⟩, hn, h⟩ := bind_eq_ok.1 h
      cases h
      obtain ⟨u, rfl, hu, _⟩ := expect_eq_ok.1 he
      obtain ⟨us, rfl, hp, hc⟩ := name_sound hn
      refine ⟨[t, u], us, rfl, ?_, hc⟩
      rw [List.map_append, List.map_cons, List.map_singleton, ht, hu]
      exact .rename hp
    · next ht =>
      split at h
      · next l rest' hl =>
        cases h
        obtain ⟨us, rfl, hp, hc⟩ := literal_reads.sound hl
        refine ⟨[t], us, rfl, ?_, hc⟩
        rw [List.map_append, List.map_singleton, ht]
        exact .comment hp
      · cases h
    · cases h

theorem action_complete {us rest : Tokens} {a : Action}
    (hr : ∀ n, a = .rename n → Stops .dot part rest) (h : ActionOf (us.map Placed.token) a) :
    ∃ a' sp, a'.bare = a ∧ action (us ++ rest) = .ok ((a', sp), rest) := by
  generalize hu : us.map Placed.token = ts at h
  cases h with
  | set hl =>
    obtain ⟨t, us', rfl, ht, rfl⟩ := List.map_eq_cons_iff.1 hu
    obtain ⟨l, rfl, he⟩ := listing_complete setting_reads setting_of_rightParen hl rest
    exact ⟨.set l, l.span, rfl, by rw [List.cons_append, action_set _ ht, he]; rfl⟩
  | reset hl =>
    obtain ⟨t, us', rfl, ht, rfl⟩ := List.map_eq_cons_iff.1 hu
    obtain ⟨l, rfl, he⟩ := listing_complete literal_reads literal_of_rightParen hl rest
    exact ⟨.reset l, l.span, rfl, by rw [List.cons_append, action_reset _ ht, he]; rfl⟩
  | rename hn =>
    obtain ⟨t, us', rfl, ht, hu'⟩ := List.map_eq_cons_iff.1 hu
    obtain ⟨o, us'', rfl, ho, rfl⟩ := List.map_eq_cons_iff.1 hu'
    obtain ⟨n, rfl, he⟩ := name_complete (hr _ rfl) hn
    refine ⟨.rename n, n.span, rfl, ?_⟩
    rw [List.cons_append, List.cons_append, action_rename _ ht, expect_cons ho]
    show (name _ >>= _) = _
    rw [he]
    rfl
  | comment hl =>
    obtain ⟨t, us', rfl, ht, rfl⟩ := List.map_eq_cons_iff.1 hu
    obtain ⟨l, rfl, he⟩ := literal_reads.complete hl
    exact ⟨.comment l, l.span, rfl, by simp [action, ht, he]⟩

theorem statement_sound {ts rest : Tokens} {s : Statement} (h : statement ts = .ok (s, rest)) :
    ∃ us, ts = us ++ rest ∧ StatementOf (us.map Placed.token) s.bare ∧
      (Ordered us → Covers s.span us) := by
  obtain ⟨⟨first, ts₁⟩, hf, h⟩ := bind_eq_ok.1 h
  obtain ⟨⟨second, ts₂⟩, hs, h⟩ := bind_eq_ok.1 h
  obtain ⟨⟨n, ts₃⟩, hn, h⟩ := bind_eq_ok.1 h
  obtain ⟨⟨⟨a, last⟩, ts₄⟩, ha, h⟩ := bind_eq_ok.1 h
  cases h
  obtain ⟨f, rfl, hft, rfl⟩ := expect_eq_ok.1 hf
  obtain ⟨c, rfl, hct, _⟩ := expect_eq_ok.1 hs
  obtain ⟨us, rfl, hname, _⟩ := name_sound hn
  obtain ⟨vs, ws, rfl, haction, hcov⟩ := action_sound ha
  refine ⟨[f] ++ (c :: us ++ vs) ++ ws, by simp, ?_, fun ho => ?_⟩
  · have hp := StatementOf.intro hname haction
    simpa [hft, hct, Statement.bare] using hp
  · exact (covers_singleton f).merge (hcov ho.of_append.2) (c :: us ++ vs) ho

/-- An action begins with a word, never with a dot. -/
theorem head_ne_dot_of_actionOf {us : Tokens} {a : Action}
    (h : ActionOf (us.map Placed.token) a) (rest : Tokens) :
    ∀ t ∈ (us ++ rest).head?, t.token ≠ .symbol .dot := by
  generalize hu : us.map Placed.token = ts at h
  cases h <;>
  · obtain ⟨u, us', rfl, ht, _⟩ := List.map_eq_cons_iff.1 hu
    intro t h
    cases h
    simp [ht]

theorem statement_complete_of_stops {us rest : Tokens} {s : Statement}
    (hr : ∀ n, s.action = .rename n → Stops .dot part rest)
    (h : StatementOf (us.map Placed.token) s) :
    ∃ s', s'.bare = s ∧ statement (us ++ rest) = .ok (s', rest) := by
  generalize hu : us.map Placed.token = ts at h
  obtain ⟨hn, ha⟩ := h
  obtain ⟨f, us₁, rfl, hf, hu₁⟩ := List.map_eq_cons_iff.1 hu
  obtain ⟨c, us₂, rfl, hc, hu₂⟩ := List.map_eq_cons_iff.1 hu₁
  obtain ⟨vs, ws, rfl, rfl, rfl⟩ := List.map_eq_append_iff.1 hu₂
  have hstop : Stops .dot part (ws ++ rest) := following_stop _ (head_ne_dot_of_actionOf ha rest)
  obtain ⟨n, rfl, he⟩ := name_complete hstop hn
  obtain ⟨a, sp, rfl, ha'⟩ := action_complete hr ha
  refine ⟨⟨f.span.merge sp, n, a⟩, rfl, ?_⟩
  simp [statement, expect_cons hf, expect_cons hc, he, ha', bind, Except.bind, pure, Except.pure]

theorem statement_complete {us : Tokens} {s : Statement} (rest : Tokens)
    (hr : ∀ t ∈ rest.head?, t.token ≠ .symbol .dot) (h : StatementOf (us.map Placed.token) s) :
    ∃ s', s'.bare = s ∧ statement (us ++ rest) = .ok (s', rest) :=
  statement_complete_of_stops (fun _ _ => following_stop part hr) h

end AlterCatalog.Parser
