import AlterCatalog.Proofs.Slices
import AlterCatalog.Proofs.Viable

/-!
# Where a statement is refused

At each stage, one more token leads to another stage, ends a sentence, or is refused whatever comes
after it (`step`). A refusal is told at the token itself, or at the beginning of the item that it
leaves unfinished: a list or a name is left there, and nothing else can go on from it. Going through
the tokens of a text by steps, the first token that no sentence has at its place is the one that is
refused.
-/

namespace AlterCatalog.Parser

open Grammar

/-- The reader takes `done` and fails at what comes next, if `opened` is followed by a token. -/
def Refused (done opened : Tokens) (t : Placed) : Prop :=
  ∀ later, single (done ++ (opened ++ t :: later)) = .error (.atHead (opened ++ t :: later))

inductive Step (done opened : Tokens) (t : Placed) : Prop
  | sentence {s : Statement} : t.token = .endOfInput →
      Sentence ((done ++ (opened ++ [t])).map Placed.token) s → Step done opened t
  | stage {before after : List Token} : Stage before after →
      before ++ after = (done ++ (opened ++ [t])).map Placed.token → Step done opened t
  | refused : Refused done opened t → Step done opened t

/-- What is refused is not viable: the reader accepts every sentence. -/
theorem Refused.not_viable {done opened : Tokens} {t : Placed} (h : Refused done opened t) :
    ¬Viable ((done ++ (opened ++ [t])).map Placed.token) := by
  rintro ⟨rest, s, hs⟩
  have placed : (done ++ (opened ++ t :: rest.map fun u => ⟨u, {}⟩)).map Placed.token =
      (done ++ (opened ++ [t])).map Placed.token ++ rest := by
    simp [Function.comp_def]
  obtain ⟨_, -, hok⟩ := single_complete (placed ▸ hs)
  rw [h] at hok
  cases hok

/-! ## Items -/

/-- A token goes on with an item that has been begun, or none can be read there. -/
theorem Item.Reads.step {α β : Type} {item : Item α} {view : α → β} {span : α → Span}
    {phrase : List Token → β → Prop} (hi : item.Reads view span phrase) {m : Nat}
    (hm : ∀ {ts b}, phrase ts b → ts.length = m) {begun : Tokens}
    (hb : Begun phrase (begun.map Placed.token)) (t : Placed) :
    (∃ b, phrase ((begun ++ [t]).map Placed.token) b) ∨
      Begun phrase ((begun ++ [t]).map Placed.token) ∨
      ∀ later, item.read (begun ++ t :: later) = none := by
  rw [← or_assoc, or_iff_not_imp_left, not_or]
  rintro ⟨whole, more⟩ later
  by_contra hread
  obtain ⟨⟨a, rest⟩, hread⟩ := Option.ne_none_iff_exists'.1 hread
  obtain ⟨us, hus, hp, -⟩ := hi.sound hread
  obtain ⟨missing, b, hne, hpb⟩ := hb
  -- What was read is longer than what had been begun, so it goes on with the token.
  have long : (begun ++ [t]).length ≤ us.length := by
    have h1 := hm hp
    have h2 := hm hpb
    have h3 := List.length_pos_iff.2 hne
    simp only [List.length_append, List.length_map, List.length_singleton] at h1 h2 ⊢
    omega
  obtain ⟨ws, rfl⟩ : begun ++ [t] <+: us := by
    refine List.prefix_of_prefix_length_le ⟨later, ?_⟩ ⟨rest, hus.symm⟩ long
    rw [List.append_assoc, List.singleton_append]
  cases ws with
  | nil => exact whole ⟨_, by simpa using hp⟩
  | cons w ws =>
    exact more ⟨(w :: ws).map Placed.token, _, by simp, by rwa [List.map_append] at hp⟩

/-! ## Readers that fail -/

theorem expect_error {token : Token} {t : Placed} {ts : Tokens} (h : t.token ≠ token) :
    expect token (t :: ts) = .error (t :: ts) := by
  rw [expect, if_neg h]

theorem stops_of_ne {α : Type} {separator : Symbol} (item : Item α) {t : Placed} {ts : Tokens}
    (h : t.token ≠ .symbol separator) : Stops separator item (t :: ts) :=
  following_stop item fun _ hu => Option.some.inj hu ▸ h

section
variable {α : Type} {item : Item α}

theorem listing_error_first {o t : Placed} {ts : Tokens} (ho : o.token = .symbol .leftParen)
    (hread : item.read (t :: ts) = none) (ht : t.token ≠ .symbol .rightParen) :
    listing item (o :: t :: ts) = .error (t :: ts) := by
  simp [listing, expect_cons ho, series, hread, expect_error ht, bind, Except.bind]

theorem listing_error {β : Type} {view : α → β} {span : α → Span} {phrase : List Token → β → Prop}
    (hi : item.Reads view span phrase) {o t : Placed} {us ts : Tokens} {bs : List β}
    (ho : o.token = .symbol .leftParen) (hs : Separated .comma phrase (us.map Placed.token) bs)
    (hstop : Stops .comma item (t :: ts)) (ht : t.token ≠ .symbol .rightParen) :
    listing item (o :: (us ++ t :: ts)) = .error (t :: ts) := by
  obtain ⟨a, rest, ha, hrest, -⟩ := following_complete hi hstop hs rfl
  simp [listing, expect_cons ho, series, ha, hrest, expect_error ht, bind, Except.bind]

end

/-- The list after a word is read item by item, and the action fails where the list does. -/
theorem entries_reader {k : Keyword} {α : Type} {phrase : List Token → α → Prop}
    (h : Entries k phrase) : ∃ (item : Item α) (view : α → α) (span : α → Span),
      item.Reads view span phrase ∧ ∀ {t : Placed} {ts rest : Tokens}, t.token = .keyword k →
        listing item ts = .error rest → action (t :: ts) = .error rest := by
  cases h with
  | set => exact ⟨setting, _, _, setting_reads, fun ht he => by rw [action_set _ ht, he]; rfl⟩
  | reset => exact ⟨literal, _, _, literal_reads, fun ht he => by rw [action_reset _ ht, he]; rfl⟩

theorem action_error {t : Placed} {ts : Tokens}
    (h : ∀ k ∈ [Keyword.set, .reset, .rename, .comment], t.token ≠ .keyword k) :
    action (t :: ts) = .error (t :: ts) := by
  simp only [action]
  split
  · next ht => exact absurd ht (h _ (by simp))
  · next ht => exact absurd ht (h _ (by simp))
  · next ht => exact absurd ht (h _ (by simp))
  · next ht => exact absurd ht (h _ (by simp))
  · rfl

/-- The tokens of a statement up to and with its name, and those of its action so far. A failure of
the action is one of the statement. -/
theorem split_action {done : Tokens} {ts : List Token} {n : Name} (us : List Token)
    (hd : done.map Placed.token = .keyword .alter :: .keyword .catalog :: (ts ++ us))
    (hn : NameOf ts n) : ∃ head tail, done = head ++ tail ∧ tail.map Placed.token = us ∧
      ∀ {later rest}, Stops .dot part (tail ++ later) → action (tail ++ later) = .error rest →
        single (done ++ later) = .error (.atHead rest) := by
  obtain ⟨a, done, rfl, ha, hd⟩ := List.map_eq_cons_iff.1 hd
  obtain ⟨c, done, rfl, hc, hd⟩ := List.map_eq_cons_iff.1 hd
  obtain ⟨ns, tail, rfl, rfl, rfl⟩ := List.map_eq_append_iff.1 hd
  refine ⟨a :: c :: ns, tail, rfl, rfl, fun hstop he => ?_⟩
  obtain ⟨n', -, hname⟩ := name_complete hstop hn
  apply single_cons_of_error (by simp [ha])
  simp [statement, expect_cons ha, expect_cons hc, hname, he, bind, Except.bind]

/-- After a statement only a semicolon and the end are not refused. -/
theorem single_error_after {done ts : Tokens} {t : Placed} {s : Statement}
    (hs : StatementOf (done.map Placed.token) s)
    (hstop : ∀ n, s.action = .rename n → Stops .dot part (t :: ts))
    (hc : t.token ≠ .symbol .semicolon) (he : t.token ≠ .endOfInput) :
    single (done ++ t :: ts) = .error (.atHead (t :: ts)) := by
  obtain ⟨s', rfl, hok⟩ := statement_complete_of_stops hstop hs
  rw [single_of_statement hs hok]
  simp [afterSemicolon, isSemicolon, atEnd, hc, he]

/-! ## Steps -/

theorem part_step (t : Placed) :
    (∃ p, PartOf [t.token] p) ∨ ∀ later, part.read (t :: later) = none := by
  have begun : Begun PartOf (([] : Tokens).map Placed.token) := PartOf.begun
  rcases part_reads.step PartOf.length begun t with hp | ⟨_, _, hne, hp⟩ | hread
  · exact .inl hp
  · exact absurd (PartOf.length hp) (by simpa using hne)
  · exact .inr hread

theorem name_error {t : Placed} {ts : Tokens} (h : part.read (t :: ts) = none) :
    name (t :: ts) = .error (t :: ts) := by
  simp only [name, h]

theorem action_error_to {w t : Placed} {ts : Tokens} (hw : w.token = .keyword .rename)
    (h : t.token ≠ .keyword .to_) : action (w :: t :: ts) = .error (t :: ts) := by
  rw [action_rename _ hw, expect_error h]
  rfl

theorem action_error_newName {w o t : Placed} {ts : Tokens} (hw : w.token = .keyword .rename)
    (ho : o.token = .keyword .to_) (h : part.read (t :: ts) = none) :
    action (w :: o :: t :: ts) = .error (t :: ts) := by
  rw [action_rename _ hw, expect_cons ho]
  show (name _ >>= _) = _
  rw [name_error h]
  rfl

theorem step_start {t : Placed} (ht : t.token ≠ .endOfInput) : Step [] [] t := by
  by_cases h : t.token = .keyword .alter
  · exact .stage (.between .alter) (by simp [h])
  · refine .refused fun later => single_cons_of_error ht ?_
    simp [statement, expect_error h, bind, Except.bind]

theorem step_alter {a : Placed} (ha : a.token = .keyword .alter) (t : Placed) : Step [a] [] t := by
  by_cases h : t.token = .keyword .catalog
  · exact .stage (.between .catalog) (by simp [ha, h])
  · refine .refused fun later => single_cons_of_error (by simp [ha]) ?_
    simp [statement, expect_cons ha, expect_error h, bind, Except.bind]

theorem step_catalog {a c : Placed} (ha : a.token = .keyword .alter)
    (hc : c.token = .keyword .catalog) (t : Placed) : Step [a, c] [] t := by
  rcases part_step t with ⟨p, hp⟩ | hread
  · exact .stage (.between (.named (.single hp))) (by simp [ha, hc])
  · refine .refused fun later => single_cons_of_error (by simp [ha]) ?_
    simp [statement, expect_cons ha, expect_cons hc, name_error (hread later), bind, Except.bind]

theorem step_named {done : Tokens} {ts : List Token} {n : Name}
    (hd : done.map Placed.token = .keyword .alter :: .keyword .catalog :: ts) (hn : NameOf ts n)
    (t : Placed) : Step done [] t := by
  by_cases hdot : t.token = .symbol .dot
  · exact .stage (.within (.catalog hn) PartOf.begun) (by simp [hd, hdot])
  by_cases hk : ∀ k ∈ [Keyword.set, .reset, .rename, .comment], t.token ≠ .keyword k
  · obtain ⟨head, tail, rfl, htail, refuse⟩ := split_action [] (by simpa using hd) hn
    obtain rfl := List.map_eq_nil_iff.1 htail
    exact .refused fun later => refuse (stops_of_ne part hdot) (action_error hk)
  · simp only [List.mem_cons, List.not_mem_nil, or_false, forall_eq_or_imp, forall_eq, not_and_or,
      not_not] at hk
    rcases hk with hk | hk | hk | hk
    · exact .stage (.between (.list hn .set)) (by simp [hd, hk])
    · exact .stage (.between (.list hn .reset)) (by simp [hd, hk])
    · exact .stage (.between (.rename hn)) (by simp [hd, hk])
    · exact .stage (.between (.comment hn)) (by simp [hd, hk])

theorem step_list {done : Tokens} {ts : List Token} {n : Name} {k : Keyword} {α : Type}
    {phrase : List Token → α → Prop}
    (hd : done.map Placed.token = .keyword .alter :: .keyword .catalog :: (ts ++ [.keyword k]))
    (hn : NameOf ts n) (he : Entries k phrase) (t : Placed) : Step done [] t := by
  by_cases h : t.token = .symbol .leftParen
  · exact .stage (.within (.first hn he) he.begun) (by simp [hd, h])
  · obtain ⟨head, tail, rfl, htail, refuse⟩ := split_action _ hd hn
    obtain ⟨w, rfl, hw⟩ := List.map_eq_singleton_iff.1 htail
    obtain ⟨item, _, _, -, fails⟩ := entries_reader he
    refine .refused fun later => refuse (stops_of_ne part (by simp [hw])) (fails hw ?_)
    simp [listing, expect_error h, bind, Except.bind]

theorem step_items {done : Tokens} {ts us : List Token} {n : Name} {k : Keyword} {α : Type}
    {phrase : List Token → α → Prop} {as : List α}
    (hd : done.map Placed.token =
      .keyword .alter :: .keyword .catalog :: (ts ++ .keyword k :: .symbol .leftParen :: us))
    (hn : NameOf ts n) (he : Entries k phrase) (hs : Separated .comma phrase us as) (t : Placed) :
    Step done [] t := by
  by_cases hcomma : t.token = .symbol .comma
  · exact .stage (.within (.later hn he hs) he.begun) (by simp [hd, hcomma])
  by_cases hclose : t.token = .symbol .rightParen
  · obtain ⟨a, ha⟩ := he.action (.some hs)
    exact .stage (.between (.whole (.intro hn ha))) (by simp [hd, hclose])
  · obtain ⟨head, tail, rfl, htail, refuse⟩ := split_action _ hd hn
    obtain ⟨w, tail, rfl, hw, htail⟩ := List.map_eq_cons_iff.1 htail
    obtain ⟨o, tail, rfl, ho, rfl⟩ := List.map_eq_cons_iff.1 htail
    obtain ⟨item, _, _, hi, fails⟩ := entries_reader he
    exact .refused fun later => refuse (stops_of_ne part (by simp [hw]))
      (fails hw (listing_error hi ho hs (stops_of_ne item hcomma) hclose))

theorem step_rename {done : Tokens} {ts : List Token} {n : Name}
    (hd : done.map Placed.token =
      .keyword .alter :: .keyword .catalog :: (ts ++ [.keyword .rename]))
    (hn : NameOf ts n) (t : Placed) : Step done [] t := by
  by_cases h : t.token = .keyword .to_
  · exact .stage (.between (.renameTo hn)) (by simp [hd, h])
  · obtain ⟨head, tail, rfl, htail, refuse⟩ := split_action _ hd hn
    obtain ⟨w, rfl, hw⟩ := List.map_eq_singleton_iff.1 htail
    exact .refused fun later => refuse (stops_of_ne part (by simp [hw])) (action_error_to hw h)

theorem step_renameTo {done : Tokens} {ts : List Token} {n : Name}
    (hd : done.map Placed.token =
      .keyword .alter :: .keyword .catalog :: (ts ++ [.keyword .rename, .keyword .to_]))
    (hn : NameOf ts n) (t : Placed) : Step done [] t := by
  rcases part_step t with ⟨p, hp⟩ | hread
  · exact .stage (.between (.whole (.intro hn (.rename (.single hp))))) (by simp [hd])
  · obtain ⟨head, tail, rfl, htail, refuse⟩ := split_action _ hd hn
    obtain ⟨w, tail, rfl, hw, htail⟩ := List.map_eq_cons_iff.1 htail
    obtain ⟨o, rfl, ho⟩ := List.map_eq_singleton_iff.1 htail
    exact .refused fun later =>
      refuse (stops_of_ne part (by simp [hw])) (action_error_newName hw ho (hread later))

theorem step_comment {done : Tokens} {ts : List Token} {n : Name}
    (hd : done.map Placed.token =
      .keyword .alter :: .keyword .catalog :: (ts ++ [.keyword .comment]))
    (hn : NameOf ts n) (t : Placed) : Step done [] t := by
  obtain ⟨head, tail, rfl, htail, refuse⟩ := split_action _ hd hn
  obtain ⟨w, rfl, hw⟩ := List.map_eq_singleton_iff.1 htail
  cases h : literalOf? t with
  | some l =>
    have hl : LiteralOf [t.token] _ := .intro (literalOf?_sound h).1
    exact .stage (.between (.whole (.intro hn (.comment hl)))) (by rw [List.map_append, hd]; simp)
  | none =>
    refine .refused fun later => refuse (stops_of_ne part (by simp [hw])) ?_
    simp [action, hw, literal, Item.ofToken, h]

theorem step_whole {done : Tokens} {s : Statement} (hs : StatementOf (done.map Placed.token) s)
    (t : Placed) : Step done [] t := by
  by_cases hc : t.token = .symbol .semicolon
  · exact .stage (.between (.closed hs)) (by simp [hc])
  by_cases he : t.token = .endOfInput
  · exact .sentence he (by simpa [he] using Sentence.plain hs)
  by_cases hdot : t.token = .symbol .dot ∧ ∃ n, s.action = .rename n
  · obtain ⟨hdot, m, hm⟩ := hdot
    generalize hd : done.map Placed.token = ts at hs
    obtain ⟨hn, ha⟩ := hs
    cases ha with
    | rename hm' => exact .stage (.within (.newName hn hm') PartOf.begun) (by simp [hd, hdot])
    | _ => cases hm
  · exact .refused fun later => single_error_after hs
      (fun n hn => stops_of_ne part fun h => hdot ⟨h, n, hn⟩) hc he

theorem step_closed {done : Tokens} {ts : List Token} {s : Statement}
    (hd : done.map Placed.token = ts ++ [.symbol .semicolon]) (hs : StatementOf ts s) (t : Placed) :
    Step done [] t := by
  by_cases he : t.token = .endOfInput
  · exact .sentence he (by simpa [hd, he] using Sentence.closed hs)
  · obtain ⟨us, cs, rfl, rfl, hcs⟩ := List.map_eq_append_iff.1 hd
    obtain ⟨c, rfl, hc⟩ := List.map_eq_singleton_iff.1 hcs
    refine .refused fun later => ?_
    obtain ⟨s', rfl, hok⟩ := statement_complete (c :: t :: later) (by simp [hc]) hs
    rw [List.append_assoc, List.nil_append, List.singleton_append, single_of_statement hs hok]
    simp [afterSemicolon, isSemicolon, atEnd, hc, he]

section
variable {os bs : Tokens}

theorem step_catalogPart {done : Tokens} {ts : List Token} {n : Name}
    (hd : done.map Placed.token = .keyword .alter :: .keyword .catalog :: ts) (hn : NameOf ts n)
    (ho : os.map Placed.token = [.symbol .dot]) (hb : Begun PartOf (bs.map Placed.token))
    (t : Placed) : Step done (os ++ bs) t := by
  rcases part_reads.step PartOf.length hb t with ⟨p, hp⟩ | hb' | hread
  · exact .stage (.between (.named (hn.concat hp))) (by simp [hd, ho])
  · exact .stage (.within (.catalog hn) hb') (by simp [hd, ho])
  obtain ⟨dot, rfl, hdot⟩ := List.map_eq_singleton_iff.1 ho
  obtain ⟨head, tail, rfl, htail, refuse⟩ := split_action [] (by simpa using hd) hn
  obtain rfl := List.map_eq_nil_iff.1 htail
  refine .refused fun later => refuse ?_ (action_error (by simp [hdot]))
  exact following_none (by simpa using hread later)

theorem step_newNamePart {done : Tokens} {ts us : List Token} {n m : Name}
    (hd : done.map Placed.token =
      .keyword .alter :: .keyword .catalog :: (ts ++ .keyword .rename :: .keyword .to_ :: us))
    (hn : NameOf ts n) (hm : NameOf us m) (ho : os.map Placed.token = [.symbol .dot])
    (hb : Begun PartOf (bs.map Placed.token)) (t : Placed) : Step done (os ++ bs) t := by
  rcases part_reads.step PartOf.length hb t with ⟨p, hp⟩ | hb' | hread
  · exact .stage (.between (.whole (.intro hn (.rename (hm.concat hp))))) (by simp [hd, ho])
  · exact .stage (.within (.newName hn hm) hb') (by simp [hd, ho])
  obtain ⟨dot, rfl, hdot⟩ := List.map_eq_singleton_iff.1 ho
  have hs := StatementOf.intro hn (.rename hm)
  rw [← hd] at hs
  refine .refused fun later =>
    single_error_after hs (fun _ _ => ?_) (by simp [hdot]) (by simp [hdot])
  exact following_none (by simpa using hread later)

variable {α : Type} {phrase : List Token → α → Prop}

theorem step_firstItem {done : Tokens} {ts : List Token} {n : Name} {k : Keyword}
    (hd : done.map Placed.token =
      .keyword .alter :: .keyword .catalog :: (ts ++ [.keyword k, .symbol .leftParen]))
    (hn : NameOf ts n) (he : Entries k phrase) (hb : Begun phrase (bs.map Placed.token))
    (t : Placed) : Step done bs t := by
  obtain ⟨item, _, _, hi, fails⟩ := entries_reader he
  obtain ⟨m, hm⟩ := he.length
  rcases hi.step hm hb t with ⟨a, hp⟩ | hb' | hread
  · exact .stage (.between (.items hn he (.one hp))) (by simp [hd])
  · exact .stage (.within (.first hn he) hb') (by simp [hd])
  have closed : t.token = .symbol .rightParen → bs = [] → Step done bs t := by
    rintro hclose rfl
    obtain ⟨a, ha⟩ := he.action .none
    exact .stage (.between (.whole (.intro hn ha))) (by simp [hd, hclose])
  obtain ⟨head, tail, rfl, htail, refuse⟩ := split_action _ hd hn
  obtain ⟨w, tail, rfl, hw, htail⟩ := List.map_eq_cons_iff.1 htail
  obtain ⟨o, rfl, ho⟩ := List.map_eq_singleton_iff.1 htail
  have hstop : ∀ later, Stops .dot part ([w, o] ++ later) :=
    fun _ => stops_of_ne part (by simp [hw])
  -- The list is left where its first item begins, so at the token only if nothing of it stands.
  cases bs with
  | nil =>
    by_cases hclose : t.token = .symbol .rightParen
    · exact closed hclose rfl
    · exact .refused fun later => refuse (hstop _)
        (fails hw (listing_error_first ho (hread later) hclose))
  | cons b bs =>
    obtain ⟨missing, a, -, hp⟩ := hb
    exact .refused fun later => refuse (hstop _)
      (fails hw (listing_error_first ho (hread later) (he.head_ne hp)))

theorem step_laterItem {done : Tokens} {ts us : List Token} {n : Name} {k : Keyword} {as : List α}
    (hd : done.map Placed.token =
      .keyword .alter :: .keyword .catalog :: (ts ++ .keyword k :: .symbol .leftParen :: us))
    (hn : NameOf ts n) (he : Entries k phrase) (hs : Separated .comma phrase us as)
    (ho : os.map Placed.token = [.symbol .comma]) (hb : Begun phrase (bs.map Placed.token))
    (t : Placed) : Step done (os ++ bs) t := by
  obtain ⟨item, _, _, hi, fails⟩ := entries_reader he
  obtain ⟨m, hm⟩ := he.length
  rcases hi.step hm hb t with ⟨a, hp⟩ | hb' | hread
  · exact .stage (.between (.items hn he (hs.concat hp))) (by simp [hd, ho])
  · exact .stage (.within (.later hn he hs) hb') (by simp [hd, ho])
  obtain ⟨comma, rfl, hcomma⟩ := List.map_eq_singleton_iff.1 ho
  obtain ⟨head, tail, rfl, htail, refuse⟩ := split_action _ hd hn
  obtain ⟨w, tail, rfl, hw, htail⟩ := List.map_eq_cons_iff.1 htail
  obtain ⟨o, tail, rfl, ho, rfl⟩ := List.map_eq_cons_iff.1 htail
  refine .refused fun later => refuse (stops_of_ne part (by simp [hw]))
    (fails hw (listing_error hi ho hs ?_ (by simp [hcomma])))
  exact following_none (by simpa using hread later)

theorem step_within {done : Tokens} {opening : List Token}
    (hslot : Slot (done.map Placed.token) opening phrase) (ho : os.map Placed.token = opening)
    (hb : Begun phrase (bs.map Placed.token)) (t : Placed) : Step done (os ++ bs) t := by
  generalize hd : done.map Placed.token = before at hslot
  cases hslot with
  | catalog hn => exact step_catalogPart hd hn ho hb t
  | newName hn hm => exact step_newNamePart hd hn hm ho hb t
  | first hn he =>
    obtain rfl := List.map_eq_nil_iff.1 ho
    exact step_firstItem hd hn he hb t
  | later hn he hs => exact step_laterItem hd hn he hs ho hb t

end

/-- A token where no item has been begun. The end of the input alone is not refused as a statement:
it is an empty input. -/
theorem step_between {done : Tokens} (h : Between (done.map Placed.token)) {t : Placed}
    (hstart : done = [] → t.token ≠ .endOfInput) : Step done [] t := by
  generalize hd : done.map Placed.token = before at h
  cases h with
  | start =>
    obtain rfl := List.map_eq_nil_iff.1 hd
    exact step_start (hstart rfl)
  | alter =>
    obtain ⟨a, rfl, ha⟩ := List.map_eq_singleton_iff.1 hd
    exact step_alter ha t
  | catalog =>
    obtain ⟨a, done, rfl, ha, hd⟩ := List.map_eq_cons_iff.1 hd
    obtain ⟨c, rfl, hc⟩ := List.map_eq_singleton_iff.1 hd
    exact step_catalog ha hc t
  | named hn => exact step_named hd hn t
  | list hn he => exact step_list hd hn he t
  | items hn he hs => exact step_items hd hn he hs t
  | rename hn => exact step_rename hd hn t
  | renameTo hn => exact step_renameTo hd hn t
  | comment hn => exact step_comment hd hn t
  | whole hs => exact step_whole (hd ▸ hs) t
  | closed hs => exact step_closed hd hs t

theorem step {done opened : Tokens}
    (h : Stage (done.map Placed.token) (opened.map Placed.token)) {t : Placed}
    (hstart : done ++ opened = [] → t.token ≠ .endOfInput) : Step done opened t := by
  generalize hd : done.map Placed.token = before at h
  generalize ho : opened.map Placed.token = after at h
  cases h with
  | between hb =>
    obtain rfl := List.map_eq_nil_iff.1 ho
    rw [List.append_nil] at hstart
    exact step_between (hd ▸ hb) hstart
  | within hslot hb =>
    obtain ⟨os, bs, rfl, rfl, rfl⟩ := List.map_eq_append_iff.1 ho
    exact step_within (hd ▸ hslot) rfl hb t

/-! ## Runs -/

/-- From any stage, the tokens of a text end a sentence, or one of them is refused at a later
stage. -/
theorem run {later : Tokens} (ht : Terminated later) : ∀ {done opened : Tokens},
    Stage (done.map Placed.token) (opened.map Placed.token) →
    (done ++ opened = [] → ∀ t ∈ later.head?, t.token ≠ .endOfInput) →
      (∃ s, Sentence ((done ++ (opened ++ later)).map Placed.token) s) ∨
      ∃ before after t rest, done ++ (opened ++ later) = before ++ (after ++ t :: rest) ∧
        Stage (before.map Placed.token) (after.map Placed.token) ∧ Refused before after t := by
  induction ht with
  | @stop t ht =>
    intro done opened h hstart
    cases step h fun he => hstart he t rfl with
    | sentence _ hs => exact .inl ⟨_, hs⟩
    | refused hr => exact .inr ⟨done, opened, t, [], rfl, h, hr⟩
    | stage hst he =>
      have hv := hst.viable
      rw [he, ← List.append_assoc, List.map_append, List.map_singleton, ht] at hv
      obtain ⟨s, hs⟩ := sentence_of_viable hv
      exact .inl ⟨s, by simpa [ht] using hs⟩
  | @more t ts hne _ ih =>
    intro done opened h hstart
    cases step h fun he => hstart he t rfl with
    | sentence he => exact absurd he hne
    | refused hr => exact .inr ⟨done, opened, t, ts, rfl, h, hr⟩
    | stage hst he =>
      obtain ⟨before, after, hsplit, rfl, rfl⟩ := List.map_eq_append_iff.1 he.symm
      have hts : done ++ (opened ++ t :: ts) = before ++ (after ++ ts) := by
        rw [← List.append_assoc before, ← hsplit]
        simp
      have hnil : before ++ after ≠ [] := by simp [← hsplit]
      rw [hts]
      exact ih hst fun h => absurd h hnil

theorem exists_refused {ts : Tokens} {e : ParseError} (ht : Terminated ts) (hlen : 1 < ts.length)
    (hs : single ts = .error e) : ∃ before after t rest, ts = before ++ (after ++ t :: rest) ∧
      Stage (before.map Placed.token) (after.map Placed.token) ∧ Refused before after t := by
  have hstart : ∀ t ∈ ts.head?, t.token ≠ .endOfInput := by
    cases ht with
    | stop => cases Nat.lt_irrefl _ hlen
    | more hne _ => exact fun u hu => Option.some.inj hu ▸ hne
  have hstage : Stage (([] : Tokens).map Placed.token) (([] : Tokens).map Placed.token) :=
    .between .start
  rcases run ht hstage fun _ => hstart with ⟨s, hsent⟩ | hr
  · obtain ⟨_, -, hok⟩ := single_complete hsent
    exact absurd (hok.symm.trans hs) (by simp)
  · exact hr

theorem single_refused {ts : Tokens} {e : ParseError} (ht : Terminated ts)
    (h : single ts = .error e) : e = .emptyInput ∨ ∃ t ∈ ts, e = .atHead [t] := by
  by_cases hlen : 1 < ts.length
  · obtain ⟨before, after, t, rest, rfl, -, hr⟩ := exists_refused ht hlen h
    obtain ⟨u, us, hu⟩ : ∃ u us, after ++ t :: rest = u :: us := List.exists_cons_of_ne_nil (by simp)
    rw [hr rest, hu] at h
    exact .inr ⟨u, by simp [hu], (Except.error.inj h).symm⟩
  · cases ht with
    | stop he =>
      rw [single_eq, if_pos (by simp [atEnd, he])] at h
      exact .inl (Except.error.inj h).symm
    | more _ hts => cases hts <;> simp at hlen

/-- If the tokens before a refused one end within an item, the refusal is told where it begins. -/
theorem refused_of_within {done : Tokens} {t : Placed} {i : Nat}
    (hw : Within (done.map Placed.token) i) (hv : ¬Viable ((done ++ [t]).map Placed.token)) :
    ∃ before after, done = before ++ after ∧ before.length = i ∧ Refused before after t := by
  generalize hd : done.map Placed.token = ts at hw
  obtain ⟨hslot, hb, hne⟩ := hw
  obtain ⟨before, after, rfl, rfl, ha⟩ := List.map_eq_append_iff.1 hd
  refine ⟨before, after, rfl, (List.length_map ..).symm, ?_⟩
  have hafter : after ≠ [] := by
    rintro rfl
    exact hne ha.symm
  have hstage : Stage (before.map Placed.token) (after.map Placed.token) :=
    ha ▸ .within hslot hb
  cases step (t := t) hstage fun h => absurd (List.append_eq_nil_iff.1 h).2 hafter with
  | refused hr => exact hr
  | sentence _ hs => exact absurd ⟨[], _, by simpa using hs⟩ hv
  | stage hst he =>
    have hst := hst.viable
    rw [he, ← List.append_assoc] at hst
    exact absurd hst hv

theorem start_of_atHead {t u : Placed} {ts us : Tokens}
    (h : ParseError.atHead (t :: ts) = .atHead (u :: us)) : t.span.start = u.span.start := by
  simp only [ParseError.atHead] at h
  split at h <;> split at h
  · exact ParseError.unexpectedEnd.inj h
  · cases h
  · cases h
  · exact (ParseError.unexpectedToken.inj h).2

end AlterCatalog.Parser

namespace AlterCatalog

open Grammar

/-! ## Tokens of a text, told by where they start -/

theorem Lossless.starts {input : String} {tokens : List Placed} {finish : Location}
    (h : Lossless input tokens finish) : (tokens ++ [endAt finish]).Pairwise fun a b =>
      a.span.start.offset < b.span.start.offset := by
  obtain ⟨apart, -, last⟩ := List.pairwise_append.1 h.ordered
  refine List.pairwise_append.2 ⟨apart.imp_of_mem fun ha _ hab => ?_, List.pairwise_singleton _ _,
    fun a ha b hb => ?_⟩
  · exact Nat.lt_of_lt_of_le (h.nonempty _ ha) hab
  · exact Nat.lt_of_lt_of_le (h.nonempty a ha) (last a ha b hb)

theorem position_unique {input : String} {a b c d : List Placed} {t u : Placed}
    (h : tokenize input = .ok (a ++ t :: b)) (he : a ++ t :: b = c ++ u :: d)
    (hs : t.span.start = u.span.start) : a.length = c.length := by
  obtain ⟨ps, hp, hts⟩ := tokenize_eq_ok_iff.1 h
  have starts := hts ▸ (Lexer.lossless_place hp).starts
  have ht : (a ++ t :: b)[a.length]? = some t := by simp
  have hu : (a ++ t :: b)[c.length]? = some u := by simp [he]
  obtain ⟨hi, ht⟩ := List.getElem?_eq_some_iff.1 ht
  obtain ⟨hj, hu⟩ := List.getElem?_eq_some_iff.1 hu
  rw [List.pairwise_iff_getElem] at starts
  have unordered : ¬t.span.start.offset < u.span.start.offset ∧
      ¬u.span.start.offset < t.span.start.offset := by
    rw [hs]
    exact ⟨Nat.lt_irrefl _, Nat.lt_irrefl _⟩
  rcases Nat.lt_trichotomy a.length c.length with hlt | heq | hlt
  · have before := starts _ _ hi hj hlt
    rw [ht, hu] at before
    exact absurd before unordered.1
  · exact heq
  · have after := starts _ _ hj hi hlt
    rw [ht, hu] at after
    exact absurd after unordered.2

theorem start_ne_default {input : String} {ts : List Placed} (h : tokenize input = .ok ts)
    {t : Placed} (ht : t ∈ ts) : t.span.start ≠ {} := by
  obtain ⟨ps, hp, rfl⟩ := tokenize_eq_ok_iff.1 h
  intro hd
  have hl := ((Lexer.lossless_place hp).places t ht).1.line
  rw [hd] at hl
  simp at hl
  omega

/-- The place where a refusal is told is the only one at which an unfinished item can begin. -/
theorem beginning_unique {input : String} {before after rest : List Placed} {t : Placed} {i : Nat}
    (ht : tokenize input = .ok (before ++ (after ++ t :: rest)))
    (hr : Parser.Refused before after t) (hw : Within ((before ++ after).map Placed.token) i) :
    before.length = i := by
  have hv := hr.not_viable
  rw [← List.append_assoc] at hv
  obtain ⟨before', after', hsplit, rfl, hr'⟩ := Parser.refused_of_within hw hv
  have hts : before ++ (after ++ t :: rest) = before' ++ (after' ++ t :: rest) := by
    rw [← List.append_assoc, hsplit, List.append_assoc]
  have hsame := Except.error.inj ((hr rest).symm.trans (hts ▸ hr' rest))
  obtain ⟨u, us, hu⟩ : ∃ u us, after ++ t :: rest = u :: us := List.exists_cons_of_ne_nil (by simp)
  obtain ⟨v, vs, hv⟩ : ∃ v vs, after' ++ t :: rest = v :: vs := List.exists_cons_of_ne_nil (by simp)
  rw [hu, hv] at hsame hts
  exact position_unique (hu ▸ ht) hts (Parser.start_of_atHead hsame)

/-- **Where a refusal is told.** Of a refused text of at least one token, the token at `p` is the
first that no sentence has there. The error names the token at `r`: the one at `p`, unless it leaves
an item unfinished that had been begun, and then the one where that item begins, with its separator
if it is not the first. -/
theorem parseStatement_refused {input : String} {ts : List Placed} {e : ParseError}
    (ht : tokenize input = .ok ts) (hlen : 1 < ts.length) (he : parseStatement input = .error e) :
    ∃ p r found, p < ts.length ∧ (∀ q ≤ p, Viable ((ts.take q).map Placed.token)) ∧
      ¬Viable ((ts.take (p + 1)).map Placed.token) ∧
      (∀ i, Within ((ts.take p).map Placed.token) i → r = i) ∧
      ((¬∃ i, Within ((ts.take p).map Placed.token) i) → r = p) ∧
      r ≤ p ∧ ts[r]? = some found ∧ found.span.start ≠ {} ∧
      (found.token = .endOfInput ∧ e = .unexpectedEnd found.span.start ∨
        found.token ≠ .endOfInput ∧ e = .unexpectedToken found.token found.span.start) := by
  have hs : Parser.single ts = .error e := by simpa [parseStatement, ht] using he
  obtain ⟨before, after, t, rest, rfl, hstage, hr⟩ :=
    Parser.exists_refused (Parser.terminated_of_tokenize ht) hlen hs
  obtain rfl := Except.error.inj ((hr rest).symm.trans hs)
  obtain ⟨found, later, hfound⟩ : ∃ found later, after ++ t :: rest = found :: later :=
    List.exists_cons_of_ne_nil (by simp)
  have hat : (before ++ (after ++ t :: rest))[before.length]? = some found := by simp [hfound]
  have upTo : (before ++ (after ++ t :: rest)).take (before ++ after).length = before ++ after := by
    rw [← List.append_assoc, List.take_left]
  have through : (before ++ (after ++ t :: rest)).take ((before ++ after).length + 1) =
      before ++ (after ++ [t]) := by
    rw [List.take_add_one, upTo]
    simp
  refine ⟨(before ++ after).length, before.length, found, by simp, fun q hq => ?_, ?_, ?_, ?_,
    by simp, hat, start_ne_default ht (List.mem_of_getElem? hat), ?_⟩
  · have hq := viable_take hstage.viable q
    rwa [← List.map_append, ← List.map_take, ← upTo, List.take_take, Nat.min_eq_left ‹_›] at hq
  · rw [through]
    exact hr.not_viable
  · rw [upTo]
    exact fun i hw => beginning_unique ht hr hw
  · rw [upTo]
    intro hw
    rcases List.eq_nil_or_concat after with rfl | ⟨_, _, rfl⟩
    · rw [List.append_nil]
    · have within := hstage.within_of_ne_nil (by simp)
      rw [← List.map_append] at within
      exact absurd ⟨_, within⟩ hw
  · rw [hfound, ParseError.atHead]
    by_cases hend : found.token = .endOfInput
    · exact .inl ⟨hend, if_pos hend⟩
    · exact .inr ⟨hend, if_neg hend⟩

theorem parseStatement_refused_within_setting :
    let input := "ALTER CATALOG c SET ('a' = 'b', 'k' 1)"
    ∃ ts p r found, tokenize input = .ok ts ∧ ¬Viable ((ts.take (p + 1)).map Placed.token) ∧
      r ≤ p ∧ ts[r]? = some found ∧ found.token = .symbol .comma := by
  intro input
  have he : parseStatement input = .error (.unexpectedToken (.symbol .comma) ⟨1, 31, 30⟩) := by
    decide +kernel
  have hlen : (tokenize input).map List.length = .ok 13 := by decide +kernel
  cases ht : tokenize input with
  | error e =>
    rw [ht] at hlen
    cases hlen
  | ok ts =>
    rw [ht] at hlen
    have hlen : ts.length = 13 := Except.ok.inj hlen
    obtain ⟨p, r, found, -, -, hv, -, -, hle, hat, -, ⟨-, h⟩ | ⟨-, h⟩⟩ :=
      parseStatement_refused ht (by omega) he
    · cases h
    · exact ⟨ts, p, r, found, rfl, hv, hle, hat, (ParseError.unexpectedToken.inj h).1.symm⟩

end AlterCatalog
