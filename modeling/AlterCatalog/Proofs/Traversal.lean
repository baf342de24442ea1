import AlterCatalog.Proofs.Bare
import AlterCatalog.Proofs.Legible
import AlterCatalog.Statement.Node
import Mathlib.Data.List.Forall2

/-!
# The walk is a pre-order

The address of a node is the list of child numbers on the way down to it, and a walk meets the nodes
of a tree in the dictionary order of their addresses. With the depths the walk tells the tree: an
entry is the next child of the last entry one level up, so entries that tell what each node says by
itself leave only one tree, apart from its spans.
-/

namespace AlterCatalog

theorem Action.operand_injective : Function.Injective operand := by
  intro a b h
  cases a <;> cases b <;> simp_all [operand]

namespace Node

/-! ## Addresses -/

/-- The node at an address. -/
def at? (n : Node) : List Nat → Option Node
  | [] => some n
  | i :: address => n.children[i]?.bind fun c => c.at? address

/-- The nodes from this one down with their addresses, each before its children. -/
def addressed (n : Node) : List (List Nat × Node) :=
  ([], n) :: n.children.zipIdx.attach.flatMap fun ⟨(c, i), h⟩ =>
    have : c.height < n.height := height_lt_of_mem_children (List.fst_mem_of_mem_zipIdx h)
    c.addressed.map fun e => (i :: e.1, e.2)
termination_by n.height

theorem addressed_eq (n : Node) : n.addressed = ([], n) ::
    n.children.zipIdx.flatMap fun p => p.1.addressed.map fun e => (p.2 :: e.1, e.2) := by
  conv_rhs => rw [← List.attach_map_subtype_val n.children.zipIdx, List.flatMap_map]
  rw [addressed]

theorem mem_addressed {address : List Nat} {n m : Node} :
    (address, m) ∈ n.addressed ↔ n.at? address = some m := by
  induction address generalizing n with
  | nil =>
    rw [addressed_eq]
    simp [at?, eq_comm]
  | cons i address ih =>
    rw [addressed_eq]
    simp [at?, List.mem_zipIdx_iff_getElem?, Option.bind_eq_some_iff, ih]

theorem pairwise_zipIdx {α : Type} : ∀ (l : List α) (i : Nat),
    (l.zipIdx i).Pairwise fun a b => a.2 < b.2
  | [], _ => .nil
  | _ :: l, i =>
    List.pairwise_cons.2 ⟨fun _ hb => List.le_snd_of_mem_zipIdx hb, pairwise_zipIdx l (i + 1)⟩

theorem pairwise_addressed (n : Node) : n.addressed.Pairwise fun a b => a.1 < b.1 := by
  rw [addressed_eq, List.pairwise_cons, List.pairwise_flatMap]
  have hsiblings := pairwise_zipIdx n.children 0
  refine ⟨fun e he => ?_, fun p hp => ?_, hsiblings.imp fun hij a ha b hb => ?_⟩
  · obtain ⟨p, -, he⟩ := List.mem_flatMap.1 he
    obtain ⟨e, -, rfl⟩ := List.mem_map.1 he
    exact List.nil_lt_cons _ _
  · have : p.1.height < n.height := height_lt_of_mem_children (List.fst_mem_of_mem_zipIdx hp)
    rw [List.pairwise_map]
    exact (pairwise_addressed p.1).imp fun h => List.cons_lt_cons_iff.2 (.inr ⟨rfl, h⟩)
  · obtain ⟨a, -, rfl⟩ := List.mem_map.1 ha
    obtain ⟨b, -, rfl⟩ := List.mem_map.1 hb
    exact List.cons_lt_cons_iff.2 (.inl hij)
termination_by n.height

theorem walkFrom_eq_addressed (n : Node) (depth : Nat) :
    n.walkFrom depth = n.addressed.map fun e => (e.2, depth + e.1.length) := by
  rw [walkFrom_eq, addressed_eq, List.map_cons, List.map_flatMap]
  conv_lhs => rw [← List.zipIdx_map_fst 0 n.children, List.flatMap_map]
  refine congrArg _ (List.flatMap_congr fun p hp => ?_)
  have : p.1.height < n.height := height_lt_of_mem_children (List.fst_mem_of_mem_zipIdx hp)
  rw [walkFrom_eq_addressed p.1 (depth + 1), List.map_map]
  refine List.map_congr_left fun e _ => ?_
  rw [Function.comp_apply, List.length_cons, Nat.add_assoc, Nat.add_comm 1]
termination_by n.height

/-! ## Depths -/

theorem depth_le_of_mem_walkFrom {n : Node} {depth : Nat} {e : Node × Nat}
    (h : e ∈ n.walkFrom depth) : depth ≤ e.2 := by
  rw [walkFrom_eq_addressed] at h
  obtain ⟨a, -, rfl⟩ := List.mem_map.1 h
  exact Nat.le_add_right _ _

theorem depth_le_of_mem_forest {ns : List Node} {depth : Nat} {e : Node × Nat}
    (h : e ∈ ns.flatMap fun n => n.walkFrom depth) : depth ≤ e.2 := by
  obtain ⟨n, -, h⟩ := List.mem_flatMap.1 h
  exact depth_le_of_mem_walkFrom h

/-- A walk is at its first depth only once. -/
theorem countP_forest (ns : List Node) (depth : Nat) :
    (ns.flatMap fun n => n.walkFrom depth).countP (·.2 = depth) = ns.length := by
  induction ns with
  | nil => rfl
  | cons n ns ih =>
    have hbelow : (n.children.flatMap fun c => c.walkFrom (depth + 1)).countP
        (·.2 = depth) = 0 := by
      refine List.countP_eq_zero.2 fun e he => ?_
      have := depth_le_of_mem_forest he
      simp only [decide_eq_true_eq]
      omega
    rw [List.flatMap_cons, List.countP_append, ih, walkFrom_eq,
      List.countP_cons_of_pos (by simp), hbelow, List.length_cons]
    omega

/-! ## Next children -/

/-- The node is the next child of the last entry one level above it. -/
def Next (before : List (Node × Nat)) (n : Node) (depth : Nat) : Prop :=
  ∃ earlier parent level between, before = earlier ++ (parent, level) :: between ∧
    depth = level + 1 ∧ (∀ e ∈ between, e.2 ≠ level) ∧
    parent.children[between.countP (·.2 = depth)]? = some n

/-- Every entry is the next child after those before it. -/
def Threaded : List (Node × Nat) → List (Node × Nat) → Prop
  | _, [] => True
  | before, (n, depth) :: after => Next before n depth ∧ Threaded (before ++ [(n, depth)]) after

theorem threaded_append {before es fs : List (Node × Nat)} :
    Threaded before (es ++ fs) ↔ Threaded before es ∧ Threaded (before ++ es) fs := by
  induction es generalizing before with
  | nil => simp [Threaded]
  | cons e es ih =>
    rw [List.cons_append, Threaded, Threaded, ih, and_assoc, List.append_assoc,
      List.singleton_append]

theorem threaded_children {n : Node} {depth : Nat}
    (hchild : ∀ c ∈ n.children, ∀ before, Next before c (depth + 1) →
      Threaded before (c.walkFrom (depth + 1)))
    (before : List (Node × Nat)) : ∀ done todo, n.children = done ++ todo →
      Threaded (before ++ (n, depth) :: done.flatMap fun c => c.walkFrom (depth + 1))
        (todo.flatMap fun c => c.walkFrom (depth + 1))
  | done, [], _ => trivial
  | done, c :: todo, h => by
    have hnext : Next (before ++ (n, depth) :: done.flatMap fun c => c.walkFrom (depth + 1))
        c (depth + 1) := by
      refine ⟨before, n, depth, _, rfl, rfl, fun e he => ?_, ?_⟩
      · have := depth_le_of_mem_forest he
        omega
      · rw [countP_forest, h]
        simp
    rw [List.flatMap_cons, threaded_append]
    refine ⟨hchild c (by simp [h]) _ hnext, ?_⟩
    have hrest := threaded_children hchild before (done ++ [c]) todo (by simp [h])
    simpa using hrest

theorem threaded_walkFrom {n : Node} {depth : Nat} {before : List (Node × Nat)}
    (h : Next before n depth) : Threaded before (n.walkFrom depth) := by
  rw [walkFrom_eq]
  refine ⟨h, ?_⟩
  refine threaded_children (fun c hc before hnext => ?_) before [] n.children rfl
  have : c.height < n.height := height_lt_of_mem_children hc
  exact threaded_walkFrom hnext
termination_by n.height

/-! ## What the entries tell -/

/-- What a node says by itself, apart from its span and its children. -/
inductive Content where
  | statement (kind : Kind)
  | name (parts : List String)
  | literal (value : LiteralValue)
  | keys
  | settings
  | setting
deriving DecidableEq

def content : Node → Content
  | statement s => .statement s.kind
  | name n => .name n.parts
  | literal l => .literal l.value
  | keys _ => .keys
  | settings _ => .settings
  | setting _ => .setting

/-- A walk told by depths and contents. -/
def profile (depth : Nat) (n : Node) : List (Nat × Content) :=
  (n.walkFrom depth).map fun e => (e.2, e.1.content)

theorem profile_eq (depth : Nat) (n : Node) :
    n.profile depth = (depth, n.content) :: n.children.flatMap (profile (depth + 1)) := by
  rw [profile, walkFrom_eq, List.map_cons, List.map_flatMap]
  rfl

theorem content_bare (n : Node) : n.bare.content = n.content := by
  cases n with
  | statement s =>
    obtain ⟨span, catalog, action⟩ := s
    cases action <;> rfl
  | _ => rfl

theorem profile_bare (depth : Nat) (n : Node) : n.bare.profile depth = n.profile depth := by
  simp only [profile, walkFrom_bare, List.map_map, Function.comp_def, content_bare]

/-- A node is what it says by itself over its children. -/
theorem bare_eq_of_content {n m : Node} (hc : n.content = m.content)
    (h : n.bare.children = m.bare.children) : n.bare = m.bare := by
  cases n with
  | statement s =>
    cases m with
    | statement t =>
      simp only [bare, children, List.cons.injEq, name.injEq, and_true] at h
      have ha : s.action.bare = t.action.bare := Action.operand_injective h.2
      have hs : s.bare = t.bare := congrArg₂ (Statement.mk {} · ·) h.1 ha
      rw [bare, bare, hs]
    | _ => cases hc
  | name a =>
    cases m with
    | name b =>
      have hp : a.parts = b.parts := Content.name.inj hc
      simp only [bare, Name.bare, hp]
    | _ => cases hc
  | literal a =>
    cases m with
    | literal b =>
      have hv : a.value = b.value := Content.literal.inj hc
      simp only [bare, Literal.bare, hv]
    | _ => cases hc
  | keys a =>
    cases m with
    | keys b =>
      have hi : a.items.map Literal.bare = b.items.map Literal.bare :=
        List.map_injective_iff.2 (fun _ _ => literal.inj) h
      simp only [bare, Listing.bare, hi]
    | _ => cases hc
  | settings a =>
    cases m with
    | settings b =>
      have hi : a.items.map Setting.bare = b.items.map Setting.bare :=
        List.map_injective_iff.2 (fun _ _ => setting.inj) h
      simp only [bare, Listing.bare, hi]
    | _ => cases hc
  | setting a =>
    cases m with
    | setting b =>
      simp only [bare, children, List.cons.injEq, literal.injEq, and_true] at h
      have hb : a.bare = b.bare := congrArg₂ (Setting.mk · · {}) h.1 h.2
      rw [bare, bare, hb]
    | _ => cases hc

/-- The entries start above a depth. -/
def StartsAbove (depth : Nat) (r : List (Nat × Content)) : Prop := ∀ e ∈ r.head?, e.1 < depth

theorem startsAbove_forest {depth : Nat} {r : List (Nat × Content)} (hr : StartsAbove depth r)
    (ns : List Node) : StartsAbove (depth + 1) (ns.flatMap (profile depth) ++ r) := by
  intro e he
  cases ns with
  | nil => exact Nat.lt_succ_of_lt (hr e he)
  | cons n ns =>
    rw [List.flatMap_cons, profile_eq] at he
    obtain rfl : (depth, n.content) = e := by simpa using he
    exact Nat.lt_succ_self _

theorem not_startsAbove {depth : Nat} {m : Node} {ms : List Node} {r : List (Nat × Content)} :
    ¬StartsAbove depth ((m :: ms).flatMap (profile depth) ++ r) := by
  intro h
  rw [List.flatMap_cons, profile_eq] at h
  exact Nat.lt_irrefl depth (h _ rfl)

/-- Where a profile is read off entries that go on above it, the node and the rest are known. -/
def Cancels (depth : Nat) (n : Node) : Prop :=
  ∀ (m : Node) (r r' : List (Nat × Content)), StartsAbove (depth + 1) r →
    StartsAbove (depth + 1) r' → n.profile depth ++ r = m.profile depth ++ r' →
    n.bare = m.bare ∧ r = r'

theorem forest_cancel {depth : Nat} : ∀ {ns ms : List Node} {r r' : List (Nat × Content)},
    (∀ n ∈ ns, Cancels depth n) → StartsAbove depth r → StartsAbove depth r' →
    ns.flatMap (profile depth) ++ r = ms.flatMap (profile depth) ++ r' →
    ns.map bare = ms.map bare ∧ r = r'
  | [], [], _, _, _, _, _, h => ⟨rfl, h⟩
  | [], m :: ms, r, r', _, hr, _, h => by
    have h : r = (m :: ms).flatMap (profile depth) ++ r' := h
    exact absurd (h ▸ hr) not_startsAbove
  | n :: ns, [], r, r', _, _, hr', h => by
    have h : (n :: ns).flatMap (profile depth) ++ r = r' := h
    exact absurd (h ▸ hr') not_startsAbove
  | n :: ns, m :: ms, r, r', hc, hr, hr', h => by
    obtain ⟨hn, hns⟩ := List.forall_mem_cons.1 hc
    rw [List.flatMap_cons, List.flatMap_cons, List.append_assoc, List.append_assoc] at h
    obtain ⟨hbare, h⟩ := hn m _ _ (startsAbove_forest hr ns) (startsAbove_forest hr' ms) h
    obtain ⟨hmap, hrest⟩ := forest_cancel hns hr hr' h
    exact ⟨by rw [List.map_cons, List.map_cons, hbare, hmap], hrest⟩

theorem cancels (depth : Nat) (n : Node) : Cancels depth n := by
  intro m r r' hr hr' h
  have hchildren : ∀ c ∈ n.children, Cancels (depth + 1) c := fun c hc =>
    have : c.height < n.height := height_lt_of_mem_children hc
    cancels (depth + 1) c
  rw [profile_eq, profile_eq depth m, List.cons_append, List.cons_append] at h
  obtain ⟨hhead, h⟩ := List.cons.inj h
  obtain ⟨hmap, hrest⟩ := forest_cancel hchildren hr hr' h
  refine ⟨bare_eq_of_content (Prod.mk.inj hhead).2 ?_, hrest⟩
  rw [children_bare, children_bare, hmap]
termination_by n.height

theorem profile_eq_iff {n m : Node} {depth : Nat} :
    n.profile depth = m.profile depth ↔ n.bare = m.bare := by
  constructor
  · intro h
    have hnil : StartsAbove (depth + 1) [] := fun _ he => nomatch he
    exact (cancels depth n m [] [] hnil hnil (congrArg (· ++ []) h)).1
  · intro h
    rw [← profile_bare, h, profile_bare]

/-! ## The walk of a whole tree -/

/-- What makes a list of nodes with depths the pre-order of a tree. -/
structure PreOrder (root : Node) (entries : List (Node × Nat)) : Prop where
  head : entries.head? = some (root, 0)
  next : ∀ before n depth after, entries = before ++ (n, depth) :: after → before ≠ [] →
    Next before n depth
  /-- Every node of the tree occurs once, in the order of the addresses. -/
  once : ∃ places : List (List Nat × Node), places.Pairwise (fun a b => a.1 < b.1) ∧
    (∀ address n, (address, n) ∈ places ↔ root.at? address = some n) ∧
    entries = places.map fun e => (e.2, e.1.length)

theorem preOrder_walk (n : Node) : PreOrder n n.walk := by
  have hwalk : n.walk = (n, 0) :: n.children.flatMap fun c => c.walkFrom 1 := walkFrom_eq 0 n
  constructor
  case head => rw [hwalk, List.head?_cons]
  case next =>
    intro before m depth after h hb
    obtain ⟨first, before, rfl⟩ := List.exists_cons_of_ne_nil hb
    rw [hwalk, List.cons_append] at h
    obtain ⟨rfl, hrest⟩ := List.cons.inj h
    have hthread : Threaded [(n, 0)] (n.children.flatMap fun c => c.walkFrom 1) :=
      threaded_children (fun _ _ _ => threaded_walkFrom) [] [] n.children rfl
    rw [hrest, threaded_append] at hthread
    exact hthread.2.1
  case once =>
    refine ⟨n.addressed, n.pairwise_addressed, fun _ _ => mem_addressed, ?_⟩
    simp only [walk, walkFrom_eq_addressed, Nat.zero_add]

end Node

/-! ## The walk of a statement -/

theorem head?_toList_append {s : String} {c : Char} (h : s.toList.head? = some c) (t : String) :
    (s ++ t).toList.head? = some c := by
  rw [String.toList_append, List.head?_append, h, Option.some_or]

theorem Node.head?_describe (n : Node) : ∃ c, n.describe.toList.head? = some c ∧ c ≠ ' ' := by
  cases n with
  | statement s =>
    exact ⟨'A', head?_toList_append (head?_toList_append (by decide) _) _, by decide⟩
  | name n => exact ⟨'I', head?_toList_append (by decide) _, by decide⟩
  | literal l =>
    exact ⟨'L', head?_toList_append (head?_toList_append (head?_toList_append (by decide) _) _) _,
      by decide⟩
  | keys l => exact ⟨'L', head?_toList_append (head?_toList_append (by decide) _) _, by decide⟩
  | settings l => exact ⟨'O', head?_toList_append (head?_toList_append (by decide) _) _, by decide⟩
  | setting s =>
    have h : "Property Option".toList.head? = some 'P' := by decide
    exact ⟨'P', h, by decide⟩

/-- How many spaces a line starts with. -/
def indentation (line : String) : Nat := (line.toList.takeWhile (· = ' ')).length

theorem indentation_spaces {text : String} {c : Char} (h : text.toList.head? = some c)
    (hc : c ≠ ' ') (n : Nat) : indentation (spaces n ++ text) = n := by
  obtain ⟨r, ht⟩ := List.head?_eq_some_iff.1 h
  rw [indentation, spaces, String.toList_append, String.toList_ofList, ht,
    List.takeWhile_append_of_pos (by simp), List.takeWhile_cons_of_neg (by simpa using hc),
    List.append_nil, List.length_replicate]

namespace Statement

theorem outline_lines (s : Statement) : List.Forall₂ (fun line e =>
    line = spaces (2 * e.2) ++ e.1.describe ∧ indentation line = 2 * e.2) s.outline s.walk := by
  rw [outline, List.forall₂_map_left_iff, List.forall₂_same]
  intro e _
  obtain ⟨c, hhead, hc⟩ := e.1.head?_describe
  exact ⟨rfl, indentation_spaces hhead hc _⟩

theorem length_walk (s : Statement) : s.walk.length =
    match s.action with
    | .set settings => 3 + 3 * settings.items.length
    | .reset keys => 3 + keys.items.length
    | .rename _ => 3
    | .comment _ => 3 := by
  have hnodes : s.walk.length = s.action.nodes.length + 2 := by
    rw [← List.length_map Prod.fst, ← nodes, nodes_eq, List.length_cons, List.length_cons]
  rw [hnodes]
  cases s.action with
  | set settings =>
    have hitems : (Action.set settings).nodes.length = 3 * settings.items.length + 1 := by
      simp [Action.nodes, List.length_flatMap, Nat.mul_comm]
    show _ = 3 + 3 * settings.items.length
    omega
  | reset keys =>
    have hitems : (Action.reset keys).nodes.length = keys.items.length + 1 := by
      simp [Action.nodes]
    show _ = 3 + keys.items.length
    omega
  | rename => rfl
  | comment => rfl

end Statement

/-- **The walk is a faithful pre-order.** It starts at the statement, goes on to the next child of
the last entry one level up, and meets every node of the tree once. Depths and contents tell which
statement it was, spans aside. The outline has a line for each entry, indented by its depth. -/
theorem walk_faithful (s : Statement) : Node.PreOrder (.statement s) s.walk ∧
    (s.walk.length =
      match s.action with
      | .set settings => 3 + 3 * settings.items.length
      | .reset keys => 3 + keys.items.length
      | .rename _ => 3
      | .comment _ => 3) ∧
    (∀ t : Statement, s.same t = true ↔
      s.walk.map (fun e => (e.2, e.1.content)) = t.walk.map fun e => (e.2, e.1.content)) ∧
    List.Forall₂ (fun line e => line = spaces (2 * e.2) ++ e.1.describe ∧
      indentation line = 2 * e.2) s.outline s.walk := by
  refine ⟨Node.preOrder_walk _, s.length_walk, fun t => ?_, s.outline_lines⟩
  have h : (Node.statement s).bare = (Node.statement t).bare ↔ s.bare = t.bare :=
    Node.statement.injEq _ _ ▸ Iff.rfl
  rw [Statement.same_iff, ← h, ← Node.profile_eq_iff]
  rfl

end AlterCatalog
