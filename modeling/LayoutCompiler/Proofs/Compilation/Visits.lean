import LayoutCompiler.Proofs.Compilation.Trees
/-!
# Visits

Which elements a compilation compiles, and from which passes: `Visits` follows the way that it takes
through a layout. What is known about a single element while it is compiled becomes known about it
in the finished tree, since nothing that comes after it is recorded about the nodes inside of it.

* `Visits.compiled`: by induction over the way to an element, that it is compiled and then kept.
* `Visited.laid`: what a finished tree records for an element and its children.
* `exists_visited`: every element of a layout is visited.
-/

namespace LayoutCompiler

open LayoutCompiler.Tree (Between Grows Records)

variable {α β γ : Type} {s s' : Pass α}

namespace Compile

/-! ## Runs of steps -/

theorem run_seq {step : Compile α β} {next : β → Compile α γ} {r : γ × Pass α}
    (h : (step >>= next) s = .ok r) : ∃ v s₁, step s = .ok (v, s₁) ∧ next v s₁ = .ok r := by
  obtain ⟨⟨v, s₁⟩, hstep, hnext⟩ := bind_eq_ok_iff.1 h
  exact ⟨v, s₁, hstep, hnext⟩

theorem run_lift {r : Outcome β} {v : β} (h : (liftM r : Compile α β) s = .ok (v, s')) :
    r = .ok v ∧ s' = s := by
  cases r with
  | error e => cases h
  | ok w =>
    cases h
    exact ⟨rfl, rfl⟩

variable [Scalar α] {setting : Setting α} {file : String} {e : Element} {around : Option Scope}
  {parent : Option Nat} {depth : WrapDepth} {child : Child α} {children : List (Child α)}

/-- An element is compiled in three phases: its nodes, its children, and their layout. -/
theorem run_element (h : element setting file e around parent depth s = .ok (child, s')) :
    ∃ p placed s₁ inside s₂, opening setting file e around parent depth s = .ok ((p, placed), s₁) ∧
      elements setting file e.children p.scope placed.inner (depth.inside p.params) s₁ =
        .ok (inside, s₂) ∧
      arrangeChildren setting p placed inside s₂ = .ok ((), s') ∧
      child = { node := placed.outer, params := p.params } := by
  obtain ⟨tag, attributes, es, text⟩ := e
  unfold element at h
  obtain ⟨⟨p, placed⟩, s₁, h₁, h⟩ := run_seq h
  obtain ⟨inside, s₂, h₂, h⟩ := run_seq h
  obtain ⟨_, s₃, h₃, h⟩ := run_seq h
  cases h
  exact ⟨p, placed, s₁, inside, s₂, h₁, h₂, h₃, rfl⟩

/-- What the phases of an element leave behind. -/
theorem phases {M : List Nat} {p : Prepared α} {placed : Placed} {s₁ : Pass α}
    (hready : Ready parent M s)
    (hrun : element setting file e around parent depth s = .ok (child, s'))
    (hopening : opening setting file e around parent depth s = .ok ((p, placed), s₁)) :
    ∃ children s₂, elements setting file e.children p.scope placed.inner (depth.inside p.params)
        s₁ = .ok (children, s₂) ∧
      Opened setting file e around parent M p placed s s₁ ∧
      Nested setting file e.children p.scope placed.inner (placed.outer :: M) children s₁ s₂ ∧
      Fitted setting p placed children parent M s.tree s₂ s' := by
  obtain ⟨_, _, _, children, s₂, hopening', helements, harrange, rfl⟩ := run_element hrun
  rw [hopening] at hopening'
  cases hopening'
  have ho := (opening_spec file e around depth hready).of_ok hopening
  have hn := (elements_spec setting file e.children _ _ _ _ _ (ho.ready hready.below)).of_ok
    helements
  have hf := (arrangeChildren_spec children (ho.standing_of_nested hn)
    (ho.stacking hready.below hn)).of_ok harrange
  exact ⟨children, s₂, helements, ho, hn, hf⟩

theorem run_elements_cons {es : List Element} {scope : Scope} {x : Nat}
    (h : elements setting file (e :: es) scope x depth s = .ok (children, s')) :
    ∃ child s₁ rest, element setting file e (some scope) (some x) depth s = .ok (child, s₁) ∧
      elements setting file es scope x depth s₁ = .ok (rest, s') ∧ children = child :: rest := by
  unfold elements at h
  obtain ⟨child, s₁, h₁, h⟩ := run_seq h
  obtain ⟨rest, s₂, h₂, h⟩ := run_seq h
  cases h
  exact ⟨child, s₁, rest, h₁, h₂, rfl⟩

theorem run_elements_append {before after : List Element} {scope : Scope} {x : Nat}
    (h : elements setting file (before ++ after) scope x depth s = .ok (children, s')) :
    ∃ done s₁ rest, elements setting file before scope x depth s = .ok (done, s₁) ∧
      elements setting file after scope x depth s₁ = .ok (rest, s') ∧ children = done ++ rest := by
  induction before generalizing s children with
  | nil => exact ⟨[], s, children, by unfold elements; rfl, h, rfl⟩
  | cons e es ih =>
    obtain ⟨child, s₁, others, h₁, hothers, rfl⟩ := run_elements_cons h
    obtain ⟨done, s₂, rest, h₂, h₃, rfl⟩ := ih hothers
    refine ⟨child :: done, s₂, rest, ?_, h₃, rfl⟩
    unfold elements
    show (element setting file e (some scope) (some x) depth s >>= _) = _
    rw [h₁]
    show (elements setting file es scope x depth s₁ >>= _) = _
    rw [h₂]
    rfl

end Compile

namespace Compilation

variable [Scalar α] {setting : Setting α} {file : String} {root e : Element}
  {around : Option Scope} {parent : Option Nat} {depth : WrapDepth} {p : Prepared α}
  {placed : Placed} {children : List (Child α)} {c : Compilation α}

/-! ## The way through a layout -/

/-- The compilation of a layout compiles an element inside a scope, under a node, from a pass: the
root from the start, and a child once its parent has been opened and the children before it have
been compiled. -/
inductive Visits (setting : Setting α) (file : String) (root : Element) :
    Element → Option Scope → Option Nat → WrapDepth → Pass α → Prop
  | root : Visits setting file root root none none {} (start file)
  | child {e e' : Element} {around : Option Scope} {parent : Option Nat} {depth : WrapDepth}
    {s s₁ s₂ : Pass α} {p : Prepared α} {placed : Placed} {before after : List Element}
    {done : List (Child α)} (h : Visits setting file root e around parent depth s)
    (hopening : Compile.opening setting file e around parent depth s = .ok ((p, placed), s₁))
    (hsplit : e.children = before ++ e' :: after)
    (hbefore : Compile.elements setting file before p.scope placed.inner (depth.inside p.params)
      s₁ = .ok (done, s₂)) :
    Visits setting file root e' (some p.scope) (some placed.inner) (depth.inside p.params) s₂

/-- The compilation of a layout visits an element, opens its nodes and compiles its children. -/
def Visited (setting : Setting α) (file : String) (root e : Element) (p : Prepared α)
    (placed : Placed) (children : List (Child α)) : Prop :=
  ∃ around parent depth s s₁ s₂, Visits setting file root e around parent depth s ∧
    Compile.opening setting file e around parent depth s = .ok ((p, placed), s₁) ∧
    Compile.elements setting file e.children p.scope placed.inner (depth.inside p.params) s₁ =
      .ok (children, s₂)

/-- The compilation of a layout, with what its root is compiled to. -/
def visitRoot (setting : Setting α) (file : String) (root : Element) :
    Outcome (Compilation α × Prepared α × Placed × List (Child α)) := do
  let c ← ofElement setting file root
  let ((p, placed), s) ← Compile.opening setting file root none none {} (start file)
  let (children, _) ← Compile.elements setting file root.children p.scope placed.inner
    (WrapDepth.inside {} p.params) s
  pure (c, p, placed, children)

theorem visited_of_visitRoot
    (h : visitRoot setting file root = .ok (c, p, placed, children)) :
    ofElement setting file root = .ok c ∧ Visited setting file root root p placed children := by
  unfold visitRoot at h
  cases hc : ofElement setting file root with
  | error e =>
    rw [hc] at h
    cases h
  | ok c' =>
    cases ho : Compile.opening setting file root none none {} (start file) with
    | error e =>
      rw [hc, ho] at h
      cases h
    | ok r =>
      obtain ⟨⟨p', placed'⟩, s⟩ := r
      cases he : Compile.elements setting file root.children p'.scope placed'.inner
          (WrapDepth.inside {} p'.params) s with
      | error e =>
        rw [hc, ho] at h
        simp only [bind, Except.bind, he] at h
        cases h
      | ok r =>
        rw [hc, ho] at h
        simp only [bind, Except.bind, he] at h
        cases h
        exact ⟨rfl, none, none, {}, start file, s, r.2, .root, ho, he⟩

/-! ## What is kept -/

/-- Nothing has been recorded about the nodes that an element has got inside of its outer one. -/
def Kept (s s' : Pass α) (t : Tree α) : Prop :=
  Between (fun m => m ≤ s.tree.size ∨ s'.tree.size ≤ m) s'.tree t

/-- Until the children of an element are laid out, nothing is recorded about the nodes inside of one
of them: neither by the children behind it nor by the layout of all of them. -/
theorem between_of_fitted {K L M N : List Nat} {s₁ s₂ s₃ s₄ : Pass α} {scope : Scope}
    {before after : List Element} {done rest : List (Child α)} {child : Child α} {t₀ : Tree α}
    {place : Option Nat} (hinner : placed.inner < s₁.tree.size)
    (hn : Compile.Nested setting file before scope placed.inner K done s₁ s₂)
    (ha : Compile.Added setting file e around place L child s₂ s₃)
    (hnext : Compile.Nested setting file after scope placed.inner M rest s₃ s₄)
    (hf : Compile.Fitted setting p placed (done ++ child :: rest) parent N t₀ s₄ s') :
    Between (fun m => m ≤ s₂.tree.size ∨ s₃.tree.size ≤ m) s₃.tree s'.tree := by
  have hbehind : Between (fun m => m ≤ s₂.tree.size ∨ s₃.tree.size ≤ m) s₃.tree s₄.tree :=
    hnext.grows.recorded.imp fun m hm => Or.inr hm
  refine hbehind.trans (hf.near.imp ?_)
  -- a law is about the container, one of its children or a node made later
  rintro m ⟨-, rfl | hm | hm⟩
  · have := hn.grows.size_le
    omega
  · obtain ⟨y, hy, rfl⟩ := List.mem_map.1 hm
    rcases List.mem_append.1 hy with hy | hy
    · exact Or.inl (Nat.le_of_lt (Tree.lt_size_of_ident (hn.placed y hy).2.2))
    · rcases List.mem_cons.1 hy with rfl | hy
      · exact Or.inl (Nat.le_of_eq ha.first)
      · exact Or.inr (hnext.placed y hy).1
  · exact Or.inr (Nat.le_trans hnext.grows.size_le hm)

/-- An element that the compilation of a layout visits is compiled, from a pass that is ready for
it; whatever is recorded after that is about nodes around it, or about newer ones. -/
theorem Visits.compiled (h : ofElement setting file root = .ok c)
    (hv : Visits setting file root e around parent depth s) :
    ∃ M child s', Ready parent M s ∧
      Compile.element setting file e around parent depth s = .ok (child, s') ∧
      Kept s s' c.tree := by
  induction hv with
  | root =>
    rcases ofElement_cases setting file root with ⟨child, s, hrun, -, hok⟩ | ⟨e, herror, -⟩
    · rw [hok] at h
      obtain rfl := Except.ok.inj h
      exact ⟨[], child, s, ready_start file, hrun, Between.of_eq rfl⟩
    · rw [herror] at h
      cases h
  | @child e e' around parent depth s s₁ s₂ p placed before after done hv hopening hsplit hbefore
    ih =>
    obtain ⟨M, _, s', hready, hrun, hkept⟩ := ih
    obtain ⟨children, s₄, hrun, ho, -, hf⟩ := Compile.phases hready hrun hopening
    rw [hsplit] at hrun
    obtain ⟨_, _, others, hbefore', hothers, rfl⟩ := Compile.run_elements_append hrun
    rw [hbefore] at hbefore'
    cases hbefore'
    obtain ⟨child, s₃, rest, helement, hrest, rfl⟩ := Compile.run_elements_cons hothers
    have hnode := ho.ready hready.below
    have hn := (Compile.elements_spec setting file before _ _ _ _ _ hnode).of_ok hbefore
    have hchild := hn.ready hnode
    have ha := (Compile.element_spec setting file e' _ _ _ _ _ hchild).of_ok helement
    have hnext := (Compile.elements_spec setting file after _ _ _ _ _
      (ha.ready hchild.place hchild.below)).of_ok hrest
    refine ⟨_, child, s₃, hchild, helement, ?_⟩
    have hbetween := between_of_fitted hnode.place hn ha hnext hf
    -- what is recorded around the parent is about nodes around it, and so around the child
    refine hbetween.trans (hkept.imp fun m hm => ?_)
    have hbefore := ho.standing.grows.size_le.trans hn.grows.size_le
    have hafter := hnext.grows.size_le.trans hf.size_le
    exact hm.imp (fun hm => hm.trans hbefore) fun hm => hafter.trans hm

/-- The elements of a layout. -/
inductive Contains (root : Element) : Element → Prop
  | root : Contains root root
  | child {e e' : Element} (h : Contains root e) (hmem : e' ∈ e.children) : Contains root e'

/-- An element that is visited has been compiled as a whole. -/
theorem Visits.visited (h : ofElement setting file root = .ok c)
    (hv : Visits setting file root e around parent depth s) :
    ∃ p placed s₁ children s₂,
      Compile.opening setting file e around parent depth s = .ok ((p, placed), s₁) ∧
      Compile.elements setting file e.children p.scope placed.inner (depth.inside p.params) s₁ =
        .ok (children, s₂) ∧ Visited setting file root e p placed children := by
  obtain ⟨M, child, s', -, hrun, -⟩ := hv.compiled h
  obtain ⟨p, placed, s₁, children, s₂, hopening, helements, -⟩ := Compile.run_element hrun
  exact ⟨p, placed, s₁, children, s₂, hopening, helements, around, parent, depth, s, s₁, s₂, hv,
    hopening, helements⟩

/-- All children of an element that is visited are visited. -/
theorem Visits.exists_child {e' : Element} (h : ofElement setting file root = .ok c)
    (hv : Visits setting file root e around parent depth s) (hmem : e' ∈ e.children) :
    ∃ p placed s₁ s₂,
      Compile.opening setting file e around parent depth s = .ok ((p, placed), s₁) ∧
      Visits setting file root e' (some p.scope) (some placed.inner) (depth.inside p.params)
        s₂ := by
  obtain ⟨p, placed, s₁, children, s₂, hopening, helements, -⟩ := hv.visited h
  obtain ⟨before, after, hsplit⟩ := List.append_of_mem hmem
  rw [hsplit] at helements
  obtain ⟨done, s₃, rest, hbefore, -⟩ := Compile.run_elements_append helements
  exact ⟨p, placed, s₁, s₃, hopening, .child hv hopening hsplit hbefore⟩

/-- A compilation visits every element of its layout. -/
theorem exists_visited (h : ofElement setting file root = .ok c) (he : Contains root e) :
    ∃ p placed children, Visited setting file root e p placed children := by
  have hvisits : ∃ around parent depth s, Visits setting file root e around parent depth s := by
    induction he with
    | root => exact ⟨_, _, _, _, .root⟩
    | child _ hmem ih =>
      obtain ⟨around, parent, depth, s, hv⟩ := ih
      obtain ⟨p, placed, s₁, s₂, -, hv'⟩ := hv.exists_child h hmem
      exact ⟨_, _, _, _, hv'⟩
  obtain ⟨around, parent, depth, s, hv⟩ := hvisits
  obtain ⟨p, placed, s₁, children, s₂, -, -, hvisited⟩ := hv.visited h
  exact ⟨p, placed, children, hvisited⟩

/-! ## Finished trees -/

/-- What a tree records for an element that was compiled to some nodes, and for its children. -/
structure Laid (setting : Setting α) (p : Prepared α) (placed : Placed)
    (children : List (Child α)) (t : Tree α) : Prop where
  outer_le : placed.outer ≤ placed.inner
  above : ∀ child ∈ children, placed.inner < child.node
  distinct : (children.map (·.node)).Nodup
  /-- Older laws are about older nodes; what the children record is about nodes above the inner
  one, and what comes after them about none of these nodes but the outer one. -/
  recorded : setting.options.target.usesConstraints = true → Compile.containerOf p.chain ≠ .linear →
    ∃ old outline inside later, Compile.Outlined setting p placed outline ∧
      t.constraints.map Constraint.law = old ++ (outline ++ (inside ++ (children.flatMap
        (Layout.childLaws (Compile.containerOf p.chain) placed.inner p.params) ++ later))) ∧
      (∀ l ∈ old, ∀ m ∈ l.participants, m < placed.outer) ∧
      (∀ l ∈ inside, ∀ m ∈ l.participants, placed.inner < m) ∧
      ∀ l ∈ later, ∀ m ∈ l.participants,
        m ≤ placed.outer ∨ placed.inner < m ∧ ∀ child ∈ children, child.node < m

/-- A finished tree records what each visited element asks for. -/
theorem Visited.laid (h : ofElement setting file root = .ok c)
    (hv : Visited setting file root e p placed children) :
    Laid setting p placed children c.tree := by
  obtain ⟨around, parent, depth, s, s₁, s₂, hv, hopening, helements⟩ := hv
  obtain ⟨M, child, s', hready, hrun, hkept⟩ := hv.compiled h
  obtain ⟨_, _, helements', ho, hn, hfitted⟩ := Compile.phases hready hrun hopening
  rw [helements] at helements'
  cases helements'
  refine
    { outer_le := ho.standing.outer_le
      above := fun child hchild =>
        Nat.lt_of_lt_of_le ho.standing.inner_lt (hn.placed child hchild).1
      distinct := hn.distinct
      recorded := fun htarget hkind => ?_ }
  -- Each phase of the element has recorded its own laws, and so has what came before and after it.
  obtain ⟨outline, houtlined, hopened⟩ := ho.outlined
  obtain ⟨inside, hinside, habove⟩ := hn.grows.recorded
  obtain ⟨later, hlater, haround⟩ := hkept
  obtain ⟨new₁, heq₁, hlaws₁⟩ := hopened
  obtain ⟨new₂, heq₂, hlaws₂⟩ := hfitted.records htarget hkind
  refine ⟨s.tree.constraints.map Constraint.law, outline, inside.map Constraint.law,
    later.map Constraint.law, houtlined, ?_, ?_, ?_, ?_⟩
  · rw [hlater, heq₂, hinside, heq₁, ← hlaws₁, ← hlaws₂]
    simp only [List.map_append, List.append_assoc]
  · intro l hl m hm
    obtain ⟨k, hk, rfl⟩ := List.mem_map.1 hl
    obtain ⟨x, ha, -⟩ := hready.settled k hk
    rw [ho.standing.first]
    exact Tree.lt_size_of_ident (ha.named m hm)
  · intro l hl m hm
    obtain ⟨k, hk, rfl⟩ := List.mem_map.1 hl
    exact Nat.lt_of_lt_of_le ho.standing.inner_lt (habove k hk m hm)
  · intro l hl m hm
    obtain ⟨k, hk, rfl⟩ := List.mem_map.1 hl
    rw [ho.standing.first]
    refine (haround k hk m hm).imp_right fun hm => ?_
    refine ⟨Nat.lt_of_lt_of_le hfitted.standing.inner_lt hm, fun child hchild => ?_⟩
    have hlt := Tree.lt_size_of_ident (hn.placed child hchild).2.2
    exact Nat.lt_of_lt_of_le (Nat.lt_of_lt_of_le hlt hfitted.size_le) hm

end Compilation

end LayoutCompiler
