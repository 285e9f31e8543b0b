import LayoutCompiler.Proofs.Compilation.Leads
import LayoutCompiler.Proofs.Tree.Fences
/-!
# Where an element is written

The nodes of an element are made behind all nodes that there are, and whatever its attributes write
stays there with them: a path leads down from the node that it starts from, and no child of that one
is older. So an element that is opened changes no older node, but that one of them gets a new child.

* `emission_beyond`: what an emission writes.
* `confined_applyAttributes`: what all attributes of an element write.
* `make_planted`, `opening_planted`: the nodes of an element.
-/

namespace LayoutCompiler.Compile

open LayoutCompiler.Tree (Notes Fenced Beyond Planted)

variable {α : Type} {t : Tree α} {base node : Nat}

/-! ## Emissions -/

theorem writeRuntime_beyond (h : Fenced base t) (hbase : base ≤ node) (hnode : node < t.size)
    (name type text : String) :
    Ensures (writeRuntime node name type text) t fun _ t' => Beyond base t t' := by
  unfold writeRuntime
  refine Ensures.seq (Tree.findOrCreate_beyond h hbase hnode runtimeStep) ?_
  rintro holder t₁ ⟨hholder, hlt, h₁⟩
  refine Ensures.seq (Tree.findOrCreate_beyond h₁.fenced hholder hlt (runtimeEntryStep name)) ?_
  rintro entry t₂ ⟨hentry, -, h₂⟩
  have htype := Beyond.setAttribute h₂.fenced hentry "type" type
  have hvalue := Beyond.setAttribute htype.fenced hentry "value" text
  exact (h₁.trans h₂).trans (htype.trans hvalue)

theorem writeAt_beyond (h : Fenced base t) (hbase : base ≤ node) (hnode : node < t.size)
    (kind : EmissionKind) (runtimeType : Option String) (path : AttributePath) (text : String) :
    Ensures (writeAt kind runtimeType node path text) t fun _ t' => Beyond base t t' := by
  unfold writeAt
  split
  · exact Beyond.refl h
  · rename_i name _
    refine Ensures.seq (Tree.walkPath_beyond h hbase hnode path.steps) ?_
    rintro target t₁ ⟨htarget, hlt, h₁⟩
    split
    · exact h₁.trans (Beyond.write h₁.fenced htarget fun _ => rfl)
    · exact (writeRuntime_beyond h₁.fenced htarget hlt name _ text).imp fun _ _ h₂ => h₁.trans h₂
    · exact h₁.trans (Beyond.setAttribute h₁.fenced htarget name text)

theorem writeText_beyond (h : Fenced base t) (hbase : base ≤ node) (hnode : node < t.size)
    (steps : List PathStep) (text : String) :
    Ensures (writeText node steps text) t fun _ t' => Beyond base t t' := by
  unfold writeText
  refine Ensures.seq (Tree.walkPath_beyond h hbase hnode steps) ?_
  rintro target t₁ ⟨htarget, -, h₁⟩
  exact h₁.trans (Beyond.write h₁.fenced htarget fun _ => rfl)

/-- An emission writes behind the fence that its node is behind. -/
theorem emission_beyond (h : Fenced base t) (hbase : base ≤ node) (hnode : node < t.size)
    (e : Emission) (path text : String) {step : Edit α Unit}
    (hstep : emission e path text node = .ok step) :
    Ensures step t fun _ t' => Beyond base t t' := by
  unfold emission at hstep
  split at hstep
  · exact map_spec (fun steps => writeText_beyond h hbase hnode steps text) hstep
  · exact map_spec (fun p => writeAt_beyond h hbase hnode _ _ p text) hstep

/-! ## Confined steps -/

/-- As long as a node is behind a fence, all that has changed is behind it. -/
def Confined (base node : Nat) (s s' : Pass α) : Prop :=
  Fenced base s.tree → node < s.tree.size → Beyond base s.tree s'.tree

theorem composes_confined (base node : Nat) :
    Composes (Confined base node : Pass α → Pass α → Prop) where
  refl _ h _ := Beyond.refl h
  trans h h' hf hnode := by
    have hfirst := h hf hnode
    exact hfirst.trans (h' hfirst.fenced (Nat.lt_of_lt_of_le hnode hfirst.size_le))

theorem confined_holdContent (setting : Setting α) {p : Prepared α} {placed : Placed}
    (houter : base ≤ placed.outer) (hinner : base ≤ placed.inner) (depth : WrapDepth) :
    Leads (Confined base node) (holdContent setting p placed depth) := by
  refine leads_holdContent_of (composes_confined base node) setting (fun x hx axis depth => ?_)
    depth
  have hbase : base ≤ x := by
    rcases List.mem_pair.1 hx with rfl | rfl
    · exact houter
    · exact hinner
  refine Leads.edit fun s hf _ => ?_
  have hhugging := Beyond.setAttribute hf hbase (Layout.huggingKey axis)
    (toString (Layout.wrapPower depth))
  exact hhugging.trans (Beyond.setAttribute hhugging.fenced hbase _ _)

variable [Scalar α] {setting : Setting α} {file : String} {p : Prepared α} {placed : Placed}
  {parent : Option Nat} {s s' : Pass α}

/-- The attributes of an element are written behind the fence that their node is behind. -/
theorem confined_applyAttributes (setting : Setting α) (file : String) (hbase : base ≤ node)
    (chain : List ElementRule) (scope : Scope) (attributes : Attributes) :
    Leads (Confined base node) (applyAttributes setting file chain node scope attributes) := by
  refine leads_applyAttributes_of (composes_confined base node) setting file ?_
    (fun _ _ hf _ => Beyond.refl hf) chain scope attributes
  intro e path text step hstep
  exact Leads.edit fun s hf hnode => emission_beyond hf hbase hnode e path text hstep

/-! ## Nodes of elements -/

theorem makeOne_planted (h : makeOne setting file p parent s = .ok (placed, s')) :
    Planted (parent.map s.tree.contentOf) placed.outer s.tree s'.tree ∧
      placed.outer ≤ placed.inner ∧ placed.inner < s'.tree.size := by
  obtain ⟨node, s₁, hnode, happlied, rfl⟩ := run_makeOne h
  cases hnode
  have hp := Tree.instantiate_planted p.blueprint parent (elementRender setting p.scope) s.tree
  have hwritten := confined_applyAttributes setting file (Nat.le_of_eq hp.first.symm) _ _ _ _ _ _
    happlied hp.fenced hp.lt
  exact ⟨hp.trans hwritten, Nat.le_refl _, Nat.lt_of_lt_of_le hp.lt hwritten.size_le⟩

/-- The inner one of two nodes is behind the same fence as the outer one, which it is put into. -/
theorem makeTwo_planted (h : makeTwo setting file p parent s = .ok (placed, s')) :
    Planted (parent.map s.tree.contentOf) placed.outer s.tree s'.tree ∧
      placed.outer ≤ placed.inner ∧ placed.inner < s'.tree.size := by
  obtain ⟨chain, b, outer, inner, s₁, s₂, s₃, s₄, -, houter, hinner, hforcing, hrest, rfl, hlaid⟩ :=
    run_makeTwo h
  -- the outer node is planted, the inner one beneath it; from then on only nodes above the old size
  -- change
  have hp : Planted (parent.map s.tree.contentOf) outer s.tree s₁.tree := by
    cases houter
    exact Tree.instantiate_planted b parent (elementRender setting p.scope) s.tree
  have hq : Planted (some (s₁.tree.contentOf outer)) inner s₁.tree s₂.tree := by
    cases hinner
    exact Tree.instantiate_planted p.blueprint (some outer) (elementRender setting p.scope) s₁.tree
  have hbase : s.tree.size ≤ outer := Nat.le_of_eq hp.first.symm
  have hle : outer ≤ inner := hq.first ▸ Nat.le_of_lt hp.lt
  obtain ⟨hplace, hlt⟩ := hp.fenced.contentOf hbase hp.lt
  have hboth := hq.beyond hp.fenced (Nat.le_trans hplace (Nat.le_of_lt hlt))
    fun p hmem => Option.mem_some.1 hmem ▸ ⟨hplace, hlt⟩
  have hconfined : Confined s.tree.size outer _ s₃ :=
    confined_applyAttributes setting file hbase _ _ _ _ _ _ hforcing
  have hforced : Beyond s.tree.size s₂.tree s₃.tree :=
    hconfined hboth.fenced (Nat.lt_of_lt_of_le hp.lt hboth.size_le)
  have hinner₃ : inner < s₃.tree.size := Nat.lt_of_lt_of_le hq.lt hforced.size_le
  have happlied : Beyond s.tree.size s₃.tree s₄.tree :=
    confined_applyAttributes setting file (Nat.le_trans hbase hle) _ _ _ _ _ _ hrest hforced.fenced
      hinner₃
  have hpinned : Beyond s.tree.size s₄.tree s'.tree :=
    hlaid _ (composes_confined s.tree.size inner)
      (fun _ _ _ _ hn hf _ => Beyond.note hf hn) happlied.fenced
      (Nat.lt_of_lt_of_le hinner₃ happlied.size_le)
  have hwritten := hforced.trans (happlied.trans hpinned)
  exact ⟨hp.trans (hboth.trans hwritten), hle, Nat.lt_of_lt_of_le hq.lt hwritten.size_le⟩

theorem make_planted (h : make setting file p parent s = .ok (placed, s')) :
    Planted (parent.map s.tree.contentOf) placed.outer s.tree s'.tree ∧
      placed.outer ≤ placed.inner ∧ placed.inner < s'.tree.size := by
  unfold make at h
  split at h
  · exact makeOne_planted h
  · exact makeTwo_planted h

/-- An element that is opened is a new node where it was put, and nothing else changes before it. -/
theorem opening_planted {e : Element} {around : Option Scope} {depth : WrapDepth}
    (h : opening setting file e around parent depth s = .ok ((p, placed), s')) :
    Planted (parent.map s.tree.contentOf) placed.outer s.tree s'.tree := by
  obtain ⟨-, s₁, s₂, hmake, hdeclare, hhold⟩ := run_opening h
  obtain ⟨hp, hle, hlt⟩ := make_planted hmake
  have hbase : s.tree.size ≤ placed.outer := Nat.le_of_eq hp.first.symm
  have hdeclared : Beyond s.tree.size s₁.tree s₂.tree :=
    leads_declareOutlet (composes_confined s.tree.size placed.inner)
      (fun _ _ hf _ => Beyond.refl hf) p placed _ _ _ hdeclare hp.fenced hlt
  have hheld : Beyond s.tree.size s₂.tree s'.tree :=
    confined_holdContent setting hbase (Nat.le_trans hbase hle) depth _ _ _ hhold hdeclared.fenced
      (Nat.lt_of_lt_of_le hlt hdeclared.size_le)
  exact hp.trans (hdeclared.trans hheld)

end LayoutCompiler.Compile
