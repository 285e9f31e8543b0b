import LayoutCompiler.Proofs.Compilation.Leads
import LayoutCompiler.Proofs.Layout.Members
/-!
# Outlets and their nodes

What an outlet points to keeps its identifier until the end. Every step of a compilation keeps the
identifiers that there are, and all steps but one keep the outlets, whatever the tree is like
(`Keeping`); the one that declares an outlet declares it for a node that has an identifier.

* `keeping_make`, `keeping_arrangeChildren`: the phases of an element.
* `declares_element`: an element and those inside it declare outlets for new nodes.
* `served_of_ofElement`, `apart_of_ofElement`: the outlets of a compilation point to nodes with
  identifiers, and no two of them to the same one.
-/

namespace LayoutCompiler

open LayoutCompiler.Tree (Names Notes)

variable {α β γ : Type}

/-! ## Steps that keep outlets -/

/-- Nodes keep their identifiers, and the outlets are the same. -/
structure Keeps (s s' : Pass α) : Prop where
  names : Names s.tree s'.tree
  outlets : s'.outlets = s.outlets

theorem Keeps.refl (s : Pass α) : Keeps s s := ⟨Tree.lasting_names.refl s.tree, rfl⟩

theorem Keeps.trans {s s' s'' : Pass α} (h : Keeps s s') (h' : Keeps s' s'') : Keeps s s'' :=
  ⟨Tree.lasting_names.trans h.names h'.names, h'.outlets.trans h.outlets⟩

/-- A step that keeps identifiers and outlets whenever it succeeds. -/
def Keeping (step : Compile α β) : Prop := ∀ s v s', step s = .ok (v, s') → Keeps s s'

theorem permits_keeps : Permits (Keeps : Pass α → Pass α → Prop) where
  refl := Keeps.refl
  trans h h' := h.trans h'
  write _ _ h := ⟨h.names, rfl⟩

/-! ## The phases of an element -/

namespace Compile

theorem keeping_edit {step : Edit α β} (h : Along Names step) : Keeping (Compile.edit step) :=
  Leads.edit fun s => ⟨h s.tree, rfl⟩

variable [Scalar α] (setting : Setting α) (file : String)

theorem keeping_applyAttributes (chain : List ElementRule) (node : Nat) (scope : Scope)
    (attributes : Attributes) :
    Keeping (applyAttributes setting file chain node scope attributes) :=
  leads_applyAttributes permits_keeps setting file
    (fun s _ => ⟨Tree.lasting_names.refl s.tree, rfl⟩) chain node scope attributes

theorem keeping_make (p : Prepared α) (parent : Option Nat) :
    Keeping (make setting file p parent) := by
  have hmade : ∀ (b : Blueprint) (place : Option Nat) (render : Template → String),
      Keeping (edit (Tree.instantiate b place render) : Compile α Nat) :=
    fun b place render => keeping_edit (Tree.along_instantiate Tree.lasting_names b place render)
  refine leads_make permits_keeps.toComposes (hmade _) (fun _ b _ => hmade b) (fun s _ => ?_)
    (fun chain node attributes => ?_) (fun _ s t laws hnotes => ⟨hnotes.names, rfl⟩) parent
  · exact ⟨Tree.lasting_names.refl s.tree, rfl⟩
  · exact keeping_applyAttributes setting file chain node p.scope attributes

theorem keeping_arrangeChildren (p : Prepared α) (placed : Placed) (children : List (Child α)) :
    Keeping (arrangeChildren setting p placed children) := by
  intro s v s' h
  rcases run_arrangeChildren h with rfl | ⟨-, b, added, t, -, harrange, rfl⟩
  · exact Keeps.refl s'
  · have hlayable : Layout.Layable b (Names : Tree α → Tree α → Prop) :=
      Layout.Layable.of_lasting Tree.lasting_names Notes.names
    have hnames := hlayable.arrange (containerOf p.chain) placed.inner p.params children s.tree
    rw [harrange] at hnames
    exact ⟨hnames, rfl⟩

/-! ## Outlets -/

/-- Outlets have been added, none of them optional, each for another node, which had no identifier
before and has one now. -/
structure Declares (s s' : Pass α) (declared : List Outlet) : Prop where
  names : Names s.tree s'.tree
  outlets : s'.outlets = s.outlets ++ declared
  apart : (declared.map (·.node)).Nodup
  served : ∀ o ∈ declared, o.isOptional = false ∧ ∃ n, o.node = some n ∧
    (s.tree.node n).ident = none ∧ (s'.tree.node n).ident.isSome

namespace Declares

variable {s s' s'' : Pass α} {declared more : List Outlet}

omit [Scalar α] in
theorem of_keeps (h : Keeps s s') : Declares s s' [] :=
  ⟨h.names, by rw [h.outlets, List.append_nil], List.nodup_nil, fun _ ho => nomatch ho⟩

omit [Scalar α] in
/-- Nodes that outlets were added for have identifiers when others are. -/
theorem trans (h : Declares s s' declared) (h' : Declares s' s'' more) :
    Declares s s'' (declared ++ more) where
  names := Tree.lasting_names.trans h.names h'.names
  outlets := by rw [h'.outlets, h.outlets, List.append_assoc]
  apart := by
    rw [List.map_append, List.nodup_append']
    refine ⟨h.apart, h'.apart, fun node hnode hnode' => ?_⟩
    obtain ⟨o, ho, rfl⟩ := List.mem_map.1 hnode
    obtain ⟨o', ho', heq⟩ := List.mem_map.1 hnode'
    obtain ⟨-, n, hn, -, hnamed⟩ := h.served o ho
    obtain ⟨-, n', hn', hnone, -⟩ := h'.served o' ho'
    -- a node that got its identifier in the first half is none that was without one after it
    rw [hn, hn', Option.some.injEq] at heq
    rw [← heq, hnone] at hnamed
    cases hnamed
  served o ho := by
    rcases List.mem_append.1 ho with ho | ho
    · obtain ⟨hopt, n, hn, hnone, hnamed⟩ := h.served o ho
      exact ⟨hopt, n, hn, hnone, h'.names n hnamed⟩
    · obtain ⟨hopt, n, hn, hnone, hnamed⟩ := h'.served o ho
      refine ⟨hopt, n, hn, ?_, hnamed⟩
      -- no identifier is lost, so that a node without one had none before
      cases hident : (s.tree.node n).ident with
      | none => rfl
      | some ident =>
        have hsome := h.names n (by rw [hident]; rfl)
        rw [hnone] at hsome
        cases hsome

end Declares

omit [Scalar α] in
/-- An element declares an outlet if it has an id, which then names it; the outlet points to its
inner node. -/
theorem run_declareOutlet {p : Prepared α} {placed : Placed} {s s' : Pass α} {v : Unit}
    (h : declareOutlet p placed s = .ok (v, s')) :
    s'.tree = s.tree ∧ ∃ declared, s'.outlets = s.outlets ++ declared ∧
      declared.map (·.name) = p.scope.here.element.id?.toList.map Text.camelCase ∧
      ∀ o ∈ declared, o.isOptional = false ∧ o.node = some placed.inner := by
  unfold declareOutlet at h
  cases hid : p.scope.here.element.id? with
  | none =>
    rw [hid] at h
    cases h
    exact ⟨rfl, [], (List.append_nil _).symm, rfl, fun o ho => nomatch ho⟩
  | some id =>
    rw [hid] at h
    cases h
    refine ⟨rfl, _, rfl, rfl, fun o ho => ?_⟩
    rw [List.mem_singleton.1 ho]
    exact ⟨rfl, rfl⟩

variable {setting file} {e : Element} {es : List Element} {around : Option Scope}
  {parent : Option Nat} {depth : WrapDepth} {p : Prepared α} {placed : Placed}
  {child : Child α} {children : List (Child α)} {s s' s₁ : Pass α} {M : List Nat}

/-- While the nodes of an element are made, its outlet is declared, and all steps before and after
keep outlets. -/
theorem keeps_opening
    (h : Compile.opening setting file e around parent depth s = .ok ((p, placed), s₁)) :
    prepare setting file e around = .ok p ∧ ∃ s₂ s₃, Keeps s s₂ ∧
      declareOutlet p placed s₂ = .ok ((), s₃) ∧ Keeps s₃ s₁ := by
  obtain ⟨hprepare, s₂, s₃, hmake, hdeclare, hhold⟩ := run_opening h
  have hmade := keeping_make setting file p parent _ _ s₂ hmake
  have hheld := leads_holdContent permits_keeps setting p placed depth s₃ _ s₁ hhold
  exact ⟨hprepare, s₂, s₃, ⟨hmade.names, hmade.outlets⟩, hdeclare, hheld⟩

/-- While the nodes of an element are made, no outlet is declared but for the inner one, which is
new and has got an identifier. -/
theorem declares_opening (hready : Ready parent M s)
    (h : Compile.opening setting file e around parent depth s = .ok ((p, placed), s₁)) :
    ∃ declared, Declares s s₁ declared := by
  have hstanding := ((opening_spec file e around depth hready).of_ok h).standing
  obtain ⟨-, s₂, s₃, hmade, hdeclare, hheld⟩ := keeps_opening h
  obtain ⟨htree, declared, houtlets, hnames, hdeclared⟩ := run_declareOutlet hdeclare
  have hinner : s.tree.size ≤ placed.inner := hstanding.first ▸ hstanding.outer_le
  refine ⟨declared, ?_, by rw [hheld.outlets, houtlets, hmade.outlets], ?_, fun o ho => ?_⟩
  -- names that are there stay through the making and through the writing after it
  · exact Tree.lasting_names.trans hmade.names (htree ▸ hheld.names)
  · -- an element has no more than one id
    have hlength : declared.length ≤ 1 := by
      have hids := congrArg List.length hnames
      rw [List.length_map, List.length_map] at hids
      rw [hids]
      exact Option.length_toList_le
    match declared, hlength with
    | [], _ => exact List.nodup_nil
    | [o], _ => exact List.nodup_singleton o.node
  · obtain ⟨hopt, hnode⟩ := hdeclared o ho
    refine ⟨hopt, placed.inner, hnode, ?_, hstanding.inner_named⟩
    rw [Tree.node_eq_default hinner]

mutual

/-- An element and those inside it declare outlets for new nodes. -/
theorem declares_element : ∀ (e : Element) (around : Option Scope) (parent : Option Nat)
    (depth : WrapDepth) (M : List Nat) (s s' : Pass α) (child : Child α), Ready parent M s →
    element setting file e around parent depth s = .ok (child, s') →
    ∃ declared, Declares s s' declared
  | ⟨tag, attributes, es, text⟩, around, parent, depth, M, s, s', child, hready, hrun => by
    obtain ⟨p, placed, s₁, inside, s₂, hopening, helements, harrange, -⟩ := run_element hrun
    have hopened := (opening_spec file _ around depth hready).of_ok hopening
    obtain ⟨own, hown⟩ := declares_opening hready hopening
    obtain ⟨more, hmore⟩ := declares_elements es p.scope placed.inner _ (placed.outer :: M)
      s₁ s₂ inside (hopened.ready hready.below) helements
    have harranged := keeping_arrangeChildren setting p placed inside s₂ _ s' harrange
    exact ⟨_, (hown.trans hmore).trans (.of_keeps harranged)⟩

theorem declares_elements : ∀ (es : List Element) (around : Scope) (x : Nat) (depth : WrapDepth)
    (M : List Nat) (s s' : Pass α) (children : List (Child α)), Ready (some x) M s →
    elements setting file es around x depth s = .ok (children, s') →
    ∃ declared, Declares s s' declared
  | [], around, x, depth, M, s, s', children, hready, hrun => by
    unfold elements at hrun
    cases hrun
    exact ⟨[], .of_keeps (Keeps.refl s)⟩
  | e :: es, around, x, depth, M, s, s', children, hready, hrun => by
    obtain ⟨child, s₁, rest, helement, helements, -⟩ := run_elements_cons hrun
    obtain ⟨first, hfirst⟩ :=
      declares_element e (some around) (some x) depth M s s₁ child hready helement
    have hadded := (element_spec setting file e (some around) depth (some x) M s hready).of_ok
      helement
    obtain ⟨more, hmore⟩ := declares_elements es around x depth (child.node :: M) s₁ s' rest
      (hadded.ready hready.place hready.below) helements
    exact ⟨_, hfirst.trans hmore⟩

end

end Compile

namespace Compilation

variable [Scalar α] {setting : Setting α} {file : String} {root : Element} {c : Compilation α}

/-- The outlets of a compilation are those that have been declared for its layout. -/
theorem declares_of_ofElement (h : ofElement setting file root = .ok c) :
    ∃ s, c = ended file s ∧ Compile.Declares (start file) s c.outlets := by
  obtain ⟨child, s, hrun, -, rfl⟩ := exists_pass h
  obtain ⟨declared, hdeclares⟩ :=
    Compile.declares_element root none none {} [] (start file) s child (ready_start file) hrun
  obtain rfl : s.outlets = declared := hdeclares.outlets
  exact ⟨s, rfl, hdeclares⟩

/-- The outlets of a compilation point to nodes with identifiers, and none is optional. -/
theorem served_of_ofElement (h : ofElement setting file root = .ok c) :
    ∀ o ∈ c.outlets, o.isOptional = false ∧
      ∃ n, o.node = some n ∧ (c.tree.node n).ident.isSome := by
  obtain ⟨s, hc, hdeclares⟩ := declares_of_ofElement h
  intro o ho
  obtain ⟨hopt, n, hn, -, hnamed⟩ := hdeclares.served o ho
  rw [hc]
  exact ⟨hopt, n, hn, hnamed⟩

/-- No two outlets of a compilation point to the same node. -/
theorem apart_of_ofElement (h : ofElement setting file root = .ok c) :
    (c.outlets.map (·.node)).Nodup := by
  obtain ⟨s, -, hdeclares⟩ := declares_of_ofElement h
  exact hdeclares.apart

end Compilation

end LayoutCompiler
