import LayoutCompiler.Proofs.Tree.Identifiers
import LayoutCompiler.Proofs.Tree.Meeting
/-!
# Hosts of constraints

Where a constraint belongs once its tree is complete. While the tree still changes, every
constraint is kept anchored at one node (`Anchored`): those that take part are that node or stand
directly where its children go. A node may only move as long as no constraint places it below
another one, which `Settled` records for the nodes that are still going to move.

* `Anchored.host_eq`: the host of an anchored constraint is its anchor.
* `Anchored.isDeepest`: the anchor is the deepest node with an identifier above all that take part.
* `Settled.reparent`, `Settled.note`: moves and new constraints keep all constraints anchored.
-/

namespace LayoutCompiler

variable {α : Type}

/-- A constraint without its identifier: what it says. -/
def Constraint.law (c : Constraint α) : Constraint α := { c with ident := "" }

@[simp] theorem Constraint.participants_law (c : Constraint α) :
    c.law.participants = c.participants := rfl

namespace Tree

variable {t t' t'' : Tree α} {c : Constraint α} {base h k x : Nat} {M N : List Nat}
  {laws laws' : List (Constraint α)}

/-! ## Recording -/

/-- Constraints with some laws have been recorded. -/
def Records (t t' : Tree α) (laws : List (Constraint α)) : Prop :=
  ∃ new, t'.constraints = t.constraints ++ new ∧ new.map Constraint.law = laws

namespace Records

theorem of_eq (h : t'.constraints = t.constraints) : Records t t' [] :=
  ⟨[], by rw [h, List.append_nil], rfl⟩

theorem refl (t : Tree α) : Records t t [] := of_eq rfl

theorem trans (hr : Records t t' laws) (hr' : Records t' t'' laws') :
    Records t t'' (laws ++ laws') := by
  obtain ⟨new, heq, hlaws⟩ := hr
  obtain ⟨new', heq', hlaws'⟩ := hr'
  exact ⟨new ++ new', by rw [heq', heq, List.append_assoc],
    by rw [List.map_append, hlaws, hlaws']⟩

/-- A recorded constraint is an old one, or has one of the laws. -/
theorem mem_constraints (hr : Records t t' laws) (hc : c ∈ t'.constraints) :
    c ∈ t.constraints ∨ c.law ∈ laws := by
  obtain ⟨new, heq, hlaws⟩ := hr
  rw [heq] at hc
  rcases List.mem_append.1 hc with hc | hc
  · exact Or.inl hc
  · exact Or.inr (hlaws ▸ List.mem_map_of_mem hc)

end Records

/-- Nothing has changed but that constraints with some laws have been recorded, each with an
identifier that was drawn for it. -/
structure Notes (t t' : Tree α) (laws : List (Constraint α)) : Prop where
  nodes : t'.nodes = t.nodes
  root : t'.root = t.root
  records : Records t t' laws
  issued : Issued 0 t t'

namespace Notes

theorem refl (t : Tree α) : Notes t t [] := ⟨rfl, rfl, Records.refl t, Issued.refl t⟩

theorem trans (hn : Notes t t' laws) (hn' : Notes t' t'' laws') : Notes t t'' (laws ++ laws') :=
  ⟨hn'.nodes.trans hn.nodes, hn'.root.trans hn.root, hn.records.trans hn'.records,
    hn.issued.trans hn'.issued⟩

theorem node (hn : Notes t t' laws) (x : Nat) : t'.node x = t.node x := by
  unfold Tree.node
  rw [hn.nodes]

theorem size (hn : Notes t t' laws) : t'.size = t.size := congrArg Array.size hn.nodes

theorem linked (hn : Notes t t' laws) (hl : t.Linked) : t'.Linked := by
  refine hl.relabel hn.size hn.root (fun x => ?_) (fun x => ?_) (fun c k hc => ?_) (fun k hk => ?_)
  · rw [hn.node]
  · rw [hn.node]
  · rw [hn.node] at hc ⊢
    exact hl.held c k hc
  · rw [hn.node] at hk ⊢
    exact hl.anonymous k hk

theorem between {P : Nat → Prop} (hn : Notes t t' laws)
    (hP : ∀ l ∈ laws, ∀ m ∈ l.participants, P m) : Between P t t' := by
  obtain ⟨new, heq, hlaws⟩ := hn.records
  exact ⟨new, heq, fun c hc m hm => hP c.law (hlaws ▸ List.mem_map_of_mem hc) m hm⟩

theorem grows (hn : Notes t t' laws) (hb : ∀ l ∈ laws, ∀ m ∈ l.participants, base ≤ m) :
    Grows base t t' where
  size_le := Nat.le_of_eq hn.size.symm
  parent x _ := by rw [hn.node]
  content x _ := by rw [hn.node]
  holder x _ := by rw [hn.node]
  ident x _ := by rw [hn.node]
  recorded := hn.between hb

end Notes

/-- Two steps that only record record the laws of both. -/
theorem Notes.seq {first second : Edit α PUnit} (h : Ensures first t fun _ t' => Notes t t' laws)
    (h' : ∀ t, Ensures second t fun _ t' => Notes t t' laws') :
    Ensures (do first; second) t fun _ t' => Notes t t' (laws ++ laws') := by
  refine Ensures.seq h fun _ t₁ h₁ => ?_
  exact (h' t₁).imp fun _ t₂ h₂ => h₁.trans h₂

/-- A loop that only records records the laws of all rounds. -/
theorem Notes.forIn {γ : Type} (xs : List γ) (step : γ → Edit α PUnit)
    (laws : γ → List (Constraint α))
    (hstep : ∀ x t, Ensures (step x) t fun _ t' => Notes t t' (laws x)) (t : Tree α) :
    Ensures (forIn xs PUnit.unit fun x _ => do
        step x
        pure (ForInStep.yield PUnit.unit)) t fun _ t' => Notes t t' (xs.flatMap laws) := by
  induction xs generalizing t with
  | nil => exact Notes.refl t
  | cons x xs ih =>
    rw [List.forIn_cons, List.flatMap_cons]
    refine Ensures.seq (R := fun step t₁ => step = .yield ⟨⟩ ∧ Notes t t₁ (laws x))
      ⟨rfl, hstep x t⟩ ?_
    rintro step t₁ ⟨rfl, h₁⟩
    exact (ih t₁).imp fun _ t₂ h₂ => h₁.trans h₂

theorem record_spec (make : String → Constraint α) {law : Constraint α}
    (hlaw : ∀ ident, (make ident).law = law) (hident : ∀ ident, (make ident).ident = ident) :
    Ensures (record make) t fun _ t' => Notes t t' [law] :=
  ⟨rfl, rfl, ⟨[make (drawIdent t).1], rfl, by rw [List.map_singleton, hlaw]⟩,
    Issued.of_record t hident⟩

/-! ## Anchors -/

/-- A constraint is anchored at a node: those that take part are the node, or stand directly where
its children go. -/
structure Anchored (t : Tree α) (c : Constraint α) (h : Nat) : Prop where
  host_named : (t.node h).ident.isSome
  named : ∀ m ∈ c.participants, (t.node m).ident.isSome
  near : ∀ m ∈ c.participants, m = h ∨ t.Up m (t.contentOf h)
  apart : c.participants.Nodup
  alone : c.second = none → c.first.node = h

/-- All that take part in a constraint are at a node or below it. -/
def Covers (t : Tree α) (c : Constraint α) (h : Nat) : Prop := ∀ m ∈ c.participants, t.Reaches m h

/-- A node with an identifier that covers a constraint, deeper than all others that do. -/
structure IsDeepest (t : Tree α) (c : Constraint α) (h : Nat) : Prop where
  named : (t.node h).ident.isSome
  covers : t.Covers c h
  lowest : ∀ x, (t.node x).ident.isSome → t.Covers c x → t.Reaches h x

/-- A node with an identifier is no holder. -/
theorem Linked.holder_of_ident (hl : t.Linked) (hx : (t.node x).ident.isSome) :
    (t.node x).holder = false := by
  cases hh : (t.node x).holder with
  | false => rfl
  | true =>
    rw [hl.anonymous x hh] at hx
    cases hx

theorem Linked.contentOf_reaches (hl : t.Linked) (h : Nat) : t.Reaches (t.contentOf h) h := by
  rcases hl.contentOf_cases h with heq | ⟨hup, -⟩
  · rw [heq]
    exact Reaches.refl t h
  · exact hup.reaches

namespace Anchored

theorem covers (hl : t.Linked) (ha : t.Anchored c h) : t.Covers c h := by
  intro m hm
  rcases ha.near m hm with rfl | hup
  · exact Reaches.refl t m
  · exact hup.reaches.trans (hl.contentOf_reaches h)

/-- What covers a constraint is its anchor, stands above it, or is where its children go. -/
theorem low (hl : t.Linked) (ha : t.Anchored c h) (hx : t.Covers c x) :
    t.Reaches (t.contentOf h) x := by
  have hfirst : c.first.node ∈ c.participants := List.mem_cons_self
  by_cases hh : h ∈ c.participants
  · exact (hl.contentOf_reaches h).trans (hx h hh)
  · -- without the anchor it takes two siblings, and what is above both is above their parent
    cases hs : c.second with
    | none => exact absurd (ha.alone hs ▸ hfirst) hh
    | some second =>
      have hsecond : second.node ∈ c.participants := by simp [Constraint.participants, hs]
      -- a constraint has its two anchors at different nodes
      have hne : c.first.node ≠ second.node := by
        have hnodup := ha.apart
        simp only [Constraint.participants, hs, Option.map_some, Option.toList_some,
          List.nodup_cons, List.mem_singleton] at hnodup
        exact hnodup.1
      have hup : ∀ m ∈ c.participants, t.Up m (t.contentOf h) := by
        intro m hm
        rcases ha.near m hm with rfl | hup
        · exact absurd hm hh
        · exact hup
      exact hl.acyclic.reaches_of_siblings (hup _ hfirst) (hup _ hsecond) hne (hx _ hfirst)
          (hx _ hsecond)

/-- The anchor of a constraint is the deepest node with an identifier that covers it. -/
theorem isDeepest (hl : t.Linked) (ha : t.Anchored c h) : t.IsDeepest c h := by
  refine ⟨ha.host_named, ha.covers hl, fun x hx hcov => ?_⟩
  have hlow := ha.low hl hcov
  rcases hl.contentOf_cases h with heq | ⟨hup, hholder⟩
  · rwa [heq] at hlow
  · refine hlow.of_up hup ?_
    -- the place of the children only holds them, and has no identifier
    intro heq
    rw [heq, hl.holder_of_ident hx] at hholder
    cases hholder

/-- The host of an anchored constraint is its anchor: at most one holder is passed on the way. -/
theorem host_eq [Scalar α] (hl : t.Linked) (ha : t.Anchored c h) : t.host c = .ok h := by
  unfold host
  cases hs : c.second with
  | none => exact congrArg Except.ok (ha.alone hs)
  | some second =>
    have hfirst : c.first.node ∈ c.participants := List.mem_cons_self
    have hsecond : second.node ∈ c.participants := by simp [Constraint.participants, hs]
    have hcovers : ∀ x, t.Reaches c.first.node x → t.Reaches second.node x → t.Covers c x := by
      intro x hx hy m hm
      simp only [Constraint.participants, hs, Option.map_some, Option.toList_some, List.mem_cons,
        List.not_mem_nil, or_false] at hm
      rcases hm with rfl | rfl
      · exact hx
      · exact hy
    -- the climbs find whatever covers the constraint and is below all else that does
    have hnearest : ∀ n, t.Covers c n → (∀ x, t.Covers c x → t.Reaches n x) →
        t.nearestCommon? c.first.node second.node = some n := by
      intro n hn hlow
      exact nearestCommon?_eq hl.acyclic hl.bounded (lt_size_of_ident (ha.named _ hfirst))
        ⟨hn _ hfirst, hn _ hsecond, fun x hx hy => hlow x (hcovers x hx hy)⟩
    dsimp only
    by_cases hh : h ∈ c.participants
    · rw [hnearest h (ha.covers hl) fun x hx => hx h hh]
      simp [hl.holder_of_ident ha.host_named]
    · -- neither of the two is the anchor, so both stand where its children go
      have hplace : t.Covers c (t.contentOf h) := by
        intro m hm
        rcases ha.near m hm with rfl | hup
        · exact absurd hm hh
        · exact hup.reaches
      rw [hnearest (t.contentOf h) hplace fun x hx => ha.low hl hx]
      rcases hl.contentOf_cases h with heq | ⟨hup, hholder⟩
      · simp [heq, hl.holder_of_ident ha.host_named]
      · simp [hholder, show (t.node (t.contentOf h)).parent = some h from hup]

/-- What anchors a constraint is kept where its nodes keep their identifiers, and those below the
anchor their place. -/
theorem of_keeps (ha : t.Anchored c h)
    (hident : ∀ x, x = h ∨ x ∈ c.participants → (t'.node x).ident = (t.node x).ident)
    (hcontent : (t'.node h).content = (t.node h).content)
    (hparent : ∀ m ∈ c.participants, m ≠ h → (t'.node m).parent = (t.node m).parent) :
    t'.Anchored c h where
  host_named := by
    rw [hident h (Or.inl rfl)]
    exact ha.host_named
  named m hm := by
    rw [hident m (Or.inr hm)]
    exact ha.named m hm
  near m hm := by
    -- the anchor may move with all that is below it, while the others have to stay at their place
    by_cases hmh : m = h
    · exact Or.inl hmh
    · have hcontentOf : t'.contentOf h = t.contentOf h := by
        unfold contentOf
        rw [hcontent]
      unfold Up
      rw [hparent m hm hmh, hcontentOf]
      exact ha.near m hm
  apart := ha.apart
  alone := ha.alone

theorem of_grows (ha : t.Anchored c h) (hg : Grows t.size t t') : t'.Anchored c h := by
  have hlt : ∀ x, x = h ∨ x ∈ c.participants → x < t.size := by
    rintro x (rfl | hx)
    · exact lt_size_of_ident ha.host_named
    · exact lt_size_of_ident (ha.named x hx)
  exact ha.of_keeps (fun x hx => hg.ident x (hlt x hx)) (hg.content h (hlt h (Or.inl rfl)))
    fun m hm _ => hg.parent m (hlt m (Or.inr hm))

theorem of_law {d : Constraint α} (ha : t.Anchored c.law h) (hd : d.law = c.law) :
    t.Anchored d h where
  host_named := ha.host_named
  named := by
    rw [← Constraint.participants_law d, hd]
    exact ha.named
  near := by
    rw [← Constraint.participants_law d, hd]
    exact ha.near
  apart := by
    rw [← Constraint.participants_law d, hd]
    exact ha.apart
  alone hs := by
    have hfirst : d.first = c.first := congrArg (·.first) hd
    have hsecond : d.second = c.second := congrArg (·.second) hd
    rw [hfirst]
    exact ha.alone (hsecond.symm.trans hs)

end Anchored

/-! ## Nodes that may still move -/

/-- A constraint is anchored, and places none of some nodes below another one. -/
def Rests (t : Tree α) (M : List Nat) (c : Constraint α) : Prop :=
  ∃ h, t.Anchored c h ∧ ∀ m ∈ c.participants, m ∈ M → m = h

/-- Every constraint is anchored, and places none of some nodes below another one. -/
def Settled (t : Tree α) (M : List Nat) : Prop := ∀ c ∈ t.constraints, t.Rests M c

namespace Settled

theorem mono (hs : t.Settled M) (hsub : ∀ m ∈ N, m ∈ M) : t.Settled N := by
  intro c hc
  obtain ⟨h, ha, hfree⟩ := hs c hc
  exact ⟨h, ha, fun m hm hmN => hfree m hm (hsub m hmN)⟩

/-- Nodes that are new take part in no constraint. -/
theorem of_grows (hs : t.Settled M) (hg : Grows t.size t t') (hc : t'.constraints = t.constraints)
    (hN : ∀ m ∈ N, m ∈ M ∨ t.size ≤ m) : t'.Settled N := by
  intro c hmem
  obtain ⟨h, ha, hfree⟩ := hs c (hc ▸ hmem)
  refine ⟨h, ha.of_grows hg, fun m hm hmN => ?_⟩
  rcases hN m hmN with hmM | hnew
  · exact hfree m hm hmM
  · exact absurd (lt_size_of_ident (ha.named m hm)) (Nat.not_lt.2 hnew)

/-- A node that no constraint places below another one may move. -/
theorem reparent {child place old : Nat} (hs : t.Settled M) (hl : t.Linked)
    (hup : t.Up child old) (hplace : place < t.size) (hchild : child ∈ M) :
    (t.reparent child place).Settled M := by
  intro c hc
  obtain ⟨h, ha, hfree⟩ := hs c (constraints_reparent t child place ▸ hc)
  refine ⟨h, ha.of_keeps (fun x _ => ?_) ?_ (fun m hm hmh => ?_), hfree⟩
  · exact keeps_reparent Node.ident hl hup hplace x fun _ _ _ => rfl
  · exact keeps_reparent Node.content hl hup hplace h fun _ _ _ => rfl
  · -- the node that moves may be the anchor, but is no other one of those that take part
    have hmc : m ≠ child := by
      rintro rfl
      exact hmh (hfree m hm hchild)
    rw [parent_reparent hl hup hplace, if_neg hmc]

/-- New constraints that are anchored keep all of them anchored. -/
theorem note (hs : t.Settled M) (hn : Notes t t' laws)
    (hlaws : ∀ l ∈ laws, t.Rests M l) :
    t'.Settled M := by
  intro c hc
  have hkeeps : ∀ {d : Constraint α} {h : Nat}, t.Anchored d h → t'.Anchored d h :=
    fun ha => ha.of_keeps (fun x _ => by rw [hn.node]) (by rw [hn.node])
      fun m _ _ => by rw [hn.node]
  rcases hn.records.mem_constraints hc with hold | hnew
  · obtain ⟨h, ha, hfree⟩ := hs c hold
    exact ⟨h, hkeeps ha, hfree⟩
  · obtain ⟨h, ha, hfree⟩ := hlaws c.law hnew
    exact ⟨h, hkeeps (ha.of_law rfl), hfree⟩

/-- A new order of children moves nothing. -/
theorem setChildren {p : Nat} (hs : t.Settled M) (hl : t.Linked) (hp : p < t.size) (l : List Nat)
    (hup : ∀ c ∈ l, t.Up c (t.contentOf p)) : (t.setChildren p l).Settled M := by
  intro c hc
  rw [setChildren_eq l hup] at hc
  obtain ⟨h, ha, hfree⟩ := hs c hc
  refine ⟨h, ha.of_keeps (fun x _ => ?_) ?_ (fun m _ _ => ?_), hfree⟩
  · exact keeps_setChildren Node.ident hl hp l hup x fun _ _ => rfl
  · exact keeps_setChildren Node.content hl hp l hup h fun _ _ => rfl
  · exact keeps_setChildren Node.parent hl hp l hup m fun _ _ => rfl

end Settled

end Tree

end LayoutCompiler
