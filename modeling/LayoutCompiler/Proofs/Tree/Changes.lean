import LayoutCompiler.Proofs.Number.Rational
import LayoutCompiler.Proofs.Tree.Fences
/-!
# Changes of a tree

What any sequence of changes leaves of the links of a tree: nodes are added, made of blueprints and
found or made along paths, they move, and the children of a node are replaced. Child lists and
parent links stay in step, but for the nodes that a new list of children drops: their parent links
stay behind, and what follows these links still finds them below the node that dropped them.

* `Sound`: what every change keeps, with the nodes that are left over.
* `Sound.makes`: a change makes new nodes, or gives nodes another parent.
* `Sound.apply`, `Sound.acyclic_apply`: one change.
* `in_step_of_changes`: any number of changes, and where constraints belong afterwards.
-/

namespace LayoutCompiler.Tree

variable {α : Type} {t t' : Tree α} {a m p x : Nat} {left : List Nat}

/-! ## Changes -/

/-- A change of the links of a tree. -/
inductive Change where
  /-- A new node where the children of another one go, or without a parent. -/
  | add (name : String) (place : Option Nat)
  /-- The same, made of a blueprint. -/
  | make (blueprint : Blueprint) (place : Option Nat) (render : Template → String)
  /-- The child that a step of a path leads to, made where there is none. -/
  | find (parent : Nat) (step : PathStep)
  /-- The same along a whole path. -/
  | walk (start : Nat) (steps : List PathStep)
  /-- A node moves where the children of another one go. -/
  | move (child place : Nat)
  /-- Other children where those of a node go. -/
  | order (parent : Nat) (children : List Nat)

namespace Change

/-- The tree after a change. -/
def apply (t : Tree α) : Change → Tree α
  | add name place => (addNode name place t).2
  | make blueprint place render => (instantiate blueprint place render t).2
  | find parent step => (findOrCreate parent step t).2
  | walk start steps => (walkPath start steps t).2
  | move child place => t.reparent child place
  | order parent children => t.setChildren parent children

/-- A change names nodes of the arena, and none of them twice in a list. -/
def Fits (t : Tree α) : Change → Prop
  | add _ place => ∀ p ∈ place, p < t.size
  | make _ place _ => ∀ p ∈ place, p < t.size
  | find parent _ => parent < t.size
  | walk start _ => start < t.size
  | move child place => child < t.size ∧ place < t.size
  | order parent children => parent < t.size ∧ (∀ c ∈ children, c < t.size) ∧ children.Nodup

/-- What gets another parent is neither that parent nor above it. -/
def Clear (t : Tree α) : Change → Prop
  | move child place => child ∉ t.line (t.contentOf place)
  | order parent children => ∀ c ∈ children, c ∉ t.line (t.contentOf parent)
  | _ => True

instance (t : Tree α) : (c : Change) → Decidable (c.Fits t)
  | add _ place => inferInstanceAs (Decidable (∀ p ∈ place, p < t.size))
  | make _ place _ => inferInstanceAs (Decidable (∀ p ∈ place, p < t.size))
  | find parent _ => inferInstanceAs (Decidable (parent < t.size))
  | walk start _ => inferInstanceAs (Decidable (start < t.size))
  | move child place => inferInstanceAs (Decidable (child < t.size ∧ place < t.size))
  | order parent children => inferInstanceAs
      (Decidable (parent < t.size ∧ (∀ c ∈ children, c < t.size) ∧ children.Nodup))

instance (t : Tree α) : (c : Change) → Decidable (c.Clear t)
  | move child place => inferInstanceAs (Decidable (child ∉ t.line (t.contentOf place)))
  | order parent children =>
    inferInstanceAs (Decidable (∀ c ∈ children, c ∉ t.line (t.contentOf parent)))
  | add .. | make .. | find .. | walk .. => isTrue trivial

/-- A new list of children drops none of those that there were. -/
def Spares (t : Tree α) : Change → Prop
  | order parent children => ∀ c ∈ (t.node (t.contentOf parent)).children, c ∈ children
  | _ => True

/-- The nodes left over after a change, when some were before: a node that moves or is listed again
is so no more, and a new list of children leaves over those that it drops. -/
def leave (t : Tree α) (left : List Nat) : Change → List Nat
  | move child _ => left.filter (· != child)
  | order parent children =>
    (left ++ (t.node (t.contentOf parent)).children).filter (· ∉ children)
  | _ => left

end Change

/-- The tree after some changes. -/
def after (t : Tree α) (changes : List Change) : Tree α := changes.foldl Change.apply t

/-- The nodes left over after some changes. -/
def leftOver (t : Tree α) (left : List Nat) : List Change → List Nat
  | [] => left
  | c :: cs => leftOver (c.apply t) (c.leave t left) cs

/-- Each of some changes has a property in the tree that it finds. -/
def Each (P : Tree α → Change → Prop) (t : Tree α) : List Change → Prop
  | [] => True
  | c :: cs => P t c ∧ Each P (c.apply t) cs

instance decidableEach (P : Tree α → Change → Prop) [∀ t c, Decidable (P t c)] (t : Tree α) :
    (changes : List Change) → Decidable (t.Each P changes)
  | [] => isTrue trivial
  | c :: cs =>
    have := decidableEach P (c.apply t) cs
    inferInstanceAs (Decidable (P t c ∧ Each P (c.apply t) cs))

/-! ## One change -/

/-- What every change keeps: but for the nodes left over child lists and parent links agree, and no
link leads out of the arena. -/
structure Sound (t : Tree α) (left : List Nat) : Prop where
  tidy : t.TidyBut left
  bounded : t.Bounded
  closed : Fenced 0 t

/-- The nodes of a list have got another parent. All other parent links are what they were, and so
are the places where children go. -/
structure Relinked (t t' : Tree α) (moved : List Nat) (place : Nat) : Prop where
  size : t'.size = t.size
  place_lt : place < t.size
  parent : ∀ x, (t'.node x).parent = if x ∈ moved then some place else (t.node x).parent
  content : ∀ x, (t'.node x).content = (t.node x).content

theorem sound_empty (seed : String) : (Tree.empty seed : Tree α).Sound [] where
  tidy := tidyBut_nil.2 (linked_empty seed).tidy
  bounded := (linked_empty seed).bounded
  closed := by
    constructor
    · intro x _ c hc
      rw [node_eq_default (Nat.zero_le x)] at hc
      cases hc
    · intro x _ c hc
      rw [node_eq_default (Nat.zero_le x)] at hc
      cases hc

namespace Sound

theorem contentOf_lt (h : t.Sound left) (hp : p < t.size) : t.contentOf p < t.size :=
  (h.closed.contentOf (Nat.zero_le p) hp).2

/-- Only nodes are listed as children. -/
theorem lists_nodes (h : t.Sound left) : t.Closed :=
  fun p c hc => (h.closed.children p (Nat.zero_le p) c hc).2

theorem registers (h : t.Sound left) (hb : Beyond 0 t t') : Registers t t' :=
  hb.registers h.lists_nodes

/-- New nodes below those that there were. -/
theorem grow (h : t.Sound left) (hb : Beyond 0 t t') : t'.Sound left := by
  -- what is left over stays so: a change that only adds nodes lists none of the old ones anew
  have hnew := h.registers hb
  have hleft : ∀ {x}, x ∈ left → x < t.size := by
    intro x hx
    obtain ⟨p, hup⟩ := h.tidy.parted x hx
    exact hup.lt_size
  refine ⟨⟨fun p x => ?_, fun x hx => ?_⟩, fun x p hup => ?_, hb.fenced⟩
  · rw [hnew.count p x]
    split
    · rename_i hx
      rw [h.tidy.count p x, hb.parent x hx]
    · rename_i hx
      exact if_congr (and_iff_left fun hmem => hx (hleft hmem)).symm rfl rfl
  · obtain ⟨p, hup⟩ := h.tidy.parted x hx
    exact ⟨p, (hb.parent x hup.lt_size).trans hup⟩
  · by_cases hx : x < t.size
    · have hold : t.Up x p := (hb.parent x hx).symm.trans hup
      exact Nat.lt_of_lt_of_le (h.bounded x p hold) hb.size_le
    · exact Nat.lt_trans (hnew.older x (Nat.le_of_not_lt hx) p hup) hup.lt_size

/-- New nodes make no cycle: above each of them there are older ones. -/
theorem acyclic_grow (h : t.Sound left) (ha : t.Acyclic) (hb : Beyond 0 t t') : t'.Acyclic := by
  have hold : ∀ x < t.size, Acc (fun p c => t'.Up c p) x := by
    intro x
    induction x using ha.induction with
    | _ x ih =>
      intro hx
      refine Acc.intro x fun p hup => ?_
      have hup : t.Up x p := (hb.parent x hx).symm.trans hup
      exact ih p hup (h.bounded x p hup)
  refine ⟨fun x => ?_⟩
  induction x using Nat.strongRecOn with
  | _ x ih =>
    by_cases hx : x < t.size
    · exact hold x hx
    · exact Acc.intro x fun p hup => ih p ((h.registers hb).older x (Nat.le_of_not_lt hx) p hup)

/-- Other parents for some nodes. -/
theorem relink {moved left' : List Nat} {place : Nat} (h : t.Sound left)
    (hr : Relinked t t' moved place) (htidy : t'.TidyBut left') : t'.Sound left' where
  tidy := htidy
  bounded c q hup := by
    unfold Up at hup
    rw [hr.parent] at hup
    rw [hr.size]
    -- the moved nodes have the new place, which is in bounds, and the others what they had
    split at hup
    · exact Option.some.inj hup ▸ hr.place_lt
    · exact h.bounded c q hup
  closed := by
    constructor
    · intro x _ c hc
      exact ⟨Nat.zero_le c, (htidy.owned x c hc).lt_size⟩
    · intro x hx c hc
      rw [hr.content] at hc
      rw [hr.size]
      exact h.closed.content x hx c hc

/-- Other parents make no cycle if none of the nodes is its new parent or above it. -/
theorem acyclic_relink {moved : List Nat} {place : Nat} (h : t.Sound left) (ha : t.Acyclic)
    (hr : Relinked t t' moved place) (haway : ∀ m ∈ moved, m ∉ t.line place) : t'.Acyclic := by
  refine ha.relink moved (fun c hc => ?_) fun c hc q hup m hm hreach => ?_
  · rw [hr.parent, if_neg hc]
  · unfold Up at hup
    rw [hr.parent, if_pos hc, Option.some.injEq] at hup
    exact haway m hm ((mem_line ha h.bounded hr.place_lt).2 (hup ▸ hreach))

theorem relinked_reparent {child place : Nat} (h : t.Sound left) (hc : child < t.size)
    (hp : place < t.size) :
    Relinked t (t.reparent child place) [child] (t.contentOf place) := by
  have hplace := h.contentOf_lt hp
  have hnode := node_reparent_of_only h.bounded hc hplace fun x => h.tidy.owned x child
  refine ⟨size_reparent t child place, hplace, fun x => ?_, fun x => ?_⟩
  · simp only [hnode, List.mem_singleton]
  · simp only [hnode]

theorem relinked_setChildren {l : List Nat} (h : t.Sound left) (hp : p < t.size)
    (hl : ∀ c ∈ l, c < t.size) : Relinked t (t.setChildren p l) l (t.contentOf p) := by
  have hplace := h.contentOf_lt hp
  have hnode := node_setChildren_of_owned h.tidy.owned h.bounded hplace hl
  refine ⟨size_setChildren t p l, hplace, fun x => ?_, fun x => ?_⟩
  · simp only [hnode]
  · simp only [hnode]

/-- A change makes new nodes, or gives nodes another parent. -/
inductive Makes (t : Tree α) (c : Change) : Prop where
  | grows (beyond : Beyond 0 t (c.apply t)) (leave : ∀ left, c.leave t left = left)
  | relinks (moved : List Nat) (place : Nat) (relinked : Relinked t (c.apply t) moved place)
      (clear : c.Clear t → ∀ m ∈ moved, m ∉ t.line place)
      (tidy : ∀ left, t.TidyBut left → (c.apply t).TidyBut (c.leave t left))

theorem makes {c : Change} (h : t.Sound left) (hfits : c.Fits t) : Makes t c := by
  -- new nodes may go where the children of any node of the arena go; nothing is fenced off
  have hhome : ∀ {place : Option Nat}, (∀ p ∈ place, p < t.size) →
      ∀ p ∈ place.map t.contentOf, 0 ≤ p ∧ p < t.size := by
    intro place hplace p hp
    obtain ⟨q, hq, rfl⟩ := Option.map_eq_some_iff.1 hp
    exact ⟨Nat.zero_le _, h.contentOf_lt (hplace q hq)⟩
  cases c with
  | add name place =>
    have hplanted := addNode_planted name place t
    exact .grows (hplanted.beyond h.closed (Nat.zero_le _) (hhome hfits)) fun _ => rfl
  | make blueprint place render =>
    have hplanted := instantiate_planted blueprint place render t
    exact .grows (hplanted.beyond h.closed (Nat.zero_le _) (hhome hfits)) fun _ => rfl
  | find parent step =>
    exact .grows (findOrCreate_beyond h.closed (Nat.zero_le _) hfits step).2.2 fun _ => rfl
  | walk start steps =>
    exact .grows (walkPath_beyond h.closed (Nat.zero_le _) hfits steps).2.2 fun _ => rfl
  | move child place =>
    obtain ⟨hc, hp⟩ := hfits
    refine .relinks [child] _ (h.relinked_reparent hc hp) (fun hclear m hm => ?_) fun left ht => ?_
    · exact List.mem_singleton.1 hm ▸ hclear
    · exact ht.reparent h.bounded hc (h.contentOf_lt hp)
  | order parent children =>
    obtain ⟨hp, hl, hnodup⟩ := hfits
    refine .relinks children _ (h.relinked_setChildren hp hl) (fun hclear => hclear)
      fun left ht => ?_
    exact ht.setChildren h.bounded (h.contentOf_lt hp) hl hnodup

/-- Every change keeps what is sound, with the nodes that it leaves over. -/
theorem apply {c : Change} (h : t.Sound left) (hfits : c.Fits t) :
    (c.apply t).Sound (c.leave t left) := by
  cases h.makes hfits with
  | grows hbeyond hleave =>
    rw [hleave]
    exact h.grow hbeyond
  | relinks moved place hrelinked _ htidy => exact h.relink hrelinked (htidy left h.tidy)

theorem acyclic_apply {c : Change} (h : t.Sound left) (hfits : c.Fits t) (ha : t.Acyclic)
    (hclear : c.Clear t) : (c.apply t).Acyclic := by
  cases h.makes hfits with
  | grows hbeyond _ => exact h.acyclic_grow ha hbeyond
  | relinks moved place hrelinked haway _ => exact h.acyclic_relink ha hrelinked (haway hclear)

/-- So does any number of changes. -/
theorem after {changes : List Change} (h : t.Sound left) (hfits : t.Each Change.Fits changes) :
    (t.after changes).Sound (t.leftOver left changes) := by
  induction changes generalizing t left with
  | nil => exact h
  | cons c cs ih => exact ih (h.apply hfits.1) hfits.2

theorem acyclic_after {changes : List Change} (h : t.Sound left)
    (hfits : t.Each Change.Fits changes) (ha : t.Acyclic) (hclear : t.Each Change.Clear changes) :
    (t.after changes).Acyclic := by
  induction changes generalizing t left with
  | nil => exact ha
  | cons c cs ih =>
    exact ih (h.apply hfits.1) hfits.2 (h.acyclic_apply hfits.1 ha hclear.1) hclear.2

end Sound

/-- No node is left over if no change drops one. -/
theorem leftOver_eq_nil {changes : List Change} (h : t.Each Change.Spares changes) :
    t.leftOver [] changes = [] := by
  induction changes generalizing t with
  | nil => rfl
  | cons c cs ih =>
    obtain ⟨hspares, hrest⟩ := h
    have hleave : c.leave t [] = [] := by
      cases c with
      | order p l => exact List.filter_eq_nil_iff.2 fun x hx => by simpa using hspares x hx
      | _ => rfl
    rw [leftOver, hleave]
    exact ih hrest

/-! ## Hanging together -/

/-- A node is below another one, along lists of children. -/
def Hangs (t : Tree α) : Nat → Nat → Prop :=
  Relation.ReflTransGen fun p c => c ∈ (t.node p).children

/-- Where parent links lead to a node, child lists lead back, unless one of the links is that of a
node left over. -/
theorem TidyBut.hangs_or_parted (h : t.TidyBut left) (hr : t.Reaches m a) :
    t.Hangs a m ∨ ∃ x ∈ left, t.Reaches m x ∧ ∃ p, t.Up x p ∧ t.Reaches p a := by
  induction hr using Relation.ReflTransGen.head_induction_on with
  | refl => exact Or.inl Relation.ReflTransGen.refl
  | @head x p hup hr ih =>
    by_cases hx : x ∈ left
    · exact Or.inr ⟨x, hx, Reaches.refl t x, p, hup, hr⟩
    · rcases ih with hangs | ⟨y, hy, hpy, hrest⟩
      · exact Or.inl (hangs.tail (h.mem_children.2 ⟨hup, hx⟩))
      · exact Or.inr ⟨y, hy, hup.reaches.trans hpy, hrest⟩

/-- Parent links lead from all that take part in a constraint to the node it belongs to. -/
theorem covers_of_host [Scalar α] {c : Constraint α} (h : t.host c = .ok a) : t.Covers c a := by
  unfold host at h
  intro m hm
  unfold Constraint.participants at hm
  -- only a constraint between two nodes climbs, and its host is at or above where the climbs meet
  cases hs : c.second with
  | none =>
    rw [hs] at h hm
    cases h
    rw [show m = c.first.node by simpa using hm]
    exact Reaches.refl t _
  | some second =>
    rw [hs] at h hm
    dsimp only at h
    split at h
    · cases h
    · rename_i common hcommon
      have hboth := reaches_of_nearestCommon? hcommon
      have hm : t.Reaches m common := by
        rcases (by simpa using hm : m = c.first.node ∨ m = second.node) with rfl | rfl
        · exact hboth.1
        · exact hboth.2
      cases h
      split
      · cases hp : (t.node common).parent with
        | none => exact hm
        | some p => exact hm.trans (Up.reaches hp)
      · exact hm

/-! ## Main statement -/

/-- After any changes, from the first node on, a node stands once in the list of its parent and in
no other one, but for the nodes left over. These have a parent that does not list them, and there
are none of them if no change has dropped one. No node is above itself if none has been put below
itself. A constraint belongs to a node that all that take part hang below, unless a link on the way
is that of a node left over. -/
theorem in_step_of_changes [Scalar α] {seed : String} {changes : List Change}
    (h : (Tree.empty seed : Tree α).Each Change.Fits changes) :
    let start : Tree α := Tree.empty seed
    let t := start.after changes
    let left := start.leftOver [] changes
    (∀ p c, (t.node p).children.count c =
      if (t.node c).parent = some p ∧ c ∉ left then 1 else 0) ∧
    (∀ c ∈ left, ∃ p, (t.node c).parent = some p) ∧
    (start.Each Change.Spares changes → left = []) ∧
    (start.Each Change.Clear changes → t.Acyclic) ∧
    t.Bounded ∧
    ∀ (c : Constraint α) (a : Nat), t.host c = .ok a → ∀ m ∈ c.participants,
      t.Hangs a m ∨ ∃ x ∈ left, t.Reaches m x ∧ ∃ p, t.Up x p ∧ t.Reaches p a := by
  -- one invariant goes through the changes; what is said of hosts is read off the tree that is left
  have hempty := sound_empty (α := α) seed
  have hsound := hempty.after h
  refine ⟨hsound.tidy.count, hsound.tidy.parted, leftOver_eq_nil, fun hclear => ?_, hsound.bounded,
    fun c a hhost m hm => ?_⟩
  · exact hempty.acyclic_after h (linked_empty seed).acyclic hclear
  · exact hsound.tidy.hangs_or_parted (covers_of_host hhost m hm)

namespace Sample

/-- A view with three children, which go into a node of their own. One of them is moved below
another one and gets children along a path, and one is dropped when the children are replaced. -/
def shelving : List Change :=
  [.make { name := "view", holder := some "subviews" } none fun _ => "",
    .add "a" (some 0), .add "b" (some 0), .add "wrapper" (some 0), .move 2 4, .order 0 [4],
    .walk 2 [⟨"color", some ("key", "text")⟩, ⟨"red", none⟩], .find 2 ⟨"color", none⟩]

/-- The view after that. -/
def shelved : Tree ℚ := (Tree.empty "shelf").after shelving

/-- The child that was dropped begins where the one that was moved does. -/
def level : Constraint ℚ :=
  { first := ⟨3, .top⟩, second := some ⟨2, .top⟩, relation := .equal, constant := 0
    multiplier := 1, priority := Priority.required, ident := "" }

end Sample

/-- The child that was dropped is in no list, but its parent link is still there, so that the
constraint belongs to the view below which it hangs no more. -/
theorem in_step_of_shelving :
    (Tree.empty "shelf" : Tree ℚ).Each Change.Fits Sample.shelving ∧
    (Tree.empty "shelf" : Tree ℚ).Each Change.Clear Sample.shelving ∧
    (Tree.empty "shelf" : Tree ℚ).leftOver [] Sample.shelving = [3] ∧
    (∀ p, 3 ∉ (Sample.shelved.node p).children) ∧ Sample.shelved.Up 3 1 ∧
    Sample.shelved.host Sample.level = .ok 0 ∧
    ¬ Sample.shelved.Hangs 0 3 ∧ Sample.shelved.Hangs 0 2 := by
  have hfits : (Tree.empty "shelf" : Tree ℚ).Each Change.Fits Sample.shelving := by
    decide +kernel
  have hclear : (Tree.empty "shelf" : Tree ℚ).Each Change.Clear Sample.shelving := by
    decide +kernel
  have hleft : (Tree.empty "shelf" : Tree ℚ).leftOver [] Sample.shelving = [3] := by
    decide +kernel
  have hhost : Sample.shelved.host Sample.level = .ok 0 := by decide +kernel
  obtain ⟨hcount, -, -, hacyclic, hbounded, hhangs⟩ := in_step_of_changes hfits
  rw [hleft] at hcount hhangs
  -- the node is left over, and no list has it; its own parent link is all that still leads upwards
  have hdropped : ∀ p, 3 ∉ (Sample.shelved.node p).children := by
    intro p
    rw [← List.count_eq_zero]
    exact (hcount p 3).trans (if_neg (by simp))
  have hapart : ¬ Sample.shelved.Reaches 2 3 := by
    have hline : 3 ∉ Sample.shelved.line 2 := by decide +kernel
    rwa [mem_line (t := Sample.shelved) (hacyclic hclear) hbounded (by decide +kernel)] at hline
  refine ⟨hfits, hclear, hleft, hdropped, by unfold Up; decide +kernel, hhost, fun hbelow => ?_, ?_⟩
  · rcases Relation.ReflTransGen.cases_tail hbelow with heq | ⟨p, -, hmem⟩
    · cases heq
    · exact hdropped p hmem
  · rcases hhangs Sample.level 0 hhost 2 (by simp [Constraint.participants, Sample.level]) with
      hbelow | ⟨x, hx, hr, -⟩
    · exact hbelow
    · exact absurd (List.mem_singleton.1 hx ▸ hr) hapart

end LayoutCompiler.Tree
