import LayoutCompiler.Proofs.Tree.Hosting
import LayoutCompiler.Proofs.Tree.Tidy
/-!
# Fences

What is made of a blueprint, and what is written below it, stays behind a fence: the nodes that
there were before are the same, and no link leads from a new node back to one of them. This needs
much less of a tree than that it is linked, and says more of its old nodes than how they hang
together.

* `Beyond`: what a step leaves of the nodes before a fence.
* `findOrCreate_beyond`, `walkPath_beyond`, `fill_beyond`: paths and blueprints stay behind it.
* `instantiate_planted`: a new node is the last child where it was put, and nothing else is new
  before it.
* `Registers`: each new node is listed once, by its parent, which is older.
-/

namespace LayoutCompiler.Tree

variable {α : Type} {t t' t'' : Tree α} {base child id k p place x : Nat}

/-! ## New nodes in the lists -/

/-- Only nodes of the arena are listed. -/
def Closed (t : Tree α) : Prop := ∀ p, ∀ c ∈ (t.node p).children, c < t.size

theorem Tidy.closed (h : t.Tidy) : t.Closed := fun _ _ hc => (h.mem_children.1 hc).lt_size

/-- The nodes that there were are listed as they were. Every new one hangs below an older one, or
below none, and is listed once by its parent. -/
structure Registers (t t' : Tree α) : Prop where
  older : ∀ x, t.size ≤ x → ∀ p, t'.Up x p → p < x
  count : ∀ p x, (t'.node p).children.count x =
    if x < t.size then (t.node p).children.count x
    else if (t'.node x).parent = some p then 1 else 0

namespace Registers

/-- Nothing new, and nothing changed but the order of children. -/
theorem of_links (hc : t.Closed) (hparent : ∀ x, (t'.node x).parent = (t.node x).parent)
    (hchildren : ∀ x, (t'.node x).children.Perm (t.node x).children) : Registers t t' where
  older x hx p hup := by
    rw [up_iff_of_parent hparent] at hup
    exact absurd hup.lt_size (Nat.not_lt.2 hx)
  count p x := by
    rw [(hchildren p).count_eq]
    split
    · rfl
    · rename_i hx
      have hnone : (t.node x).parent = none := by rw [node_eq_default (Nat.le_of_not_lt hx)]
      rw [hparent, hnone, if_neg (by simp), List.count_eq_zero]
      exact fun hmem => hx (hc p x hmem)

theorem refl (hc : t.Closed) : Registers t t :=
  of_links hc (fun _ => rfl) fun _ => List.Perm.refl _

theorem closed (h : Registers t t') (hsize : t.size ≤ t'.size) : t'.Closed := by
  intro p x hx
  have hcount := h.count p x
  have hpos := List.count_pos_iff.2 hx
  split at hcount
  · omega
  · split at hcount
    · rename_i hup
      exact Up.lt_size hup
    · omega

theorem trans (h : Registers t t') (h' : Registers t' t'') (hsize : t.size ≤ t'.size)
    (hparent : ∀ x < t'.size, (t''.node x).parent = (t'.node x).parent) : Registers t t'' where
  older x hx p hup := by
    by_cases hlt : x < t'.size
    · unfold Up at hup
      rw [hparent x hlt] at hup
      exact h.older x hx p hup
    · exact h'.older x (Nat.le_of_not_lt hlt) p hup
  count p x := by
    rw [h'.count p x]
    by_cases hlt : x < t'.size
    · rw [if_pos hlt, h.count p x, hparent x hlt]
    · rw [if_neg hlt, if_neg fun hx => hlt (Nat.lt_of_lt_of_le hx hsize)]

theorem addChild (hc : t.Closed) (name : String) (hp : p < t.size) :
    Registers t (addChild name p t).2 where
  older x hx q hup := by
    rw [up_addChild name hp] at hup
    split at hup
    · omega
    · exact absurd hup.lt_size (Nat.not_lt.2 hx)
  count q x := by
    have hold : t.size ≤ x → (t.node q).children.count x = 0 := by
      intro hx
      exact List.count_eq_zero.2 fun hmem => Nat.not_lt.2 hx (hc q x hmem)
    rw [children_addChild name hp, parent_addChild name hp]
    -- an old node is listed where it was, the new one by its parent alone, and no other exists
    by_cases hlt : x < t.size
    · have hne : t.size ≠ x := Nat.ne_of_gt hlt
      by_cases hq : q = p <;> simp [hlt, hq, hne]
    · have hle := Nat.le_of_not_lt hlt
      have hnone : (t.node x).parent = none := by rw [node_eq_default hle]
      by_cases hx : x = t.size
      · by_cases hq : q = p
        · simp [hx, hq, hq ▸ hx ▸ hold hle]
        · simp [hx, hq, Ne.symm hq, hx ▸ hold hle]
      · by_cases hq : q = p
        · simp [hlt, hx, hq, Ne.symm hx, hnone, hq ▸ hold hle]
        · simp [hlt, hx, hq, hnone, hold hle]

/-- A tidy tree stays tidy when no old node gets another parent. -/
theorem tidy (h : Registers t t') (hparent : ∀ x < t.size, (t'.node x).parent = (t.node x).parent)
    (ht : t.Tidy) : t'.Tidy := by
  intro p x
  rw [h.count p x]
  split
  · rename_i hx
    rw [hparent x hx, ht p x]
  · rfl

end Registers

/-! ## Fences -/

/-- No link leads back from behind a fence: children and places of children are behind it, too. -/
structure Fenced (base : Nat) (t : Tree α) : Prop where
  children : ∀ x, base ≤ x → ∀ c ∈ (t.node x).children, base ≤ c ∧ c < t.size
  content : ∀ x, base ≤ x → ∀ c, (t.node x).content = some c → base ≤ c ∧ c < t.size

theorem Fenced.contentOf (h : Fenced base t) (hbase : base ≤ x) (hx : x < t.size) :
    base ≤ t.contentOf x ∧ t.contentOf x < t.size := by
  unfold Tree.contentOf
  cases hc : (t.node x).content with
  | none => exact ⟨hbase, hx⟩
  | some c => exact h.content x hbase c hc

/-- The nodes before a fence are the same, no node has got another parent, and the fence is up. -/
structure Beyond (base : Nat) (t t' : Tree α) : Prop where
  size_le : t.size ≤ t'.size
  kept : ∀ x < base, t'.node x = t.node x
  parent : ∀ x < t.size, (t'.node x).parent = (t.node x).parent
  fenced : Fenced base t'
  registers : t.Closed → Registers t t'

namespace Beyond

theorem refl (h : Fenced base t) : Beyond base t t :=
  ⟨Nat.le_refl _, fun _ _ => rfl, fun _ _ => rfl, h, Registers.refl⟩

theorem tidy (h : Beyond base t t') (ht : t.Tidy) : t'.Tidy :=
  (h.registers ht.closed).tidy h.parent ht

theorem trans (h : Beyond base t t') (h' : Beyond base t' t'') : Beyond base t t'' where
  size_le := Nat.le_trans h.size_le h'.size_le
  kept x hx := (h'.kept x hx).trans (h.kept x hx)
  parent x hx := (h'.parent x (Nat.lt_of_lt_of_le hx h.size_le)).trans (h.parent x hx)
  fenced := h'.fenced
  registers hc := (h.registers hc).trans
    (h'.registers ((h.registers hc).closed h.size_le)) h.size_le h'.parent

/-- A change to a node behind the fence, which may only be given a place for its children there. -/
theorem modifyNode (h : Fenced base t) (hid : base ≤ id) {f : Node → Node}
    (hf : ∀ n, (f n).children = n.children ∧ (f n).parent = n.parent)
    (hcontent : ∀ n c, (f n).content = some c → n.content = some c ∨ base ≤ c ∧ c < t.size) :
    Beyond base t (t.modifyNode id f) where
  size_le := Nat.le_of_eq (size_modifyNode t id f).symm
  kept x hx := by
    rw [node_modifyNode, if_neg]
    omega
  parent x _ := by
    rw [node_modifyNode]
    split
    · exact (hf _).2
    · rfl
  fenced := by
    -- below the fence nothing is touched, and at the node itself only what `hcontent` allows
    constructor
    · intro x hx c hc
      rw [node_modifyNode] at hc
      rw [size_modifyNode]
      split at hc
      · rw [(hf _).1] at hc
        exact h.children x hx c hc
      · exact h.children x hx c hc
    · intro x hx c hc
      rw [node_modifyNode] at hc
      rw [size_modifyNode]
      split at hc
      · rcases hcontent _ c hc with hc | hc
        · exact h.content x hx c hc
        · exact hc
      · exact h.content x hx c hc
  registers hc := by
    refine Registers.of_links hc (fun x => ?_) fun x => ?_
    · rw [node_modifyNode]
      split
      · exact (hf _).2
      · rfl
    · rw [node_modifyNode]
      split
      · rw [(hf _).1]
      · exact List.Perm.refl _

/-- Writing on a node behind the fence. -/
theorem write (h : Fenced base t) (hid : base ≤ id) {f : Node → Node}
    (hf : ∀ n, (f n).bare = n.bare) : Beyond base t (t.modifyNode id f) := by
  refine modifyNode h hid (fun n => ⟨?_, ?_⟩) fun n c hc => Or.inl ?_
  · have hchildren := congrArg Node.children (hf n)
    exact hchildren
  · have hparent := congrArg Node.parent (hf n)
    exact hparent
  · have hcontent := congrArg Node.content (hf n)
    exact hcontent ▸ hc

theorem setAttribute (h : Fenced base t) (hid : base ≤ id) (key value : String) :
    Beyond base t (t.setAttribute id key value) := write h hid fun _ => rfl

/-- Recording constraints changes no node. -/
theorem note {laws : List (Constraint α)} (h : Fenced base t) (hn : Notes t t' laws) :
    Beyond base t t' where
  size_le := Nat.le_of_eq hn.size.symm
  kept x _ := hn.node x
  parent x _ := by rw [hn.node]
  fenced := by
    constructor
    · intro x hx c hc
      rw [hn.node] at hc
      rw [hn.size]
      exact h.children x hx c hc
    · intro x hx c hc
      rw [hn.node] at hc
      rw [hn.size]
      exact h.content x hx c hc
  registers hc := by
    refine Registers.of_links hc (fun x => ?_) fun x => ?_
    · rw [hn.node]
    · rw [hn.node]

end Beyond

/-- A new node behind the fence, as a child of another one there. -/
theorem addChild_beyond (h : Fenced base t) (name : String) (hbase : base ≤ p) (hp : p < t.size) :
    Ensures (addChild name p) t fun k t' => k = t.size ∧ k < t'.size ∧ Beyond base t t' := by
  have hsize := size_addChild name p t
  have hnode := node_addChild name hp
  refine ⟨rfl, ?_, ?_, ?_, ?_, ⟨?_, ?_⟩, fun hc => Registers.addChild hc name hp⟩
  · rw [hsize]
    exact Nat.lt_succ_self _
  · rw [hsize]
    exact Nat.le_succ _
  · intro x hx
    rw [hnode, if_neg (by omega), if_neg (by omega)]
  · intro x hx
    rw [parent_addChild name hp, if_neg (Nat.ne_of_lt hx)]
  · intro x hx c hc
    rw [children_addChild name hp] at hc
    rw [hsize]
    -- besides the children that there were only the new node is listed, and that is beyond the
    -- fence
    have hold : c ∈ (t.node x).children → base ≤ c ∧ c < t.size + 1 := by
      intro hmem
      obtain ⟨hle, hlt⟩ := h.children x hx c hmem
      omega
    split at hc
    · rcases List.mem_append.1 hc with hc | hc
      · exact hold hc
      · rw [List.mem_singleton.1 hc]
        omega
    · exact hold hc
  · intro x hx c hc
    rw [keeps_addChild Node.content name hp x rfl fun _ _ => rfl] at hc
    rw [hsize]
    obtain ⟨hle, hlt⟩ := h.content x hx c hc
    omega

/-! ## Paths -/

/-- A step of a path leads from a node behind the fence to another one. -/
theorem findOrCreate_beyond (h : Fenced base t) (hbase : base ≤ p) (hp : p < t.size)
    (step : PathStep) :
    Ensures (findOrCreate p step) t fun k t' =>
      base ≤ k ∧ k < t'.size ∧ Beyond base t t' := by
  unfold findOrCreate
  refine Ensures.bind (Ensures.get ?_)
  -- a child that is found stands beyond the fence with its parent, and a new one is the last node
  cases hfind : (t.node p).children.find? fun child => fits (t.node child) step with
  | some child =>
    obtain ⟨hle, hlt⟩ := h.children p hbase child (List.mem_of_find?_eq_some hfind)
    exact ⟨hle, hlt, Beyond.refl h⟩
  | none =>
    refine Ensures.seq (addChild_beyond h step.name hbase hp) ?_
    rintro k t' ⟨rfl, hk, hb⟩
    have hle : base ≤ t.size := by omega
    cases step.key with
    | none => exact ⟨hle, hk, hb⟩
    | some entry =>
      refine ⟨hle, ?_, hb.trans (Beyond.setAttribute hb.fenced hle entry.1 entry.2)⟩
      show t.size < (t'.setAttribute t.size entry.1 entry.2).size
      unfold Tree.setAttribute
      rw [size_modifyNode]
      exact hk

theorem walkPath_beyond (h : Fenced base t) (hbase : base ≤ x) (hx : x < t.size)
    (steps : List PathStep) :
    Ensures (walkPath x steps) t fun k t' => base ≤ k ∧ k < t'.size ∧ Beyond base t t' := by
  induction steps generalizing x t with
  | nil => exact ⟨hbase, hx, Beyond.refl h⟩
  | cons step steps ih =>
    refine Ensures.seq (findOrCreate_beyond h hbase hx step) ?_
    rintro k t' ⟨hle, hlt, hb⟩
    refine (ih hb.fenced hle hlt).imp ?_
    rintro k' t'' ⟨hle', hlt', hb'⟩
    exact ⟨hle', hlt', hb.trans hb'⟩

/-! ## Blueprints -/

/-- A loop that writes on a node behind the fence. -/
theorem forIn_beyond {γ : Type} (entries : List γ) (write : γ → Tree α → Tree α)
    (hwrite : ∀ e t, Fenced base t → Beyond base t (write e t)) (h : Fenced base t) :
    Ensures (forIn entries PUnit.unit fun e _ => do
        modify (write e)
        pure (ForInStep.yield PUnit.unit)) t fun _ t' => Beyond base t t' := by
  refine Ensures.forIn (I := Beyond base t) entries PUnit.unit _ (Beyond.refl h) ?_
  intro e _ _ t₁ h₁
  exact h₁.trans (hwrite e t₁ h₁.fenced)

/-- The child that holds the children of a node is behind the fence with it. -/
theorem Beyond.hold (h : Fenced base t) (hid : base ≤ id) (hbase : base ≤ k) (hk : k < t.size) :
    Beyond base t (t.hold id k) := by
  have hmarked : Beyond base t (t.modifyNode k fun n => { n with holder := true }) :=
    Beyond.modifyNode h hbase (fun _ => ⟨rfl, rfl⟩) fun _ _ hc => Or.inl hc
  refine hmarked.trans (Beyond.modifyNode hmarked.fenced hid (fun _ => ⟨rfl, rfl⟩) ?_)
  intro n c hc
  rw [size_modifyNode]
  cases hc
  exact Or.inr ⟨hbase, hk⟩

mutual

/-- What a blueprint says of a node behind the fence is done there. -/
theorem fill_beyond (render : Template → String) (id : Nat) :
    ∀ (b : Blueprint) (t : Tree α), Fenced base t → base ≤ id → id < t.size →
      Ensures (fill render id b) t fun _ t' => Beyond base t t'
  | ⟨name, attributes, style, text, children, holder⟩, t, h, hbase, hid => by
    unfold fill
    refine Ensures.seq (forIn_beyond attributes.entries
      (fun e t => t.setAttribute id e.1 (render e.2))
      (fun e t ht => Beyond.setAttribute ht hbase e.1 (render e.2)) h) fun _ t₁ h₁ => ?_
    refine Ensures.seq (forIn_beyond style.entries
      (fun e t => t.setStyle id e.1 (render e.2))
      (fun e t ht => Beyond.write ht hbase fun _ => rfl) h₁.fenced) fun _ t₂ h₂ => ?_
    have h₁₂ := h₁.trans h₂
    -- With or without a text, what follows starts from a node that was only written on.
    have hrest : ∀ t₃ : Tree α, Beyond base t₂ t₃ → Ensures (do
        fillChildren render id children
        match holder with
        | some name =>
          let holderId ← findOrCreate id { name }
          modify fun t => t.hold id holderId
        | none => pure ()) t₃ fun _ t' => Beyond base t t' := by
      intro t₃ h₃
      have ht₃ := h₁₂.trans h₃
      have hid₃ : id < t₃.size := Nat.lt_of_lt_of_le hid ht₃.size_le
      refine Ensures.seq (fillChildren_beyond render id children t₃ ht₃.fenced hbase hid₃) ?_
      intro _ t₄ h₄
      have ht₄ := ht₃.trans h₄
      cases holder with
      | none => exact ht₄
      | some name =>
        refine Ensures.seq (findOrCreate_beyond h₄.fenced hbase
          (Nat.lt_of_lt_of_le hid₃ h₄.size_le) { name }) ?_
        rintro k t₅ ⟨hle, hlt, h₅⟩
        exact Ensures.modify ((ht₄.trans h₅).trans (Beyond.hold h₅.fenced hbase hle hlt))
    cases text with
    | none => exact hrest t₂ (Beyond.refl h₂.fenced)
    | some template => exact hrest _ (Beyond.write h₂.fenced hbase fun _ => rfl)

theorem fillChildren_beyond (render : Template → String) (id : Nat) :
    ∀ (bs : List Blueprint) (t : Tree α), Fenced base t → base ≤ id → id < t.size →
      Ensures (fillChildren render id bs) t fun _ t' => Beyond base t t'
  | [], t, h, _, _ => Beyond.refl h
  | b :: bs, t, h, hbase, hid => by
    unfold fillChildren
    refine Ensures.seq (addChild_beyond h b.name hbase hid) ?_
    rintro _ t₁ ⟨rfl, hk, h₁⟩
    refine Ensures.seq (fill_beyond render t.size b t₁ h₁.fenced (by omega) hk) fun _ t₂ h₂ => ?_
    have h₁₂ := h₁.trans h₂
    refine (fillChildren_beyond render id bs t₂ h₂.fenced hbase
      (Nat.lt_of_lt_of_le hid h₁₂.size_le)).imp fun _ t₃ h₃ => ?_
    exact h₁₂.trans h₃

end

/-! ## New nodes -/

/-- A new node has been put at the end of the children of another one, or stands without a parent.
Of the old nodes only its parent has changed, and what came with the new one is behind the fence
with it. -/
structure Planted (home : Option Nat) (k : Nat) (t t' : Tree α) : Prop where
  first : k = t.size
  lt : k < t'.size
  kept : ∀ x < t.size, t'.node x =
    { t.node x with children := (t.node x).children ++ if home = some x then [k] else [] }
  parent : (t'.node k).parent = home
  fenced : Fenced t.size t'
  registers : (∀ p ∈ home, p < t.size) → t.Closed → Registers t t'

namespace Planted

variable {home : Option Nat}

/-- What happens behind a new node leaves it where it was put. -/
theorem trans (h : Planted home k t t') (h' : Beyond t.size t' t'') : Planted home k t t'' where
  first := h.first
  lt := Nat.lt_of_lt_of_le h.lt h'.size_le
  kept x hx := (h'.kept x hx).trans (h.kept x hx)
  parent := (h'.parent k h.lt).trans h.parent
  fenced := h'.fenced
  registers hhome hc := by
    have hsize : t.size ≤ t'.size := Nat.le_of_lt (h.first ▸ h.lt)
    have hold := h.registers hhome hc
    exact hold.trans (h'.registers (hold.closed hsize)) hsize h'.parent

theorem children (h : Planted home k t t') (hx : x < t.size) :
    (t'.node x).children = (t.node x).children ++ if home = some x then [k] else [] := by
  rw [h.kept x hx]

/-- The fields that a new node leaves as they are. -/
theorem keeps {β : Type} (h : Planted home k t t') (f : Node → β)
    (hold : ∀ n l, f { n with children := l } = f n) (hx : x < t.size) :
    f (t'.node x) = f (t.node x) := by
  rw [h.kept x hx]
  exact hold _ _

/-- A new node below one that there was leaves a tidy tree tidy. -/
theorem tidy (h : Planted home k t t') (hhome : ∀ p ∈ home, p < t.size) (ht : t.Tidy) :
    t'.Tidy :=
  (h.registers hhome ht.closed).tidy (fun _ hx => h.keeps Node.parent (fun _ _ => rfl) hx) ht

/-- A node that is put somewhere behind a fence is behind it, and so is one without a parent. -/
theorem beyond (h : Planted home k t t') (hf : Fenced base t) (hbase : base ≤ t.size)
    (hhome : ∀ p ∈ home, base ≤ p ∧ p < t.size) : Beyond base t t' := by
  have hsize : t.size < t'.size := h.first ▸ h.lt
  refine
    { size_le := Nat.le_of_lt hsize
      kept := fun x hx => ?_
      parent := fun x hx => h.keeps Node.parent (fun _ _ => rfl) hx
      fenced := ⟨fun x hx c hc => ?_, fun x hx c hc => ?_⟩
      registers := h.registers fun p hp => (hhome p hp).2 }
  · have hne : home ≠ some x := fun heq => Nat.not_lt.2 (hhome x heq).1 hx
    rw [h.kept x (by omega), if_neg hne, List.append_nil]
  -- old nodes list what they did and perhaps the new node; new ones list new nodes only
  · by_cases hold : x < t.size
    · rw [h.children hold] at hc
      rcases List.mem_append.1 hc with hc | hc
      · obtain ⟨hle, hlt⟩ := hf.children x hx c hc
        omega
      · split at hc
        · rw [List.mem_singleton.1 hc, h.first]
          omega
        · cases hc
    · obtain ⟨hle, hlt⟩ := h.fenced.children x (Nat.le_of_not_lt hold) c hc
      omega
  · by_cases hold : x < t.size
    · rw [h.keeps Node.content (fun _ _ => rfl) hold] at hc
      obtain ⟨hle, hlt⟩ := hf.content x hx c hc
      omega
    · obtain ⟨hle, hlt⟩ := h.fenced.content x (Nat.le_of_not_lt hold) c hc
      omega

end Planted

theorem addRoot_planted (name : String) (t : Tree α) :
    Planted none t.size t (addRoot name t).2 := by
  have hsize : (addRoot name t).2.size = t.size + 1 := by
    show (t.nodes.push _).size = _
    rw [Array.size_push]
    rfl
  have hnode := node_addRoot (t := t) name
  -- whatever the arena had behind its end is as bare as the new node is
  have hbare : ∀ x, t.size ≤ x → ((addRoot name t).2.node x).bare = {} := by
    intro x hx
    rw [hnode]
    split
    · rfl
    · rw [node_eq_default hx]
      rfl
  refine
    { first := rfl
      lt := hsize ▸ Nat.lt_succ_self _
      kept := fun x hx => ?_
      parent := congrArg Node.parent (hbare _ (Nat.le_refl _))
      fenced := ⟨fun x hx c hc => ?_, fun x hx c hc => ?_⟩
      registers := fun _ hc => Registers.of_links hc (fun x => ?_) fun x => ?_ }
  · rw [hnode, if_neg (Nat.ne_of_lt hx), if_neg (by simp), List.append_nil]
  · have hnil : ((addRoot name t).2.node x).children = [] := congrArg Node.children (hbare x hx)
    rw [hnil] at hc
    cases hc
  · have hnone : ((addRoot name t).2.node x).content = none := congrArg Node.content (hbare x hx)
    rw [hnone] at hc
    cases hc
  · rw [hnode]
    split
    · rename_i hx
      rw [node_eq_default (Nat.le_of_eq hx.symm)]
    · rfl
  · rw [hnode]
    split
    · rename_i hx
      rw [node_eq_default (Nat.le_of_eq hx.symm)]
    · exact List.Perm.refl _

theorem addChild_planted (name : String) (p : Nat) (t : Tree α) :
    Planted (some p) t.size t (addChild name p t).2 := by
  have hsize := size_addChild name p t
  have hpush := node_push t { name, parent := some p } t.root
  -- two changes: a node is pushed, and the parent lists it
  have hnode : ∀ x, (addChild name p t).2.node x =
      if x = p ∧ p < t.size + 1 then
        (fun n : Node => { n with children := n.children ++ [t.size] })
          (if x = t.size then { name, parent := some p } else t.node x)
      else if x = t.size then { name, parent := some p } else t.node x := by
    intro x
    have hgrown : ({ t with nodes := t.nodes.push { name, parent := some p } } : Tree α).size =
        t.size + 1 := by simp [size]
    show (Tree.modifyNode _ p _).node x = _
    rw [node_modifyNode, hpush, hgrown]
  refine
    { first := rfl
      lt := by omega
      kept := fun x hx => ?_
      parent := ?_
      fenced := ⟨fun x hx c hc => ?_, fun x hx c hc => ?_⟩
      registers := fun hp hc => Registers.addChild hc name (hp p rfl) }
  · rw [hnode, if_neg (Nat.ne_of_lt hx)]
    by_cases heq : p = x
    · rw [if_pos ⟨heq.symm, by omega⟩, if_pos (congrArg some heq)]
    · rw [if_neg fun h => heq h.1.symm, if_neg fun h => heq (Option.some.inj h), List.append_nil]
  · rw [hnode, if_pos rfl]
    split <;> rfl
  · -- the only node that can be listed is the new one, if it was put below itself
    have hmem : c = t.size := by
      rw [hnode, node_eq_default hx] at hc
      split at hc <;> split at hc <;> simp_all
    omega
  · have hnone : ((addChild name p t).2.node x).content = none := by
      rw [hnode, node_eq_default hx]
      split <;> split <;> rfl
    rw [hnone] at hc
    cases hc

/-- A step of a path leads to a child, which is the last one if it is new. -/
theorem findOrCreate_planted (p : Nat) (step : PathStep) (t : Tree α) :
    Ensures (findOrCreate p step) t fun k t' => t' = t ∨ Planted (some p) k t t' := by
  unfold findOrCreate
  refine Ensures.bind (Ensures.get ?_)
  split
  · exact Or.inl rfl
  · refine Ensures.seq (R := fun k t' => k = t.size ∧ Planted (some p) t.size t t')
      ⟨rfl, addChild_planted step.name p t⟩ ?_
    rintro _ t' ⟨rfl, h⟩
    cases step.key with
    | none => exact Or.inr h
    | some entry =>
      exact Or.inr (h.trans (Beyond.setAttribute h.fenced (Nat.le_refl _) entry.1 entry.2))

theorem addNode_planted (name : String) (place : Option Nat) (t : Tree α) :
    Ensures (addNode name place) t fun k t' => Planted (place.map t.contentOf) k t t' := by
  cases place with
  | none => exact addRoot_planted name t
  | some p =>
    unfold addNode
    exact Ensures.bind (Ensures.get (addChild_planted name (t.contentOf p) t))

/-- A node is made where the children of another one go. -/
theorem instantiate_planted (b : Blueprint) (place : Option Nat) (render : Template → String)
    (t : Tree α) :
    Ensures (instantiate b place render) t fun k t' =>
      Planted (place.map t.contentOf) k t t' := by
  unfold instantiate
  refine Ensures.seq (addNode_planted b.name place t) fun k t₁ h₁ => ?_
  have hbase : t.size ≤ k := Nat.le_of_eq h₁.first.symm
  refine Ensures.seq (fill_beyond render k b t₁ h₁.fenced hbase h₁.lt) fun _ t₂ h₂ => ?_
  have hdrawn : Beyond t.size t₂ (drawIdent t₂).2 :=
    ⟨Nat.le_refl _, fun _ _ => rfl, fun _ _ => rfl, ⟨h₂.fenced.children, h₂.fenced.content⟩,
      fun hc => Registers.of_links hc (fun _ => rfl) fun _ => List.Perm.refl _⟩
  have hnamed := Beyond.modifyNode hdrawn.fenced hbase
    (f := fun n => { n with ident := some (drawIdent t₂).1 }) (fun _ => ⟨rfl, rfl⟩)
    fun _ _ hc => Or.inl hc
  exact h₁.trans (h₂.trans (hdrawn.trans hnamed))

end LayoutCompiler.Tree
