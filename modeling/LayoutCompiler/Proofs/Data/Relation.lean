import Mathlib.Data.List.Forall2
/-!
# Related lists and related options

What follows for a list, or for a part that may be missing, when its members are related one by one
to those of another one.

* `exists_of_forall₂`, `exists_of_rel`: every member is related to something.
* `forall₂_unique`, `rel_unique`: what relates members to one thing relates lists to one list.
-/

namespace LayoutCompiler

variable {β γ δ : Type} {r r' : β → γ → Prop}

/-! ## Lists -/

theorem exists_of_forall₂ {xs : List β} {ys : List γ} {x : β} (h : List.Forall₂ r xs ys)
    (hx : x ∈ xs) : ∃ y ∈ ys, r x y := by
  induction h with
  | nil => cases hx
  | cons hr _ ih =>
    rcases List.mem_cons.1 hx with rfl | hx
    · exact ⟨_, List.mem_cons_self, hr⟩
    · obtain ⟨y, hy, hr⟩ := ih hx
      exact ⟨y, List.mem_cons_of_mem _ hy, hr⟩

/-- Related lists have as many members of a kind that related members agree on. -/
theorem countP_of_forall₂ {p : β → Bool} {q : γ → Bool} {xs : List β} {ys : List γ}
    (h : List.Forall₂ r xs ys) (hsame : ∀ x y, r x y → p x = q y) : xs.countP p = ys.countP q := by
  induction h with
  | nil => rfl
  | cons hr _ ih => rw [List.countP_cons, List.countP_cons, hsame _ _ hr, ih]

theorem forall₂_unique_of_mem {xs : List β} {ys zs : List γ}
    (hsame : ∀ x ∈ xs, ∀ y y', r x y → r' x y' → y = y') (h : List.Forall₂ r xs ys)
    (h' : List.Forall₂ r' xs zs) : ys = zs := by
  induction h generalizing zs with
  | nil =>
    cases h'
    rfl
  | cons hhead _ ih =>
    obtain ⟨hx, hxs⟩ := List.forall_mem_cons.1 hsame
    cases h' with
    | cons hhead' htail' => rw [hx _ _ hhead hhead', ih hxs htail']

theorem forall₂_unique (hsame : ∀ x y y', r x y → r' x y' → y = y') {xs : List β} {ys zs : List γ}
    (h : List.Forall₂ r xs ys) (h' : List.Forall₂ r' xs zs) : ys = zs :=
  forall₂_unique_of_mem (fun x _ => hsame x) h h'

/-! ## Parts that may be missing -/

theorem rel_mono (hle : ∀ x y, r x y → r' x y) {x : Option β} {y : Option γ}
    (h : Option.Rel r x y) : Option.Rel r' x y := by
  cases h with
  | some h => exact .some (hle _ _ h)
  | none => exact .none

theorem rel_map {r' : β → δ → Prop} {f : γ → δ} (hmap : ∀ x y, r x y → r' x (f y)) {x : Option β}
    {y : Option γ} (h : Option.Rel r x y) : Option.Rel r' x (y.map f) := by
  cases h with
  | some h => exact .some (hmap _ _ h)
  | none => exact .none

theorem rel_map_map {ε : Type} {r' : δ → ε → Prop} {f : β → δ} {g : γ → ε}
    (hmap : ∀ x y, r x y → r' (f x) (g y)) {x : Option β} {y : Option γ} (h : Option.Rel r x y) :
    Option.Rel r' (x.map f) (y.map g) := by
  cases h with
  | some h => exact .some (hmap _ _ h)
  | none => exact .none

/-- A part that is related to an image is the image of one that is related. -/
theorem exists_rel_of_rel_map {f : γ → δ} {x : Option β} {z : Option δ}
    (h : Option.Rel (fun a c => ∃ b, r a b ∧ c = f b) x z) :
    ∃ y, Option.Rel r x y ∧ z = y.map f := by
  cases h with
  | some h =>
    obtain ⟨b, hb, rfl⟩ := h
    exact ⟨some b, .some hb, rfl⟩
  | none => exact ⟨none, .none, rfl⟩

theorem map_eq_of_rel {f : β → δ} {g : γ → δ} (hsame : ∀ x y, r x y → f x = g y) {x : Option β}
    {y : Option γ} (h : Option.Rel r x y) : x.map f = y.map g := by
  cases h with
  | some h => exact congrArg some (hsame _ _ h)
  | none => rfl

theorem rel_bind {ε : Type} {r' : δ → ε → Prop} {f : β → Option δ} {g : γ → Option ε}
    (hnext : ∀ x y, r x y → Option.Rel r' (f x) (g y)) {x : Option β} {y : Option γ}
    (h : Option.Rel r x y) : Option.Rel r' (x.bind f) (y.bind g) := by
  cases h with
  | some h => exact hnext _ _ h
  | none => exact .none

theorem rel_unique (hsame : ∀ x y y', r x y → r' x y' → y = y') {x : Option β} {y y' : Option γ}
    (h : Option.Rel r x y) (h' : Option.Rel r' x y') : y = y' := by
  cases h with
  | some h =>
    cases h' with
    | some h' => rw [hsame _ _ _ h h']
  | none =>
    cases h'
    rfl

theorem exists_of_rel {x : Option β} {y : Option γ} (h : Option.Rel r x y) {a : β}
    (ha : x = some a) : ∃ z, r a z := by
  subst ha
  cases h with
  | some h => exact ⟨_, h⟩

end LayoutCompiler
