import LayoutCompiler.Storage.Basic
/-!
# Journals

A session is run on a store. To say which files it writes, the same session is run on the store
together with a journal, into which each file that is written is entered. The journal changes
nothing in what the session does (`Reads`, `Records`): outcome and store are as without one.
-/

namespace LayoutCompiler

variable {σ β γ : Type}

namespace Session

/-- The outcome of a session that starts with a store, and the store it leaves. -/
def on (x : Session (StateM σ) β) (s : σ) : Outcome β × σ := x.run.run s

@[simp] theorem on_throw (e : Failure) (s : σ) :
    (throw e : Session (StateM σ) β).on s = (.error e, s) := rfl

theorem on_bind (x : Session (StateM σ) β) (f : β → Session (StateM σ) γ) (s : σ) :
    (x >>= f).on s =
      match x.on s with
      | (.ok b, s') => (f b).on s'
      | (.error e, s') => (.error e, s') := by
  show ExceptT.bindCont (m := StateM σ) f (x.on s).1 (x.on s).2 = _
  rcases x.on s with ⟨_ | _, s'⟩ <;> rfl

@[simp] theorem on_lift (operation : StateM σ β) (s : σ) :
    Session.on (ExceptT.lift operation) s = (.ok (operation s).1, (operation s).2) := rfl

/-- Changes that cannot fail are made one after the other. -/
theorem on_forM_modify (changes : List γ) (change : γ → σ → σ) (s : σ) :
    Session.on (changes.forM fun c => perform (modify (change c))) s =
      (.ok (), changes.foldl (fun s c => change c s) s) := by
  induction changes generalizing s with
  | nil => rfl
  | cons c cs ih =>
    show Session.on (perform (modify (change c)) >>= fun _ => cs.forM _) s = _
    rw [on_bind]
    exact ih (change c s)

theorem on_attempt (operation : StateM σ (Except StorageFault β)) (s : σ) :
    (attempt operation).on s =
      match operation s with
      | (.ok v, s') => (.ok v, s')
      | (.error fault, s') => (.error (.io fault.message), s') := by
  rw [attempt, on_bind, on_lift]
  rcases operation s with ⟨_ | _, s'⟩ <;> rfl

/-- A session can come to a value. -/
def Returned (x : Session (StateM σ) β) (b : β) : Prop := ∃ s s', x.on s = (.ok b, s')

theorem returned_bind {x : Session (StateM σ) β} {f : β → Session (StateM σ) γ} {c : γ}
    (h : Returned (x >>= f) c) : ∃ b, Returned x b ∧ Returned (f b) c := by
  obtain ⟨s, s', h⟩ := h
  rw [on_bind] at h
  rcases hx : x.on s with ⟨e | b, t⟩
  · simp [hx] at h
  · rw [hx] at h
    exact ⟨b, ⟨s, t, hx⟩, t, s', h⟩

theorem returned_ofOutcome {r : Outcome β} {b : β}
    (h : Returned (ofOutcome r : Session (StateM σ) β) b) : r = .ok b := by
  obtain ⟨s, s', h⟩ := h
  exact congrArg Prod.fst h

theorem returned_of_outcome {x : Session (StateM σ) β} {b : β}
    (h : Returned (ExceptT.lift x.run) (.ok b)) : Returned x b := by
  obtain ⟨s, s', h⟩ := h
  rw [on_lift] at h
  obtain ⟨hvalue, hstore⟩ := Prod.mk.inj h
  exact ⟨s, s', Prod.ext (Except.ok.inj hvalue) hstore⟩

theorem returned_foldlM {f : γ → β → Session (StateM σ) γ} {I : γ → Prop} {l : List β}
    (hf : ∀ b ∈ l, ∀ c c', I c → Returned (f c b) c' → I c') {c c' : γ} (hc : I c)
    (h : Returned (l.foldlM f c) c') : I c' := by
  induction l generalizing c with
  | nil =>
    obtain ⟨s, s', h⟩ := h
    cases h
    exact hc
  | cons b l ih =>
    rw [List.foldlM_cons] at h
    obtain ⟨d, hd, hrest⟩ := returned_bind h
    have hstep := hf b List.mem_cons_self c d hc hd
    exact ih (fun b' hb' => hf b' (List.mem_cons_of_mem b hb')) hstep hrest

end Session

/-- A store, and the paths of the files that were written to it, the first one first. -/
structure Journal (σ : Type) where
  store : σ
  written : List String

namespace Journal

/-- An operation on the store, of which the journal says nothing. -/
def silent (operation : StateM σ β) : StateM (Journal σ) β := fun j =>
  ((operation j.store).1, { j with store := (operation j.store).2 })

/-- An operation on the store that writes a file, which is entered unless the operation fails. -/
def entered (path : String) (operation : StateM σ (Except StorageFault Unit)) :
    StateM (Journal σ) (Except StorageFault Unit) := fun j =>
  match operation j.store with
  | (.ok (), s) => (.ok (), { store := s, written := j.written ++ [path] })
  | (.error fault, s) => (.error fault, { j with store := s })

instance [Storage (StateM σ)] : Storage (StateM (Journal σ)) where
  isFolder path := silent (Storage.isFolder path)
  entries path := silent (Storage.entries path)
  filesBelow path := silent (Storage.filesBelow path)
  read path := silent (Storage.read path)
  write path contents := entered path (Storage.write path contents)
  makeFolder path := silent (Storage.makeFolder path)

instance [Clock (StateM σ)] : Clock (StateM (Journal σ)) where
  now := silent Clock.now

end Journal

/-! ## Sessions that only read -/

/-- With a journal a session does what another one does without, and enters nothing. -/
def Session.Reads (x : Session (StateM (Journal σ)) β) (y : Session (StateM σ) β) : Prop :=
  ∀ s w, x.on ⟨s, w⟩ = ((y.on s).1, ⟨(y.on s).2, w⟩)

namespace Session

theorem reads_pure (b : β) : Reads (σ := σ) (pure b) (pure b) := fun _ _ => rfl

theorem reads_throw (e : Failure) : Reads (σ := σ) (β := β) (throw e) (throw e) := fun _ _ => rfl

theorem reads_ofOutcome (r : Outcome β) : Reads (σ := σ) (ofOutcome r) (ofOutcome r) :=
  fun _ _ => rfl

theorem reads_perform (operation : StateM σ β) :
    Reads (perform (Journal.silent operation)) (perform operation) := fun _ _ => rfl

theorem reads_attempt (operation : StateM σ (Except StorageFault β)) :
    Reads (attempt (Journal.silent operation)) (attempt operation) := by
  intro s w
  simp only [on_attempt, Journal.silent]
  rcases operation s with ⟨_ | _, s'⟩ <;> rfl

theorem Reads.bind {x : Session (StateM (Journal σ)) β} {y : Session (StateM σ) β}
    {f : β → Session (StateM (Journal σ)) γ} {g : β → Session (StateM σ) γ} (hx : Reads x y)
    (hf : ∀ b, Reads (f b) (g b)) : Reads (x >>= f) (y >>= g) := by
  intro s w
  rw [on_bind, on_bind, hx s w]
  rcases y.on s with ⟨e | b, s'⟩
  · rfl
  · exact hf b s' w

theorem Reads.ite {c : Prop} [Decidable c] {x x' : Session (StateM (Journal σ)) β}
    {y y' : Session (StateM σ) β} (h : Reads x y) (h' : Reads x' y') :
    Reads (if c then x else x') (if c then y else y') := by
  by_cases hc : c
  · rwa [if_pos hc, if_pos hc]
  · rwa [if_neg hc, if_neg hc]

theorem Reads.foldlM {f : γ → β → Session (StateM (Journal σ)) γ}
    {g : γ → β → Session (StateM σ) γ} (h : ∀ c b, Reads (f c b) (g c b)) (l : List β) (c : γ) :
    Reads (l.foldlM f c) (l.foldlM g c) := by
  induction l generalizing c with
  | nil => exact reads_pure c
  | cons b l ih =>
    rw [List.foldlM_cons, List.foldlM_cons]
    exact (h c b).bind ih

/-- The outcome of a session that only reads is looked at. -/
theorem Reads.outcome {x : Session (StateM (Journal σ)) β} {y : Session (StateM σ) β}
    (h : Reads x y) : Reads (ExceptT.lift x.run) (ExceptT.lift y.run) := by
  intro s w
  have hrun : x.run ⟨s, w⟩ = ((y.on s).1, ⟨(y.on s).2, w⟩) := h s w
  rw [on_lift, on_lift, hrun]
  rfl

/-! ## Sessions that write -/

/-- With a journal a session does what another one does without; when it comes to a value, the
files that it enters and the value are related. -/
def Records (x : Session (StateM (Journal σ)) β) (y : Session (StateM σ) β)
    (R : β → List String → Prop) : Prop :=
  ∀ s w b s', y.on s = (.ok b, s') → ∃ files, x.on ⟨s, w⟩ = (.ok b, ⟨s', w ++ files⟩) ∧ R b files

theorem Reads.records {x : Session (StateM (Journal σ)) β} {y : Session (StateM σ) β}
    (h : Reads x y) : Records x y fun b files => Returned y b ∧ files = [] := by
  intro s w b s' hy
  refine ⟨[], ?_, ⟨s, s', hy⟩, rfl⟩
  rw [h s w, hy, List.append_nil]

theorem Records.mono {x : Session (StateM (Journal σ)) β} {y : Session (StateM σ) β}
    {R Q : β → List String → Prop} (h : Records x y R) (hQ : ∀ b files, R b files → Q b files) :
    Records x y Q := by
  intro s w b s' hy
  obtain ⟨files, hx, hR⟩ := h s w b s' hy
  exact ⟨files, hx, hQ b files hR⟩

theorem records_pure {R : β → List String → Prop} {b : β} (h : R b []) :
    Records (σ := σ) (pure b) (pure b) R :=
  (reads_pure b).records.mono fun _ _ ⟨⟨_, _, hb⟩, hfiles⟩ => by
    cases hb
    exact hfiles ▸ h

theorem Records.bind {x : Session (StateM (Journal σ)) β} {y : Session (StateM σ) β}
    {f : β → Session (StateM (Journal σ)) γ} {g : β → Session (StateM σ) γ}
    {R : β → List String → Prop} {Q : γ → List String → Prop} (hx : Records x y R)
    (hf : ∀ b files, R b files → Records (f b) (g b) fun c more => Q c (files ++ more)) :
    Records (x >>= f) (y >>= g) Q := by
  intro s w c s' h
  rw [on_bind] at h
  rcases hy : y.on s with ⟨e | b, t⟩
  · simp [hy] at h
  · rw [hy] at h
    obtain ⟨files, hxs, hR⟩ := hx s w b t hy
    obtain ⟨more, hfs, hQ⟩ := hf b files hR t (w ++ files) c s' h
    refine ⟨files ++ more, ?_, hQ⟩
    rw [on_bind, hxs]
    simpa using hfs

/-- A session that only reads, before one that writes. -/
theorem Reads.bind_records {x : Session (StateM (Journal σ)) β} {y : Session (StateM σ) β}
    {f : β → Session (StateM (Journal σ)) γ} {g : β → Session (StateM σ) γ}
    {Q : γ → List String → Prop} (hx : Reads x y)
    (hf : ∀ b, Returned y b → Records (f b) (g b) Q) : Records (x >>= f) (y >>= g) Q :=
  hx.records.bind fun b files hb => by
    obtain ⟨hb, rfl⟩ := hb
    simpa using hf b hb

/-- What holds of the members gone through so far, the value reached and the files entered. -/
theorem Records.foldlM {f : γ → β → Session (StateM (Journal σ)) γ}
    {g : γ → β → Session (StateM σ) γ} {I : List β → γ → List String → Prop}
    (h : ∀ done c b files, I done c files →
      Records (f c b) (g c b) fun c' more => I (done ++ [b]) c' (files ++ more))
    (l : List β) {done : List β} {c : γ} {files : List String} (hI : I done c files) :
    Records (l.foldlM f c) (l.foldlM g c) fun c' more => I (done ++ l) c' (files ++ more) := by
  induction l generalizing done c files with
  | nil => exact records_pure (by simpa using hI)
  | cons b l ih =>
    rw [List.foldlM_cons, List.foldlM_cons]
    refine (h done c b files hI).bind fun c' more hc' => ?_
    simpa using ih hc'

/-- A loop whose body enters one file each time. -/
theorem Records.forIn {f : β → Session (StateM (Journal σ)) Unit} {g : β → Session (StateM σ) Unit}
    {path : β → String} (h : ∀ b, Records (f b) (g b) fun _ files => files = [path b])
    (l : List β) :
    Records (forIn l PUnit.unit fun b _ => do f b; pure (.yield PUnit.unit))
      (forIn l PUnit.unit fun b _ => do g b; pure (.yield PUnit.unit))
      fun _ files => files = l.map path := by
  induction l with
  | nil => exact records_pure rfl
  | cons b l ih =>
    simp only [List.forIn_cons, bind_assoc, pure_bind]
    refine (h b).bind fun _ files hfiles => ih.mono fun _ more hmore => ?_
    rw [hfiles, hmore, List.map_cons, List.singleton_append]

variable [Storage (StateM σ)]

theorem records_write (path contents : String) :
    Records (σ := σ) (attempt (Storage.write path contents))
      (attempt (Storage.write path contents)) fun _ files => files = [path] := by
  intro s w b s' h
  refine ⟨[path], ?_, rfl⟩
  have hwrite : (Storage.write path contents : StateM (Journal σ) _) =
      Journal.entered path (Storage.write path contents) := rfl
  rw [on_attempt] at h
  rw [on_attempt, hwrite, Journal.entered]
  rcases hs : (Storage.write path contents : StateM σ _) s with ⟨fault | ⟨⟩, t⟩
  · simp [hs] at h
  · rw [hs] at h
    cases h
    rfl

end Session

end LayoutCompiler
