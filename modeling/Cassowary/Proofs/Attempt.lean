import Cassowary.Error

/-!
# What an attempt ensures

An attempt ends in a state whether it fails or not, so a statement about it has two parts: one for
the result and the state after a success, one for the cause and the state after a failure. The
lemmas here follow the way an attempt is put together, so that a statement about a whole operation
splits into statements about its parts.

## Main definitions

* `Attempt.Ensures` — what holds after an attempt that starts in a given state
* `Attempt.Keeps` — a property of the state that an attempt keeps even where it fails
* `Attempt.Upholds` — a property of the state that an attempt keeps where it succeeds
-/

namespace Cassowary

namespace Attempt

variable {σ β γ : Type}

/-- What an attempt ensures when it starts in the state `s`: `done` of the result and the state if
it succeeds, `failed` of the cause and the state if it does not. -/
def Ensures (action : Attempt σ β) (s : σ) (done : β → σ → Prop)
    (failed : SolverError → σ → Prop) : Prop :=
  match action s with
  | .ok b s => done b s
  | .error cause s => failed cause s

variable {action : Attempt σ β} {s : σ} {done done' : β → σ → Prop}
  {failed failed' : SolverError → σ → Prop}

theorem Ensures.imp (h : Ensures action s done failed) (hdone : ∀ b s, done b s → done' b s)
    (hfailed : ∀ cause s, failed cause s → failed' cause s) :
    Ensures action s done' failed' := by
  unfold Ensures at h ⊢
  split
  · next heq => rw [heq] at h; exact hdone _ _ h
  · next heq => rw [heq] at h; exact hfailed _ _ h

theorem Ensures.and (h : Ensures action s done failed) (h' : Ensures action s done' failed') :
    Ensures action s (fun b s => done b s ∧ done' b s)
      (fun cause s => failed cause s ∧ failed' cause s) := by
  unfold Ensures at h h' ⊢
  split
  · next heq => rw [heq] at h h'; exact ⟨h, h'⟩
  · next heq => rw [heq] at h h'; exact ⟨h, h'⟩

/-- What comes of an attempt is what it ends in. -/
theorem ensures_self : Ensures action s (fun b s' => action s = .ok b s')
    fun cause s' => action s = .error cause s' := by
  unfold Ensures
  split
  · next heq => exact heq
  · next heq => exact heq

/-- An attempt that is answered by a result has ended with it. -/
theorem eq_ok_of_outcome {b : β} (h : (action.outcome s).1 = .ok b) :
    action s = .ok b (action.outcome s).2 := by
  unfold outcome at h ⊢
  cases hresult : action s with
  | ok b' s' =>
    rw [hresult] at h
    cases h
    rfl
  | error cause s' =>
    rw [hresult] at h
    cases h

theorem Ensures.outcome (h : Ensures action s done failed) :
    (∃ b, (action.outcome s).1 = .ok b ∧ done b (action.outcome s).2) ∨
      ∃ cause, (action.outcome s).1 = .error cause ∧ failed cause (action.outcome s).2 := by
  unfold Ensures at h
  unfold Attempt.outcome
  cases hresult : action s with
  | ok b s' =>
    rw [hresult] at h
    exact .inl ⟨b, rfl, h⟩
  | error cause s' =>
    rw [hresult] at h
    exact .inr ⟨cause, rfl, h⟩

/-- What is ensured of the state either way holds of the state that the attempt ends in. -/
theorem Ensures.after {P : σ → Prop} (h : Ensures action s (fun _ => P) fun _ => P) :
    P (action.outcome s).2 := by
  rcases h.outcome with ⟨_, -, hs'⟩ | ⟨_, -, hs'⟩
  · exact hs'
  · exact hs'

/-- What is ensured of success holds of the result of an attempt that succeeds. -/
theorem Ensures.of_eq_ok (h : Ensures action s done failed) {b : β} {s' : σ}
    (hok : action s = .ok b s') : done b s' := by
  unfold Ensures at h
  rwa [hok] at h

theorem Ensures.of_ok (h : Ensures action s done failed) {b : β}
    (hb : (action.outcome s).1 = .ok b) : done b (action.outcome s).2 := by
  rcases h.outcome with ⟨b', hb', hdone⟩ | ⟨cause, hcause, -⟩
  · cases hb'.symm.trans hb
    exact hdone
  · cases hcause.symm.trans hb

/-- What is ensured of failure holds of the state that a failed attempt leaves. -/
theorem Ensures.of_error (h : Ensures action s done failed) {cause : SolverError}
    (hcause : (action.outcome s).1 = .error cause) : failed cause (action.outcome s).2 := by
  rcases h.outcome with ⟨b, hb, -⟩ | ⟨cause', hcause', hfailed⟩
  · cases hb.symm.trans hcause
  · cases hcause'.symm.trans hcause
    exact hfailed

/-- An attempt that can only succeed, with one result and one state, is answered by them. -/
theorem Ensures.outcome_eq_ok {b : β} {s' : σ}
    (h : Ensures action s (fun b' s'' => b' = b ∧ s'' = s') fun _ _ => False) :
    action.outcome s = (.ok b, s') := by
  rcases h.outcome with ⟨_, hb, rfl, hs'⟩ | ⟨_, -, hfalse⟩
  · exact Prod.ext hb hs'
  · exact hfalse.elim

theorem Ensures.outcome_eq_error {cause : SolverError} {s' : σ}
    (h : Ensures action s (fun _ _ => False) fun cause' s'' => cause' = cause ∧ s'' = s') :
    action.outcome s = (.error cause, s') := by
  rcases h.outcome with ⟨_, -, hfalse⟩ | ⟨_, hcause, rfl, hs'⟩
  · exact hfalse.elim
  · exact Prod.ext hcause hs'

/-! ## Parts of an attempt -/

@[simp] theorem ensures_pure (b : β) : Ensures (pure b) s done failed ↔ done b s := Iff.rfl

@[simp] theorem ensures_throw (cause : SolverError) :
    Ensures (throw cause) s done failed ↔ failed cause s := Iff.rfl

@[simp] theorem ensures_bind (f : β → Attempt σ γ) {done : γ → σ → Prop} :
    Ensures (action >>= f) s done failed ↔
      Ensures action s (fun b s => Ensures (f b) s done failed) failed := by
  simp only [Ensures, bind, EStateM.bind]
  cases action s <;> rfl

@[simp] theorem ensures_map (f : β → γ) {done : γ → σ → Prop} :
    Ensures (f <$> action) s done failed ↔
      Ensures action s (fun b s => done (f b) s) failed := by
  simp only [Ensures, Functor.map, EStateM.map]
  cases action s <;> rfl

@[simp] theorem ensures_get {done : σ → σ → Prop} :
    Ensures get s done failed ↔ done s s := Iff.rfl

@[simp] theorem ensures_set (s' : σ) {done : PUnit → σ → Prop} :
    Ensures (set s') s done failed ↔ done ⟨⟩ s' := Iff.rfl

@[simp] theorem ensures_modify (f : σ → σ) {done : PUnit → σ → Prop} :
    Ensures (modify f) s done failed ↔ done ⟨⟩ (f s) := Iff.rfl

theorem outcome_map (action : Attempt σ β) (f : β → γ) (s : σ) :
    (f <$> action).outcome s = ((action.outcome s).1.map f, (action.outcome s).2) := by
  simp only [outcome, Functor.map, EStateM.map]
  cases action s <;> rfl

/-! ## Kept properties -/

/-- An attempt keeps a property of the state, whether it succeeds or fails. -/
def Keeps (action : Attempt σ β) (P : σ → Prop) : Prop :=
  ∀ s, P s → Ensures action s (fun _ => P) (fun _ => P)

variable {P : σ → Prop}

theorem Keeps.outcome {P : σ → Prop} (h : Keeps action P) (hs : P s) : P (action.outcome s).2 :=
  (h s hs).after

theorem keeps_pure (b : β) : Keeps (pure b) P := fun _ h => h

theorem keeps_get : Keeps get P := fun _ h => h

theorem keeps_modify {f : σ → σ} (h : ∀ s, P s → P (f s)) : Keeps (modify f) P := h

theorem Keeps.bind {f : β → Attempt σ γ} (h : Keeps action P) (hf : ∀ b, Keeps (f b) P) :
    Keeps (action >>= f) P := fun s hs =>
  ensures_bind f |>.mpr ((h s hs).imp (fun b _ => hf b _) fun _ _ => id)

/-- An attempt keeps a property of the state if it succeeds. What it leaves behind where it fails
may be anything. -/
def Upholds (action : Attempt σ β) (P : σ → Prop) : Prop :=
  ∀ s, P s → Ensures action s (fun _ => P) fun _ _ => True

theorem Keeps.upholds (h : Keeps action P) : Upholds action P :=
  fun s hs => (h s hs).imp (fun _ _ => id) fun _ _ _ => trivial

theorem Upholds.bind {f : β → Attempt σ γ} (h : Upholds action P) (hf : ∀ b, Upholds (f b) P) :
    Upholds (action >>= f) P := fun s hs =>
  ensures_bind f |>.mpr ((h s hs).imp (fun b _ => hf b _) fun _ _ => id)

end Attempt

end Cassowary
