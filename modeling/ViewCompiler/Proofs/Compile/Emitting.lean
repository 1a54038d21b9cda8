import ViewCompiler.Compile.Context

/-!
# Computations that take names

What is said about a computation that takes names and may fail: that it succeeds, that what it
gives has a property, and that another computation does the same beside it. Each of the three holds
of computations one after the other if it holds of both.
-/

namespace ViewCompiler.Compile

variable {α β γ δ : Type}

/-! ## Success -/

/-- The computation never fails, whatever names are taken. -/
def Succeeds (m : Emit α) : Prop := ∀ taken, ∃ a taken', m.run taken = .ok (a, taken')

/-- A value that is given without doing anything is given. -/
theorem succeeds_pure (a : α) : Succeeds (pure a) := fun taken => ⟨a, taken, rfl⟩

/-- Taking names never fails. -/
theorem succeeds_taking (m : StateM Names α) : Succeeds (taking m) := fun taken =>
  ⟨(m.run taken).1, (m.run taken).2, rfl⟩

/-- A computation that never fails gives what it gives by itself. -/
theorem eq_of_run_taking {m : StateM Names α} {taken left : Names} {a : α}
    (h : (taking m).run taken = .ok (a, left)) : m.run taken = (a, left) := Except.ok.inj h

/-- After a computation that succeeds the next one runs with the names that are taken then. -/
theorem run_bind {m : Emit α} {f : α → Emit β} {a : α} {taken taken' : Names}
    (h : m.run taken = .ok (a, taken')) : (m >>= f).run taken = (f a).run taken' := by
  rw [StateT.run_bind, h]
  rfl

/-- One computation after the other succeeds if both do. -/
theorem Succeeds.bind {m : Emit α} {f : α → Emit β} (hm : Succeeds m)
    (hf : ∀ a, Succeeds (f a)) : Succeeds (m >>= f) := by
  intro taken
  obtain ⟨a, taken', ha⟩ := hm taken
  rw [run_bind ha]
  exact hf a taken'

/-- A computation for each element of a list succeeds if each of them does. -/
theorem succeeds_mapM {f : α → Emit β} {as : List α} (h : ∀ a ∈ as, Succeeds (f a)) :
    Succeeds (as.mapM f) := by
  induction as with
  | nil => exact succeeds_pure []
  | cons a as ih =>
    rw [List.forall_mem_cons] at h
    rw [List.mapM_cons]
    exact h.1.bind fun b => (ih h.2).bind fun bs => succeeds_pure _

/-! ## What is given -/

/-- Whatever the computation gives has the property. -/
def Gives (m : Emit α) (P : α → Prop) : Prop :=
  ∀ taken a taken', m.run taken = .ok (a, taken') → P a

/-- A value with the property is given with it. -/
theorem gives_pure {P : α → Prop} {a : α} (h : P a) : Gives (pure a) P := by
  intro taken a' taken' hrun
  cases hrun
  exact h

/-- Every computation gives something. -/
theorem gives_any (m : Emit α) : Gives m fun _ => True := fun _ _ _ _ => trivial

/-- What fails gives nothing, so it gives what is asked for. -/
theorem gives_throw {P : α → Prop} (e : EmitError) : Gives (throw e : Emit α) P := by
  intro taken a taken' hrun
  cases hrun

/-- What one computation after the other gives comes from what the first gives. -/
theorem exists_of_run_bind {m : Emit α} {f : α → Emit β} {b : β} {taken taken' : Names}
    (h : (m >>= f).run taken = .ok (b, taken')) :
    ∃ a between, m.run taken = .ok (a, between) ∧ (f a).run between = .ok (b, taken') := by
  cases hm : m.run taken with
  | error e =>
    rw [StateT.run_bind, hm] at h
    cases h
  | ok result =>
    rw [run_bind hm] at h
    exact ⟨result.1, result.2, rfl, h⟩

/-- What is known of the first result may be used for the computation after it. -/
theorem Gives.bind {m : Emit α} {f : α → Emit β} {P : α → Prop} {Q : β → Prop} (hm : Gives m P)
    (hf : ∀ a, P a → Gives (f a) Q) : Gives (m >>= f) Q := by
  intro taken b taken' h
  obtain ⟨a, between, ha, hb⟩ := exists_of_run_bind h
  exact hf a (hm _ _ _ ha) _ _ _ hb

/-- A computation for each element of a list gives results that all have the property. -/
theorem gives_mapM {f : α → Emit β} {as : List α} {P : β → Prop} (h : ∀ a ∈ as, Gives (f a) P) :
    Gives (as.mapM f) fun bs => ∀ b ∈ bs, P b := by
  induction as with
  | nil => exact gives_pure fun b hb => absurd hb List.not_mem_nil
  | cons a as ih =>
    rw [List.forall_mem_cons] at h
    rw [List.mapM_cons]
    exact h.1.bind fun b hb => (ih h.2).bind fun bs hbs =>
      gives_pure (List.forall_mem_cons.mpr ⟨hb, hbs⟩)

/-- What the computation gives has both properties. -/
theorem Gives.and {m : Emit α} {P Q : α → Prop} (h : Gives m P) (h' : Gives m Q) :
    Gives m fun a => P a ∧ Q a := fun _ _ _ hrun => ⟨h _ _ _ hrun, h' _ _ _ hrun⟩

/-! ## Two computations side by side -/

/-- Where the first computation succeeds, the second does and takes the same names, and what they
give is related. -/
def Paired (R : α → β → Prop) (m : Emit α) (m' : Emit β) : Prop :=
  ∀ taken a taken', m.run taken = .ok (a, taken') → ∃ b, m'.run taken = .ok (b, taken') ∧ R a b

variable {R : α → β → Prop} {S : γ → δ → Prop}

/-- Related values are given by paired computations. -/
theorem paired_pure {a : α} {b : β} (h : R a b) : Paired R (pure a) (pure b) := by
  intro taken a' taken' hrun
  cases hrun
  exact ⟨b, rfl, h⟩

/-- A computation is paired with itself by equality. -/
theorem paired_self (m : Emit α) : Paired Eq m m := fun _ a _ h => ⟨a, h, rfl⟩

/-- Paired computations stay paired when they go on with paired ones. -/
theorem Paired.bind {m : Emit α} {m' : Emit β} {f : α → Emit γ} {f' : β → Emit δ}
    (h : Paired R m m') (hf : ∀ a b, R a b → Paired S (f a) (f' b)) :
    Paired S (m >>= f) (m' >>= f') := by
  intro taken c taken' hrun
  obtain ⟨a, between, ha, hc⟩ := exists_of_run_bind hrun
  obtain ⟨b, hb, hab⟩ := h _ _ _ ha
  rw [run_bind hb]
  exact hf a b hab _ _ _ hc

/-- Results that are related in one way are so in every way that follows from it. -/
theorem Paired.mono {m : Emit α} {m' : Emit β} {T : α → β → Prop} (h : Paired R m m')
    (hsub : ∀ a b, R a b → T a b) : Paired T m m' := by
  intro taken a taken' ha
  obtain ⟨b, hb, hab⟩ := h _ _ _ ha
  exact ⟨b, hb, hsub a b hab⟩

/-- The second computation goes on with what it gives. -/
theorem Paired.map_right {m : Emit α} {m' : Emit β} {f : β → δ} {T : α → δ → Prop}
    (h : Paired R m m') (hf : ∀ a b, R a b → T a (f b)) :
    Paired T m (m' >>= fun b => pure (f b)) := by
  have hbind : Paired T (m >>= pure) (m' >>= fun b => pure (f b)) :=
    h.bind fun a b hab => paired_pure (hf a b hab)
  rwa [bind_pure] at hbind

/-- The first computation goes on with what it gives. -/
theorem Paired.map_left {m : Emit α} {m' : Emit β} {f : α → γ} {T : γ → β → Prop}
    (h : Paired R m m') (hf : ∀ a b, R a b → T (f a) b) :
    Paired T (m >>= fun a => pure (f a)) m' := by
  have hbind : Paired T (m >>= fun a => pure (f a)) (m' >>= pure) :=
    h.bind fun a b hab => paired_pure (hf a b hab)
  rwa [bind_pure] at hbind

/-- What the first computation gives has a property besides. -/
theorem Paired.gives {m : Emit α} {m' : Emit β} {P : α → Prop} (h : Paired R m m')
    (hm : Gives m P) : Paired (fun a b => P a ∧ R a b) m m' := by
  intro taken a taken' ha
  obtain ⟨b, hb, hab⟩ := h _ _ _ ha
  exact ⟨b, hb, hm _ _ _ ha, hab⟩

/-- What the second computation gives has a property besides. -/
theorem Paired.gives_right {m : Emit α} {m' : Emit β} {P : β → Prop} (h : Paired R m m')
    (hm : Gives m' P) : Paired (fun a b => R a b ∧ P b) m m' := by
  intro taken a taken' ha
  obtain ⟨b, hb, hab⟩ := h _ _ _ ha
  exact ⟨b, hb, hab, hm _ _ _ hb⟩

/-- Both computations succeed and take the same names, and what they give passes a test. -/
def bothGive (m : Emit α) (m' : Emit β) (taken : Names) (test : α → β → Bool) : Bool :=
  match m.run taken, m'.run taken with
  | .ok (a, left), .ok (b, left') => left = left' && test a b
  | _, _ => false

/-- A check of two computations that has passed gives their results, with the same names taken. -/
theorem exists_of_bothGive {m : Emit α} {m' : Emit β} {taken : Names} {test : α → β → Bool}
    (h : bothGive m m' taken test = true) :
    ∃ a b taken', m.run taken = .ok (a, taken') ∧ m'.run taken = .ok (b, taken') ∧
      test a b = true := by
  unfold bothGive at h
  split at h
  · rename_i a left b left' hm hm'
    obtain ⟨hleft, htest⟩ := Bool.and_eq_true_iff.mp h
    obtain rfl := of_decide_eq_true hleft
    exact ⟨a, b, left, hm, hm', htest⟩
  · cases h

end ViewCompiler.Compile
