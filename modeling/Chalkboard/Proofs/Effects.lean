import Chalkboard.Fault

/-! Work on a state that can fail, as a function: what each way of putting such work together does to
the state. Every step of a run, every allocation and every reading of a type is of this form. -/

namespace Chalkboard.Effects

variable {σ α β : Type}

abbrev Work (σ α : Type) := ExceptT Fault (StateM σ) α

theorem bind_apply (m : Work σ α) (k : α → Work σ β) (s : σ) :
    (m >>= k) s = match m s with
      | (.ok a, s') => k a s'
      | (.error e, s') => (.error e, s') := by
  change (ExceptT.bindCont k (m s).1) (m s).2 = _
  rcases m s with ⟨_ | _, s'⟩ <;> rfl

variable {b : β} {m : Work σ α} {s : σ}

theorem bind_ok {k : α → Work σ β} {s' : σ}
    (h : (m >>= k) s = (.ok b, s')) : ∃ a s₁, m s = (.ok a, s₁) ∧ k a s₁ = (.ok b, s') := by
  rw [bind_apply] at h
  rcases hm : m s with ⟨_ | a, s₁⟩
  · rw [hm] at h
    cases h
  · rw [hm] at h
    exact ⟨a, s₁, rfl, h⟩

theorem except_bind_ok {x : Except Fault α} {f : α → Except Fault β}
    (h : (x >>= f) = .ok b) : ∃ a, x = .ok a ∧ f a = .ok b := by
  cases x with
  | error e => cases h
  | ok a => exact ⟨a, rfl, h⟩

theorem except_ok_bind (a : α) (f : α → Except Fault β) : (Except.ok a >>= f) = f a := rfl

theorem liftMisuse_ok {x : Except Misuse α} {a : α} (h : liftMisuse x = .ok a) : x = .ok a := by
  cases x with
  | error e => cases h
  | ok b => cases h; rfl

/-- Whether work ends well from a state, with a result and a state that pass a check. -/
def passes (m : Work σ α) (s : σ) (check : α → σ → Bool) : Bool :=
  match m s with
  | (.ok a, s') => check a s'
  | (.error _, _) => false

theorem of_passes {check : α → σ → Bool} (h : passes m s check = true) :
    ∃ a s', m s = (.ok a, s') ∧ check a s' = true := by
  rw [passes] at h
  split at h
  · rename_i a s' hm
    exact ⟨a, s', hm, h⟩
  · cases h

/-- Whether work fails from a state, with a fault and a state that pass a check. -/
def fails (m : Work σ α) (s : σ) (check : Fault → σ → Bool) : Bool :=
  match m s with
  | (.ok _, _) => false
  | (.error e, s') => check e s'

theorem of_fails {check : Fault → σ → Bool} (h : fails m s check = true) :
    ∃ e s', m s = (.error e, s') ∧ check e s' = true := by
  rw [fails] at h
  split at h
  · cases h
  · rename_i e s' hm
    exact ⟨e, s', hm, h⟩

theorem pure_apply (a : α) (s : σ) : (pure a : Work σ α) s = (.ok a, s) := rfl

theorem get_apply (s : σ) : (get : Work σ σ) s = (.ok s, s) := rfl

theorem set_apply (t s : σ) : (set t : Work σ PUnit) s = (.ok ⟨⟩, t) := rfl

theorem modify_apply (g : σ → σ) (s : σ) : (modify g : Work σ PUnit) s = (.ok ⟨⟩, g s) := rfl

theorem throw_apply (e : Fault) (s : σ) : (throw e : Work σ α) s = (.error e, s) := rfl

theorem lift_apply (r : Except Fault α) (s : σ) : (liftM r : Work σ α) s = (r, s) := rfl

theorem lift_bind_ok {r : Except Fault α} {k : α → Work σ β} {s' : σ}
    (h : ((liftM r : Work σ α) >>= k) s = (.ok b, s')) : ∃ a, r = .ok a ∧ k a s = (.ok b, s') := by
  obtain ⟨a, s₁, hr, h⟩ := bind_ok h
  rw [lift_apply, Prod.mk.injEq] at hr
  exact ⟨a, hr.1, hr.2 ▸ h⟩

/-- What holds of plain results and of one piece of work after another holds of a list of pieces. -/
theorem mapM_keeps {M : Type → Type} [Monad M] [LawfulMonad M] (P : ∀ γ : Type, M γ → Prop)
    (hpure : ∀ {γ : Type} (c : γ), P γ (pure c))
    (hbind : ∀ {γ δ : Type} {work : M γ} {k : γ → M δ}, P γ work → (∀ c, P δ (k c)) → P δ (work >>= k))
    {f : α → M β} {xs : List α} (h : ∀ x ∈ xs, P β (f x)) : P (List β) (xs.mapM f) := by
  induction xs with
  | nil => exact hpure _
  | cons x xs ih =>
    rw [List.mapM_cons]
    refine hbind (h x List.mem_cons_self) fun _ => hbind (ih fun y hy => ?_) fun _ => hpure _
    exact h y (List.mem_cons_of_mem _ hy)

section Faults

variable {ε : Type} {Q : ε → Prop} {P : Fault → Prop}

/-- A result that is there, or a fault of some kind. -/
def FailsAs (Q : ε → Prop) (r : Except ε α) : Prop := ∀ e, r = .error e → Q e

theorem FailsAs.ok (a : α) : FailsAs Q (.ok a) := by
  intro e h
  cases h

theorem FailsAs.error {e : ε} (h : Q e) : FailsAs Q (.error e : Except ε α) := by
  intro e' he
  cases he
  exact h

theorem FailsAs.bind {r : Except ε α} {k : α → Except ε β} (h : FailsAs Q r)
    (hk : ∀ a, r = .ok a → FailsAs Q (k a)) : FailsAs Q (r >>= k) := by
  cases r with
  | error e => exact .error (h e rfl)
  | ok a => exact hk a rfl

theorem FailsAs.map {r : Except ε α} {f : α → β} (h : FailsAs Q r) : FailsAs Q (r.map f) := by
  cases r with
  | error e => exact .error (h e rfl)
  | ok a => exact .ok (f a)

theorem FailsAs.ite {p : Prop} [Decidable p] {r r' : Except Fault α} (h : FailsAs P r)
    (h' : FailsAs P r') : FailsAs P (if p then r else r') := by
  split
  · exact h
  · exact h'

theorem FailsAs.mapM {f : α → Except Fault β} {xs : List α} (h : ∀ x ∈ xs, FailsAs P (f x)) :
    FailsAs P (xs.mapM f) :=
  mapM_keeps (fun _ => FailsAs P) .ok (fun hw hk => hw.bind fun a _ => hk a) h

theorem FailsAs.forM {f : α → Except Fault Unit} {xs : List α}
    (h : ∀ x ∈ xs, FailsAs P (f x)) : FailsAs P (xs.forM f) := by
  induction xs with
  | nil => exact .ok ()
  | cons x xs ih =>
    exact (h x List.mem_cons_self).bind fun _ _ => ih fun y hy => h y (List.mem_cons_of_mem _ hy)

theorem FailsAs.bind_apply {m : Work σ α} {k : α → Work σ β} {s : σ} (h : FailsAs P (m s).1)
    (hk : ∀ a s', m s = (.ok a, s') → FailsAs P (k a s').1) : FailsAs P ((m >>= k) s).1 := by
  rw [Effects.bind_apply]
  rcases hm : m s with ⟨e | a, s'⟩
  · rw [hm] at h
    exact .error (h e rfl)
  · exact hk a s' hm

def WorkFailsAs (P : Fault → Prop) (m : Work σ α) : Prop := ∀ s, FailsAs P (m s).1

theorem WorkFailsAs.pure (a : α) : WorkFailsAs P (Pure.pure a : Work σ α) := fun _ => .ok a

theorem WorkFailsAs.modify (g : σ → σ) : WorkFailsAs P (modify g : Work σ PUnit) := fun _ => .ok _

theorem WorkFailsAs.throw {e : Fault} (h : P e) : WorkFailsAs P (throw e : Work σ α) := fun _ => .error h

theorem WorkFailsAs.lift {r : Except Fault α} (h : FailsAs P r) :
    WorkFailsAs P (liftM r : Work σ α) := fun _ => h

theorem WorkFailsAs.bind {m : Work σ α} {k : α → Work σ β} (h : WorkFailsAs P m)
    (hk : ∀ a, WorkFailsAs P (k a)) : WorkFailsAs P (m >>= k) :=
  fun s => (h s).bind_apply fun a s' _ => hk a s'

theorem WorkFailsAs.get_bind {k : σ → Work σ β} (hk : ∀ s, WorkFailsAs P (k s)) :
    WorkFailsAs P (get >>= k) := fun s => hk s s

theorem WorkFailsAs.ite {p : Prop} [Decidable p] {m m' : Work σ α} (h : WorkFailsAs P m)
    (h' : WorkFailsAs P m') : WorkFailsAs P (if p then m else m') := by
  split
  · exact h
  · exact h'

end Faults

end Chalkboard.Effects
