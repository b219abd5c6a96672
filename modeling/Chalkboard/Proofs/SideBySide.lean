import Chalkboard.Proofs.Effects

/-! Two pieces of work done side by side, each on its own state. What the first brings about the second
brings about too, and their states stay related. Only the first one's success counts: the second may do as it
likes once the first has failed. -/

namespace Chalkboard.Effects

variable {σ α β γ δ : Type}

def Like (Q : α → β → Prop) : Except Fault α → Except Fault β → Prop
  | .ok a, .ok b => Q a b
  | .ok _, .error _ => False
  | .error _, _ => True

section Results

variable {Q : α → β → Prop} {P : γ → δ → Prop}

theorem Like.error (e : Fault) {r : Except Fault β} : Like Q (.error e : Except Fault α) r := trivial

theorem Like.same (r : Except Fault α) : Like (fun a b => b = a) r r := by
  cases r with
  | ok a => exact rfl
  | error e => exact .error e

variable {k : α → Except Fault γ} {r : Except Fault α} {r' : Except Fault β}

theorem Like.bind
    {k' : β → Except Fault δ} (h : Like Q r r')
    (hk : ∀ a b, r = .ok a → Q a b → Like P (k a) (k' b)) : Like P (r >>= k) (r' >>= k') := by
  cases r with
  | error e => exact .error e
  | ok a =>
    cases r' with
    | error e' => exact h.elim
    | ok b => exact hk a b rfl h

theorem Like.after {k' : α → Except Fault δ}
    (hk : ∀ a, r = .ok a → Like P (k a) (k' a)) : Like P (r >>= k) (r >>= k') :=
  (Like.same r).bind fun a b ha hb => by
    cases hb
    exact hk a ha

theorem Like.ite {p p' : Prop} [Decidable p] [Decidable p'] (hp : p' ↔ p) {s : Except Fault α}
    {s' : Except Fault β} (h : Like Q r r') (h' : Like Q s s') :
    Like Q (if p then r else s) (if p' then r' else s') := by
  by_cases hcase : p
  · rw [if_pos hcase, if_pos (hp.2 hcase)]
    exact h
  · rw [if_neg hcase, if_neg fun h => hcase (hp.1 h)]
    exact h'

end Results

/-- Two outcomes that go together, with the states that they leave. -/
def Together (R : σ → σ → Prop) (Q : α → β → Prop) : Except Fault α × σ → Except Fault β × σ → Prop
  | (.ok a, s), (.ok b, t) => Q a b ∧ R s t
  | (.ok _, _), (.error _, _) => False
  | (.error _, _), _ => True

/-- Work that goes along with other work, from related states. -/
def Tracks (R : σ → σ → Prop) (Q : α → β → Prop) (work : Work σ α) (work' : Work σ β) : Prop :=
  ∀ s t, R s t → Together R Q (work s) (work' t)

section Work

variable {R : σ → σ → Prop} {Q : α → β → Prop} {P : γ → δ → Prop}

theorem Together.error (e : Fault) (s : σ) {y : Except Fault β × σ} :
    Together R Q ((.error e, s) : Except Fault α × σ) y := trivial

theorem Together.of_like {r : Except Fault α} {r' : Except Fault β} (h : Like Q r r') {s t : σ}
    (hR : R s t) : Together R Q (r, s) (r', t) := by
  cases r with
  | error e => exact .error e s
  | ok a =>
    cases r' with
    | ok b => exact ⟨h, hR⟩
    | error e' => exact h

theorem Together.bind {work : Work σ α} {work' : Work σ β} {k : α → Work σ γ} {k' : β → Work σ δ} {s t : σ}
    (h : Together R Q (work s) (work' t))
    (hk : ∀ a b s₁ t₁, work s = (.ok a, s₁) → Q a b → R s₁ t₁ → Together R P (k a s₁) (k' b t₁)) :
    Together R P ((work >>= k) s) ((work' >>= k') t) := by
  rw [bind_apply, bind_apply]
  rcases hs : work s with ⟨e | a, s₁⟩
  · exact .error e s₁
  rcases ht : work' t with ⟨e' | b, t₁⟩ <;> rw [hs, ht] at h
  · exact h.elim
  · exact hk a b s₁ t₁ hs h.1 h.2

theorem bind_fails {work : Work σ α} {k : α → Work σ γ} (hk : ∀ a s, ∃ e t, k a s = (.error e, t)) (s : σ) :
    ∃ e t, (work >>= k) s = (.error e, t) := by
  rw [bind_apply]
  rcases work s with ⟨e | a, t⟩
  · exact ⟨e, t, rfl⟩
  · exact hk a t

theorem Tracks.of_fails {work : Work σ α} {work' : Work σ β}
    (hfails : ∀ s, ∃ e t, work s = (.error e, t)) : Tracks R Q work work' := by
  intro s t _
  obtain ⟨e, s', hs⟩ := hfails s
  rw [hs]
  exact .error e s'

theorem Tracks.pure {a : α} {b : β} (h : Q a b) :
    Tracks R Q (Pure.pure a : Work σ α) (Pure.pure b : Work σ β) := fun _ _ hR => ⟨h, hR⟩

theorem Tracks.lift {r : Except Fault α} {r' : Except Fault β} (h : Like Q r r') :
    Tracks R Q (liftM r : Work σ α) (liftM r' : Work σ β) := fun _ _ hR => .of_like h hR

theorem Tracks.throw (e : Fault) {work' : Work σ β} : Tracks R Q (MonadExcept.throw e : Work σ α) work' :=
  fun s _ _ => .error e s

theorem Tracks.modify {change change' : σ → σ} (h : ∀ s t, R s t → R (change s) (change' t)) :
    Tracks R (fun _ _ => True) (modify change : Work σ PUnit) (modify change' : Work σ PUnit) :=
  fun s t hR => ⟨trivial, h s t hR⟩

theorem Tracks.bind {work : Work σ α} {work' : Work σ β} {k : α → Work σ γ} {k' : β → Work σ δ}
    (h : Tracks R Q work work') (hk : ∀ a b, Q a b → Tracks R P (k a) (k' b)) :
    Tracks R P (work >>= k) (work' >>= k') :=
  fun s t hR => (h s t hR).bind fun a b s₁ t₁ _ hQ hR₁ => hk a b hQ s₁ t₁ hR₁

theorem Tracks.after {r : Except Fault α} {k : α → Work σ γ} {k' : α → Work σ δ}
    (hk : ∀ a, r = .ok a → Tracks R P (k a) (k' a)) :
    Tracks R P (liftM r >>= k) (liftM r >>= k') := by
  intro s t hR
  cases r with
  | error e => exact Together.error e s
  | ok a => exact hk a rfl s t hR

theorem Tracks.get_bind {k k' : σ → Work σ γ} {P : γ → γ → Prop}
    (hk : ∀ s t, R s t → Together R P (k s s) (k' t t)) :
    Tracks R P (get >>= k) (get >>= k') := fun s t hR => hk s t hR

end Work

end Chalkboard.Effects
