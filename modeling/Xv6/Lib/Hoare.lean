import Mathlib

/-!
# Weakest preconditions of programs that may stop

A program reads and writes a state and either returns a value or stops with an
error.  `wp x Q E s` says that `x`, run in the state `s`, returns a value and a
state that meet `Q`, or stops with an error that meets `E`.  A specification that
holds for every `E` says that the program does not stop.  The rules below take a
program apart at its binds.
-/

namespace Hoare

/-- A program over the states `σ` that may stop with an error. -/
abbrev Prog (σ ε α : Type) := StateT σ (Except ε) α

variable {σ τ ε α β : Type}

/-- The weakest precondition of a program for a postcondition and a condition on
the error it may stop with. -/
def wp (x : Prog σ ε α) (Q : α → σ → Prop) (E : ε → Prop) (s : σ) : Prop :=
  match x s with
  | .ok (a, s') => Q a s'
  | .error e => E e

variable {x : Prog σ ε α} {f : α → Prog σ ε β} {Q Q' : α → σ → Prop} {E E' : ε → Prop} {s s' : σ}
  {a : α} {e : ε} {R : PUnit → σ → Prop} {c : Prop}

theorem wp_ok (hx : x s = .ok (a, s')) : wp x Q E s ↔ Q a s' := by
  rw [wp, hx]

theorem wp_error (hx : x s = .error e) : wp x Q E s ↔ E e := by
  rw [wp, hx]

instance wp.decidable [∀ a s', Decidable (Q a s')] [∀ e, Decidable (E e)] :
    Decidable (wp x Q E s) :=
  match hx : x s with
  | .ok (a, s') => decidable_of_iff (Q a s') (wp_ok hx).symm
  | .error e => decidable_of_iff (E e) (wp_error hx).symm

/-- A weaker postcondition and a weaker condition on the error. -/
theorem wp.imp (h : wp x Q E s) (hq : ∀ a s', Q a s' → Q' a s') (he : ∀ e, E e → E' e) :
    wp x Q' E' s := by
  cases hx : x s with
  | error e => exact (wp_error hx).mpr (he _ ((wp_error hx).mp h))
  | ok r => exact (wp_ok hx).mpr (hq _ _ ((wp_ok hx).mp h))

/-- A weaker postcondition. -/
theorem wp.mono (h : wp x Q E s) (hq : ∀ a s', Q a s' → Q' a s') : wp x Q' E s :=
  h.imp hq fun _ he => he

/-- Two specifications of one run. -/
theorem wp.both (h : wp x Q E s) (h' : wp x Q' E' s) :
    wp x (fun a s' => Q a s' ∧ Q' a s') (fun e => E e ∧ E' e) s := by
  cases hx : x s with
  | error e => exact (wp_error hx).mpr ⟨(wp_error hx).mp h, (wp_error hx).mp h'⟩
  | ok r => exact (wp_ok hx).mpr ⟨(wp_ok hx).mp h, (wp_ok hx).mp h'⟩

/-- Two postconditions of one run. -/
theorem wp.and (h : wp x Q E s) (h' : wp x Q' E s) : wp x (fun a s' => Q a s' ∧ Q' a s') E s :=
  (h.both h').imp (fun _ _ hq => hq) fun _ he => he.1

/-- A second postcondition, for the runs that return. -/
theorem wp.and_returns (h : wp x Q E s) (h' : wp x Q' (fun _ => True) s) :
    wp x (fun a s' => Q a s' ∧ Q' a s') E s :=
  (h.both h').imp (fun _ _ hq => hq) fun _ he => he.1

/-- The run that a postcondition is about. -/
theorem wp.run (h : wp x Q E s) : wp x (fun a s' => Q a s' ∧ x s = .ok (a, s')) E s := by
  cases hx : x s with
  | error e => exact (wp_error hx).mpr ((wp_error hx).mp h)
  | ok r => exact (wp_ok hx).mpr ⟨(wp_ok hx).mp h, rfl⟩

theorem wp.of_ok (h : wp x Q (fun _ => False) s) (hx : x s = .ok (a, s')) : Q a s' :=
  (wp_ok hx).mp h

/-- A program that stops with no error returns. -/
theorem wp.returns (h : wp x Q (fun _ => False) s) : ∃ a s', x s = .ok (a, s') ∧ Q a s' := by
  cases hx : x s with
  | error e => exact ((wp_error hx).mp h).elim
  | ok r => exact ⟨r.1, r.2, rfl, (wp_ok hx).mp h⟩

/-- The run of a bind whose first part returns. -/
theorem bind_of_ok (hx : x s = .ok (a, s')) : (x >>= f) s = f a s' := by
  show (x s >>= fun r => f r.1 r.2) = f a s'
  rw [hx]
  rfl

/-- The run of a bind whose first part stops. -/
theorem bind_of_error (hx : x s = .error e) : (x >>= f) s = .error e := by
  show (x s >>= fun r => f r.1 r.2) = .error e
  rw [hx]
  rfl

@[simp] theorem wp_pure (a : α) : wp (pure a : Prog σ ε α) Q E s ↔ Q a s := Iff.rfl

@[simp] theorem wp_bind {R : β → σ → Prop} :
    wp (x >>= f) R E s ↔ wp x (fun a => wp (f a) R E) E s := by
  show (match (x s >>= fun r => f r.1 r.2) with
    | .ok (b, s') => R b s'
    | .error e => E e) ↔ _
  cases hx : x s with
  | error e => rw [wp_error hx]; rfl
  | ok r => rw [wp_ok hx]; rfl

@[simp] theorem wp_get {R : σ → σ → Prop} : wp (get : Prog σ ε σ) R E s ↔ R s s := Iff.rfl

@[simp] theorem wp_set (s' : σ) :
    wp (set s' : Prog σ ε PUnit) R E s ↔ R ⟨⟩ s' := Iff.rfl

@[simp] theorem wp_modify (g : σ → σ) :
    wp (modify g : Prog σ ε PUnit) R E s ↔ R ⟨⟩ (g s) := Iff.rfl

/-- Run a program under a condition. -/
def whenever (c : Prop) [Decidable c] (x : Prog σ ε Unit) : Prog σ ε Unit :=
  if c then x else pure ()

theorem wp_whenever_pos [Decidable c] {x : Prog σ ε Unit} {R : Unit → σ → Prop} (h : c) :
    wp (whenever c x) R E s ↔ wp x R E s := by
  rw [whenever, if_pos h]

theorem wp_whenever_neg [Decidable c] {x : Prog σ ε Unit} {R : Unit → σ → Prop} (h : ¬ c) :
    wp (whenever c x) R E s ↔ R () s := by
  rw [whenever, if_neg h, wp_pure]

/-- Run a program on a part of the state. -/
def zoom (get : σ → τ) (set : σ → τ → σ) (x : Prog τ ε α) : Prog σ ε α := fun s =>
  match x (get s) with
  | .ok (a, t) => .ok (a, set s t)
  | .error e => .error e

@[simp] theorem wp_zoom {get : σ → τ} {set : σ → τ → σ} {x : Prog τ ε α} :
    wp (zoom get set x) Q E s ↔ wp x (fun a t => Q a (set s t)) E (get s) := by
  cases hx : x (get s) with
  | error e => rw [wp_error hx, wp_error (by rw [zoom, hx])]
  | ok r => rw [wp_ok hx, wp_ok (by rw [zoom, hx])]

/-! ## Programs that keep to a relation -/

/-- Every run that returns ends in a state that `R` relates to the first one. -/
def Within (R : σ → σ → Prop) (x : Prog σ ε α) : Prop :=
  ∀ s, wp x (fun _ s' => R s s') (fun _ => True) s

section Within

variable {R : σ → σ → Prop}

theorem Within.pure [Std.Refl R] (a : α) : Within R (pure a : Prog σ ε α) := fun s => refl_of R s

theorem Within.get [Std.Refl R] : Within R (get : Prog σ ε σ) := fun s => refl_of R s

theorem Within.throw (e : ε) : Within R (throw e : Prog σ ε α) := fun _ => trivial

theorem Within.bind [IsTrans σ R] (hx : Within R x) (hf : ∀ a, Within R (f a)) :
    Within R (x >>= f) := by
  intro s
  rw [wp_bind]
  refine (hx s).mono fun a s₁ h₁ => ?_
  exact (hf a s₁).mono fun _ _ h₂ => trans_of R h₁ h₂

theorem Within.whenever [Std.Refl R] {c : Prop} [Decidable c] {x : Prog σ ε Unit}
    (hx : Within R x) : Within R (whenever c x) := by
  unfold Hoare.whenever
  split
  · exact hx
  · exact .pure ()

end Within

end Hoare
