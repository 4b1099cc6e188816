import Mathlib

/-!
# Runs of a partial step function

A system is a function that takes a state and an action to the next state, or
to `none` when the action is not enabled.  A run follows a list of actions.
What holds at the start and is kept by every enabled action holds at the end,
and the rule is also stated for properties of the state and the actions taken
so far.
-/

universe u v

namespace Run

variable {σ : Type u} {α : Type v} {step : σ → α → Option σ} {s s' : σ} {as : List α} {a : α}
  {I : σ → Prop} {C : σ → α → Prop}

/-- Follow a list of actions. -/
def exec (step : σ → α → Option σ) : σ → List α → Option σ
  | s, [] => some s
  | s, a :: as => (step s a).bind fun s' => exec step s' as

@[simp] theorem exec_nil (s : σ) : exec step s [] = some s := rfl

theorem exec_cons (s : σ) (a : α) (as : List α) :
    exec step s (a :: as) = (step s a).bind fun s' => exec step s' as := rfl

theorem exec_append (s : σ) (as bs : List α) :
    exec step s (as ++ bs) = (exec step s as).bind fun s' => exec step s' bs := by
  induction as generalizing s with
  | nil => rfl
  | cons a as ih =>
      rw [List.cons_append, exec_cons, exec_cons, Option.bind_assoc]
      congr 1
      funext s'
      exact ih s'

/-- A run of one action is a step. -/
theorem exec_singleton (s : σ) (a : α) : exec step s [a] = step s a := by
  simp [exec_cons]

/-- A run that continues with one more action. -/
theorem exec_snoc {s'' : σ} (h : exec step s as = some s') (h' : step s' a = some s'') :
    exec step s (as ++ [a]) = some s'' := by
  rw [exec_append, h, Option.bind_some, exec_singleton, h']

/-! The parts of a system of fixed size have numerals as names. -/

instance neZeroOne : NeZero (1 : Nat) := ⟨Nat.one_ne_zero⟩

instance neZeroTwo : NeZero (2 : Nat) := ⟨Nat.succ_ne_zero 1⟩

instance neZeroThree : NeZero (3 : Nat) := ⟨Nat.succ_ne_zero 2⟩

/-- A run is evaluated, and its end is checked. -/
theorem exists_exec_of_check {P : σ → Prop} [DecidablePred P]
    (h : ((exec step s as).any fun s' => decide (P s')) = true) :
    ∃ s', exec step s as = some s' ∧ P s' := by
  cases he : exec step s as with
  | none => simp [he] at h
  | some s' => exact ⟨s', rfl, by simpa [he] using h⟩

/-- A property that every enabled action keeps holds along a run. -/
theorem exec_invariant (hstep : ∀ s a s', I s → step s a = some s' → I s') (h0 : I s)
    (h : exec step s as = some s') : I s' := by
  induction as generalizing s with
  | nil =>
      cases h
      exact h0
  | cons a as ih =>
      rw [exec_cons, Option.bind_eq_some_iff] at h
      obtain ⟨s₁, h1, h2⟩ := h
      exact ih (hstep s a s₁ h0 h1) h2

/-- The same rule for a property of the actions taken so far and the state. -/
theorem exec_history {I : List α → σ → Prop} (h0 : I [] s)
    (hstep : ∀ as a s₁ s₂, exec step s as = some s₁ → I as s₁ → step s₁ a = some s₂ →
      I (as ++ [a]) s₂) (h : exec step s as = some s') : I as s' := by
  induction as using List.reverseRecOn generalizing s' with
  | nil =>
      cases h
      exact h0
  | append_singleton as a ih =>
      rw [exec_append, Option.bind_eq_some_iff] at h
      obtain ⟨s₁, h1, h2⟩ := h
      rw [exec_singleton] at h2
      exact hstep as a s₁ s' h1 (ih h1) h2

/-! ## Conditions on the steps of a run -/

/-- Every step of a run is taken in a state where it meets the condition `C`. -/
def Meets (step : σ → α → Option σ) (C : σ → α → Prop) : σ → List α → Prop
  | _, [] => True
  | s, a :: as => C s a ∧ ∀ s' ∈ step s a, Meets step C s' as

instance Meets.decidable {C : σ → α → Prop} [∀ s a, Decidable (C s a)] :
    ∀ (s : σ) (as : List α), Decidable (Meets step C s as)
  | _, [] => inferInstanceAs (Decidable True)
  | s, a :: as =>
      have : DecidablePred fun s' => Meets step C s' as := fun s' => Meets.decidable s' as
      inferInstanceAs (Decidable (C s a ∧ ∀ s' ∈ step s a, Meets step C s' as))

/-- A condition on the actions of a run is met at every step. -/
theorem Meets.and_of_forall {D : α → Prop} (h : Meets step C s as) (hd : ∀ a ∈ as, D a) :
    Meets step (fun s a => C s a ∧ D a) s as := by
  induction as generalizing s with
  | nil => trivial
  | cons a as ih =>
      refine ⟨⟨h.1, hd a List.mem_cons_self⟩, fun s' hs' => ?_⟩
      exact ih (h.2 s' hs') fun b hb => hd b (List.mem_cons_of_mem _ hb)

/-- A run meets a condition if it does so up to its last step and at it. -/
theorem meets_snoc (h : exec step s as = some s') :
    Meets step C s (as ++ [a]) ↔ Meets step C s as ∧ C s' a := by
  induction as generalizing s with
  | nil =>
      cases h
      simp [Meets]
  | cons b bs ih =>
      rw [exec_cons, Option.bind_eq_some_iff] at h
      obtain ⟨s₁, h1, h2⟩ := h
      simp only [List.cons_append, Meets, h1, Option.mem_some_iff, forall_eq', ih h2, and_assoc]

/-- What holds at the start and is kept by every step that meets a condition
holds at the end of a run that meets it. -/
theorem exec_invariant_of_meets (hstep : ∀ s a s', I s → C s a → step s a = some s' → I s')
    (h0 : I s) (hm : Meets step C s as) (h : exec step s as = some s') : I s' := by
  induction as generalizing s with
  | nil =>
      cases h
      exact h0
  | cons a as ih =>
      rw [exec_cons, Option.bind_eq_some_iff] at h
      obtain ⟨s₁, h1, h2⟩ := h
      exact ih (hstep s a s₁ h0 hm.1 h1) (hm.2 s₁ h1) h2

end Run
