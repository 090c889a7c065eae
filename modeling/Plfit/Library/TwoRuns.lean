import Mathlib

/-! # Relations between two runs

Two computations that may stop with an exception are related when they stop with the same
exception, or when both end and their values are related. The relation goes through a program
step by step.
-/
namespace TwoRuns
variable {ε α β γ δ ι : Type}

/-- The two computations stop alike, or end with related values. -/
inductive Related (R : α → β → Prop) : Except ε α → Except ε β → Prop
  | stop (e : ε) : Related R (.error e) (.error e)
  | ok {a : α} {b : β} (h : R a b) : Related R (.ok a) (.ok b)

variable {R : α → β → Prop} {S : γ → δ → Prop}

theorem Related.of_eq {x y : Except ε α} (h : x = y) : Related Eq x y := by
  subst h
  cases x with
  | error e => exact Related.stop e
  | ok a => exact Related.ok rfl

theorem Related.eq {x y : Except ε α} (h : Related Eq x y) : x = y := by
  cases h with
  | stop e => rfl
  | ok h => exact congrArg Except.ok h

theorem Related.mono {R' : α → β → Prop} {x : Except ε α} {y : Except ε β} (h : Related R x y)
    (hR : ∀ a b, R a b → R' a b) : Related R' x y := by
  cases h with
  | stop e => exact Related.stop e
  | ok h => exact Related.ok (hR _ _ h)

theorem Related.of_ok {x : Except ε α} {y : Except ε β} (h : Related R x y) {a : α}
    (hx : x = .ok a) : ∃ b, y = .ok b ∧ R a b := by
  subst hx
  cases h with
  | ok h => exact ⟨_, rfl, h⟩

theorem Related.of_ok_right {x : Except ε α} {y : Except ε β} (h : Related R x y) {b : β}
    (hy : y = .ok b) : ∃ a, x = .ok a ∧ R a b := by
  subst hy
  cases h with
  | ok h => exact ⟨_, rfl, h⟩

theorem Related.bind {x : Except ε α} {y : Except ε β} {f : α → Except ε γ} {g : β → Except ε δ}
    (h : Related R x y) (hfg : ∀ a b, R a b → Related S (f a) (g b)) :
    Related S (x >>= f) (y >>= g) := by
  cases h with
  | stop e => exact Related.stop e
  | ok h => exact hfg _ _ h

/-- The rule for a sequence whose first step is the same in both runs. -/
theorem Related.bind_left (x : Except ε α) {f : α → Except ε γ} {g : α → Except ε δ}
    (hfg : ∀ a, Related S (f a) (g a)) : Related S (x >>= f) (x >>= g) := by
  cases x with
  | error e => exact Related.stop e
  | ok a => exact hfg a

/-- The rule for a loop over a list: a step keeps the states related. -/
theorem Related.foldlM {l : List ι} {f : α → ι → Except ε α} {g : β → ι → Except ε β}
    (hstep : ∀ a b, ∀ i ∈ l, R a b → Related R (f a i) (g b i)) {a : α} {b : β} (h : R a b) :
    Related R (l.foldlM f a) (l.foldlM g b) := by
  induction l generalizing a b with
  | nil => exact Related.ok h
  | cons i l ih =>
    rw [List.foldlM_cons, List.foldlM_cons]
    apply Related.bind (hstep a b i List.mem_cons_self h)
    intro a' b' h'
    exact ih (fun a b j hj => hstep a b j (List.mem_cons_of_mem i hj)) h'

end TwoRuns
