import Mathlib.Logic.Basic

/-! Computations with a state and exceptions whose outcome does not depend on the state, as long
as an invariant holds of it, and which keep the invariant. A sequence of such computations has
the outcome of the same sequence without a state. -/
namespace Outcome

variable {ε σ α β : Type} {I : σ → Prop}

/-- From any state with the invariant the computation ends as told, in a state with the invariant. -/
def Gives (I : σ → Prop) (x : ExceptT ε (StateM σ) α) (r : Except ε α) : Prop :=
  ∀ s, I s → ∃ s', x.run.run s = (r,s') ∧ I s'

theorem gives_pure (a : α) : Gives I (pure a : ExceptT ε (StateM σ) α) (.ok a) :=
  fun s hs => ⟨s,rfl,hs⟩

theorem Gives.bind {x : ExceptT ε (StateM σ) α} {f : α → ExceptT ε (StateM σ) β} {r : Except ε α}
    {g : α → Except ε β} (hx : Gives I x r) (hf : ∀ a, r = .ok a → Gives I (f a) (g a)) :
    Gives I (x >>= f) (r >>= g) := by
  intro s hs
  obtain ⟨s₁,hrun,hs₁⟩ := hx s hs
  rw [ExceptT.run_bind,StateT.run_bind,hrun]
  cases r with
  | error e => exact ⟨s₁,rfl,hs₁⟩
  | ok a => exact hf a rfl s₁ hs₁

end Outcome
