/-!
Behaviour of foreign code: a tree of requests, each followed by what the code does with the answer,
that ends with a result on every path.
-/
namespace AccelHost

/-- Code that makes requests `ω`, gets answers `ρ` and ends with an `α`. -/
inductive Code (ω ρ α : Type) where
  | done (result : α)
  | ask (request : ω) (next : ρ → Code ω ρ α)

namespace Code

variable {ω ρ α β : Type}

protected def bind : Code ω ρ α → (α → Code ω ρ β) → Code ω ρ β
  | done a, f => f a
  | ask request next, f => ask request fun reply => (next reply).bind f

instance : Monad (Code ω ρ) where
  pure := done
  bind := Code.bind

/-- What code comes to in a monad that answers its requests. -/
def run {m : Type → Type} [Monad m] (answer : ω → m ρ) : Code ω ρ α → m α
  | done a => pure a
  | ask request next => do (next (← answer request)).run answer

end Code

end AccelHost
