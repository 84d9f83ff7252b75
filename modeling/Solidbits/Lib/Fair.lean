import Mathlib.Data.List.Basic
import Mathlib.Data.Nat.Init

namespace Transition

section Forever

variable {σ ι : Type} (next : σ → ι → σ)

end Forever

section Fairness

variable {waiting served helps : Nat → Prop}

end Fairness

end Transition
