import Mathlib.Logic.Relation
import Mathlib.Order.WellFounded

namespace Raynix.Lib.WaitGraph

open Relation

variable {T L R : Type*} {held : T → L → Prop} {wants : T → Option L}

/-- A thread wants only locks that rank above those it holds. -/
def Ordered [LT R] (rank : L → R) (held : T → L → Prop) (wants : T → Option L) : Prop :=
  ∀ t l k, wants t = some l → held t k → rank k < rank l

section

variable [Preorder R] {rank : L → R}

end

end Raynix.Lib.WaitGraph
