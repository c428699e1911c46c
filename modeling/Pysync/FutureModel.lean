import Mathlib.Init

/-!
`concurrent.futures.Future` as far as the repository uses it: nobody calls
`set_running_or_notify_cancel`, so that a future is pending until it is cancelled or completed.
-/

namespace Pysync

inductive Future (E V : Type) where
  | pending
  | cancelled
  | result (v : V)
  | exception (e : E)
  deriving DecidableEq

namespace Future

variable {E V : Type}

/-- `cancel()`, and the boolean it returns. -/
def cancel : Future E V → Future E V × Bool
  | pending => (cancelled, true)
  | cancelled => (cancelled, true)
  | result v => (result v, false)
  | exception e => (exception e, false)

/-- `set_result` or `set_exception`; `none` when it raises `InvalidStateError`. -/
def complete (o : Except E V) : Future E V → Option (Future E V)
  | pending => some (match o with
      | .ok v => result v
      | .error e => exception e)
  | _ => none

def done : Future E V → Bool
  | pending => false
  | _ => true

variable {f g : Future E V} {o : Except E V}

theorem complete_done (h : f.complete o = some g) : g.done = true := by
  cases f <;> cases o <;> cases h <;> rfl

theorem done_of_complete_none (h : f.complete o = none) : f.done = true := by
  cases f <;> first | rfl | cases h

theorem complete_ne_cancelled (h : f.complete o = some g) : g ≠ .cancelled := by
  cases f <;> cases o <;> cases h <;> simp

theorem cancel_done (f : Future E V) : f.cancel.1.done = true := by
  cases f <;> rfl

end Future

end Pysync
