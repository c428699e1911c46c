import Mathlib.Init

/-! Exceptions raised into Python, and the result of a call that may raise one. -/

namespace Pysync

inductive PyErr where
  | valueError (msg : String)
  | runtimeError (msg : String)
  | typeError (msg : String)
  | timeoutError (msg : String)
  | attributeError (msg : String)
  /-- `concurrent.futures.InvalidStateError`. -/
  | invalidState
  | stopIteration
  /-- A Rust panic, which the caller sees as PyO3's `PanicException`. -/
  | panic
  /-- An exception raised by code of the user that the call runs. -/
  | user
  deriving DecidableEq, Repr

/-- `PyResult<T>`. -/
abbrev PyResult (α : Type) := Except PyErr α

end Pysync
