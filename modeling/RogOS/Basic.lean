import Mathlib.Init

/-!
What can go wrong in a function of the kernel.
-/

namespace RogOS

inductive Fault where
  -- A failed `ASSERT` or a `PANIC`: the kernel spins for ever.
  | panic
  -- An access outside of the C object it is meant for.
  | overrun
  -- `NULL` or an object that was freed is dereferenced.
  | badPtr
  -- A loop that makes no progress.
  | hang
  deriving DecidableEq, Repr

end RogOS
