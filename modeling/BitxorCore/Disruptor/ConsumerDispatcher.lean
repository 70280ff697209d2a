/- GID: Disruptor/ConsumerDispatcher
   anchors: [src/bitxorcore/disruptor]
   digest: What consumers report of an element. -/

import Mathlib.Algebra.Order.Ring.Nat
import Mathlib.Data.Nat.ModEq

set_option autoImplicit false
set_option relaxedAutoImplicit false

namespace BitxorCore.Disruptors

inductive CompletionStatus
  | aborted
  | normal
  | consumed
  deriving DecidableEq, Repr

end BitxorCore.Disruptors
