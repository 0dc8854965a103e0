import Vxldollar.Agreement

/-!
# The walk with buffers of any capacity

The loop of the bounded processor can only go on for ever at a checkpoint that is
confirmed and was not erased: with no receive left, `get_next_block` returns it
again and again. A checkpoint is stored when as many receives wait for a block as the
buffer holds, so what the loop depends on is how deep the receives are nested where
a block is itself taken for a receive.
-/

namespace Vxldollar.Capacity
open Blocks Store Vxldollar.Lattice Runs Cementing Sources Traces CementingRuns Nesting Bounded
  BoundedReturns DeepLedger

variable {C : Constants} {U : Set Hashables} {L : Ledger} {h : BlockHash} {cap : ℕ}

end Vxldollar.Capacity
