/-!
# Losses — what a capture did not keep

Whatever a capture turns away or gives up is counted by its cause, and the
first overflow of a cap or a rate raises a flag that stays up.
-/

namespace EventTrace

/-- Counts of what was not kept. -/
structure Losses where
  /-- Events refused at a cap or given up with their chunk. -/
  droppedEvents : Nat := 0
  /-- Chunks given up to make room. -/
  droppedChunks : Nat := 0
  /-- Events left out by sampling. -/
  sampledOut : Nat := 0
  /-- Events beyond a thread's rate. -/
  rateLimited : Nat := 0
  /-- Whether a cap or a rate was ever reached. -/
  overflowed : Bool := false
deriving DecidableEq, Repr, Inhabited

end EventTrace
