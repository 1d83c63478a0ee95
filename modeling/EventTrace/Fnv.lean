/-!
# Fnv — numbers for names

Category names and foreign trace ids are compared through FNV-1a numbers of
their UTF-8 bytes: start from an offset, and for each byte take the
exclusive or and multiply by a prime, in words of 32 or 64 bits. Zero keeps
a meaning of its own ("no category", "no flow"), so a hash that comes out as
zero is moved to one.
-/

namespace EventTrace

namespace Fnv

/-- The FNV-1a hash of some bytes in 32 bits. -/
def hash32 (bytes : List UInt8) : UInt32 :=
  bytes.foldl (fun h b => (h ^^^ b.toUInt32) * 0x01000193) 0x811c9dc5

/-- The FNV-1a hash of some bytes in 64 bits. -/
def hash64 (bytes : List UInt8) : UInt64 :=
  bytes.foldl (fun h b => (h ^^^ b.toUInt64) * 0x00000100000001b3) 0xcbf29ce484222325

/-- A number for use where zero is taken: zero is moved to one. -/
def avoidZero (n : Int) : Int := if n = 0 then 1 else n

theorem avoidZero_ne_zero (n : Int) : avoidZero n ≠ 0 := by
  unfold avoidZero; split <;> omega

end Fnv

/-- The number of the empty category name: "uncategorized". -/
def uncategorized : Int := 0

/-- The number a category name is compared by: its hash as a signed word,
and `uncategorized` for the empty name only. -/
def categoryNumber (name : String) : Int :=
  if name = "" then uncategorized
  else Fnv.avoidZero (Fnv.hash32 name.toUTF8.toList).toInt32.toInt

theorem categoryNumber_eq_uncategorized_iff {name : String} :
    categoryNumber name = uncategorized ↔ name = "" := by
  unfold categoryNumber
  split
  · simp [*]
  · simp [*, uncategorized, Fnv.avoidZero_ne_zero]

/-- The flow number of a foreign trace id: its hash without the sign bit,
never zero, so always usable as a flow. -/
def flowOfTraceId (traceId : String) : Int :=
  Fnv.avoidZero (Fnv.hash64 traceId.toUTF8.toList &&& 0x7fffffffffffffff).toNat

theorem flowOfTraceId_pos (traceId : String) : 0 < flowOfTraceId traceId := by
  unfold flowOfTraceId Fnv.avoidZero
  split <;> omega

end EventTrace
