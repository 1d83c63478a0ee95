import EventTrace.Proofs.Recording.Merge
/-!
# Ties — when the stream of a capture is in key order

A thread records events with timestamps that never decrease and sequence
numbers that increase. That is an order by timestamp, and the stream keeps
it; it is not yet an order by key, since among events of one timestamp the
rank of the kind comes before the sequence number. The merge compares only
the next events of chunks, never two events of one chunk, so that the stream
is in key order exactly if no chunk has an event after one of a greater rank
at the same timestamp.
-/

namespace EventTrace

/-- Events as one thread records them. -/
def InEmissionOrder (events : List Event) : Prop :=
  (∃ thread, ∀ e ∈ events, e.thread = thread) ∧
    events.Pairwise fun a b => a.timestamp ≤ b.timestamp ∧ a.sequence < b.sequence

/-- No event after one of a greater rank at the same timestamp. -/
def TiesRanked (events : List Event) : Prop :=
  events.Pairwise fun a b => a.timestamp = b.timestamp → a.kind.rank ≤ b.kind.rank

instance (events : List Event) : Decidable (TiesRanked events) :=
  inferInstanceAs (Decidable (events.Pairwise _))

namespace InEmissionOrder

variable {events : List Event}

theorem inTimeOrder (h : InEmissionOrder events) : InTimeOrder events :=
  h.2.imp And.left

/-- On one thread, keys are in order if ties are ranked, and only then. -/
theorem inKeyOrder_iff (h : InEmissionOrder events) : InKeyOrder events ↔ TiesRanked events := by
  obtain ⟨⟨thread, hthread⟩, horder⟩ := h
  constructor
  · refine fun hkeys => hkeys.imp fun {a b} hle heq => ?_
    rcases Key.le_iff.mp hle with hlt | ⟨-, hlt | ⟨hrank, -⟩⟩
    · exact absurd heq (ne_of_lt hlt)
    · exact le_of_lt hlt
    · exact le_of_eq hrank
  · intro hties
    refine (hties.and horder).imp_of_mem fun {a b} ha hb hab => Key.le_iff.mpr ?_
    obtain ⟨hrank, htime, hsequence⟩ := hab
    refine (lt_or_eq_of_le htime).imp_right fun heq => ⟨heq, ?_⟩
    refine (lt_or_eq_of_le (hrank heq)).imp_right fun heq => ⟨heq, .inr ⟨?_, le_of_lt hsequence⟩⟩
    exact (hthread a ha).trans (hthread b hb).symm

end InEmissionOrder

namespace Recording

/-- **The stream of a capture is in time order, and in key order exactly if
every chunk's ties are ranked.** -/
theorem stream_inKeyOrder_iff (r : Recording) (h : ∀ chunk ∈ r.chunks, InEmissionOrder chunk) :
    InTimeOrder r.sortedEvents ∧
      (InKeyOrder r.sortedEvents ↔ ∀ chunk ∈ r.chunks, TiesRanked chunk) := by
  refine ⟨inTimeOrder_sortedEvents fun chunk hchunk => (h chunk hchunk).inTimeOrder, ?_, ?_⟩
  · intro hkeys chunk hchunk
    have hsub : InKeyOrder chunk := hkeys.sublist (chunk_sublist_sortedEvents hchunk)
    exact (h chunk hchunk).inKeyOrder_iff.mp hsub
  · intro hties
    exact inKeyOrder_sortedEvents fun chunk hchunk =>
      (h chunk hchunk).inKeyOrder_iff.mpr (hties chunk hchunk)

/-- Two scopes of one thread, the second opened at the tick at which the
first is closed. -/
def backToBack : Recording :=
  let scope (id timestamp sequence : Int) (kind : Kind) : Event :=
    { id, thread := 1, timestamp, kind, sequence }
  .ofEvents [scope 1 5 0 .scopeBegin, scope 1 10 1 .scopeEnd,
    scope 2 10 2 .scopeBegin, scope 2 15 3 .scopeEnd]

theorem inEmissionOrder_backToBack :
    ∀ chunk ∈ backToBack.chunks, InEmissionOrder chunk := by
  have h : (∀ chunk ∈ backToBack.chunks, ∀ e ∈ chunk, e.thread = 1) ∧
      ∀ chunk ∈ backToBack.chunks, chunk.Pairwise fun a b =>
        a.timestamp ≤ b.timestamp ∧ a.sequence < b.sequence := by decide
  exact fun chunk hchunk => ⟨⟨1, h.1 chunk hchunk⟩, h.2 chunk hchunk⟩

/-- Back to back, the end of the first scope is read before the beginning of
the second, though its key is greater. -/
theorem stream_backToBack :
    InTimeOrder backToBack.sortedEvents ∧ ¬ InKeyOrder backToBack.sortedEvents :=
  ⟨(stream_inKeyOrder_iff backToBack inEmissionOrder_backToBack).1,
    mt (stream_inKeyOrder_iff backToBack inEmissionOrder_backToBack).2.mp (by decide)⟩

/-- A capture in emission order whose stream is not in key order. -/
theorem not_inKeyOrder_backToBack :
    (∀ chunk ∈ backToBack.chunks, InEmissionOrder chunk) ∧ ¬ InKeyOrder backToBack.sortedEvents :=
  ⟨inEmissionOrder_backToBack, by decide⟩

end Recording

end EventTrace
