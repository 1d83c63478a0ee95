import EventTrace.Options.Basic
import EventTrace.Text.Quoted
import EventTrace.Text.Record
/-!
# Options — as shown to a person

Every option is shown by its stored name and its value. Of the provider and
the parties to be told, only their presence is shown.
-/

namespace EventTrace

namespace Options

/-- The options as shown to a person. -/
def describe (o : Options) : String :=
  Text.record "SessionOptions" [
    ("chunk_capacity", toString o.chunkCapacity),
    ("max_total_events", toString o.maxTotalEvents),
    ("max_total_chunks", toString o.maxTotalChunks),
    ("overflow_policy", o.policy.title),
    ("sample_every_n_global", toString o.sampleEvery),
    ("sample_every_n_by_id",
      Text.mapping (o.sampleEveryById.rows.map fun row => (toString row.1, toString row.2))),
    ("max_events_per_second", toString o.maxEventsPerSecond),
    ("enabled_categories", Text.listing (o.enabledCategories.map Text.quoted)),
    ("disabled_categories", Text.listing (o.disabledCategories.map Text.quoted)),
    ("metadata", toString o.metadata.isSome),
    ("on_overflow", toString o.tellsOverflow),
    ("on_mismatched_end", toString o.tellsMismatch)]

end Options

end EventTrace
