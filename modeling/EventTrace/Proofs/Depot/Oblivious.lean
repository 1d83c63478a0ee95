import EventTrace.Proofs.Depot.Writing
/-!
# Depot — what writers' tests have no say in

Only a write asks its writer's tests, and all it takes from them is a verdict.
Everything else a depot does is the same whatever the tests of its writers are:
a procedure on the depot with other tests (`withScreens`) gives what it gives on
the depot, and leaves the depot that it leaves, with those other tests. One
lemma says so of each procedure, and no later proof unfolds them again.
-/

namespace EventTrace

/-- The writer with other tests. -/
def Writer.withScreen (s : Writer) (screen : Screen) : Writer := { s with screen }

section

variable (s : Writer) (screen : Screen)

@[simp] theorem Writer.collector_withScreen : (s.withScreen screen).collector = s.collector := rfl

@[simp] theorem Writer.link_withScreen : (s.withScreen screen).link = s.link := rfl

@[simp] theorem Writer.chunk_withScreen : (s.withScreen screen).chunk = s.chunk := rfl

@[simp] theorem Writer.thread_withScreen : (s.withScreen screen).thread = s.thread := rfl

@[simp] theorem Writer.sequence_withScreen : (s.withScreen screen).sequence = s.sequence := rfl

end

namespace Depot

/-- The depot with other tests for its writers. -/
def withScreens (d : Depot) (screens : WriterId → Screen) : Depot :=
  { d with writers := d.writers.mapIdx fun w s => s.map (·.withScreen (screens w)) }

variable (d : Depot) (screens : WriterId → Screen) (k : CollectorId) (w : WriterId) (c : ChunkId)

/-! ## Looking up -/

theorem capacity_withScreens : (d.withScreens screens).capacity = d.capacity := rfl

theorem free_withScreens : (d.withScreens screens).free = d.free := rfl

theorem collector_withScreens : (d.withScreens screens).collector k = d.collector k := rfl

theorem chunk_withScreens : (d.withScreens screens).chunk c = d.chunk c := rfl

theorem isWriterClosed_withScreens (s : Writer) (screen : Screen) :
    (d.withScreens screens).isWriterClosed (s.withScreen screen) = d.isWriterClosed s := rfl

theorem size_writers_withScreens : (d.withScreens screens).writers.size = d.writers.size :=
  Array.size_mapIdx

theorem getElem?_withScreens (v : WriterId) : (d.withScreens screens).writers[v]? =
    d.writers[v]?.map (Option.map (·.withScreen (screens v))) := Array.getElem?_mapIdx

theorem writer?_withScreens :
    (d.withScreens screens).writer? w = (d.writer? w).map (·.withScreen (screens w)) := by
  rw [writer?, writer?, getElem?_withScreens]
  cases d.writers[w]? <;> rfl

variable {d screens} in
/-- What differs from a depot by the tests of its writers. -/
theorem eq_withScreens {e : Depot} (hrest : e = { d with writers := e.writers })
    (hwriters : ∀ v : WriterId,
      e.writers[v]? = d.writers[v]?.map (Option.map (Writer.withScreen · (screens v)))) :
    e = d.withScreens screens := by
  have hsame : e.writers = (d.withScreens screens).writers := by
    refine Array.ext_getElem? fun v => ?_
    rw [hwriters, getElem?_withScreens]
  rw [hrest, hsame]
  rfl

/-- The tests that were given last are those there are. -/
theorem withScreens_withScreens (later : WriterId → Screen) :
    (d.withScreens screens).withScreens later = d.withScreens later := by
  refine eq_withScreens rfl fun v => ?_
  rw [getElem?_withScreens, getElem?_withScreens]
  rcases d.writers[v]? with - | - | s <;> rfl

/-- A writer's tests are bookkeeping. -/
theorem alike_withScreens : Alike d (d.withScreens screens) := by
  refine { Alike.refl d with writers := Array.ext_getElem? fun v => ?_ }
  rw [Array.getElem?_map, Array.getElem?_map, getElem?_withScreens]
  rcases d.writers[v]? with - | - | s <;> rfl

theorem references_withScreens : (d.withScreens screens).references c = d.references c :=
  (alike_withScreens d screens).references c

/-! ## Changing one place -/

theorem modifyCollector_withScreens (f : Collector → Collector) :
    (d.withScreens screens).modifyCollector k f = (d.modifyCollector k f).withScreens screens := rfl

theorem note_withScreens (n : Notice) :
    (d.withScreens screens).note n = (d.note n).withScreens screens := rfl

theorem modifyWriter_withScreens {f : Writer → Writer}
    (hf : ∀ s screen, f (s.withScreen screen) = (f s).withScreen screen) :
    (d.withScreens screens).modifyWriter w f = (d.modifyWriter w f).withScreens screens := by
  refine eq_withScreens rfl fun v => ?_
  simp only [modifyWriter, Array.getElem?_modify, getElem?_withScreens]
  split
  · rcases d.writers[v]? with - | - | s
    · rfl
    · rfl
    · exact congrArg (fun s => some (some s)) (hf s (screens v))
  · rfl

/-- A writer is given tests of its own. -/
theorem rescreen_withScreens (screen : Screen) : (d.withScreens screens).rescreen w screen =
    d.withScreens (Function.update screens w screen) := by
  refine eq_withScreens rfl fun v => ?_
  simp only [rescreen, modifyWriter, Array.getElem?_modify, getElem?_withScreens]
  split
  · next hv =>
    subst hv
    rw [Function.update_self]
    rcases d.writers[w]? with - | - | s <;> rfl
  · next hv => rw [Function.update_of_ne (Ne.symm hv)]

/-! ## The free list -/

theorem take_withScreens :
    (d.withScreens screens).take = (d.take.1, d.take.2.withScreens screens) := by
  unfold take
  rw [free_withScreens]
  split <;> rfl

theorem giveBack_withScreens : (d.withScreens screens).giveBack c =
    ((d.giveBack c).1, (d.giveBack c).2.withScreens screens) := by
  unfold giveBack
  rw [references_withScreens, chunk_withScreens, capacity_withScreens]
  split <;> rfl

/-! ## Tallies -/

theorem signal_withScreens (reason : Reason) :
    (d.withScreens screens).signal k reason = (d.signal k reason).withScreens screens := by
  unfold signal
  dsimp only
  rw [collector_withScreens]
  split <;> rfl

theorem recordDropped_withScreens (reason : Reason) :
    (d.withScreens screens).recordDropped k reason =
      (d.recordDropped k reason).withScreens screens := by
  rw [recordDropped, modifyCollector_withScreens, signal_withScreens]
  rfl

theorem recordRateLimited_withScreens :
    (d.withScreens screens).recordRateLimited k =
      (d.recordRateLimited k).withScreens screens := by
  rw [recordRateLimited, modifyCollector_withScreens, signal_withScreens]
  rfl

/-! ## Eviction -/

theorem evictOldest?_withScreens : (d.withScreens screens).evictOldest? k =
    (d.evictOldest? k).map (·.withScreens screens) := by
  unfold evictOldest?
  rw [collector_withScreens]
  split
  · rfl
  · dsimp only
    rw [modifyCollector_withScreens, note_withScreens, giveBack_withScreens]
    rfl

theorem makeChunkRoom_withScreens (n : Nat) : makeChunkRoom n (d.withScreens screens) k =
    ((makeChunkRoom n d k).1, (makeChunkRoom n d k).2.withScreens screens) := by
  induction n generalizing d with
  | zero => rfl
  | succ n ih =>
    unfold makeChunkRoom
    rw [evictOldest?_withScreens]
    cases d.evictOldest? k with
    | none => rfl
    | some evicted =>
      dsimp only [Option.map_some]
      rw [collector_withScreens, ih]
      split <;> rfl

theorem makeEventRoom_withScreens (n : Nat) : makeEventRoom n (d.withScreens screens) k =
    (makeEventRoom n d k).withScreens screens := by
  induction n generalizing d with
  | zero => rfl
  | succ n ih =>
    unfold makeEventRoom
    rw [evictOldest?_withScreens, collector_withScreens]
    split
    · rfl
    · cases d.evictOldest? k with
      | none => rfl
      | some evicted => exact ih evicted

/-! ## Chunks and events -/

theorem enterChunk_withScreens : (d.withScreens screens).enterChunk k =
    ((d.enterChunk k).1, (d.enterChunk k).2.withScreens screens) := by
  unfold enterChunk
  rw [take_withScreens]
  rfl

theorem rentAtCap_withScreens : (d.withScreens screens).rentAtCap k =
    ((d.rentAtCap k).1, (d.rentAtCap k).2.withScreens screens) := by
  unfold rentAtCap
  rw [collector_withScreens, signal_withScreens, makeChunkRoom_withScreens]
  split
  · rfl
  · rfl
  · rcases makeChunkRoom (d.collector k).ledger.length d k with ⟨made, thinned⟩
    cases made with
    | false => exact congrArg (Prod.mk none) (signal_withScreens thinned screens k _)
    | true =>
      dsimp only
      rw [enterChunk_withScreens, signal_withScreens]

theorem rentChunk_withScreens : (d.withScreens screens).rentChunk k =
    ((d.rentChunk k).1, (d.rentChunk k).2.withScreens screens) := by
  unfold rentChunk
  rw [collector_withScreens, enterChunk_withScreens, rentAtCap_withScreens]
  split
  · rfl
  · split <;> rfl

theorem releaseChunk_withScreens : (d.withScreens screens).releaseChunk k c =
    (d.releaseChunk k c).withScreens screens := by
  unfold releaseChunk
  rw [collector_withScreens, giveBack_withScreens]
  split <;> rfl

theorem admitEvent_withScreens : (d.withScreens screens).admitEvent k =
    ((d.admitEvent k).1, (d.admitEvent k).2.withScreens screens) := by
  unfold admitEvent
  dsimp only
  rw [collector_withScreens, recordDropped_withScreens, makeEventRoom_withScreens,
    collector_withScreens, modifyCollector_withScreens]
  split
  · rfl
  · split
    · rfl
    · split
      · rfl
      · rfl
      · rw [modifyCollector_withScreens, signal_withScreens, recordDropped_withScreens]
        split <;> rfl

/-! ## Coming and going -/

theorem nameThread_withScreens (thread : Int) (name : String) :
    (d.withScreens screens).nameThread k thread name =
      (d.nameThread k thread name).withScreens screens := by
  unfold nameThread
  split <;> rfl

theorem closeLink_withScreens (l : LinkId) :
    (d.withScreens screens).closeLink l = (d.closeLink l).withScreens screens := rfl

theorem closeWriters_withScreens : (d.withScreens screens).closeWriters k =
    ((d.closeWriters k).1, (d.closeWriters k).2.withScreens screens) := by
  have hclose : ∀ (links : List LinkId) (d : Depot),
      links.foldl closeLink (d.withScreens screens) =
        (links.foldl closeLink d).withScreens screens := by
    intro links
    induction links with
    | nil => exact fun _ => rfl
    | cons l links ih => exact fun d => ih (d.closeLink l)
  unfold closeWriters
  dsimp only
  rw [collector_withScreens, hclose]
  rfl

theorem letGo_withScreens :
    (d.withScreens screens).letGo w k = (d.letGo w k).withScreens screens := by
  unfold letGo
  rw [writer?_withScreens]
  rcases d.writer? w with - | s
  · rfl
  · rw [Option.map_some, Option.bind_some, Option.bind_some, Writer.chunk_withScreen]
    cases s.chunk with
    | none => rfl
    | some c =>
      dsimp only
      rw [modifyWriter_withScreens _ _ _ fun _ _ => rfl, releaseChunk_withScreens]

theorem detach_withScreens :
    (d.withScreens screens).detach w = (d.detach w).withScreens screens := by
  unfold detach
  rw [writer?_withScreens]
  cases d.writer? w with
  | none => rfl
  | some s =>
    rw [Option.map_some]
    dsimp only
    rw [Writer.collector_withScreen, Writer.link_withScreen, closeLink_withScreens]
    cases s.collector with
    | none => rfl
    | some k =>
      dsimp only
      rw [modifyWriter_withScreens _ _ _ fun _ _ => rfl, letGo_withScreens]

/-- A place is empty whatever tests were in it. -/
theorem vacate_withScreens :
    (d.withScreens screens).vacate w = (d.vacate w).withScreens screens := by
  refine eq_withScreens rfl fun v => ?_
  simp only [vacate, Array.getElem?_modify, getElem?_withScreens]
  split
  · rcases d.writers[v]? with - | - | s <;> rfl
  · rfl

theorem dropWriter_withScreens :
    (d.withScreens screens).dropWriter w = (d.dropWriter w).withScreens screens := by
  unfold dropWriter
  rw [writer?_withScreens]
  cases d.writer? w with
  | none => rfl
  | some s =>
    rw [Option.map_some]
    dsimp only
    rw [Writer.collector_withScreen]
    cases s.collector with
    | none => exact vacate_withScreens d screens w
    | some k =>
      dsimp only
      rw [letGo_withScreens]
      exact vacate_withScreens (d.letGo w k) screens w

/-- Who comes keeps its own tests. -/
theorem enlist_withScreens (s : Writer) : (d.withScreens screens).enlist s =
    (d.enlist s).withScreens (Function.update screens d.writers.size s.screen) := by
  refine eq_withScreens rfl fun v => ?_
  simp only [enlist, Array.getElem?_push, getElem?_withScreens, size_writers_withScreens]
  split
  · next hv =>
    subst hv
    rw [Function.update_self]
    rfl
  · next hv => rw [Function.update_of_ne hv]

/-- **A writer that comes has the tests its session asks for**, and all others
have those they had. -/
theorem newWriter_withScreens (thread : Int) (name : Option String) :
    (d.withScreens screens).newWriter k thread name =
      ((d.newWriter k thread name).1, (d.newWriter k thread name).2.withScreens
        (Function.update screens d.writers.size (Screen.ofOptions (d.collector k).options))) := by
  have henlist : ∀ {named : Depot}, Agree d named → ∀ s : Writer,
      s.screen = Screen.ofOptions (named.collector k).options →
      ((named.withScreens screens).writers.size, (named.withScreens screens).enlist s) =
        (named.writers.size, (named.enlist s).withScreens
          (Function.update screens d.writers.size (Screen.ofOptions (d.collector k).options))) := by
    intro named hagree s hs
    rw [enlist_withScreens, size_writers_withScreens, hs, hagree.options, hagree.sameWriters]
  have hlink : Agree d d.newLink.2 := .links d _
  have hregistered := hlink.trans (agree_registerLink _ k d.newLink.1)
  cases name with
  | none => exact henlist hregistered _ rfl
  | some name =>
    have hnamed : ((d.withScreens screens).newLink.2.registerLink k
        (d.withScreens screens).newLink.1).nameThread k thread name =
          ((d.newLink.2.registerLink k d.newLink.1).nameThread k thread name).withScreens screens :=
      nameThread_withScreens (d.newLink.2.registerLink k d.newLink.1) screens k thread name
    unfold newWriter
    dsimp only
    rw [hnamed]
    exact henlist (hregistered.trans (agree_nameThread _ k thread name)) _ rfl

/-! ## Writing and freezing -/

theorem renewChunk_withScreens : (d.withScreens screens).renewChunk w k =
    ((d.renewChunk w k).1, (d.renewChunk w k).2.withScreens screens) := by
  unfold renewChunk
  rw [letGo_withScreens, rentChunk_withScreens]
  rcases (d.letGo w k).rentChunk k with ⟨- | c, d'⟩
  · rfl
  · exact congrArg (Prod.mk true) (modifyWriter_withScreens d' screens w fun _ _ => rfl)

theorem holdRoom_withScreens : (d.withScreens screens).holdRoom w k =
    ((d.holdRoom w k).1, (d.holdRoom w k).2.withScreens screens) := by
  unfold holdRoom
  rw [writer?_withScreens, renewChunk_withScreens]
  rcases d.writer? w with - | s
  · rfl
  · rw [Option.map_some, Option.bind_some, Option.bind_some, Writer.chunk_withScreen]
    cases s.chunk with
    | none => rfl
    | some c =>
      dsimp only
      rw [chunk_withScreens]
      split <;> rfl

theorem append_withScreens (e : Emission) (stamp : Int) :
    (d.withScreens screens).append w e stamp =
      ((d.append w e stamp).1, (d.append w e stamp).2.withScreens screens) := by
  unfold append
  rw [writer?_withScreens]
  cases d.writer? w with
  | none => rfl
  | some s =>
    rw [Option.map_some]
    dsimp only
    rw [Writer.chunk_withScreen, Writer.thread_withScreen, Writer.sequence_withScreen]
    cases s.chunk with
    | none => rfl
    | some c =>
      dsimp only
      rw [modifyWriter_withScreens _ _ _ fun _ _ => rfl]
      rfl

theorem place_withScreens (e : Emission) (stamp : Int) :
    (d.withScreens screens).place w k e stamp =
      ((d.place w k e stamp).1, (d.place w k e stamp).2.withScreens screens) := by
  unfold place
  rw [holdRoom_withScreens]
  rcases d.holdRoom w k with ⟨- | -, d₁⟩
  · exact congrArg (Prod.mk false) (recordDropped_withScreens d₁ screens k _)
  · dsimp only
    rw [admitEvent_withScreens]
    rcases d₁.admitEvent k with ⟨- | -, d₂⟩
    · rfl
    · exact append_withScreens d₂ screens w e stamp

theorem freezeEntries_withScreens (entries : List LedgerEntry) (frozen : Frozen) :
    freezeEntries k entries frozen (d.withScreens screens) =
      ((freezeEntries k entries frozen d).1,
        (freezeEntries k entries frozen d).2.withScreens screens) := by
  induction entries generalizing frozen d with
  | nil => rfl
  | cons entry rest ih =>
    have hgive := giveBack_withScreens (d.modifyCollector k fun s => { s with ledger := rest })
      screens entry.chunk
    unfold freezeEntries
    dsimp only
    rw [chunk_withScreens, modifyCollector_withScreens, hgive]
    rcases (d.modifyCollector k fun s => { s with ledger := rest }).giveBack entry.chunk with
      ⟨- | -, d'⟩
    · exact ih d' _
    · exact ih d' _

theorem freeze_withScreens : (d.withScreens screens).freeze k =
    ((d.freeze k).1, (d.freeze k).2.withScreens screens) := by
  unfold freeze
  rw [collector_withScreens, freezeEntries_withScreens]
  rfl

end Depot

end EventTrace
