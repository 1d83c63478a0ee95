import EventTrace.Proofs.Depot.Bookkeeping
import Mathlib.Logic.Relation
/-!
# Depot — procedures as moves

In a turn, a session keeps its books, closes, or gives up a chunk while it is
open; a move is a turn, or a writer takes a chunk up, lets it go, or goes
away. Renting, admission and letting go come to such moves: `rentChunk_some`,
`admitEvent_false` and their neighbours say which. What one move preserves is
then shown once, whatever procedure makes it.
-/

namespace EventTrace

namespace Depot

variable {d d' e : Depot} {c x : ChunkId} {k j : CollectorId} {w v : WriterId} {s : Writer}

/-! ## Turns of a session -/

/-- What a session does on its own, one thing at a time. -/
inductive Turn (k : CollectorId) : Depot → Depot → Prop
  /-- Nothing but bookkeeping. -/
  | keep {d d' : Depot} : Agree d d' → Turn k d d'
  /-- It closes. -/
  | close (d : Depot) : Turn k d (d.close k)
  /-- While it is open, it gives up its oldest idle chunk. -/
  | evict {d d' : Depot} :
      (d.collector k).closed = false → d.evictOldest? k = some d' → Turn k d d'

/-- A session's turns, any number of them. -/
abbrev Turns (k : CollectorId) : Depot → Depot → Prop := Relation.ReflTransGen (Turn k)

/-- An eviction leaves it open whether the session is closed. -/
theorem closed_evictOldest? (h : d.evictOldest? k = some d') (j : CollectorId) :
    (d'.collector j).closed = (d.collector j).closed := by
  obtain ⟨c, pre, post, -, -, hgiven, hothers⟩ := collector_evictOldest? h
  by_cases hj : j = k
  · rw [hj, hgiven]
    rfl
  · rw [hothers j hj]

/-- Making room for a chunk is a few turns, none of which closes the session. -/
theorem turns_makeChunkRoom (n : Nat) (hopen : (d.collector k).closed = false) :
    Turns k d (makeChunkRoom n d k).2 ∧
      ((makeChunkRoom n d k).2.collector k).closed = false := by
  induction n generalizing d with
  | zero => exact ⟨.refl, hopen⟩
  | succ n ih =>
    unfold makeChunkRoom
    cases hevict : d.evictOldest? k with
    | none => exact ⟨.refl, hopen⟩
    | some d₁ =>
      have hopen₁ : (d₁.collector k).closed = false := by
        rw [closed_evictOldest? hevict, hopen]
      dsimp only
      split
      · exact ⟨.single (.evict hopen hevict), hopen₁⟩
      · exact ⟨.head (.evict hopen hevict) (ih hopen₁).1, (ih hopen₁).2⟩

/-- Room for a chunk is made, if it is said to be. -/
theorem hasChunkRoom_makeChunkRoom {n : Nat} (h : makeChunkRoom n d k = (true, d')) :
    (d'.collector k).hasChunkRoom = true := by
  induction n generalizing d with
  | zero => simp [makeChunkRoom] at h
  | succ n ih =>
    unfold makeChunkRoom at h
    split at h
    · simp at h
    · next d₁ hevict =>
      split at h
      · next hroom =>
        simp only [Prod.mk.injEq, true_and] at h
        rw [← h, hroom]
      · exact ih h

/-- **A refused rental is a few turns.** -/
theorem rentChunk_none (h : d.rentChunk k = (none, d')) : Turns k d d' := by
  unfold rentChunk at h
  split at h
  · simp only [Prod.mk.injEq, true_and] at h
    rw [← h]
  · next hopen =>
    rw [Bool.not_eq_true] at hopen
    split at h
    · simp at h
    · unfold rentAtCap at h
      split at h
      · simp only [Prod.mk.injEq, true_and] at h
        rw [← h]
        exact .single (.keep (agree_signal d k _))
      · simp only [Prod.mk.injEq, true_and] at h
        rw [← h]
        exact .tail (.single (.keep (agree_signal d k _))) (.close _)
      · have hturns := turns_makeChunkRoom (d.collector k).ledger.length hopen
        split at h
        · next thinned hroom =>
          rw [hroom] at hturns
          simp only [Prod.mk.injEq, true_and] at h
          rw [← h]
          exact hturns.1.tail (.keep (agree_signal thinned k _))
        · simp at h

/-- **A rental enters a chunk of an open session** with room for one, after
a few turns or none, and is noted. -/
theorem rentChunk_some (h : d.rentChunk k = (some c, d')) :
    ∃ d₁, Turns k d d₁ ∧ (d₁.collector k).closed = false ∧
      (d₁.collector k).hasChunkRoom = true ∧ c = (d₁.enterChunk k).1 ∧
      Agree (d₁.enterChunk k).2 d' := by
  unfold rentChunk at h
  split at h
  · simp at h
  · next hopen =>
    rw [Bool.not_eq_true] at hopen
    split at h
    · next hroom =>
      simp only [Prod.mk.injEq, Option.some.injEq] at h
      obtain ⟨rfl, rfl⟩ := h
      exact ⟨d, .refl, hopen, hroom, rfl, .refl _⟩
    · unfold rentAtCap at h
      split at h
      · simp at h
      · simp at h
      · -- at the cap chunks are given up first, which leaves the session open
        have hturns := turns_makeChunkRoom (d.collector k).ledger.length hopen
        split at h
        · simp at h
        · next thinned hroom =>
          rw [hroom] at hturns
          simp only [Prod.mk.injEq, Option.some.injEq] at h
          obtain ⟨rfl, rfl⟩ := h
          exact ⟨thinned, hturns.1, hturns.2, hasChunkRoom_makeChunkRoom hroom, rfl,
            agree_signal _ k _⟩

/-- A chunk is rented out. -/
def lend (d : Depot) (c : ChunkId) : Depot :=
  { d with rentals := d.rentals.push { chunk := c } }

theorem rent_none (h : d.rent k = (none, d')) : Turns k d d' := by
  unfold rent at h
  split at h
  · next d₁ hrent =>
    simp only [Prod.mk.injEq, true_and] at h
    exact h ▸ rentChunk_none hrent
  · simp at h

/-- **What is rented out by hand** is a chunk just entered. -/
theorem rent_some {r : RentalId} (h : d.rent k = (some r, d')) :
    ∃ d₁ d₂, Turns k d d₁ ∧ (d₁.collector k).closed = false ∧
      (d₁.collector k).hasChunkRoom = true ∧ Agree (d₁.enterChunk k).2 d₂ ∧
      r = d₂.rentals.size ∧ d' = d₂.lend (d₁.enterChunk k).1 := by
  unfold rent at h
  split at h
  · simp at h
  · next c d₂ hrent =>
    obtain ⟨d₁, hturns, hopen, hroom, rfl, hagree⟩ := rentChunk_some hrent
    simp only [Prod.mk.injEq, Option.some.injEq] at h
    exact ⟨d₁, d₂, hturns, hopen, hroom, hagree, h.1.symm, h.2.symm⟩

/-! ## Admission -/

/-- Making room is a few turns, none of which closes the session. -/
theorem turns_makeEventRoom (n : Nat) (hopen : (d.collector k).closed = false) :
    Turns k d (makeEventRoom n d k) ∧ ((makeEventRoom n d k).collector k).closed = false := by
  induction n generalizing d with
  | zero => exact ⟨.refl, hopen⟩
  | succ n ih =>
    unfold makeEventRoom
    split
    · exact ⟨.refl, hopen⟩
    · cases hevict : d.evictOldest? k with
      | none => exact ⟨.refl, hopen⟩
      | some d₁ =>
        have hopen₁ : (d₁.collector k).closed = false := by
          rw [closed_evictOldest? hevict, hopen]
        exact ⟨.head (.evict hopen hevict) (ih hopen₁).1, (ih hopen₁).2⟩

/-- **An admitted event is counted once**, after a few turns of an open
session, where the event cap leaves room, and noted. -/
theorem admitEvent_true (h : d.admitEvent k = (true, d')) :
    ∃ d₁, Turns k d d₁ ∧ (d₁.collector k).closed = false ∧
      (d₁.collector k).hasEventRoom = true ∧
      Agree (d₁.modifyCollector k Collector.countEvent) d' := by
  unfold admitEvent at h
  dsimp only at h
  split at h
  · simp at h
  · next hopen =>
    rw [Bool.not_eq_true] at hopen
    split at h
    · next hroom =>
      simp only [Prod.mk.injEq, true_and] at h
      rw [← h]
      exact ⟨d, .refl, hopen, hroom, .refl _⟩
    · split at h
      · simp at h
      · simp at h
      · -- of the policies at the cap only giving up chunks admits the event
        obtain ⟨hturns, hopen₁⟩ := turns_makeEventRoom (d.collector k).ledger.length hopen
        split at h
        · next hroom =>
          simp only [Prod.mk.injEq, true_and] at h
          rw [← h]
          exact ⟨_, hturns, hopen₁, hroom, agree_signal _ k _⟩
        · simp at h

/-- **An event that an open session does not admit is counted as lost once**,
between turns. -/
theorem admitEvent_false (h : d.admitEvent k = (false, d'))
    (hopen : (d.collector k).closed = false) :
    ∃ d₁ reason, Turns k d d₁ ∧ Turns k (d₁.recordDropped k reason) d' := by
  unfold admitEvent at h
  dsimp only at h
  rw [if_neg (by simp [hopen])] at h
  split at h
  · simp at h
  · split at h
    · simp only [Prod.mk.injEq, true_and] at h
      rw [← h]
      exact ⟨d, _, .refl, .refl⟩
    · simp only [Prod.mk.injEq, true_and] at h
      rw [← h]
      exact ⟨d, _, .refl, .single (.close _)⟩
    · split at h
      · simp at h
      · simp only [Prod.mk.injEq, true_and] at h
        rw [← h]
        exact ⟨_, _, (turns_makeEventRoom _ hopen).1, .refl⟩

/-- A closed session admits nothing and does nothing. -/
theorem admitEvent_of_closed (h : (d.collector k).closed = true) :
    d.admitEvent k = (false, d) := by
  simp [admitEvent, h]

/-! ## Moves of a depot -/

/-- A writer without a chunk takes one up that its session rents. -/
def hold (d : Depot) (w : WriterId) (k : CollectorId) : Depot :=
  (d.enterChunk k).2.modifyWriter w fun s => { s with chunk := some (d.enterChunk k).1 }

/-- A writer leaves its session. -/
def leave (d : Depot) (w : WriterId) : Depot :=
  d.modifyWriter w fun s => { s with collector := none }

/-- A writer's place is vacated. -/
def vacate (d : Depot) (w : WriterId) : Depot :=
  { d with writers := d.writers.modify w fun _ => none }

/-- What happens in a depot short of an event being written or a loss being
counted, one thing at a time. -/
inductive Move : Depot → Depot → Prop
  | turn {d d' : Depot} (k : CollectorId) : Turn k d d' → Move d d'
  /-- A writer of an open session with room for a chunk takes one up. -/
  | hold {d : Depot} {w : WriterId} {s : Writer} {k : CollectorId} :
      d.writer? w = some s → s.collector = some k → s.chunk = none →
      (d.collector k).closed = false → (d.collector k).hasChunkRoom = true →
      Move d (d.hold w k)
  /-- A writer lets its chunk go. -/
  | letGo {d : Depot} {w : WriterId} {s : Writer} {k : CollectorId} :
      d.writer? w = some s → s.collector = some k → Move d (d.letGo w k)
  /-- A writer without a chunk leaves its session. -/
  | leave {d : Depot} {w : WriterId} {s : Writer} :
      d.writer? w = some s → s.chunk = none → Move d (d.leave w)
  /-- A writer without a chunk, or without a session, is dropped. -/
  | vacate {d : Depot} {w : WriterId} {s : Writer} :
      d.writer? w = some s → s.chunk = none ∨ s.collector = none → Move d (d.vacate w)

/-- Moves of a depot, any number of them. -/
abbrev Moves : Depot → Depot → Prop := Relation.ReflTransGen Move

theorem Moves.of_turns (h : Turns k d d') : Moves d d' := by
  induction h with
  | refl => exact .refl
  | tail _ hturn ih => exact ih.tail (.turn k hturn)

theorem Moves.of_agree (h : Agree d d') : Moves d d' := .single (.turn 0 (.keep h))

/-- A writer takes its place. -/
def enlist (d : Depot) (s : Writer) : Depot := { d with writers := d.writers.push (some s) }

theorem writer?_enlist (d : Depot) (s : Writer) :
    (d.enlist s).writer? d.writers.size = some s := by
  simp [writer?, enlist]

theorem writer?_enlist_of_ne {w : WriterId} (h : w ≠ d.writers.size) (s : Writer) :
    (d.enlist s).writer? w = d.writer? w := by
  simp [writer?, enlist, Array.getElem?_push, h]

/-- **A new writer takes the next place**, attached, with no chunk and with
the tests its session asks for; the rest is bookkeeping. -/
theorem newWriter_eq (d : Depot) (k : CollectorId) (thread : Int) (name : Option String) :
    ∃ d₁, Agree d d₁ ∧
      d.newWriter k thread name = (d.writers.size, d₁.enlist
        { collector := some k, link := d.links.size, thread,
          screen := Screen.ofOptions (d.collector k).options }) := by
  have hlink : Agree d d.newLink.2 := .links d _
  have hregistered := hlink.trans (agree_registerLink _ k d.newLink.1)
  cases name with
  | none =>
    refine ⟨_, hregistered, ?_⟩
    rw [← hregistered.options k, ← hregistered.sameWriters]
    rfl
  | some name =>
    have hnamed := hregistered.trans (agree_nameThread _ k thread name)
    refine ⟨_, hnamed, ?_⟩
    rw [← hnamed.options k, ← hnamed.sameWriters]
    rfl

/-! ## Letting go -/

theorem releaseChunk_writers (d : Depot) (k : CollectorId) (c : ChunkId) :
    (d.releaseChunk k c).writers = d.writers := by
  unfold releaseChunk
  split
  · exact giveBack_writers d c
  · rfl

theorem releaseChunk_closed (d : Depot) (k j : CollectorId) (c : ChunkId) :
    ((d.releaseChunk k c).collector j).closed = (d.collector j).closed := by
  unfold releaseChunk
  split
  · simp only [collector, giveBack_collectors]
  · exact closed_markIdle d k j c

/-- A writer that let go holds no chunk, and is the same otherwise. -/
theorem writer?_letGo (hw : d.writer? w = some s) :
    (d.letGo w k).writer? w = some { s with chunk := none } := by
  unfold letGo
  cases hc : s.chunk with
  | none =>
    obtain ⟨collector, link, chunk, thread, sequence, screen⟩ := s
    subst hc
    simp [hw]
  | some c =>
    simp only [hw, Option.bind_some, hc]
    rw [writer?, releaseChunk_writers, ← writer?, writer?_modifyWriter, hw]
    rfl

theorem writer?_letGo_of_ne (h : v ≠ w) : (d.letGo w k).writer? v = d.writer? v := by
  unfold letGo
  split
  · rfl
  · rw [writer?, releaseChunk_writers, ← writer?, writer?_modifyWriter_of_ne h]

theorem closed_letGo (d : Depot) (w : WriterId) (k j : CollectorId) :
    ((d.letGo w k).collector j).closed = (d.collector j).closed := by
  unfold letGo
  split
  · rfl
  · exact releaseChunk_closed _ k j _

/-- Turns move no writer. -/
theorem Turns.writers (h : Turns k d d') : d'.writers = d.writers := by
  induction h with
  | refl => rfl
  | tail _ hstep ih =>
    rw [← ih]
    cases hstep with
    | keep hagree => exact hagree.sameWriters
    | close => rfl
    | evict _ hevict => exact writers_evictOldest? hevict

theorem Turns.writer? (h : Turns k d d') (w : WriterId) : d'.writer? w = d.writer? w := by
  rw [Depot.writer?, Depot.writer?, h.writers]

/-- Leaving and letting go may be swapped: neither asks for the other. -/
theorem letGo_leave (d : Depot) (w : WriterId) (k : CollectorId) :
    (d.leave w).letGo w k = (d.letGo w k).leave w := by
  have hreleases : ∀ (e : Depot) (c : ChunkId),
      (e.leave w).releaseChunk k c = (e.releaseChunk k c).leave w := by
    intro e c
    -- a return asks how often a chunk is referred to, and leaving changes no count
    have hrefs : (e.leave w).references c = e.references c := by
      have hfill : (e.leave w).filling c = e.filling c := filling_modifyWriter_of_eq fun _ => rfl
      rw [references_eq, references_eq, writable, writable, hfill]
      rfl
    unfold releaseChunk giveBack
    rw [hrefs]
    by_cases hclosed : (e.collector k).closed
    · by_cases hback : (e.chunk c).capacity = e.capacity ∧ e.references c = 0
      · rw [if_pos hclosed, if_pos hback]
        exact (if_pos hclosed).trans (congrArg Prod.snd (if_pos hback))
      · rw [if_pos hclosed, if_neg hback]
        exact (if_pos hclosed).trans (congrArg Prod.snd (if_neg hback))
    · rw [if_neg hclosed]
      exact if_neg hclosed
  unfold letGo
  rw [leave, writer?_modifyWriter]
  cases hw : d.writer? w with
  | none => rfl
  | some s =>
    simp only [Option.map_some, Option.bind_some]
    cases s.chunk with
    | none => rfl
    | some c =>
      -- the two changes are of two fields of one writer
      have hswap : (d.leave w).modifyWriter w (fun s => { s with chunk := none }) =
          (d.modifyWriter w fun s => { s with chunk := none }).leave w := by
        simp only [leave, modifyWriter, Depot.mk.injEq, true_and, and_true]
        rw [← Array.toList_inj, Array.toList_modify, Array.toList_modify, Array.toList_modify,
          Array.toList_modify, List.modify_modify_eq, List.modify_modify_eq]
        congr 1
        funext o
        cases o <;> rfl
      exact (congrArg (releaseChunk · k c) hswap).trans (hreleases _ c)

/-- **Detaching is a few moves.** -/
theorem moves_detach (d : Depot) (w : WriterId) : Moves d (d.detach w) := by
  unfold detach
  cases hw : d.writer? w with
  | none => exact .refl
  | some s =>
    have hclosed : Moves d (d.closeLink s.link) := .of_agree (agree_closeLink d s.link)
    dsimp only
    cases hs : s.collector with
    | none => exact hclosed
    | some k =>
      have hw' : (d.closeLink s.link).writer? w = some s := hw
      -- moves let go before they leave; detaching does it the other way
      have hletGo := hclosed.tail (.letGo (k := k) hw' hs)
      have hleave := hletGo.tail (.leave (writer?_letGo hw') rfl)
      rwa [← letGo_leave] at hleave

/-- **Dropping a writer is a few moves.** -/
theorem moves_dropWriter (d : Depot) (w : WriterId) : Moves d (d.dropWriter w) := by
  unfold dropWriter
  cases hw : d.writer? w with
  | none => exact .refl
  | some s =>
    dsimp only
    cases hs : s.collector with
    | none => exact .single (.vacate hw (.inr hs))
    | some k =>
      exact .tail (.single (.letGo hw hs)) (.vacate (writer?_letGo hw) (.inl rfl))

/-! ## Holding a chunk with room -/

theorem enterChunk_writers (d : Depot) (k : CollectorId) : (d.enterChunk k).2.writers = d.writers :=
  take_writers d

/-- The writer that takes a chunk up holds it. -/
theorem writer?_hold (hw : d.writer? w = some s) :
    (d.hold w k).writer? w = some { s with chunk := some (d.enterChunk k).1 } := by
  rw [hold, writer?_modifyWriter, writer?, enterChunk_writers, ← writer?, hw]
  rfl

theorem writer?_hold_of_ne (h : v ≠ w) : (d.hold w k).writer? v = d.writer? v := by
  rw [hold, writer?_modifyWriter_of_ne h, writer?, enterChunk_writers, ← writer?]

/-- A writer that asks its session for a chunk makes moves until it is
refused. -/
theorem moves_renewChunk_false (hw : d.writer? w = some s) (hs : s.collector = some k)
    (h : d.renewChunk w k = (false, d')) : Moves d d' := by
  unfold renewChunk at h
  split at h
  · next hrent =>
    simp only [Prod.mk.injEq, true_and] at h
    rw [← h]
    exact .head (.letGo hw hs) (Moves.of_turns (rentChunk_none hrent))
  · simp at h

/-- Granted a chunk, it has let its own go and takes the new one up. -/
theorem renewChunk_true (hw : d.writer? w = some s) (hs : s.collector = some k)
    (h : d.renewChunk w k = (true, d')) :
    ∃ d₁, Moves d d₁ ∧ d₁.writer? w = some { s with chunk := none } ∧
      (d₁.collector k).closed = false ∧ (d₁.collector k).hasChunkRoom = true ∧
      Agree (d₁.hold w k) d' := by
  unfold renewChunk at h
  split at h
  · simp at h
  · next c d₂ hrent =>
    simp only [Prod.mk.injEq, true_and] at h
    obtain ⟨d₁, hturns, hopen, hroom, rfl, hagree⟩ := rentChunk_some hrent
    refine ⟨d₁, .head (.letGo hw hs) (Moves.of_turns hturns), ?_, hopen, hroom, ?_⟩
    · rw [hturns.writer?, writer?_letGo hw]
    · rw [← h]
      exact hagree.modifyWriter_congr w _

/-- **A writer that finds no room** has made moves only. -/
theorem moves_holdRoom_false (hw : d.writer? w = some s) (hs : s.collector = some k)
    (h : d.holdRoom w k = (false, d')) : Moves d d' := by
  simp only [holdRoom, hw, Option.bind_some] at h
  split at h
  · split at h
    · exact moves_renewChunk_false hw hs h
    · simp at h
  · exact moves_renewChunk_false hw hs h

/-- **A writer that finds room** holds a chunk with room already, or has
just taken one up. -/
theorem holdRoom_true (hw : d.writer? w = some s) (hs : s.collector = some k)
    (h : d.holdRoom w k = (true, d')) :
    (∃ c, s.chunk = some c ∧ (d.chunk c).isFull = false ∧ d' = d) ∨
      ∃ d₁, Moves d d₁ ∧ d₁.writer? w = some { s with chunk := none } ∧
        (d₁.collector k).closed = false ∧ (d₁.collector k).hasChunkRoom = true ∧
        Agree (d₁.hold w k) d' := by
  simp only [holdRoom, hw, Option.bind_some] at h
  split at h
  · next c hc =>
    split at h
    · exact .inr (renewChunk_true hw hs h)
    · next hfull =>
      simp only [Prod.mk.injEq, true_and] at h
      exact .inl ⟨c, hc, by simpa using hfull, h.symm⟩
  · exact .inr (renewChunk_true hw hs h)

/-- Seeing to room is a few moves, whatever comes of it. -/
theorem moves_holdRoom (hw : d.writer? w = some s) (hs : s.collector = some k) :
    Moves d (d.holdRoom w k).2 := by
  cases hroom : d.holdRoom w k with
  | mk ok d' =>
    cases ok with
    | false => exact moves_holdRoom_false hw hs hroom
    | true =>
      rcases holdRoom_true hw hs hroom with
        ⟨c, -, -, rfl⟩ | ⟨d₁, hmoves, hw₁, hopen, hroom₁, hagree⟩
      · exact .refl
      · exact (hmoves.tail (.hold hw₁ hs rfl hopen hroom₁)).trans (Moves.of_agree hagree)

/-! ## What every move leaves alone -/

theorem size_letGo (d : Depot) (w : WriterId) (k : CollectorId) :
    (d.letGo w k).collectors.size = d.collectors.size := by
  unfold letGo releaseChunk
  split
  · rfl
  · split
    · rw [giveBack_collectors]
      rfl
    · exact Array.size_modify

/-- No move makes or takes away a collector. -/
theorem Move.size (h : Move d d') : d'.collectors.size = d.collectors.size := by
  cases h with
  | turn k ht =>
    cases ht with
    | keep hagree => exact hagree.size
    | close => exact Array.size_modify
    | evict _ hevict => exact size_evictOldest? hevict
  | hold => exact size_enterChunk d _
  | letGo => exact size_letGo d _ _
  | leave => rfl
  | vacate => rfl

theorem Moves.size (h : Moves d d') : d'.collectors.size = d.collectors.size := by
  induction h with
  | refl => rfl
  | tail _ hm ih => exact hm.size.trans ih

end Depot

end EventTrace
