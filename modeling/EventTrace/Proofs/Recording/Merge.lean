import EventTrace.Proofs.Recording.Keys
import Mathlib.Algebra.BigOperators.Group.Finset.Piecewise
import Mathlib.Algebra.Order.Group.Multiset
import Mathlib.Data.List.GetD
/-!
# Merge — what a reading in time order hands out

A reading is known by what is left of each chunk (`left`). One step takes
the first event of one of these lists, and no list begins with a lesser key
(`Draws`, `Sound.next?`). `Reads` is a whole reading, each event with the
chunk it came from; what holds of the stream is proved by induction on it:
every chunk's events come out in their order, the count of what is still to
come is exact, and an order that every chunk is in is an order of the
stream.
-/

namespace EventTrace

namespace Merge

variable {m m' : Merge} {chunks : List (List Event)} {i j : Nat} {c : Cursor} {e : Event}

/-! ## What is left of a chunk -/

theorem eventAt?_eq : eventAt? chunks i j = (chunks.getD i [])[j]? := by
  rw [eventAt?, List.getD_eq_getElem?_getD]
  cases chunks[i]? <;> rfl

theorem cursorAt?_eq_some :
    cursorAt? chunks i j = some c ↔ ∃ e, (chunks.getD i [])[j]? = some e ∧ ⟨e.key, i, j⟩ = c := by
  rw [cursorAt?, eventAt?_eq, Option.map_eq_some_iff]

/-- The cursors stand in different chunks, each at an event that has the
cursor's key. -/
structure Sound (m : Merge) : Prop where
  distinct : (m.queue.map Cursor.chunk).Nodup
  stands : ∀ c ∈ m.queue, cursorAt? m.chunks c.chunk c.index = some c

/-- What is left of a chunk: nothing, if no cursor stands in it. -/
def left (m : Merge) (i : Nat) : List Event :=
  match m.queue.find? (·.chunk == i) with
  | none => []
  | some c => (m.chunks.getD i []).drop c.index

theorem left_of_absent (h : ∀ c ∈ m.queue, c.chunk ≠ i) : m.left i = [] := by
  have hnone : m.queue.find? (·.chunk == i) = none := by
    simpa only [List.find?_eq_none, beq_iff_eq] using h
  rw [left, hnone]

theorem Sound.left_of_mem (hs : m.Sound) (hc : c ∈ m.queue) :
    m.left c.chunk = (m.chunks.getD c.chunk []).drop c.index := by
  rw [left]
  cases hfind : m.queue.find? (·.chunk == c.chunk) with
  | none => exact absurd (List.find?_eq_none.mp hfind c hc) (by simp)
  | some d =>
    have hd := List.mem_of_find?_eq_some hfind
    have heq : d.chunk = c.chunk := eq_of_beq (List.find?_some hfind :)
    rw [List.inj_on_of_nodup_map hs.distinct hd hc heq]

/-- A chunk's cursor has its next event's key. -/
theorem Sound.left_eq_cons (hs : m.Sound) (hc : c ∈ m.queue) :
    ∃ e, eventAt? m.chunks c.chunk c.index = some e ∧ e.key = c.key ∧
      m.left c.chunk = e :: (m.chunks.getD c.chunk []).drop (c.index + 1) := by
  obtain ⟨e, hget, heq⟩ := cursorAt?_eq_some.mp (hs.stands c hc)
  refine ⟨e, eventAt?_eq.trans hget, congrArg Cursor.key heq, ?_⟩
  rw [hs.left_of_mem hc, List.drop_eq_getElem?_toList_append, hget]
  rfl

/-- What has an event left has a cursor. -/
theorem Sound.exists_cursor (hs : m.Sound) {es : List Event} (h : m.left i = e :: es) :
    ∃ c ∈ m.queue, c.chunk = i ∧ c.key = e.key := by
  by_cases hex : ∃ c ∈ m.queue, c.chunk = i
  · obtain ⟨c, hc, rfl⟩ := hex
    obtain ⟨x, -, hkey, hleft⟩ := hs.left_eq_cons hc
    rw [h] at hleft
    exact ⟨c, hc, rfl, (List.cons.inj hleft).1 ▸ hkey.symm⟩
  · push Not at hex
    rw [left_of_absent hex] at h
    cases h

/-! ## Before the first step -/

theorem sound_start (chunks : List (List Event)) : (start chunks).Sound where
  distinct := by
    refine List.Nodup.of_map id ?_
    rw [List.map_id, start, List.map_filterMap]
    refine (List.nodup_range (n := chunks.length)).filterMap fun i i' b hi hi' => ?_
    obtain ⟨c, hc, rfl⟩ := Option.map_eq_some_iff.mp hi
    obtain ⟨c', hc', heq⟩ := Option.map_eq_some_iff.mp hi'
    obtain ⟨_, -, rfl⟩ := cursorAt?_eq_some.mp hc
    obtain ⟨_, -, rfl⟩ := cursorAt?_eq_some.mp hc'
    exact heq.symm
  stands := by
    intro c hc
    obtain ⟨i, -, hi⟩ := List.mem_filterMap.mp hc
    obtain ⟨_, -, rfl⟩ := cursorAt?_eq_some.mp hi
    exact hi

theorem left_start (chunks : List (List Event)) (i : Nat) :
    (start chunks).left i = chunks.getD i [] := by
  cases hcursor : cursorAt? chunks i 0 with
  | some c =>
    obtain ⟨e, hget, rfl⟩ := cursorAt?_eq_some.mp hcursor
    have hi : i < chunks.length := by
      by_contra hi
      rw [List.getD_eq_default _ _ (Nat.le_of_not_lt hi)] at hget
      cases hget
    exact (sound_start chunks).left_of_mem (c := ⟨e.key, i, 0⟩)
      (List.mem_filterMap.mpr ⟨i, List.mem_range.mpr hi, hcursor⟩)
  | none =>
    rw [cursorAt?, Option.map_eq_none_iff, eventAt?_eq, List.getElem?_eq_none_iff, Nat.le_zero,
      List.length_eq_zero_iff] at hcursor
    rw [hcursor, left_of_absent]
    intro c hc
    obtain ⟨i', -, hi'⟩ := List.mem_filterMap.mp hc
    obtain ⟨e, hget, rfl⟩ := cursorAt?_eq_some.mp hi'
    rintro rfl
    rw [hcursor] at hget
    cases hget

/-! ## One step -/

/-- A step from one reading to another that hands out an event of a chunk. -/
structure Draws (m : Merge) (i : Nat) (e : Event) (m' : Merge) : Prop where
  next?_eq : m.next? = some (e, m')
  sound : m'.Sound
  left_eq : m.left i = e :: m'.left i
  left_of_ne : ∀ j, j ≠ i → m'.left j = m.left j
  /-- No chunk has an event with a lesser key next, nor one further to the
  front an event with as great a key. -/
  least : ∀ j x xs, m.left j = x :: xs → e.key < x.key ∨ e.key = x.key ∧ i ≤ j
  remaining_eq : m.remaining = m'.remaining + 1

/-- Moving a cursor on keeps the reading sound. -/
theorem Sound.advance (hs : m.Sound) {others : List Cursor}
    (hqueue : m.queue.Perm (c :: others)) : (m.advance c others).Sound := by
  have hdistinct : (c.chunk :: others.map Cursor.chunk).Nodup :=
    (hqueue.map Cursor.chunk).nodup_iff.mp hs.distinct
  have hothers : ∀ d ∈ others, cursorAt? m.chunks d.chunk d.index = some d := fun d hd =>
    hs.stands d (hqueue.mem_iff.mpr (List.mem_cons_of_mem c hd))
  rw [Merge.advance]
  cases hnext : cursorAt? m.chunks c.chunk (c.index + 1) with
  | none => exact ⟨hdistinct.of_cons, hothers⟩
  | some d =>
    obtain ⟨_, -, rfl⟩ := cursorAt?_eq_some.mp hnext
    refine ⟨hdistinct, fun d hd => ?_⟩
    rcases List.mem_cons.mp hd with rfl | hd
    · exact hnext
    · exact hothers d hd

/-- The chunk of a cursor that moved on has lost one event. -/
theorem Sound.left_advance (hs : m.Sound) {others : List Cursor}
    (hqueue : m.queue.Perm (c :: others)) :
    (m.advance c others).left c.chunk = (m.chunks.getD c.chunk []).drop (c.index + 1) := by
  have hs' := hs.advance hqueue
  have hdistinct : (c.chunk :: others.map Cursor.chunk).Nodup :=
    (hqueue.map Cursor.chunk).nodup_iff.mp hs.distinct
  cases hnext : cursorAt? m.chunks c.chunk (c.index + 1) with
  | some d =>
    have hd : d ∈ (m.advance c others).queue := by
      rw [Merge.advance, hnext]
      exact List.mem_cons_self
    obtain ⟨_, -, rfl⟩ := cursorAt?_eq_some.mp hnext
    exact hs'.left_of_mem hd
  | none =>
    have hqueue' : (m.advance c others).queue = others := by rw [Merge.advance, hnext]; rfl
    rw [cursorAt?, Option.map_eq_none_iff, eventAt?_eq, List.getElem?_eq_none_iff] at hnext
    rw [List.drop_eq_nil_of_le hnext, left_of_absent]
    intro d hd heq
    rw [hqueue'] at hd
    exact (List.nodup_cons.mp hdistinct).1 (heq ▸ List.mem_map_of_mem hd)

/-- Every other chunk has lost nothing. -/
theorem Sound.left_advance_of_ne (hs : m.Sound) {others : List Cursor}
    (hqueue : m.queue.Perm (c :: others)) (hne : j ≠ c.chunk) :
    (m.advance c others).left j = m.left j := by
  by_cases hex : ∃ d ∈ others, d.chunk = j
  · obtain ⟨d, hd, rfl⟩ := hex
    rw [(hs.advance hqueue).left_of_mem (List.mem_append_right _ hd),
      hs.left_of_mem (hqueue.mem_iff.mpr (List.mem_cons_of_mem c hd))]
    rfl
  · push Not at hex
    rw [left_of_absent, left_of_absent]
    · intro d hd
      rcases List.mem_cons.mp (hqueue.mem_iff.mp hd) with rfl | hd
      · exact hne.symm
      · exact hex d hd
    · intro d hd
      rcases List.mem_append.mp hd with hd | hd
      · obtain ⟨_, -, rfl⟩ := cursorAt?_eq_some.mp (Option.mem_toList.mp hd)
        exact hne.symm
      · exact hex d hd

/-- What is still to come is what a cursor has ahead of it, and what the
others have. -/
theorem remaining_eq_add {others : List Cursor} (hqueue : m.queue.Perm (c :: others)) :
    m.remaining = m.ahead c + { m with queue := others }.remaining := by
  have : LeftCommutative fun (c : Cursor) n => m.ahead c + n :=
    ⟨fun _ _ _ => Nat.add_left_comm ..⟩
  exact hqueue.foldr_eq 0

/-- A cursor that moved on has what is left of its chunk ahead of it. -/
theorem remaining_advance (m : Merge) (c : Cursor) (others : List Cursor) :
    (m.advance c others).remaining =
      ((m.chunks.getD c.chunk []).drop (c.index + 1)).length +
        { m with queue := others }.remaining := by
  rw [advance, List.length_drop]
  cases hnext : cursorAt? m.chunks c.chunk (c.index + 1) with
  | some d =>
    obtain ⟨_, -, rfl⟩ := cursorAt?_eq_some.mp hnext
    rfl
  | none =>
    rw [cursorAt?, Option.map_eq_none_iff, eventAt?_eq, List.getElem?_eq_none_iff] at hnext
    rw [Nat.sub_eq_zero_of_le hnext, Nat.zero_add]
    rfl

/-- **A step hands out the least of the chunks' next events.** It is taken
off the front of its chunk, the other chunks are left as they were, and one
event fewer is to come. Only a reading with nothing left has no step. -/
theorem Sound.next? (hs : m.Sound) :
    (m.queue = [] ∧ m.next? = none) ∨ ∃ i e m', m.Draws i e m' := by
  cases hleast : Cursor.takeLeast m.queue with
  | none =>
    refine .inl ⟨Cursor.takeLeast_eq_none.mp hleast, ?_⟩
    rw [Merge.next?, hleast]
    rfl
  | some taken =>
    obtain ⟨c, others⟩ := taken
    obtain ⟨hqueue, hle⟩ := Cursor.takeLeast_spec hleast
    have hc : c ∈ m.queue := hqueue.mem_iff.mpr List.mem_cons_self
    obtain ⟨e, hevent, hkey, hleft⟩ := hs.left_eq_cons hc
    refine .inr ⟨c.chunk, e, m.advance c others, ?_, hs.advance hqueue, ?_,
      fun j => hs.left_advance_of_ne hqueue, fun j x xs hj => ?_, ?_⟩
    · simp only [Merge.next?, hleast, Option.bind_some, hevent, Option.map_some]
    · rw [hleft, hs.left_advance hqueue]
    · obtain ⟨d, hd, rfl, hdkey⟩ := hs.exists_cursor hj
      rw [hkey, ← hdkey]
      rcases List.mem_cons.mp (hqueue.mem_iff.mp hd) with rfl | hd
      · exact .inr ⟨rfl, le_rfl⟩
      · exact Cursor.key_le (hle d hd)
    · have hahead : m.ahead c = ((m.chunks.getD c.chunk []).drop (c.index + 1)).length + 1 := by
        rw [ahead, ← List.length_drop, ← hs.left_of_mem hc, hleft, List.length_cons]
      rw [remaining_eq_add hqueue, remaining_advance, hahead]
      omega

/-! ## Whole readings -/

/-- A reading to its end, each event with the chunk it came from. -/
inductive Reads : Merge → List (Nat × Event) → Prop
  /-- Nothing is left. -/
  | done {m : Merge} (hqueue : m.queue = []) (hnext : m.next? = none) : Reads m []
  /-- One event, then the rest. -/
  | draw {m m' : Merge} {i : Nat} {e : Event} {drawn : List (Nat × Event)}
    (hdraws : m.Draws i e m') (hrest : Reads m' drawn) : Reads m ((i, e) :: drawn)

/-- Every sound reading comes to its end. -/
theorem Sound.reads (hs : m.Sound) : ∃ drawn, m.Reads drawn := by
  induction hn : m.remaining generalizing m with
  | zero =>
    rcases hs.next? with ⟨hqueue, hnext⟩ | ⟨i, e, m', hdraws⟩
    · exact ⟨[], .done hqueue hnext⟩
    · have := hdraws.remaining_eq
      omega
  | succ n ih =>
    rcases hs.next? with ⟨hqueue, hnext⟩ | ⟨i, e, m', hdraws⟩
    · exact ⟨[], .done hqueue hnext⟩
    · have := hdraws.remaining_eq
      obtain ⟨drawn, hrest⟩ := ih hdraws.sound (by omega)
      exact ⟨(i, e) :: drawn, .draw hdraws hrest⟩

/-- The events that came from a chunk, in the order in which they came. -/
def fromChunk (i : Nat) (drawn : List (Nat × Event)) : List Event :=
  (drawn.filter (·.1 == i)).map Prod.snd

theorem mem_fromChunk {drawn : List (Nat × Event)} : e ∈ fromChunk i drawn ↔ (i, e) ∈ drawn := by
  simp [fromChunk]

/-- What came from one chunk is part of what came. -/
theorem fromChunk_sublist (i : Nat) (drawn : List (Nat × Event)) :
    (fromChunk i drawn).Sublist (drawn.map Prod.snd) :=
  List.filter_sublist.map Prod.snd

/-- The reading after a number of further steps. -/
def after : Nat → Merge → Merge
  | 0, m => m
  | n + 1, m =>
    match m.next? with
    | none => m
    | some (_, m') => after n m'

namespace Reads

variable {drawn : List (Nat × Event)}

/-- The count of what is still to come is exact. -/
theorem remaining_eq (h : m.Reads drawn) : m.remaining = drawn.length := by
  induction h with
  | done hqueue => rw [remaining, hqueue]; rfl
  | draw hdraws _ ih => rw [hdraws.remaining_eq, ih, List.length_cons]

/-- The stream is what is read, in order. -/
theorem toList_eq (h : m.Reads drawn) : m.toList = drawn.map Prod.snd := by
  rw [toList, h.remaining_eq]
  induction h with
  | done => rfl
  | draw hdraws _ ih => simp only [List.length_cons, take, hdraws.next?_eq, ih, List.map_cons]

/-- The next event is the first that is read. -/
theorem next?_eq (h : m.Reads drawn) : m.next?.map Prod.fst = drawn.head?.map Prod.snd := by
  cases h with
  | done _ hnext => rw [hnext]; rfl
  | draw hdraws => rw [hdraws.next?_eq]; rfl

/-- Each chunk's events come in their order. -/
theorem fromChunk_eq (h : m.Reads drawn) (i : Nat) : fromChunk i drawn = m.left i := by
  induction h with
  | done hqueue => rw [left_of_absent (by simp [hqueue])]; rfl
  | @draw m m' j e drawn hdraws _ ih =>
    rw [fromChunk, List.filter_cons]
    split
    · next heq =>
      obtain rfl : j = i := eq_of_beq heq
      rw [hdraws.left_eq, ← ih]
      rfl
    · next hne => exact ih.trans (hdraws.left_of_ne i fun heq => hne (beq_iff_eq.mpr heq.symm))

/-- After a number of steps, what is read is the rest. -/
theorem after (h : m.Reads drawn) (n : Nat) : (after n m).Reads (drawn.drop n) := by
  induction n generalizing m drawn with
  | zero => exact h
  | succ n ih =>
    cases h with
    | done hqueue hnext =>
      rw [Merge.after, hnext]
      exact .done hqueue hnext
    | draw hdraws hrest =>
      rw [Merge.after, hdraws.next?_eq]
      exact ih hrest

/-- **An order of every chunk is an order of the stream**, if it is an order
of what comes next in different chunks. -/
theorem pairwise {R : Nat × Event → Nat × Event → Prop}
    (htrans : ∀ a b c, R a b → R b c → R a c)
    (hkey : ∀ i e j x, (e.key < x.key ∨ e.key = x.key ∧ i ≤ j) → R (i, e) (j, x))
    (h : m.Reads drawn) (hleft : ∀ i, (m.left i).Pairwise fun e x => R (i, e) (i, x)) :
    drawn.Pairwise R := by
  induction h with
  | done => exact .nil
  | @draw m m' i e drawn hdraws hrest ih =>
    have hhere : (e :: m'.left i).Pairwise fun e x => R (i, e) (i, x) :=
      hdraws.left_eq ▸ hleft i
    refine List.pairwise_cons.mpr ⟨fun b hb => ?_, ih fun j => ?_⟩
    · obtain ⟨j, x⟩ := b
      have hx : x ∈ m'.left j := hrest.fromChunk_eq j ▸ mem_fromChunk.mpr hb
      by_cases hj : j = i
      · subst hj
        exact (List.pairwise_cons.mp hhere).1 x hx
      · -- The event drawn is at most the first of the other chunk, which
        -- is at most whatever follows it there.
        rw [hdraws.left_of_ne j hj] at hx
        cases hrow : m.left j with
        | nil => rw [hrow] at hx; cases hx
        | cons y ys =>
          have hey : R (i, e) (j, y) := hkey i e j y (hdraws.least j y ys hrow)
          have hys := List.pairwise_cons.mp (hrow ▸ hleft j)
          rw [hrow] at hx
          rcases List.mem_cons.mp hx with rfl | hx
          · exact hey
          · exact htrans _ _ _ hey (hys.1 x hx)
    · by_cases hj : j = i
      · subst hj
        exact (List.pairwise_cons.mp hhere).2
      · exact hdraws.left_of_ne j hj ▸ hleft j

end Reads

/-! ## Chunks taken together -/

/-- What came from the chunks together is what came. -/
theorem sum_fromChunk {drawn : List (Nat × Event)} {n : Nat} (h : ∀ p ∈ drawn, p.1 < n) :
    ∑ i ∈ Finset.range n, (fromChunk i drawn : Multiset Event) = drawn.map Prod.snd := by
  induction drawn with
  | nil => exact Finset.sum_const_zero
  | cons p drawn ih =>
    have hp := h p List.mem_cons_self
    have hcons : ∀ i, (fromChunk i (p :: drawn) : Multiset Event) =
        (if p.1 = i then {p.2} else 0) + fromChunk i drawn := by
      intro i
      rw [fromChunk, List.filter_cons]
      by_cases hi : p.1 = i <;> simp [hi, fromChunk]
    simp only [hcons, Finset.sum_add_distrib, Finset.sum_ite_eq, Finset.mem_range, if_pos hp,
      ih fun q hq => h q (List.mem_cons_of_mem p hq), List.map_cons]
    rfl

theorem sum_chunks (chunks : List (List Event)) :
    ∑ i ∈ Finset.range chunks.length, (chunks.getD i [] : Multiset Event) = chunks.flatten := by
  induction chunks with
  | nil => rfl
  | cons events chunks ih =>
    rw [List.length_cons, Finset.sum_range_succ', List.flatten_cons, ← Multiset.coe_add, ← ih,
      add_comm]
    rfl

/-- A reading with nothing left stays so, and any other goes on. -/
theorem Reads.next?_eq_none {drawn : List (Nat × Event)} (h : m.Reads drawn) :
    m.next? = none ↔ drawn = [] := by
  cases h with
  | done _ hnext => exact iff_of_true hnext rfl
  | draw hdraws =>
    exact iff_of_false (hdraws.next?_eq ▸ Option.some_ne_none _) (List.cons_ne_nil _ _)

end Merge

/-! ## The stream of a recording -/

/-- Events whose keys never decrease. -/
def InKeyOrder (events : List Event) : Prop := events.Pairwise fun a b => a.key ≤ b.key

/-- Events whose timestamps never decrease. -/
def InTimeOrder (events : List Event) : Prop :=
  events.Pairwise fun a b => a.timestamp ≤ b.timestamp

instance (events : List Event) : Decidable (InKeyOrder events) :=
  inferInstanceAs (Decidable (events.Pairwise _))

instance (events : List Event) : Decidable (InTimeOrder events) :=
  inferInstanceAs (Decidable (events.Pairwise _))

namespace Recording

variable {r : Recording} {drawn : List (Nat × Event)}

theorem exists_reads (r : Recording) : ∃ drawn, r.merge.Reads drawn :=
  (Merge.sound_start r.chunks).reads

theorem fromChunk_reads (h : r.merge.Reads drawn) (i : Nat) :
    Merge.fromChunk i drawn = r.chunks.getD i [] :=
  (h.fromChunk_eq i).trans (Merge.left_start r.chunks i)

/-- The stream has the recording's events, each as often as it was recorded. -/
theorem sortedEvents_perm (r : Recording) : r.sortedEvents.Perm r.events := by
  obtain ⟨drawn, h⟩ := r.exists_reads
  have hchunk : ∀ p ∈ drawn, p.1 < r.chunks.length := by
    intro p hp
    by_contra hlen
    have hmem : p.2 ∈ Merge.fromChunk p.1 drawn := Merge.mem_fromChunk.mpr hp
    rw [fromChunk_reads h, List.getD_eq_default _ _ (Nat.le_of_not_lt hlen)] at hmem
    cases hmem
  refine Multiset.coe_eq_coe.mp ?_
  rw [sortedEvents, h.toList_eq, ← Merge.sum_fromChunk hchunk, events, ← Merge.sum_chunks]
  exact Finset.sum_congr rfl fun i _ => by rw [fromChunk_reads h]

/-- Every chunk's events are in the stream in their order. -/
theorem chunk_sublist_sortedEvents {chunk : List Event} (h : chunk ∈ r.chunks) :
    chunk.Sublist r.sortedEvents := by
  obtain ⟨drawn, hreads⟩ := r.exists_reads
  obtain ⟨i, hi, rfl⟩ := List.getElem_of_mem h
  rw [sortedEvents, hreads.toList_eq, ← List.getD_eq_getElem r.chunks [] hi,
    ← fromChunk_reads hreads i]
  exact Merge.fromChunk_sublist i drawn

/-- What every chunk is, what is left of it before the first step is. -/
theorem left_merge {P : List Event → Prop} (hnil : P []) (h : ∀ chunk ∈ r.chunks, P chunk)
    (i : Nat) : P (r.merge.left i) := by
  rw [merge, Merge.left_start]
  by_cases hi : i < r.chunks.length
  · rw [List.getD_eq_getElem r.chunks [] hi]
    exact h _ (List.getElem_mem hi)
  · rwa [List.getD_eq_default _ _ (Nat.le_of_not_lt hi)]

/-- Chunks in key order are read in key order, and events with equal keys in
the order of their chunks. -/
theorem reads_inKeyOrder (h : r.merge.Reads drawn)
    (hchunks : ∀ chunk ∈ r.chunks, InKeyOrder chunk) :
    drawn.Pairwise fun a b => a.2.key < b.2.key ∨ a.2.key = b.2.key ∧ a.1 ≤ b.1 := by
  refine h.pairwise (fun a b c hab hbc => ?_) (fun _ _ _ _ => id) fun i => ?_
  · rcases hab with hab | ⟨hab, hle⟩
    · exact .inl (hbc.elim hab.trans fun hbc => hbc.1 ▸ hab)
    · exact hbc.imp (hab ▸ ·) fun hbc => ⟨hab.trans hbc.1, hle.trans hbc.2⟩
  · refine (left_merge (P := InKeyOrder) .nil hchunks i).imp fun hle => ?_
    exact (lt_or_eq_of_le hle).imp_right fun heq => ⟨heq, le_rfl⟩

theorem inKeyOrder_sortedEvents (hchunks : ∀ chunk ∈ r.chunks, InKeyOrder chunk) :
    InKeyOrder r.sortedEvents := by
  obtain ⟨drawn, h⟩ := r.exists_reads
  rw [sortedEvents, h.toList_eq, InKeyOrder, List.pairwise_map]
  exact (reads_inKeyOrder h hchunks).imp fun hle => hle.elim le_of_lt fun heq => le_of_eq heq.1

/-- Chunks in time order are read in time order, whatever their kinds. -/
theorem inTimeOrder_sortedEvents (hchunks : ∀ chunk ∈ r.chunks, InTimeOrder chunk) :
    InTimeOrder r.sortedEvents := by
  obtain ⟨drawn, h⟩ := r.exists_reads
  rw [sortedEvents, h.toList_eq, InTimeOrder, List.pairwise_map]
  refine h.pairwise (fun a b c => le_trans) (fun i e j x hle => ?_) fun i =>
    left_merge (P := InTimeOrder) .nil hchunks i
  exact Key.timestamp_le (hle.elim le_of_lt fun heq => le_of_eq heq.1)

/-- **The merge is faithful.** The stream has every event of the recording
once, each chunk's in their order. However many steps have been made, the
next one hands out the next event of the stream, the count of what is to
come is exact, and there is no step once every event has come. Chunks in key
order give a stream in key order, in which events with equal keys stand in
the order of their chunks; chunks in time order give a stream in time order. -/
theorem merge_faithful (r : Recording) :
    (∃ drawn : List (Nat × Event), drawn.map Prod.snd = r.sortedEvents ∧
      (∀ i, Merge.fromChunk i drawn = r.chunks.getD i []) ∧
      ((∀ chunk ∈ r.chunks, InKeyOrder chunk) →
        drawn.Pairwise fun a b => a.2.key < b.2.key ∨ a.2.key = b.2.key ∧ a.1 ≤ b.1)) ∧
    r.sortedEvents.Perm r.events ∧
    (∀ n, (r.merge.after n).toList = r.sortedEvents.drop n ∧
      (r.merge.after n).next?.map Prod.fst = r.sortedEvents[n]? ∧
      (r.merge.after n).remaining = r.eventCount - n ∧
      ((r.merge.after n).next? = none ↔ r.eventCount ≤ n)) ∧
    ((∀ chunk ∈ r.chunks, InKeyOrder chunk) → InKeyOrder r.sortedEvents) ∧
    ((∀ chunk ∈ r.chunks, InTimeOrder chunk) → InTimeOrder r.sortedEvents) := by
  obtain ⟨drawn, h⟩ := r.exists_reads
  have hstream : r.sortedEvents = drawn.map Prod.snd := h.toList_eq
  have hcount : r.eventCount = drawn.length := by
    rw [eventCount_eq_length_events, ← r.sortedEvents_perm.length_eq, hstream, List.length_map]
  refine ⟨⟨drawn, hstream.symm, fromChunk_reads h, reads_inKeyOrder h⟩, r.sortedEvents_perm,
    fun n => ⟨?_, ?_, ?_, ?_⟩, inKeyOrder_sortedEvents, inTimeOrder_sortedEvents⟩
  · rw [(h.after n).toList_eq, hstream, List.map_drop]
  · rw [(h.after n).next?_eq, List.head?_drop, hstream, List.getElem?_map]
  · rw [(h.after n).remaining_eq, List.length_drop, hcount]
  · rw [(h.after n).next?_eq_none, List.drop_eq_nil_iff, hcount]

/-- Two chunks that end on one key, and an empty one between them. -/
theorem merge_faithful_tied :
    let e : Event := { id := 1, thread := 1, timestamp := 3, kind := .instant }
    let r : Recording :=
      { chunks := [[{ e with timestamp := 2 }, { e with id := 2 }], [], [e]]
        startTime := 2
        endTime := 3 }
    r.sortedEvents = [{ e with timestamp := 2 }, { e with id := 2 }, e] ∧
      InKeyOrder r.sortedEvents ∧ InTimeOrder r.sortedEvents :=
  ⟨by decide, (merge_faithful _).2.2.2.1 (by decide), (merge_faithful _).2.2.2.2 (by decide)⟩

end Recording

end EventTrace
