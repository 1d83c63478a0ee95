import EventTrace.Proofs.Depot.Seats
import EventTrace.Proofs.Screen
/-!
# Depot — writers at their chunks, and the count of what is held

As long as chunks are only written through writers, a writer's chunk is an
active entry of its own session's ledger and of no other, and the word that
counts a session's events is the number of events in its ledger, in that
word. `Posted` says so of every session that was not frozen yet;
`Posted.call` is that every call keeps it.
-/

namespace EventTrace

open Depot

/-- The collectors that a call freezes. -/
def Call.freezes : Call → List CollectorId
  | freeze k => [k]
  | _ => []

theorem Call.eq_of_mem_freezes {call : Call} {k : CollectorId} (hk : k ∈ call.freezes) :
    call = .freeze k := by
  cases call with
  | freeze j => rw [List.mem_singleton.mp hk]
  | _ => exact absurd hk List.not_mem_nil

namespace Depot

variable {d d' : Depot} {c x : ChunkId} {k j : CollectorId} {w v : WriterId} {s : Writer}
  {t : Int} {F : List CollectorId}

/-- Every writer's tests are those its session asks for. -/
def HonestScreens (d : Depot) : Prop :=
  ∀ w s k, d.writer? w = some s → s.collector = some k →
    s.screen.Honest (d.collector k).options

/-- Writers sit at active entries of their own sessions, and the events held
are counted, in every session that was not frozen. -/
structure Posted (F : List CollectorId) (d : Depot) : Prop where
  owned : Owned d
  attached : ∀ w s k, d.writer? w = some s → s.collector = some k → k < d.collectors.size
  honest : HonestScreens d
  seated : ∀ w k t c, Seat d w k t c → k ∉ F → ⟨c, true⟩ ∈ (d.collector k).ledger
  own : ∀ w k t c j, Seat d w k t c → d.Ledgers j c → j = k
  counted : ∀ k ∉ F, (d.collector k).eventCount = UInt64.ofNat (d.contents k).flatten.length

/-- A new session holds nothing yet, and the others what they held. -/
theorem contents_newCollector (d : Depot) (o : Options) (k : CollectorId) :
    (d.newCollector o).2.contents k = d.contents k := by
  rw [contents, (Still.newCollector d o).ledger]
  rfl

namespace Posted

theorem ofCapacity (n : Nat) : Posted F (Depot.ofCapacity n) := by
  have hnone : ∀ w, (Depot.ofCapacity n).writer? w = none := fun _ => rfl
  refine ⟨.ofCapacity n, ?_, ?_, ?_, ?_, ?_⟩
  · intro w s k hw
    exact absurd hw (by simp [hnone])
  · intro w s k hw
    exact absurd hw (by simp [hnone])
  · intro w k t c hseat
    obtain ⟨s, hw, -⟩ := hseat
    exact absurd hw (by simp [hnone])
  · intro w k t c j hseat
    obtain ⟨s, hw, -⟩ := hseat
    exact absurd hw (by simp [hnone])
  · intro k _
    rw [contents, collector_of_ge (Nat.zero_le k)]
    rfl

/-! ## Moves -/

theorem attached_of_seat (h : Posted F d) (hseat : Seat d w k t c) : k < d.collectors.size := by
  obtain ⟨s, hw, hk, -, -⟩ := hseat
  exact h.attached w s k hw hk

theorem honest_of_sameStaff (h : HonestScreens d) (hstaff : SameStaff d d') :
    HonestScreens d' := by
  intro w s' k hw' hk
  obtain ⟨s, hw, hscreen, -, -, hcollector⟩ := hstaff.writer w s' hw'
  rw [hscreen, hstaff.options k]
  refine h w s k hw ?_
  rcases hcollector with heq | hnone
  · rw [← heq, hk]
  · exact absurd (hnone.symm.trans hk) (by simp)

/-- A chunk just taken up is where no one sat. -/
theorem ne_of_seat (h : Owned d) (hseat : Seat d w k t c) : c ≠ (d.enterChunk j).1 := by
  rintro rfl
  have hfresh := (h.enterChunk j).2.unwritten
  have hfilling := hseat.filling_pos
  unfold writable filling at hfresh
  rw [enterChunk_writers] at hfresh
  unfold filling at hfilling
  omega

/-- What is counted follows what is held. -/
theorem counted_change (hchange : Change k d d')
    (hcount : (d.collector k).eventCount = UInt64.ofNat (d.contents k).flatten.length) :
    (d'.collector k).eventCount = UInt64.ofNat (d'.contents k).flatten.length := by
  cases hchange with
  | same hsame => rw [hsame.eventCount, hsame.contents, hcount]
  | gaveUp c pre post hledger _ _ _ hcontents _ heventCount _ =>
    have htotal : (d.contents k).flatten.length =
        (d'.contents k).flatten.length + (d.chunk c).events.size := by
      rw [hcontents, contents, hledger]
      simp only [List.map_append, List.map_cons, List.flatten_append, List.flatten_cons,
        List.length_append, Array.length_toList]
      omega
    rw [heventCount, hcount, htotal, UInt64.ofNat_add, UInt64.add_sub_cancel]
  | entered hcontents _ heventCount _ =>
    have htotal : (d'.contents k).flatten.length = (d.contents k).flatten.length := by
      rw [hcontents, List.flatten_append, List.length_append]
      rfl
    rw [heventCount, hcount, htotal]

/-- Whoever sits after a move sits at an active chunk. -/
theorem seated_move (h : Posted F d) (hm : Move d d') (hseat : Seat d' w k t c) (hk : k ∉ F) :
    ⟨c, true⟩ ∈ (d'.collector k).ledger := by
  rcases h.owned.move_cases hm with
    hquiet | ⟨j, -, hevict⟩ | ⟨v, r, j, hv, hr, -, -, -, rfl⟩
  · exact hquiet.stays w k t c hseat (h.seated w k t c (hquiet.seat w k t c hseat) hk)
  · exact mem_evictOldest?_of_active hevict (h.seated w k t c ((seat_evict hevict).mp hseat) hk)
  · rcases (seat_hold hv hr).mp hseat with ⟨-, rfl, -, rfl⟩ | ⟨-, hseat⟩
    · show _ ∈ ((d.enterChunk k).2.collector k).ledger
      rw [ledger_enterChunk (h.attached v r k hv hr)]
      exact List.mem_append_right _ (List.mem_singleton.mpr rfl)
    · exact mem_enterChunk_of_mem (h.seated w k t c hseat hk)

/-- Whoever sits after a move sits at a chunk of its own session. -/
theorem own_move (h : Posted F d) (hm : Move d d') (hseat : Seat d' w k t c)
    (hin : d'.Ledgers j c) : j = k := by
  rcases h.owned.move_cases hm with
    hquiet | ⟨i, -, hevict⟩ | ⟨v, r, i, hv, hr, -, -, -, rfl⟩
  · exact h.own w k t c j (hquiet.seat w k t c hseat) (hquiet.ledgers.mp hin)
  · exact h.own w k t c j ((seat_evict hevict).mp hseat) (ledgers_of_evictOldest? hevict hin)
  · obtain ⟨entry, hmem, rfl⟩ := hin
    rcases (seat_hold hv hr).mp hseat with ⟨-, rfl, -, hfresh⟩ | ⟨-, hseat⟩
    · -- the fresh chunk was in no ledger, so it is in the one it was entered into
      rcases mem_ledger_enterChunk hmem with hmem | ⟨rfl, -⟩
      · have hin : d.Ledgers j (d.enterChunk k).1 := ⟨entry, hmem, hfresh⟩
        exact absurd hin (h.owned.not_ledgers_enterChunk k j)
      · rfl
    · rcases mem_ledger_enterChunk hmem with hmem | ⟨-, rfl⟩
      · exact h.own w k t _ j hseat (ledgers_of_mem hmem)
      · exact absurd rfl (ne_of_seat (j := i) h.owned hseat)

/-- **Every move keeps writers at their chunks.** -/
theorem move (h : Posted F d) (hm : Move d d') : Posted F d' := by
  have hstaff := sameStaff_move hm
  refine ⟨h.owned.move hm, ?_, honest_of_sameStaff h.honest hstaff,
    fun _ _ _ _ => h.seated_move hm, fun _ _ _ _ _ => h.own_move hm,
    fun k hk => counted_change (h.owned.change hm k) (h.counted k hk)⟩
  intro w s' k hw' hk
  -- a writer keeps its session or has none
  obtain ⟨s, hw, -, -, -, hcollector⟩ := hstaff.writer w s' hw'
  rw [hm.size]
  refine h.attached w s k hw ?_
  rcases hcollector with heq | hnone
  · rw [← heq, hk]
  · exact absurd (hnone.symm.trans hk) (by simp)

theorem moves (h : Posted F d) (hm : Moves d d') : Posted F d' := by
  induction hm with
  | refl => exact h
  | tail _ hm ih => exact ih.move hm

/-! ## Calls -/

/-- Bookkeeping keeps writers at their chunks, if it leaves their tests
honest. -/
theorem alike (h : Posted F d) (ha : Alike d d') (hhonest : HonestScreens d') : Posted F d' where
  owned := h.owned.alike ha
  attached w s' k hw' hk := by
    obtain ⟨s, hw, hcore⟩ := ha.writer? hw'
    rw [ha.size]
    refine h.attached w s k hw ?_
    have hsame : s.collector = s'.collector := by simpa using congrArg Writer.collector hcore
    rw [hsame, hk]
  honest := hhonest
  seated w k t c hseat hk := by
    rw [ha.ledger]
    exact h.seated w k t c (hseat.of_alike ha) hk
  own w k t c j hseat hin := h.own w k t c j (hseat.of_alike ha) (ha.ledgers.mp hin)
  counted k hk := by
    rw [ha.eventCount, ha.contents]
    exact h.counted k hk

/-- Bookkeeping that leaves the writers alone. -/
theorem alike_of_writers (h : Posted F d) (ha : Alike d d') (hwriters : d'.writers = d.writers) :
    Posted F d' :=
  h.alike ha (honest_of_sameStaff h.honest (.of_writers hwriters ha.options))

theorem agree (h : Posted F d) (ha : Agree d d') : Posted F d' :=
  h.alike_of_writers ha.toAlike ha.sameWriters

/-- A writer's tests may learn from an event. -/
theorem rescreen (h : Posted F d) (hw : d.writer? w = some s) (e : Emission) (now : Int) :
    Posted F (d.rescreen w (s.screen.screen e.id e.kind now).2) := by
  refine h.alike (alike_rescreen _ _ _) ?_
  intro v r j hv hj
  -- only the tests of the writer have learned, and they stay honest
  by_cases hvw : v = w
  · subst hvw
    rw [Depot.rescreen, writer?_modifyWriter, hw, Option.map_some, Option.some.injEq] at hv
    subst hv
    exact (h.honest v s j hw hj).screen e.id e.kind now
  · rw [Depot.rescreen, writer?_modifyWriter_of_ne hvw] at hv
    exact h.honest v r j hv hj

theorem seat_accept {i : CollectorId} {event : Event} :
    Seat (d.accept k w c event) v i t x ↔ Seat d v i t x := by
  unfold Seat
  by_cases hv : v = w
  · subst hv
    rw [writer?_accept]
    cases d.writer? v with
    | none => simp
    | some r => simp
  · rw [writer?_accept_of_ne hv]

/-- **An accepted event is counted where it is held.** -/
theorem accept (h : Posted F d) (hw : d.writer? w = some s) (hs : s.collector = some k)
    (hc : s.chunk = some c) (hfull : (d.chunk c).isFull = false) (event : Event) :
    Posted F (d.accept k w c event) := by
  have hseat : Seat d w k s.thread c := ⟨s, hw, hs, rfl, hc⟩
  have hk := h.attached_of_seat hseat
  have hstep : ∀ v r', (d.accept k w c event).writer? v = some r' →
      ∃ r, d.writer? v = some r ∧ r'.screen = r.screen ∧ r'.collector = r.collector := by
    intro v r' hv
    obtain ⟨r, hr, rfl⟩ := exists_writer?_accept hv
    exact ⟨r, hr, rfl, rfl⟩
  refine ⟨h.owned.accept hw hc event, ?_, ?_, ?_, ?_, ?_⟩
  · intro v r' j hv hj
    obtain ⟨r, hr, -, hcollector⟩ := hstep v r' hv
    have hsize : (d.accept k w c event).collectors.size = d.collectors.size := Array.size_modify
    rw [hsize]
    exact h.attached v r j hr (hcollector ▸ hj)
  · intro v r' j hv hj
    obtain ⟨r, hr, hscreen, hcollector⟩ := hstep v r' hv
    rw [hscreen, collector_accept]
    exact h.honest v r j hr (hcollector ▸ hj)
  · intro v j t x hx hj
    rw [ledger_accept]
    exact h.seated v j t x (seat_accept.mp hx) hj
  · intro v j t x i hx hin
    rw [Ledgers, ledger_accept] at hin
    exact h.own v j t x i (seat_accept.mp hx) hin
  · intro j hj
    by_cases hjk : j = k
    · subst hjk
      have hin := ledgers_of_mem (h.seated w j s.thread c hseat hj)
      rw [eventCount_accept hk, h.counted j hj, h.owned.length_contents_accept hin hfull,
        UInt64.ofNat_add]
      rfl
    · have hgone : ¬ d.Ledgers j c := fun hin => hjk (h.own w k s.thread c j hseat hin)
      rw [collector_accept_of_ne hjk, contents_accept_of_not_ledgers hgone]
      exact h.counted j hj

theorem newCollector (h : Posted F d) (o : Options) : Posted F (d.newCollector o).2 := by
  have hledger := (Still.newCollector d o).ledger
  refine ⟨h.owned.newCollector o, ?_, ?_, ?_, ?_, ?_⟩
  · intro w s k hw hk
    have hsize : (d.newCollector o).2.collectors.size = d.collectors.size + 1 :=
      Array.size_push _
    have := h.attached w s k hw hk
    rw [hsize]
    exact Nat.lt_succ_of_lt this
  · intro w s k hw hk
    rw [collector_newCollector_of_ne (Nat.ne_of_lt (h.attached w s k hw hk))]
    exact h.honest w s k hw hk
  · intro w k t c hseat hk
    rw [hledger]
    exact h.seated w k t c hseat hk
  · intro w k t c j hseat hin
    rw [Ledgers, hledger] at hin
    exact h.own w k t c j hseat hin
  · intro j hj
    rw [contents_newCollector, ← h.counted j hj]
    exact congr_newCollector Collector.eventCount o rfl j

/-- A writer that has just come sits nowhere. -/
theorem enlist (h : Posted F d) (hk : k < d.collectors.size) (hs : s.collector = some k)
    (hc : s.chunk = none) (hhonest : s.screen.Honest (d.collector k).options) :
    Posted F (d.enlist s) := by
  have hwriter : ∀ v r, (d.enlist s).writer? v = some r → r = s ∨ d.writer? v = some r := by
    intro v r hv
    by_cases hlast : v = d.writers.size
    · rw [hlast, writer?_enlist, Option.some.injEq] at hv
      exact .inl hv.symm
    · rw [writer?_enlist_of_ne hlast] at hv
      exact .inr hv
  have hseat : ∀ v j t x, Seat (d.enlist s) v j t x → Seat d v j t x := by
    rintro v j t x ⟨r, hv, hj, ht, hx⟩
    rcases hwriter v r hv with rfl | hv
    · exact absurd (hc.symm.trans hx) (by simp)
    · exact ⟨r, hv, hj, ht, hx⟩
  refine ⟨h.owned.enlist hc, ?_, ?_, fun v j t x hx hj => h.seated v j t x (hseat v j t x hx) hj,
    fun v j t x i hx hin => h.own v j t x i (hseat v j t x hx) hin, fun j hj => h.counted j hj⟩
  · intro v r j hv hj
    rcases hwriter v r hv with rfl | hv
    · rw [hs, Option.some.injEq] at hj
      subst hj
      exact hk
    · exact h.attached v r j hv hj
  · intro v r j hv hj
    rcases hwriter v r hv with rfl | hv
    · rw [hs, Option.some.injEq] at hj
      subst hj
      exact hhonest
    · exact h.honest v r j hv hj

theorem newWriter (h : Posted F d) (hk : k < d.collectors.size) (thread : Int)
    (name : Option String) : Posted F (d.newWriter k thread name).2 := by
  obtain ⟨d₁, hagree, heq⟩ := newWriter_eq d k thread name
  rw [heq]
  refine (h.agree hagree).enlist (by rwa [hagree.size]) rfl rfl ?_
  rw [hagree.options]
  exact Screen.honest_ofOptions _

theorem writeEnds {e : Emission} {now : Reading} {r : Bool × Depot} (h : Posted F d)
    (hends : WriteEnds d w e now r) : Posted F r.2 := by
  cases hends with
  | closed _ hmoves => exact h.moves hmoves
  | filtered _ hw _ _ hscreen => exact hscreen ▸ h.rescreen hw e now.arrival
  | refused _ hw _ _ hscreen hbefore hrefuses hafter =>
    have hscreened := hscreen ▸ h.rescreen hw e now.arrival
    exact ((hscreened.moves hbefore).alike_of_writers hrefuses.toAlike
      hrefuses.sameWriters).moves hafter
  | written _ hw hs _ hscreen hbefore hw₁ hfull _ hagree =>
    have hscreened := hscreen ▸ h.rescreen hw e now.arrival
    exact ((hscreened.moves hbefore).accept hw₁ hs rfl hfull _).agree hagree

/-- A frozen session is no longer spoken of. -/
theorem freeze (h : Posted F d) (k : CollectorId) : Posted (k :: F) (d.freeze k).2 := by
  obtain ⟨-, hfrozen⟩ := freeze_spec d k
  have hout : ∀ j, j ∉ k :: F → j ≠ k ∧ j ∉ F := fun j hj => by simpa using hj
  refine ⟨h.owned.freeze k, ?_, honest_of_sameStaff h.honest (sameStaff_freeze d k), ?_, ?_, ?_⟩
  · intro w s j hw hj
    rw [hfrozen.size]
    exact h.attached w s j (writer?_freeze d k w ▸ hw) hj
  · intro w j t c hw hj
    obtain ⟨hjk, hjF⟩ := hout j hj
    rw [hfrozen.others j hjk]
    exact h.seated w j t c ((seat_freeze d k).mp hw) hjF
  · intro w j t c i hw hin
    refine h.own w j t c i ((seat_freeze d k).mp hw) ?_
    by_cases hik : i = k
    · obtain ⟨entry, hmem, -⟩ := hin
      rw [hik, hfrozen.collector] at hmem
      exact absurd hmem List.not_mem_nil
    · rwa [Ledgers, hfrozen.others i hik] at hin
  · intro j hj
    obtain ⟨hjk, hjF⟩ := hout j hj
    rw [hfrozen.others j hjk, contents_freeze d hjk]
    exact h.counted j hjF

/-- **Every call keeps writers at their chunks**, in every session that was
not frozen. -/
theorem call (h : Posted F d) (c : Call) : Posted (c.freezes ++ F) (c.apply d) := by
  cases c with
  | newCollector o => exact h.newCollector o
  | newWriter k thread name =>
    dsimp only [Call.apply]
    split
    · next hk => exact h.newWriter hk thread name
    · exact h
  | write w e now => exact h.writeEnds (h.owned.writeEnds w e now)
  | detach w => exact h.moves (moves_detach d w)
  | dropWriter w => exact h.moves (moves_dropWriter d w)
  | close k => exact h.move (.turn k (.close d))
  | closeWriters k => exact h.agree (agree_closeWriters d k)
  | freeze k => exact h.freeze k

end Posted

end Depot

end EventTrace
