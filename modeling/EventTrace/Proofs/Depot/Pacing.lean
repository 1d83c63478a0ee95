import EventTrace.Proofs.Depot.Telling
/-!
# Depot — a writer keeps the rate of its session

A writer's window has the limit that its session asks for, after every run
(`paced_runOps`): a writer is made with it, screening an event changes the
window and never its limit, and nothing else touches either. So an event that
is turned away for its rate has met a limit that is configured, in a window
that is full (`Screen.full_of_rateLimited`).
-/

namespace EventTrace

/-! ## Windows -/

namespace Screen

variable {s : Screen} {id : Int} {kind : Kind} {now : Int}

theorem window_passesFilter (s : Screen) (id : Int) : (s.passesFilter id).2.window = s.window := by
  unfold passesFilter
  split
  · rfl
  · split <;> rfl

theorem window_keeps (s : Screen) (id : Int) (kind : Kind) :
    (s.keeps id kind).2.window = s.window := by
  unfold keeps
  split <;> rfl

theorem limit_current (w : RateWindow) (now : Int) : (w.current now).limit = w.limit := by
  unfold RateWindow.current
  split <;> rfl

theorem limit_admits (s : Screen) (now : Int) :
    (s.admits now).2.window.limit = s.window.limit := by
  unfold admits
  split
  · exact limit_current s.window now
  · rfl

/-- Screening an event leaves the limit of the window. -/
theorem limit_screen (s : Screen) (id : Int) (kind : Kind) (now : Int) :
    (s.screen id kind now).2.window.limit = s.window.limit := by
  have hfilter := window_passesFilter s id
  unfold screen
  split
  · next s₁ h₁ =>
    rw [h₁] at hfilter
    exact congrArg RateWindow.limit hfilter
  · next s₁ h₁ =>
    rw [h₁] at hfilter
    have hkeeps := (window_keeps s₁ id kind).trans hfilter
    split
    · next s₂ h₂ =>
      rw [h₂] at hkeeps
      exact congrArg RateWindow.limit hkeeps
    · next s₂ h₂ =>
      rw [h₂] at hkeeps
      have hadmits := (limit_admits s₂ now).trans (congrArg RateWindow.limit hkeeps)
      split
      · next h₃ => rwa [h₃] at hadmits
      · next h₃ => rwa [h₃] at hadmits

/-- **An event is turned away for its rate only if there is a limit** and as
many events came in the window it falls into. -/
theorem full_of_rateLimited (h : (s.screen id kind now).1 = .rateLimited) :
    0 < s.window.limit ∧ s.window.limit ≤ (s.window.current now).count := by
  have hfilter := window_passesFilter s id
  unfold screen at h
  split at h
  · simp at h
  · next s₁ h₁ =>
    rw [h₁] at hfilter
    have hkeeps := (window_keeps s₁ id kind).trans hfilter
    split at h
    · simp at h
    · next s₂ h₂ =>
      rw [h₂] at hkeeps
      split at h
      · next s₃ h₃ =>
        unfold admits at h₃
        split at h₃
        · next henabled =>
          have hover := congrArg Prod.fst h₃
          simp only [RateWindow.arrive, decide_eq_false_iff_not, Nat.not_lt, limit_current]
            at hover
          rw [hkeeps] at henabled hover
          exact ⟨of_decide_eq_true henabled, hover⟩
        · simp at h₃
      · simp at h

end Screen

open Depot

namespace Depot

variable {d d' e : Depot} {c : ChunkId} {k j : CollectorId} {w v : WriterId} {s : Writer}
  {F : List CollectorId}

/-- Every writer's window has the limit that its session asks for. -/
def Paced (d : Depot) : Prop :=
  ∀ w s k, d.writer? w = some s → s.collector = some k →
    s.screen.window.limit = (d.collector k).options.maxEventsPerSecond

/-! ## Writers and their limits -/

/-- Writers keep the limits of their windows, and change their sessions only
for none. -/
def KeepsPace (d d' : Depot) : Prop :=
  ∀ w s', d'.writer? w = some s' → ∃ s, d.writer? w = some s ∧
    s'.screen.window.limit = s.screen.window.limit ∧
    (s'.collector = s.collector ∨ s'.collector = none)

namespace KeepsPace

theorem of_writers (h : d'.writers = d.writers) : KeepsPace d d' := by
  intro w s hw
  rw [writer?, h] at hw
  exact ⟨s, hw, rfl, .inl rfl⟩

theorem of_staff (h : SameStaff d d') : KeepsPace d d' := by
  intro w s' hw
  obtain ⟨s, hw, hscreen, -, -, hcollector⟩ := h.writer w s' hw
  exact ⟨s, hw, by rw [hscreen], hcollector⟩

theorem of_moves (h : Moves d d') : KeepsPace d d' := .of_staff (sameStaff_moves h)

theorem trans (h : KeepsPace d d') (h' : KeepsPace d' e) : KeepsPace d e := by
  intro w s'' hw
  obtain ⟨s', hw', hlimit', hcollector'⟩ := h' w s'' hw
  obtain ⟨s, hw, hlimit, hcollector⟩ := h w s' hw'
  refine ⟨s, hw, hlimit'.trans hlimit, ?_⟩
  rcases hcollector' with heq | hnone
  · rw [heq]
    exact hcollector
  · exact .inr hnone

/-- A writer's window learns of an event, and keeps its limit. -/
theorem rescreen (hw : d.writer? w = some s) (em : Emission) (now : Int) :
    KeepsPace d (d.rescreen w (s.screen.screen em.id em.kind now).2) := by
  intro v r hv
  by_cases hvw : v = w
  · subst hvw
    rw [writer?_rescreen hw, Option.some.injEq] at hv
    subst hv
    exact ⟨s, hw, Screen.limit_screen _ _ _ _, .inl rfl⟩
  · rw [Depot.rescreen, writer?_modifyWriter_of_ne hvw] at hv
    exact ⟨r, hv, rfl, .inl rfl⟩

theorem accept (d : Depot) (k : CollectorId) (w : WriterId) (c : ChunkId) (event : Event) :
    KeepsPace d (d.accept k w c event) := by
  intro v s' hv
  obtain ⟨s, hs, rfl⟩ := exists_writer?_accept hv
  exact ⟨s, hs, rfl, .inl rfl⟩

/-- **A write keeps the pace of every writer.** -/
theorem writeEnds {em : Emission} {now : Reading} {r : Bool × Depot}
    (hends : WriteEnds d w em now r) : KeepsPace d r.2 := by
  cases hends with
  | closed _ hmoves => exact .of_moves hmoves
  | filtered _ hw _ _ hscreen => exact hscreen ▸ rescreen hw em now.arrival
  | refused _ hw _ _ hscreen hbefore hrefuses hafter =>
    have hscreened := hscreen ▸ rescreen hw em now.arrival
    exact ((hscreened.trans (.of_moves hbefore)).trans (.of_writers hrefuses.sameWriters)).trans
      (.of_moves hafter)
  | written _ hw _ _ hscreen hbefore _ _ _ hagree =>
    have hscreened := hscreen ▸ rescreen hw em now.arrival
    exact ((hscreened.trans (.of_moves hbefore)).trans (.accept _ _ _ _ _)).trans
      (.of_writers hagree.sameWriters)

end KeepsPace

/-- A rental moves no writer. -/
theorem writers_rent (d : Depot) (k : CollectorId) : (d.rent k).2.writers = d.writers := by
  cases hrent : d.rent k with
  | mk r d' =>
    cases r with
    | none => exact (rent_none hrent).writers
    | some r =>
      obtain ⟨d₁, d₂, hturns, -, -, hagree, -, rfl⟩ := rent_some hrent
      exact hagree.sameWriters.trans ((enterChunk_writers d₁ k).trans hturns.writers)

/-- An admission by hand moves no writer. -/
theorem writers_admitEvent (d : Depot) (k : CollectorId) :
    (d.admitEvent k).2.writers = d.writers := by
  cases hclosed : (d.collector k).closed with
  | true => rw [admitEvent_of_closed hclosed]
  | false =>
    cases hoffer : d.admitEvent k with
    | mk ok d' =>
      cases ok with
      | true =>
        obtain ⟨d₁, hturns, -, -, hagree⟩ := admitEvent_true hoffer
        exact hagree.sameWriters.trans hturns.writers
      | false =>
        obtain ⟨d₁, reason, hbefore, hafter⟩ := admitEvent_false hoffer hclosed
        exact hafter.writers.trans
          ((refuses_recordDropped d₁ k reason).sameWriters.trans hbefore.writers)

/-- **Every operation keeps the pace of the writers that are there.** -/
theorem Owned.keepsPace_op (h : Owned d) {o : Op}
    (ho : ∀ k thread name, o ≠ .call (.newWriter k thread name)) : KeepsPace d (o.apply d) := by
  cases o with
  | call call =>
    cases call with
    | newCollector o => exact .of_writers rfl
    | newWriter k thread name => exact absurd rfl (ho k thread name)
    | write w em now => exact .writeEnds (h.writeEnds w em now)
    | detach w => exact .of_moves (moves_detach d w)
    | dropWriter w => exact .of_moves (moves_dropWriter d w)
    | close k => exact .of_writers rfl
    | closeWriters k => exact .of_writers (agree_closeWriters d k).sameWriters
    | freeze k => exact .of_staff (sameStaff_freeze d k)
  | rent k => exact .of_writers (writers_rent d k)
  | writeRental r event =>
    dsimp only [Op.apply, Depot.writeRental]
    split <;> exact .of_writers rfl
  | release k r =>
    dsimp only [Op.apply, Depot.release]
    split
    · exact .of_writers (releaseChunk_writers _ k _)
    · exact .of_writers rfl
  | dropRental r => exact .of_writers rfl
  | shareRental r =>
    dsimp only [Op.apply, Depot.shareRental]
    split <;> exact .of_writers rfl
  | markIdle k c => exact .of_writers rfl
  | takeShare => exact .of_writers (take_writers d)
  | makeShare capacity => exact .of_writers rfl
  | cloneShare h =>
    dsimp only [Op.apply]
    split <;> exact .of_writers rfl
  | dropShare h => exact .of_writers rfl
  | resetShare h =>
    dsimp only [Op.apply, Depot.resetShare]
    split
    · split <;> exact .of_writers rfl
    · exact .of_writers rfl
  | returnShare h =>
    dsimp only [Op.apply, Depot.returnShare]
    split
    · exact .of_writers (giveBack_writers _ _)
    · exact .of_writers rfl
  | offerEvent k => exact .of_writers (writers_admitEvent d k)
  | recordDropped k reason => exact .of_writers (refuses_recordDropped d k reason).sameWriters
  | recordSampledOut k => exact .of_writers rfl
  | recordRateLimited k => exact .of_writers (refuses_recordRateLimited d k).sameWriters
  | nameThread k thread name => exact .of_writers (agree_nameThread d k thread name).sameWriters
  | newLink => exact .of_writers rfl
  | registerLink k l => exact .of_writers rfl
  | closeLink l => exact .of_writers rfl
  | screen w em arrival =>
    dsimp only [Op.apply]
    split
    · next s hw => exact .rescreen hw em arrival
    · exact .of_writers rfl
  | letGo w =>
    dsimp only [Op.apply]
    split
    · next k hk =>
      obtain ⟨s, hw, hs⟩ := Option.bind_eq_some_iff.mp hk
      exact .of_moves (.single (.letGo hw hs))
    · exact .of_writers rfl
  | holdRoom w =>
    dsimp only [Op.apply]
    split
    · next k hk =>
      obtain ⟨s, hw, hs⟩ := Option.bind_eq_some_iff.mp hk
      exact .of_moves (moves_holdRoom hw hs)
    · exact .of_writers rfl
  | evict k =>
    dsimp only [Op.apply]
    cases hevict : d.evictOldest? k with
    | none => exact .of_writers rfl
    | some d₁ => exact .of_writers (writers_evictOldest? hevict)

/-! ## Pace -/

/-- Writers that keep their pace keep that of their sessions. -/
theorem Paced.keepsPace (h : Paced d) (hposted : Posted F d) (hkeeps : KeepsPace d d')
    (hoptions : ∀ k < d.collectors.size, (d'.collector k).options = (d.collector k).options) :
    Paced d' := by
  intro w s' k hw hk
  obtain ⟨s, hw, hlimit, hcollector⟩ := hkeeps w s' hw
  have hs : s.collector = some k := by
    rcases hcollector with heq | hnone
    · rw [← heq, hk]
    · exact absurd (hnone.symm.trans hk) (by simp)
  rw [hlimit, hoptions k (hposted.attached w s k hw hs)]
  exact h w s k hw hs

/-- A new writer has the limit of its session. -/
theorem Paced.newWriter (h : Paced d) (k : CollectorId) (thread : Int) (name : Option String) :
    Paced (d.newWriter k thread name).2 := by
  obtain ⟨d₁, hagree, heq⟩ := newWriter_eq d k thread name
  rw [heq]
  intro v s j hv hj
  have hoptions : ∀ r, ((d₁.enlist r).collector j).options = (d.collector j).options :=
    fun _ => hagree.options j
  by_cases hlast : v = d₁.writers.size
  · rw [hlast, writer?_enlist, Option.some.injEq] at hv
    subst hv
    obtain rfl : k = j := Option.some.inj hj
    rw [hoptions]
    rfl
  · rw [writer?_enlist_of_ne hlast, hagree.writer?_eq] at hv
    rw [hoptions]
    exact h v s j hv hj

end Depot

/-- **Writers keep the rate of their sessions** through every run. -/
theorem paced_runOps {capacity : Nat} {ops : List Op} (h : Addressed capacity ops) :
    Paced (runOps capacity ops) := by
  induction ops using List.reverseRecOn with
  | nil => exact fun w s k hw => absurd hw (by simp [runOps, writer?, Depot.ofCapacity])
  | append_singleton ops o ih =>
    have hpaced := ih h.of_concat
    obtain ⟨F, G, hstocked⟩ := exists_stocked_runOps capacity ops
    have hwatched := h.watched
    rw [runOps_concat] at hwatched ⊢
    by_cases hnew : ∃ k thread name, o = .call (.newWriter k thread name)
    · obtain ⟨k, thread, name, rfl⟩ := hnew
      dsimp only [Op.apply, Call.apply]
      split
      · exact hpaced.newWriter k thread name
      · exact hpaced
    · have hkeeps := hstocked.owned.keepsPace_op fun k thread name heq =>
        hnew ⟨k, thread, name, heq⟩
      exact hpaced.keepsPace hstocked.toPosted hkeeps hwatched.options

end EventTrace
