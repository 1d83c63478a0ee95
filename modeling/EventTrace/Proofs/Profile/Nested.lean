import EventTrace.Proofs.Profile.Replay
/-!
# Profile — nested events replay without damage

Where every end is of the innermost scope that is open, and the events of each
thread are in order, a replay finds no damage: strict or not, it closes what
the ends are of, and all that it counts are the scopes that the events leave
open (`Replay.totalAnomalies_of_nested`). The frames of a thread are then the
very scopes that are open, so what one event does is told by `nest` alone.
-/

namespace EventTrace

/-! ## Open scopes -/

/-- The open scopes after an event, the innermost first; none if the event ends
another scope than the innermost. -/
def nest (opened : List Int) (e : Event) : Option (List Int) :=
  match e.kind with
  | .scopeBegin => some (e.id :: opened)
  | .scopeEnd => if opened.head? = some e.id then some opened.tail else none
  | _ => some opened

/-- The scopes that events leave open, the innermost first, if each end is of
the innermost one. -/
def openScopes? (events : List Event) : Option (List Int) := events.foldlM nest []

theorem openScopes?_nil : openScopes? [] = some [] := rfl

theorem openScopes?_concat (events : List Event) (e : Event) :
    openScopes? (events ++ [e]) = (openScopes? events).bind (nest · e) := by
  rw [openScopes?, List.foldlM_append]
  simp [openScopes?]

theorem nest_of_not_isScope {e : Event} (he : e.kind.isScope = false) (opened : List Int) :
    nest opened e = some opened := by
  unfold nest
  split
  · next hkind => simp [hkind, Kind.isScope] at he
  · next hkind => simp [hkind, Kind.isScope] at he
  · rfl

/-- No damage but to durations. -/
structure Anomalies.Nested (a : Anomalies) : Prop where
  unmatchedBegin : a.unmatchedBegin = 0
  unmatchedEnd : a.unmatchedEnd = 0
  mismatchedEnd : a.mismatchedEnd = 0

theorem Anomalies.Nested.add {a b : Anomalies} (ha : a.Nested) (hb : b.Nested) :
    (a + b).Nested where
  unmatchedBegin := Nat.add_eq_zero_iff.mpr ⟨ha.unmatchedBegin, hb.unmatchedBegin⟩
  unmatchedEnd := Nat.add_eq_zero_iff.mpr ⟨ha.unmatchedEnd, hb.unmatchedEnd⟩
  mismatchedEnd := Nat.add_eq_zero_iff.mpr ⟨ha.mismatchedEnd, hb.mismatchedEnd⟩

/-! ## One thread -/

namespace ThreadState

variable {s : ThreadState} {e : Event} {strict : Bool} {opened : List Int}

/-- The ids of the open frames, the innermost first. -/
def ids (s : ThreadState) : List Int := s.frames.map Frame.id

theorem ids_handDown (s : ThreadState) (p : Pending) : (s.handDown p).ids = s.ids := by
  obtain ⟨frames, roots⟩ := s
  cases frames <;> rfl

/-- A frame that closes leaves those below it. -/
theorem finish_spec (s : ThreadState) (e : Event) (m : Match Pending) :
    (s.finish e m).1.ids = m.below.map Frame.id ∧ (s.finish e m).2.anomalies.Nested := by
  unfold finish
  dsimp only
  split
  · exact ⟨ids_handDown .., rfl, rfl, rfl⟩
  · exact ⟨ids_handDown .., rfl, rfl, rfl⟩

/-- An end of the innermost scope closes it. -/
theorem close_of_head (h : s.ids.head? = some e.id) :
    (s.close strict e).1.ids = s.ids.tail ∧ (s.close strict e).2.anomalies.Nested := by
  obtain ⟨frames, roots⟩ := s
  cases frames with
  | nil => exact absurd h (by simp [ids])
  | cons top below =>
    have htop : top.id = e.id := by simpa [ids] using h
    have hclose : Nesting.close strict e.id (top :: below) = ⟨some ⟨top, [], below⟩, {}, none⟩ := by
      simp [Nesting.close, htop]
    obtain ⟨hids, hnested⟩ := finish_spec ⟨top :: below, roots⟩ e ⟨top, [], below⟩
    simp only [close, hclose]
    exact ⟨hids, .add ⟨rfl, rfl, rfl⟩ hnested⟩

/-- **A nested event opens or closes the innermost frame** and does no
damage. -/
theorem step_of_nest (h : nest s.ids e = some opened) :
    (s.step strict e).1.ids = opened ∧ (s.step strict e).2.anomalies.Nested := by
  unfold nest at h
  split at h
  · next hkind =>
    have hstep : s.step strict e =
        ({ s with frames := ⟨e.id, e.timestamp, {}⟩ :: s.frames }, {}) := by
      simp [step, hkind]
    rw [hstep]
    exact ⟨Option.some.inj h, rfl, rfl, rfl⟩
  · next hkind =>
    have hstep : s.step strict e = s.close strict e := by simp [step, hkind]
    rw [hstep]
    split at h
    · next hhead => exact Option.some.inj h ▸ close_of_head hhead
    · exact absurd h (by simp)
  · next hbegin hend =>
    have hscope : e.kind.isScope = false := by
      cases hkind : e.kind <;> first | rfl | exact absurd hkind hbegin | exact absurd hkind hend
    rw [step_of_not_isScope hscope]
    exact ⟨Option.some.inj h, rfl, rfl, rfl⟩

/-- **The frames of a thread are the scopes its events leave open.** -/
theorem ids_run (strict : Bool) {events : List Event} (h : openScopes? events = some opened) :
    (run strict events).ids = opened := by
  induction events using List.reverseRecOn generalizing opened with
  | nil => exact Option.some.inj h
  | append_singleton events e ih =>
    rw [openScopes?_concat] at h
    obtain ⟨before, hbefore, hnest⟩ := Option.bind_eq_some_iff.mp h
    rw [run_append]
    rw [← ih hbefore] at hnest
    exact (step_of_nest hnest).1

end ThreadState

/-! ## All threads -/

namespace Replay

variable {events : List Event} {opened : Int → List Int}

/-- Frames left open are all that a replay adds to the damage at its end. -/
theorem totalAnomalies_eq (r : Replay) : r.totalAnomalies = r.anomalies +
    { unmatchedBegin := (r.threads.values.map fun s => s.frames.length).sum } := by
  rw [totalAnomalies]
  generalize r.anomalies = sum
  induction r.threads.values generalizing sum with
  | nil => rfl
  | cons s rest ih =>
    rw [List.foldl_cons, ih, Anomalies.add_assoc]
    rfl

/-- Replaying nested events does no damage on the way. -/
theorem nested_run (strict : Bool)
    (h : ∀ t, (openScopes? (events.filter (·.thread == t))).isSome = true) :
    (run strict events).anomalies.Nested := by
  induction events using List.reverseRecOn with
  | nil => exact ⟨rfl, rfl, rfl⟩
  | append_singleton events e ih =>
    have hlast := h e.thread
    rw [List.filter_append, List.filter_singleton, beq_self_eq_true, cond_true,
      openScopes?_concat, Option.isSome_iff_exists] at hlast
    obtain ⟨_, hlast⟩ := hlast
    obtain ⟨before, hbefore, hnest⟩ := Option.bind_eq_some_iff.mp hlast
    have hevents : ∀ t, (openScopes? (events.filter (·.thread == t))).isSome = true := by
      intro t
      have ht := h t
      rw [List.filter_append, List.filter_singleton] at ht
      cases hthread : e.thread == t with
      | true =>
        rw [← beq_iff_eq.mp hthread, hbefore]
        rfl
      | false =>
        rw [hthread, cond_false, List.append_nil] at ht
        exact ht
    rw [← ThreadState.ids_run strict hbefore, ← get?_run] at hnest
    rw [run_append]
    exact (ih hevents).add (ThreadState.step_of_nest hnest).2

/-- **Nested events in order replay without damage**, strict or not, but for
the scopes they leave open. -/
theorem totalAnomalies_of_nested (hordered : ThreadOrdered events)
    (hfit : ScopesFit strict events)
    (h : ∀ t, openScopes? (events.filter (·.thread == t)) = some (opened t)) :
    (run strict events).totalAnomalies = { unmatchedBegin :=
      ((run strict events).threads.keys.map fun t => (opened t).length).sum } := by
  obtain ⟨hbegin, hend, hmismatch⟩ := nested_run strict fun t => by rw [h t]; rfl
  have hvalid := invalidDurations_run hordered hfit
  have hclean : (run strict events).anomalies = {} := by
    generalize (run strict events).anomalies = a at *
    obtain ⟨_, _, _, _⟩ := a
    simp_all
  have hopen : (run strict events).threads.values.map (fun s => s.frames.length) =
      (run strict events).threads.keys.map fun t => (opened t).length := by
    rw [Table.values, Table.keys, List.map_map, List.map_map]
    refine List.map_congr_left ?_
    intro row hrow
    show row.2.frames.length = (opened row.1).length
    rw [← ThreadState.ids_run strict (h row.1), ThreadState.ids, List.length_map,
      state_of_mem hrow]
  rw [totalAnomalies_eq, hclean, hopen]
  exact congrArg (Anomalies.mk · 0 0 0) (Nat.zero_add _)

/-- A thread with a scope that its events leave open is among those of the
replay. -/
theorem mem_keys_of_opened (strict : Bool) {t : Int} {ids : List Int}
    (h : openScopes? (events.filter (·.thread == t)) = some ids) (hids : ids ≠ []) :
    t ∈ (run strict events).threads.keys := by
  have hstate := get?_run strict events t
  cases hget : (run strict events).threads.get? t with
  | some s => exact List.mem_map_of_mem (Table.mem_of_get? hget)
  | none =>
    rw [hget] at hstate
    refine absurd ?_ hids
    rw [← ThreadState.ids_run strict h, ← hstate]
    rfl

end Replay

/-! ## Profiles -/

namespace Recording

variable {r : Recording} {opened : Int → List Int}

/-- Replaying one thread only leaves nested events nested. -/
theorem openScopes?_profiledEvents
    (h : ∀ t, openScopes? (r.events.filter (·.thread == t)) = some (opened t))
    (o : ProfileOptions) (t : Int) :
    openScopes? ((r.profiledEvents o).filter (·.thread == t)) =
      some (if o.onlyThread.all (· == t) then opened t else []) := by
  unfold profiledEvents
  cases o.onlyThread with
  | none => exact h t
  | some only =>
    by_cases honly : only = t
    · subst honly
      simpa [List.filter_filter] using h only
    · have hnone : (r.events.filter (·.thread == only)).filter (·.thread == t) = [] := by
        refine List.filter_eq_nil_iff.mpr fun e he hboth => honly ?_
        exact (beq_iff_eq.mp (List.mem_filter.mp he).2).symm.trans (beq_iff_eq.mp hboth)
      simp [hnone, honly, openScopes?_nil]

/-- **A profile of nested events in order reports no damage** but the scopes
that they leave open, here told by things that stand for them thread by
thread. -/
theorem anomalies_of_nested {α : Type} {things : List α} {key : α → Int}
    (hordered : ThreadOrdered r.events)
    (hapart : ∀ b ∈ r.events, ∀ e ∈ r.events, e.timestamp - b.timestamp ≤ TickRate.maxTicks)
    (h : ∀ t, openScopes? (r.events.filter (·.thread == t)) = some (opened t))
    (hcount : ∀ t, (opened t).length = things.countP (key · == t)) (o : ProfileOptions) :
    (r.profile o).anomalies =
      { unmatchedBegin := things.countP fun a => o.onlyThread.all (· == key a) } := by
  have hnested := openScopes?_profiledEvents h o
  have hfit : Replay.ScopesFit o.strict (r.profiledEvents o) :=
    Replay.scopesFit_of_apart fun b hb e he =>
      hapart b (mem_of_mem_profiledEvents hb) e (mem_of_mem_profiledEvents he)
  have htotal := Replay.totalAnomalies_of_nested (threadOrdered_profiledEvents hordered o) hfit
    hnested
  have hkeys := fun t => Replay.mem_keys_of_opened o.strict (hnested t)
  have hanomalies : (r.profile o).anomalies =
      (Replay.run o.strict (r.profiledEvents o)).totalAnomalies := rfl
  rw [hanomalies, htotal, List.countP_eq_length_filter]
  generalize Replay.run o.strict (r.profiledEvents o) = replay at hkeys
  generalize hreplayed : things.filter (fun a => o.onlyThread.all (· == key a)) = replayed
  -- thread by thread the scopes left open are what stands for them
  have hleft : ∀ t, (if o.onlyThread.all (· == t) then opened t else []).length =
      replayed.countP (key · == t) := by
    intro t
    rw [← hreplayed, List.countP_filter]
    split
    · next hall =>
      rw [hcount]
      refine List.countP_congr fun a _ => ?_
      rw [Bool.and_eq_true, beq_iff_eq]
      exact ⟨fun ha => ⟨ha, ha ▸ hall⟩, And.left⟩
    · next hall =>
      refine (List.countP_eq_zero.mpr fun a _ hboth => ?_).symm
      rw [Bool.and_eq_true, beq_iff_eq] at hboth
      exact hall (hboth.1 ▸ hboth.2)
  simp only [hleft]
  refine congrArg (Anomalies.mk · 0 0 0) (replay.threads.sum_keys_countP key fun a ha =>
    hkeys _ fun hempty => ?_)
  have hzero := hleft (key a)
  rw [hempty, List.length_nil, eq_comm, List.countP_eq_zero] at hzero
  exact hzero a ha (beq_self_eq_true _)

end Recording

end EventTrace
