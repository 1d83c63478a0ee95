import EventTrace.Proofs.Depot.Pacing
import EventTrace.Proofs.Depot.Roomy
import EventTrace.Proofs.Sampling
/-!
# Depot — what writers sample in a run

The tests of a writer learn of its own writes and of nothing else: whatever
other writers do, and whoever comes, leaves or is closed meanwhile, they are
as its own history left them (`KeepsTests`, `Drawn.step`). So in every run a
writer samples as its history says: of the draws at a rate the first of every
so many is kept, and no scope is split (`sampling_fair`).
-/

namespace EventTrace

open Depot

/-- An event that was written got past filter and sampling, and where nothing
else is in its way any other is written too. -/
structure Screening.Settled (o : Options) (x : Screening) : Prop where
  kept : x.written = true → x.kept = true
  written : o.isUncapped = true → o.maxEventsPerSecond = 0 → x.kept = true → x.written = true

namespace Depot

variable {d d' e : Depot} {c : ChunkId} {k j : CollectorId} {w v : WriterId} {s : Writer}
  {F : List CollectorId}

/-! ## The history of a writer -/

/-- What a writer's tests say of a call, if they are asked. -/
def screening? (d : Depot) (w : WriterId) : Call → Option Screening
  | .write v e now =>
    if v = w ∧ (d.reaches w).isSome then
      (d.writer? w).map fun s =>
        { id := e.id, kind := e.kind, verdict := (s.screen.screen e.id e.kind now.arrival).1,
          written := (d.write w e now).1 }
    else none
  | _ => none

/-- What a writer's tests say in the course of some calls. -/
def screenings (d : Depot) (w : WriterId) : List Call → List Screening
  | [] => []
  | c :: calls => (d.screening? w c).toList ++ (c.apply d).screenings w calls

theorem screenings_concat (d : Depot) (w : WriterId) (calls : List Call) (c : Call) :
    d.screenings w (calls ++ [c]) =
      d.screenings w calls ++ ((calls.foldl Call.apply d).screening? w c).toList := by
  induction calls generalizing d with
  | nil => simp [screenings]
  | cons b calls ih => simp [screenings, ih]

/-- A history that may have grown by an event is cut at that event or before
it. -/
theorem cut_of_append {log before after : List Screening} {y? : Option Screening} {x : Screening}
    (h : log ++ y?.toList = before ++ x :: after) :
    (y? = some x ∧ log = before) ∨ ∃ rest, log = before ++ x :: rest := by
  cases y? with
  | none => exact .inr ⟨after, by simpa using h⟩
  | some y =>
    rcases List.eq_nil_or_concat after with rfl | ⟨rest, z, rfl⟩
    · obtain ⟨hlog, hy⟩ := List.append_inj' h rfl
      exact .inl ⟨by simpa using hy, hlog⟩
    · have h : log ++ [y] = (before ++ x :: rest) ++ [z] := by simpa using h
      exact .inr ⟨rest, (List.append_inj' h rfl).1⟩

/-- Only a write to its own session has a writer's tests asked. -/
theorem screening?_eq_some {call : Call} {x : Screening} (h : d.screening? w call = some x) :
    ∃ em now s k, call = .write w em now ∧ d.reaches w = some k ∧ d.writer? w = some s ∧
      s.collector = some k ∧ x.id = em.id ∧ x.kind = em.kind ∧
      x.verdict = (s.screen.screen em.id em.kind now.arrival).1 ∧
      x.written = (d.write w em now).1 := by
  cases call with
  | write v em now =>
    simp only [screening?, Option.ite_none_right_eq_some, Option.map_eq_some_iff] at h
    obtain ⟨⟨rfl, hreach⟩, s, hw, rfl⟩ := h
    obtain ⟨k, hk⟩ := Option.isSome_iff_exists.mp hreach
    obtain ⟨r, hr, hs, -⟩ := reaches_eq_some.mp hk
    obtain rfl : s = r := Option.some.inj (hw.symm.trans hr)
    exact ⟨em, now, s, k, rfl, hk, hw, hs, rfl, rfl, rfl, rfl⟩
  | _ => exact absurd h (by simp [screening?])

theorem screening?_write (hreach : d.reaches w = some k) (hw : d.writer? w = some s)
    (em : Emission) (now : Reading) : d.screening? w (.write w em now) =
      some { id := em.id, kind := em.kind,
             verdict := (s.screen.screen em.id em.kind now.arrival).1,
             written := (d.write w em now).1 } := by
  simp [screening?, hreach, hw]

theorem screening?_write_of_ne (h : v ≠ w) (em : Emission) (now : Reading) :
    d.screening? w (.write v em now) = none := by
  simp [screening?, h]

/-! ## Writers and their tests -/

/-- Writers keep their tests, and change their sessions only for none. -/
def KeepsTests (d d' : Depot) : Prop :=
  ∀ w s', d'.writer? w = some s' → ∃ s, d.writer? w = some s ∧ s'.screen = s.screen ∧
    (s'.collector = s.collector ∨ s'.collector = none)

namespace KeepsTests

theorem of_writers (h : d'.writers = d.writers) : KeepsTests d d' := by
  intro w s' hw
  rw [writer?, h] at hw
  exact ⟨s', hw, rfl, .inl rfl⟩

theorem of_staff (h : SameStaff d d') : KeepsTests d d' := by
  intro w s' hw
  obtain ⟨s, hw, hscreen, -, -, hcollector⟩ := h.writer w s' hw
  exact ⟨s, hw, hscreen, hcollector⟩

theorem of_moves (h : Moves d d') : KeepsTests d d' := .of_staff (sameStaff_moves h)

theorem accept (d : Depot) (k : CollectorId) (w : WriterId) (c : ChunkId) (event : Event) :
    KeepsTests d (d.accept k w c event) := by
  intro v s' hv
  obtain ⟨s, hs, rfl⟩ := exists_writer?_accept hv
  exact ⟨s, hs, rfl, .inl rfl⟩

theorem trans (h : KeepsTests d d') (h' : KeepsTests d' e) : KeepsTests d e := by
  intro w s'' hw
  obtain ⟨s', hw', hscreen', hcollector'⟩ := h' w s'' hw
  obtain ⟨s, hw, hscreen, hcollector⟩ := h w s' hw'
  refine ⟨s, hw, hscreen'.trans hscreen, ?_⟩
  rcases hcollector' with heq | hnone
  · rw [heq]
    exact hcollector
  · exact .inr hnone

/-- A writer that is in a session was in it, with the same tests. -/
theorem same (h : KeepsTests d d') {s' : Writer} (hw : d'.writer? w = some s')
    (hk : s'.collector = some k) :
    ∃ s, d.writer? w = some s ∧ s.collector = some k ∧ s'.screen = s.screen := by
  obtain ⟨s, hs, hscreen, hcollector⟩ := h w s' hw
  refine ⟨s, hs, ?_, hscreen⟩
  rcases hcollector with heq | hnone
  · rw [← heq, hk]
  · exact absurd (hnone.symm.trans hk) (by simp)

end KeepsTests

/-- **A write that reaches its session is heard by its writer's tests**, and
by no others. -/
theorem Owned.keepsTests_write (h : Owned d) (hreach : d.reaches w = some k)
    (hw : d.writer? w = some s) (em : Emission) (now : Reading) :
    KeepsTests (d.rescreen w (s.screen.screen em.id em.kind now.arrival).2)
      (d.write w em now).2 := by
  have hsame : ∀ {r : Writer}, d.writer? w = some r → r = s := fun hr =>
    Option.some.inj (hr.symm.trans hw)
  have hends := h.writeEnds w em now
  generalize d.write w em now = r at hends ⊢
  cases hends with
  | closed hnone => exact absurd (hreach.symm.trans hnone) (by simp)
  | filtered _ hr _ _ hscreen =>
    obtain rfl := hsame hr
    exact hscreen ▸ .of_writers rfl
  | refused _ hr _ _ hscreen hbefore hrefuses hafter =>
    obtain rfl := hsame hr
    subst hscreen
    exact ((KeepsTests.of_moves hbefore).trans (.of_writers hrefuses.sameWriters)).trans
      (.of_moves hafter)
  | written _ hr _ _ hscreen hbefore _ _ _ hagree =>
    obtain rfl := hsame hr
    subst hscreen
    exact ((KeepsTests.of_moves hbefore).trans (.accept _ _ _ _ _)).trans
      (.of_writers hagree.sameWriters)

/-- **Only writers that come and writes change tests.** -/
theorem keepsTests_call {call : Call} (d : Depot)
    (hnew : ∀ k thread name, call = .newWriter k thread name → ¬ k < d.collectors.size)
    (hwrite : ∀ w em now, call = .write w em now → d.reaches w = none) :
    KeepsTests d (call.apply d) := by
  cases call with
  | newCollector o => exact .of_writers rfl
  | newWriter k thread name =>
    rw [Call.apply, if_neg (hnew k thread name rfl)]
    exact .of_writers rfl
  | write w em now =>
    rw [Call.apply, write_of_not_reaches (hwrite w em now rfl)]
    exact .of_moves (moves_detach d w)
  | detach w => exact .of_moves (moves_detach d w)
  | dropWriter w => exact .of_moves (moves_dropWriter d w)
  | close k => exact .of_writers rfl
  | closeWriters k => exact .of_writers (agree_closeWriters d k).sameWriters
  | freeze k => exact .of_staff (sameStaff_freeze d k)

/-- What a write comes to, by what the tests said of its event. -/
theorem Owned.settled_write (h : Owned d) (hreach : d.reaches w = some k)
    (hw : d.writer? w = some s)
    (hlimit : s.screen.window.limit = (d.collector k).options.maxEventsPerSecond)
    (em : Emission) (now : Reading) {x : Screening}
    (hverdict : x.verdict = (s.screen.screen em.id em.kind now.arrival).1)
    (hwritten : x.written = (d.write w em now).1) :
    x.Settled (d.collector k).options where
  kept hdone := by
    rw [hwritten, write_of_reaches hreach hw] at hdone
    dsimp only at hdone
    rw [Screening.kept, hverdict]
    split at hdone
    · simp at hdone
    · simp at hdone
    · simp at hdone
    · next hpassed =>
      rw [hpassed]
      rfl
  written hroom hunlimited hkept := by
    obtain ⟨r, hr, hs, hclosed⟩ := reaches_eq_some.mp hreach
    obtain rfl : s = r := Option.some.inj (hw.symm.trans hr)
    have hopen := open_of_reaches hreach
    have hlink : d.isLinkClosed s.link = false := by
      rw [isWriterClosed, Bool.or_eq_false_iff] at hclosed
      exact hclosed.1
    rw [hwritten, (h.write_uncapped hw hs hlink hopen hroom em now).passed, ← hverdict]
    rw [Screening.kept] at hkept
    cases hv : x.verdict with
    | passed => rfl
    | filtered | sampledOut => exact absurd hkept (by simp [hv, Verdict.keeps])
    | rateLimited =>
      -- only a limit turns events away for their rate
      have hpositive := (Screen.full_of_rateLimited (hverdict.symm.trans hv)).1
      omega

end Depot

/-! ## Runs -/

namespace Chronicle

variable {h : Chronicle} {log : WriterId → List Screening} {k : CollectorId} {w : WriterId}

/-- Every writer's tests remember the history of that writer, and its events
became what the history says. -/
structure Drawn (h : Chronicle) (log : WriterId → List Screening) : Prop where
  staffed : Staffed h
  posted : Posted h.frozen h.depot
  placed : ∀ w k, h.home w = some k → k < h.depot.collectors.size
  unborn : ∀ w, h.home w = none → log w = []
  tracks : ∀ w s k, h.depot.writer? w = some s → s.collector = some k →
    s.screen.Tracks (h.depot.collector k).options (log w) ∧
      s.screen.window.limit = (h.depot.collector k).options.maxEventsPerSecond
  fair : ∀ w k, h.home w = some k → ∀ before x after, log w = before ++ x :: after →
    x.Fair (h.depot.collector k).options before ∧ x.Settled (h.depot.collector k).options

theorem drawn_start (capacity : Nat) :
    Drawn { depot := .ofCapacity capacity } fun _ => [] where
  staffed := staffed_start capacity
  posted := .ofCapacity capacity
  placed _ _ hw := absurd hw (by simp [home])
  unborn _ _ := rfl
  tracks _ _ _ hw := absurd hw (by simp [writer?, Depot.ofCapacity])
  fair _ _ hw := absurd hw (by simp [home])

theorem depot_ofCalls (capacity : Nat) (calls : List Call) :
    (ofCalls capacity calls).depot = calls.foldl Call.apply (Depot.ofCapacity capacity) := by
  induction calls using List.reverseRecOn with
  | nil => rfl
  | append_singleton calls c ih =>
    rw [List.foldl_concat, ← ih, ofCalls, List.foldl_concat]
    rfl

theorem home_of_writer? (hs : Staffed h) {s : Writer} (hw : h.depot.writer? w = some s)
    (hk : s.collector = some k) : h.home w = some k := by
  rw [home, hs.home_eq hw hk]
  rfl

namespace Drawn

/-- The writers that were on record are in the same sessions, whose options
are the same. -/
theorem options_call (hd : Drawn h log) (c : Call) (hw : h.home w = some k) :
    ((c.apply h.depot).collector k).options = (h.depot.collector k).options :=
  (hd.posted.watched_op (o := .call c) fun _ hk => absurd hk (by simp [Op.tallies?])).options k
    (hd.placed w k hw)

theorem size_call (hd : Drawn h log) (c : Call) (hk : k < h.depot.collectors.size) :
    k < (c.apply h.depot).collectors.size :=
  Nat.lt_of_lt_of_le hk
    (hd.posted.watched_op (o := .call c) fun _ hk => absurd hk (by simp [Op.tallies?])).size

/-- **A writer's next event becomes what its history says.** -/
theorem fair_screening? (hd : Drawn h log) {c : Call} {x : Screening}
    (hx : h.depot.screening? w c = some x) (hw : h.home w = some k) :
    x.Fair (h.depot.collector k).options (log w) ∧ x.Settled (h.depot.collector k).options := by
  obtain ⟨em, now, s, j, rfl, hreach, hs, hj, hid, hkind, hverdict, hwritten⟩ :=
    screening?_eq_some hx
  obtain rfl : k = j := Option.some.inj (hw.symm.trans (home_of_writer? hd.staffed hs hj))
  obtain ⟨htracks, hlimit⟩ := hd.tracks w s k hs hj
  have hsaid := hverdict
  rw [← hid, ← hkind] at hsaid
  exact ⟨htracks.fair hsaid,
    hd.posted.owned.settled_write hreach hs hlimit em now hverdict hwritten⟩

/-- **What a writer's tests remember after a call** is what they said of it
too. -/
theorem tracks_call (hd : Drawn h log) (c : Call) {s' : Writer}
    (hnew : ∀ k thread name, c = .newWriter k thread name → ¬ k < h.depot.collectors.size)
    (hw : (c.apply h.depot).writer? w = some s') (hk : s'.collector = some k) :
    s'.screen.Tracks (h.depot.collector k).options
        (log w ++ (h.depot.screening? w c).toList) ∧
      s'.screen.window.limit = (h.depot.collector k).options.maxEventsPerSecond := by
  by_cases hwrite : ∃ v em now j, c = .write v em now ∧ h.depot.reaches v = some j
  · obtain ⟨v, em, now, j, rfl, hreach⟩ := hwrite
    obtain ⟨r, hr, hrj, -⟩ := reaches_eq_some.mp hreach
    obtain ⟨s₁, hs₁, hj₁, hscreen⟩ :=
      (hd.posted.owned.keepsTests_write hreach hr em now).same hw hk
    by_cases hv : v = w
    · subst hv
      rw [writer?_rescreen hr, Option.some.injEq] at hs₁
      subst hs₁
      obtain rfl : j = k := Option.some.inj (hrj.symm.trans hj₁)
      obtain ⟨htracks, hlimit⟩ := hd.tracks v r j hr hrj
      rw [screening?_write hreach hr, Option.toList_some, hscreen]
      refine ⟨htracks.screen (x := ⟨em.id, em.kind, _, _⟩) rfl, ?_⟩
      rw [← hlimit]
      exact Screen.limit_screen r.screen em.id em.kind now.arrival
    · rw [rescreen, writer?_modifyWriter_of_ne (Ne.symm hv)] at hs₁
      rw [screening?_write_of_ne hv, Option.toList_none, List.append_nil, hscreen]
      exact hd.tracks w s₁ k hs₁ hj₁
  · have hreaches : ∀ v em now, c = .write v em now → h.depot.reaches v = none :=
      fun v em now hc => Option.eq_none_iff_forall_ne_some.mpr fun j hj =>
        hwrite ⟨v, em, now, j, hc, hj⟩
    have hnone : h.depot.screening? w c = none :=
      Option.eq_none_iff_forall_ne_some.mpr fun x hx => by
        obtain ⟨em, now, -, j, hc, hreach, -⟩ := screening?_eq_some hx
        exact hwrite ⟨w, em, now, j, hc, hreach⟩
    obtain ⟨s, hs, hj, hscreen⟩ := (keepsTests_call h.depot hnew hreaches).same hw hk
    rw [hnone, Option.toList_none, List.append_nil, hscreen]
    exact hd.tracks w s k hs hj

/-- Who is not on record is asked nothing. -/
theorem screening?_eq_none (hd : Drawn h log) (hw : h.home w = none) (c : Call) :
    h.depot.screening? w c = none :=
  Option.eq_none_iff_forall_ne_some.mpr fun x hx => by
    obtain ⟨em, now, s, k, -, -, hs, hk, -⟩ := screening?_eq_some hx
    rw [home_of_writer? hd.staffed hs hk] at hw
    exact absurd hw (by simp)

/-- **A call that takes no one on adds to the histories what it has the tests
say.** -/
theorem step_of_enrolled (hd : Drawn h log) (c : Call)
    (hnew : ∀ k thread name, c = .newWriter k thread name → ¬ k < h.depot.collectors.size)
    (henrolled : (h.step c).enrolled = h.enrolled) :
    Drawn (h.step c) fun w => log w ++ (h.depot.screening? w c).toList := by
  have hstaffed := hd.staffed.step hd.posted.owned c
  have hhome : ∀ w, (h.step c).home w = h.home w := fun w => by rw [home, home, henrolled]
  have hoptions : ∀ {w k}, h.home w = some k →
      ((h.step c).depot.collector k).options = (h.depot.collector k).options :=
    fun hw => hd.options_call c hw
  refine ⟨hstaffed, hd.posted.call c, ?_, ?_, ?_, ?_⟩
  · intro w k hw
    rw [hhome] at hw
    exact hd.size_call c (hd.placed w k hw)
  · intro w hw
    rw [hhome] at hw
    rw [hd.unborn w hw, hd.screening?_eq_none hw]
    rfl
  · intro w s k hw hk
    have hrecord := home_of_writer? hstaffed hw hk
    rw [hhome] at hrecord
    rw [hoptions hrecord]
    exact hd.tracks_call c hnew hw hk
  · intro w k hw before x after hcut
    rw [hhome] at hw
    rw [hoptions hw]
    rcases cut_of_append hcut with ⟨hx, rfl⟩ | ⟨rest, hlog⟩
    · exact hd.fair_screening? hx hw
    · exact hd.fair w k hw before x rest hlog

/-- **Who comes has no history**, and changes no one's. -/
theorem newWriter (hd : Drawn h log) (hk : k < h.depot.collectors.size) (thread : Int)
    (name : Option String) : Drawn (h.step (.newWriter k thread name)) log := by
  have hstaffed := hd.staffed.step hd.posted.owned (.newWriter k thread name)
  have hdepot := depot_newWriter hk thread name
  have henrolled := enrolled_newWriter hk thread name
  have hposted := hd.posted.call (.newWriter k thread name)
  have hsolo := solo_newWriter h.depot k thread name
  have hlast : h.home h.depot.writers.size = none := by
    rw [home, ← hd.staffed.length, List.getElem?_eq_none (Nat.le_refl _)]
    rfl
  -- whoever is on record was, or has just come and has no history
  have hhome : ∀ w j, (h.step (.newWriter k thread name)).home w = some j →
      h.home w = some j ∨ (w = h.depot.writers.size ∧ j = k) := by
    intro w j hw
    rw [home, henrolled, List.getElem?_append] at hw
    split at hw
    · exact .inl hw
    · next hge =>
      rw [List.getElem?_singleton] at hw
      split at hw
      · next hzero =>
        obtain rfl : k = j := Option.some.inj hw
        refine .inr ⟨?_, rfl⟩
        rw [← hd.staffed.length]
        exact Nat.le_antisymm (Nat.le_of_sub_eq_zero hzero) (Nat.le_of_not_lt hge)
      · exact absurd hw (by simp)
  refine ⟨hstaffed, hposted, ?_, ?_, ?_, ?_⟩
  · intro w j hw
    refine hd.size_call _ ?_
    rcases hhome w j hw with hw | ⟨-, rfl⟩
    · exact hd.placed w j hw
    · exact hk
  · intro w hw
    refine hd.unborn w ?_
    rw [home, henrolled, Option.map_eq_none_iff, List.getElem?_eq_none_iff,
      List.length_append, List.length_singleton] at hw
    have hge : h.enrolled.length ≤ w := by omega
    rw [home, List.getElem?_eq_none hge]
    rfl
  · intro w s j hw hj
    rw [hdepot, hsolo.options]
    rw [hdepot] at hw
    by_cases hnew : w = h.depot.writers.size
    · rw [hnew, (writer?_newWriter h.depot k thread name).1, Option.some.injEq] at hw
      subst hw
      obtain rfl : k = j := Option.some.inj hj
      rw [hnew, hd.unborn _ hlast]
      exact ⟨Screen.tracks_ofOptions _, rfl⟩
    · rw [hsolo.others w hnew] at hw
      exact hd.tracks w s j hw hj
  · intro w j hw before x after hcut
    rw [hdepot, hsolo.options]
    rcases hhome w j hw with hw | ⟨rfl, -⟩
    · exact hd.fair w j hw before x after hcut
    · rw [hd.unborn _ hlast] at hcut
      exact absurd hcut (by simp)

/-- **Every call adds to the histories what it has the tests say.** -/
theorem step (hd : Drawn h log) (c : Call) :
    Drawn (h.step c) fun w => log w ++ (h.depot.screening? w c).toList := by
  by_cases hcomes : ∃ k thread name, c = .newWriter k thread name ∧ k < h.depot.collectors.size
  · obtain ⟨k, thread, name, rfl, hk⟩ := hcomes
    simpa only [screening?, Option.toList_none, List.append_nil] using hd.newWriter hk thread name
  · have hnew : ∀ k thread name, c = .newWriter k thread name → ¬ k < h.depot.collectors.size :=
      fun k thread name hc hk => hcomes ⟨k, thread, name, hc, hk⟩
    refine hd.step_of_enrolled c hnew ?_
    cases c with
    | newWriter k thread name => exact if_neg (hnew k thread name rfl)
    | _ => rfl

/-- **In every run the tests remember the history of their writer.** -/
theorem ofCalls (capacity : Nat) (calls : List Call) :
    Drawn (Chronicle.ofCalls capacity calls)
      fun w => (Depot.ofCapacity capacity).screenings w calls := by
  induction calls using List.reverseRecOn with
  | nil => exact drawn_start capacity
  | append_singleton calls c ih =>
    have hrun := ofCalls_concat capacity calls c
    have hdepot : (Chronicle.ofCalls capacity calls).depot =
        calls.foldl Call.apply (Depot.ofCapacity capacity) := depot_ofCalls capacity calls
    have hstep := ih.step c
    rw [hdepot] at hstep
    simpa only [hrun, screenings_concat] using hstep

end Drawn

end Chronicle

/-- **Sampling keeps exactly one in so many and never splits a scope.** In
every run each event of a writer that its tests are asked about is filtered if
its id is not recorded. Of the others, the draws on the count of an id, of its
own or of all without one, are kept exactly if they are the first of every so
many or the rate leaves nothing out; links of flows are kept. While scopes
nest, an end is kept exactly if the begin it closes was, and an end that closes
nothing is kept, so the kept scopes nest again and the open ones among them
are those kept. What was written was kept, and where neither a cap nor a rate
limit is in the way what was kept was written. -/
theorem sampling_fair (capacity : Nat) (calls : List Call) {w : WriterId} {k : CollectorId}
    (hw : (Chronicle.ofCalls capacity calls).home w = some k) :
    let o := ((Chronicle.ofCalls capacity calls).depot.collector k).options
    let log := (Depot.ofCapacity capacity).screenings w calls
    (∀ before x after, log = before ++ x :: after → x.Fair o before ∧ x.Settled o) ∧
      ∀ opened, openBegins? log = some opened →
        openBegins? (log.filter Screening.kept) = some (opened.filter Screening.kept) := by
  intro o log
  have hfair := (Chronicle.Drawn.ofCalls capacity calls).fair w k hw
  refine ⟨hfair, fun opened hopened => ?_⟩
  refine openBegins?_filter Screening.kept ?_ hopened
  intro before x after b rest hcut hkind hbefore hid
  exact (hfair before x after hcut).1.closing hkind b rest hbefore hid

namespace Call

/-- Ids of one category are not recorded, and the rest is sampled: one event in
two, and of one id one in three. -/
def thinned : Options where
  sampleEvery := 2
  sampleEveryById := (Table.empty).insert 5 3
  disabledCategories := ["io"]
  metadata := some (Dictionary.provider (Dictionary.add {} 9 "read" (some "io")))

/-- A writer opens scopes in scopes, some of them of an id that is not
recorded, with other events between. -/
def nestedWrites : List Call :=
  let write (id : Int) (kind : Kind) : Call := .write 0 { id, kind } ⟨0, 0⟩
  [.newCollector thinned, .newWriter 0 1 none,
    write 1 .scopeBegin, write 9 .scopeBegin, write 5 .instant, write 2 .scopeBegin,
    write 5 .counter, write 2 .scopeEnd, write 9 .scopeEnd, write 3 .flowStart,
    write 5 .instant, write 1 .scopeEnd, write 5 .instant, write 4 .scopeEnd]

end Call

/-- Of the draws of id 5 the first and the fourth are kept, of the other two
the first; the scope in the one that is not recorded is left out whole. -/
theorem sampling_fair_nestedWrites :
    let o := ((Chronicle.ofCalls 8 Call.nestedWrites).depot.collector 0).options
    let log := (Depot.ofCapacity 8).screenings 0 Call.nestedWrites
    (log.map Screening.kept = [true, false, true, false, false, false, false, true,
        false, true, true, true] ∧ openBegins? log = some []) ∧
      (∀ before x after, log = before ++ x :: after → x.Fair o before ∧ x.Settled o) ∧
      openBegins? (log.filter Screening.kept) = some [] := by
  obtain ⟨hfair, hnested⟩ := sampling_fair 8 Call.nestedWrites (w := 0) (k := 0) (by decide)
  refine ⟨by decide +kernel, hfair, hnested [] (by decide +kernel)⟩

end EventTrace
