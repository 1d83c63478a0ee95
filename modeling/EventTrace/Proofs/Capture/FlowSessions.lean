import EventTrace.Proofs.Capture.FlowLinks
import EventTrace.Proofs.Flows
/-!
# Capture — flows and sessions

A flow handle does not know the session it was opened in. What it asks for is
recorded in whichever session runs at the call, under the number it was given,
and that number may by then be another flow's: every start begins the numbers
anew. Within one session no two openings share a number
(`Flowbook.opening_eq_of_flow`), so a session in which no earlier flow is
linked (`Flowbook.Timely`) has the links of its own flows only, and its chains
are of one flow each.
-/

namespace EventTrace

namespace Flowbook

open Capture

variable {b : Flowbook} {p : Program} {names : List (Option String)} {commands : List Command}
  {l l' : FlowLink} {s : PastSession}

/-! ## Starts -/

/-- Whether what a call opened was started by it. -/
def Starts (b : Flowbook) (opening : Nat) : Prop :=
  ∃ l ∈ b.links, l.opening = opening ∧ l.emission.kind = .flowStart

instance (b : Flowbook) (opening : Nat) : Decidable (b.Starts opening) :=
  inferInstanceAs (Decidable (∃ l ∈ b.links, _))

/-- No flow of before a session is linked in it. -/
def Timely (b : Flowbook) (s : PastSession) : Prop :=
  ∀ l ∈ b.links, s.minutes.started < l.place → l.place < s.stopped →
    s.minutes.started < l.opening

instance (b : Flowbook) (s : PastSession) : Decidable (b.Timely s) :=
  inferInstanceAs (Decidable (∀ l ∈ b.links, _))

/-- A start that is entered is where its flow is opened and given a number. -/
theorem drawn_of_entered {command : Command} (hl : l ∈ b.entered p command)
    (hstart : l.emission.kind = .flowStart) :
    l.opening = l.place ∧ ⟨l.place, l.emission.flow⟩ ∈ (b.after p command).draws := by
  obtain ⟨t, request, now, rfl, hthread, hplace, hopening, hremark⟩ := of_mem_entered hl
  -- a handle that is there starts no flow
  have hheld : ∀ {h : FlowHandle} {kind : Kind}, h.remark? kind = some l.emission →
      kind = .flowStart := fun hh => by
    rw [(remark?_eq_some hh).2] at hstart
    exact hstart
  have hdraws : (b.after p (.call t request now)).draws =
      b.draws ++ ((request.drawn? (p.reply t now request)).map (⟨p.place, ·⟩)).toList := by
    simp only [after, hthread, if_true, enter]
  suffices hdrawn : l.opening = p.place ∧
      request.drawn? (p.reply t now request) = some l.emission.flow by
    rw [hdraws, hdrawn.2, hplace]
    exact ⟨hdrawn.1, List.mem_append_right _ List.mem_cons_self⟩
  cases request with
  | startFlow id | openFlow id =>
    obtain ⟨-, hvalid, hspec⟩ := startFlow_spec p.capture t id now
    have hrunning : p.capture.running = true := by
      by_contra hidle
      simp [opening?, hidle] at hopening
    simp only [opening?, hrunning, if_true, Option.some.injEq] at hopening
    rw [hrunning] at hvalid hspec
    simp only [Program.remark?, Option.some.injEq] at hremark
    refine ⟨hopening.symm, ?_⟩
    simp only [Request.drawn?, Program.reply, Capture.openFlow, hvalid, if_true]
    rw [← hremark, hspec.1]
    rfl
  | stepHandle | endHandle | stepFlow | dropFlow =>
    obtain ⟨_, -, hremark⟩ := Option.bind_eq_some_iff.mp hremark
    exact absurd (hheld hremark) (by simp)
  | _ => exact absurd hopening (by simp [opening?])

/-- **A flow is started where it is opened**, under the number that is given
out there. -/
theorem drawn_of_start (names : List (Option String)) (commands : List Command) :
    ∀ l ∈ (of names commands).links, l.emission.kind = .flowStart →
      l.opening = l.place ∧ ⟨l.place, l.emission.flow⟩ ∈ (of names commands).draws := by
  induction commands using List.reverseRecOn with
  | nil => exact fun _ hl => absurd hl List.not_mem_nil
  | append_singleton commands command ih =>
    intro l hl hstart
    rw [of_append, links_after] at hl
    rw [of_append]
    rcases List.mem_append.mp hl with hl | hl
    · obtain ⟨hplace, hdrawn⟩ := ih l hl hstart
      exact ⟨hplace, (prefix_after _ _ _).2.subset hdrawn⟩
    · exact drawn_of_entered hl hstart

/-- The links of what a call opened are of one number. -/
theorem flow_eq_of_opening (hl : l ∈ (of names commands).links)
    (hl' : l' ∈ (of names commands).links) (hopening : l.opening = l'.opening) :
    l.emission.flow = l'.emission.flow := by
  rcases eq_or_of_pairwise (booked_run names commands).settled.sameFlow hl hl' with
    heq | hsame | hsame
  · rw [heq]
  · exact hsame hopening
  · exact (hsame hopening.symm).symm

/-- **In one session a number is one opening's.** -/
theorem opening_eq_of_flow (hs : s ∈ (Program.run names commands).past)
    (hfits : (((of names commands).drawsIn s.minutes.started s.stopped).length : Int) ≤
      TickRate.maxTicks)
    (hl : l ∈ (of names commands).links) (hl' : l' ∈ (of names commands).links)
    (hstarts : (of names commands).Starts l.opening)
    (hstarts' : (of names commands).Starts l'.opening)
    (hin : s.minutes.started < l.opening ∧ l.opening < s.stopped)
    (hin' : s.minutes.started < l'.opening ∧ l'.opening < s.stopped)
    (hflow : l.emission.flow = l'.emission.flow) : l.opening = l'.opening := by
  obtain ⟨start, hstart, hopening, hkind⟩ := hstarts
  obtain ⟨start', hstart', hopening', hkind'⟩ := hstarts'
  obtain ⟨hplace, hdrawn⟩ := drawn_of_start names commands start hstart hkind
  obtain ⟨hplace', hdrawn'⟩ := drawn_of_start names commands start' hstart' hkind'
  have hnodup := (nodup_flowNumbers hfits).1
  rw [← (numbered_run names commands).past s hs] at hnodup
  have hmem : ∀ {d : FlowDraw}, d ∈ (of names commands).draws →
      s.minutes.started < d.place → d.place < s.stopped →
        d ∈ (of names commands).drawsIn s.minutes.started s.stopped := fun hd hfirst hlast =>
    List.mem_filter.mpr ⟨hd, decide_eq_true ⟨hfirst, hlast⟩⟩
  have hsame : start.emission.flow = start'.emission.flow := by
    rw [flow_eq_of_opening hstart hl hopening, flow_eq_of_opening hstart' hl' hopening', hflow]
  rw [← hopening, hplace] at hin ⊢
  rw [← hopening', hplace'] at hin' ⊢
  exact congrArg FlowDraw.place (List.inj_on_of_nodup_map hnodup
    (hmem hdrawn hin.1 hin.2) (hmem hdrawn' hin'.1 hin'.2) hsame)

/-! ## Where links are recorded -/

/-- **A link is one emission**, whenever its flow was opened. -/
theorem capture_of_entered {E : List (CollectorId × Int)} {F : List CollectorId}
    (hsound : Program.Sound E F p) {command : Command} (hl : l ∈ b.entered p command) :
    ∃ t request now flow, command = .call t request now ∧
      (p.step command).capture = ({ p.capture with lastFlow := flow } : Capture).emit t
        l.emission now := by
  obtain ⟨t, request, now, rfl, hthread, -, -, hremark⟩ := of_mem_entered hl
  have hrequest : request ≠ .endThread := by
    rintro rfl
    exact absurd hremark (by simp [Program.remark?])
  obtain ⟨flow, hserve⟩ := hsound.capture_serve t now hrequest
  refine ⟨t, request, now, flow, rfl, ?_⟩
  simp only [Program.step, Program.obey, hthread, if_true, hserve, hremark]
  rfl

/-- Sessions that have a place in common are one. -/
theorem session_eq_of_inside (hs : s ∈ (Program.run names commands).past) {s' : PastSession}
    (hs' : s' ∈ (Program.run names commands).past) {place : Nat}
    (hin : s.minutes.started < place ∧ place < s.stopped)
    (hin' : s'.minutes.started < place ∧ place < s'.stopped) : s = s' := by
  rcases eq_or_of_pairwise (Program.minuted_run names commands).apart hs hs' with
    heq | hbefore | hbefore
  · exact heq
  · omega
  · omega

/-- What a timely session has on record was opened in it. -/
theorem Timely.inside (htimely : (of names commands).Timely s)
    (hs : s ∈ (Program.run names commands).past) {e : Event} (he : e ∈ s.recording.events)
    (hlink : linkOf? names commands s.minutes e = some l) :
    s.minutes.started < l.opening ∧ l.opening < s.stopped := by
  obtain ⟨hl, hstarted, hstopped, -⟩ := spec_of_linkOf? hs he hlink
  have hopening := ((booked_run names commands).settled.made l hl).2
  exact ⟨htimely l hl hstarted hstopped, Nat.lt_of_le_of_lt hopening hstopped⟩

/-! ## Chains -/

/-- Whether all links that a session has on record were made through handles
and flow scopes, of flows that these started. -/
def HandlesOnly (names : List (Option String)) (commands : List Command) (s : PastSession) :
    Prop :=
  ∀ e ∈ s.recording.events, e.kind.isFlow = true →
    ∃ l ∈ linkOf? names commands s.minutes e, (of names commands).Starts l.opening

instance (names : List (Option String)) (commands : List Command) (s : PastSession) :
    Decidable (HandlesOnly names commands s) :=
  inferInstanceAs (Decidable (∀ e ∈ s.recording.events, _))

/-- **A chain is of one flow**, as far as its flows were opened in the
session. -/
theorem opening_eq_of_chain (hs : s ∈ (Program.run names commands).past)
    (hfits : (((of names commands).drawsIn s.minutes.started s.stopped).length : Int) ≤
      TickRate.maxTicks)
    {row : Int × FlowChain} (hrow : row ∈ s.recording.flowChains) {e e' : Event}
    (he : e ∈ row.2.links) (he' : e' ∈ row.2.links)
    (hlink : linkOf? names commands s.minutes e = some l)
    (hlink' : linkOf? names commands s.minutes e' = some l')
    (hstarts : (of names commands).Starts l.opening)
    (hstarts' : (of names commands).Starts l'.opening)
    (hopened : s.minutes.started < l.opening) (hopened' : s.minutes.started < l'.opening) :
    l.opening = l'.opening := by
  obtain ⟨hevent, -, hflow⟩ := Recording.of_mem_links hrow he
  obtain ⟨hevent', -, hflow'⟩ := Recording.of_mem_links hrow he'
  obtain ⟨hl, -, hstopped, -, heq, -⟩ := spec_of_linkOf? hs hevent hlink
  obtain ⟨hl', -, hstopped', -, heq', -⟩ := spec_of_linkOf? hs hevent' hlink'
  have hmade := (booked_run names commands).settled.made
  refine opening_eq_of_flow hs hfits hl hl' hstarts hstarts'
    ⟨hopened, Nat.lt_of_le_of_lt (hmade l hl).2 hstopped⟩
    ⟨hopened', Nat.lt_of_le_of_lt (hmade l' hl').2 hstopped'⟩ ?_
  rw [← heq, ← heq', hflow, hflow']

end Flowbook

/-- **A link is recorded in the session that runs at the call**, not in the
one its flow was opened in. In every run, a call that links a flow is one
emission under the number the flow was given, whenever that was; and of every
session: what it has on record of a link was asked for while it ran; a chain
is of one flow as far as its flows were opened in the session, if the numbers
given out in it fit in a word; and if no earlier flow is linked while it runs,
each link it has is of a flow that was opened in it and in no other session,
and, if it was made through handles only, each of its chains is of one flow. -/
theorem flow_links_recorded_at_call (names : List (Option String)) (commands : List Command) :
    let p := Program.run names commands
    let b := Flowbook.of names commands
    (∀ command, ∀ l ∈ b.entered p command, ∃ t request now flow,
      command = .call t request now ∧
        (p.step command).capture = ({ p.capture with lastFlow := flow } : Capture).emit t
          l.emission now) ∧
    ∀ s ∈ p.past,
      (∀ e ∈ s.recording.events, ∀ l, Flowbook.linkOf? names commands s.minutes e = some l →
        l ∈ b.links ∧ s.minutes.started < l.place ∧ l.place < s.stopped ∧
          l.opening ≤ l.place ∧ e.kind = l.emission.kind ∧ e.flow = l.emission.flow ∧
          e.id = l.emission.id) ∧
      (((b.drawsIn s.minutes.started s.stopped).length : Int) ≤ TickRate.maxTicks →
        ∀ row ∈ s.recording.flowChains, ∀ e ∈ row.2.links, ∀ e' ∈ row.2.links, ∀ l l',
          Flowbook.linkOf? names commands s.minutes e = some l →
          Flowbook.linkOf? names commands s.minutes e' = some l' →
          b.Starts l.opening → b.Starts l'.opening →
          s.minutes.started < l.opening → s.minutes.started < l'.opening →
          l.opening = l'.opening) ∧
      (b.Timely s →
        (∀ e ∈ s.recording.events, ∀ l,
          Flowbook.linkOf? names commands s.minutes e = some l →
          s.minutes.started < l.opening ∧ ∀ s' ∈ p.past, s'.minutes.started < l.opening →
            l.opening < s'.stopped → s' = s) ∧
        (((b.drawsIn s.minutes.started s.stopped).length : Int) ≤ TickRate.maxTicks →
          Flowbook.HandlesOnly names commands s → ∀ row ∈ s.recording.flowChains,
          ∃ opening, ∀ e ∈ row.2.links, ∃ l,
            Flowbook.linkOf? names commands s.minutes e = some l ∧ l.opening = opening)) := by
  intro p b
  obtain ⟨E, F, hsound⟩ := Program.sound_run names commands
  have hmade := (Flowbook.booked_run names commands).settled.made
  refine ⟨fun command l hl => Flowbook.capture_of_entered hsound hl, fun s hs => ⟨?_, ?_, ?_⟩⟩
  · intro e he l hlink
    obtain ⟨hl, hstarted, hstopped, hevent⟩ := Flowbook.spec_of_linkOf? hs he hlink
    exact ⟨hl, hstarted, hstopped, (hmade l hl).2, hevent⟩
  · intro hfits row hrow e he e' he' l l' hlink hlink'
    exact Flowbook.opening_eq_of_chain hs hfits hrow he he' hlink hlink'
  · intro htimely
    refine ⟨fun e he l hlink => ?_, fun hfits hhandles row hrow => ?_⟩
    · have hin := htimely.inside hs he hlink
      exact ⟨hin.1, fun s' hs' hstarted hstopped =>
        (Flowbook.session_eq_of_inside hs hs' hin ⟨hstarted, hstopped⟩).symm⟩
    · -- the first link of the chain says which flow it is
      have hlinked : ∀ e ∈ row.2.links, ∃ l,
          Flowbook.linkOf? names commands s.minutes e = some l ∧ b.Starts l.opening ∧
            s.minutes.started < l.opening := by
        intro e he
        obtain ⟨hevent, hkind, -⟩ := Recording.of_mem_links hrow he
        obtain ⟨l, hlink, hstarts⟩ := hhandles e hevent hkind
        exact ⟨l, hlink, hstarts, (htimely.inside hs hevent hlink).1⟩
      have hfirst : row.2.first ∈ row.2.links := List.mem_cons_self
      obtain ⟨first, hlink, hstarts, hopened⟩ := hlinked row.2.first hfirst
      refine ⟨first.opening, fun e he => ?_⟩
      obtain ⟨l, hlink', hstarts', hopened'⟩ := hlinked e he
      exact ⟨l, hlink', Flowbook.opening_eq_of_chain hs hfits hrow he hfirst hlink' hlink
        hstarts' hstarts hopened' hopened⟩

/-- Two sessions with a flow each that is handed from thread to thread, under
one number; another is left open. -/
def Command.ownFlows : List Command :=
  [.start {} 0, .call 0 (.startFlow 7) ⟨1, 1⟩, .call 1 (.stepHandle 0) ⟨2, 2⟩,
    .call 1 (.endHandle 0) ⟨3, 3⟩, .stop 4, .start {} 5, .call 1 (.openFlow 8) ⟨6, 6⟩,
    .call 0 (.startFlow 9) ⟨7, 7⟩, .call 0 (.dropFlow 0) ⟨8, 8⟩, .stop 9]

/-- Each session has the chain of its own flow. -/
theorem flow_links_recorded_at_call_ownFlows :
    let p := Program.run [none, none] Command.ownFlows
    let b := Flowbook.of [none, none] Command.ownFlows
    let last : Command := .call 1 (.endHandle 1) ⟨10, 10⟩
    let ended : FlowLink := ⟨10, 7, { id := 9, kind := .flowEnd, flow := 2 }⟩
    p.past.map (fun s => s.recording.flowChains.map fun row =>
      (row.1, row.2.links.map fun e => (e.id, e.kind))) =
      [[(1, [(7, .flowStart), (7, .flowStep), (7, .flowEnd)])],
        [(1, [(8, .flowStart), (8, .flowEnd)])]] ∧
    (ended ∈ b.entered p last ∧ ∃ t request now flow, last = .call t request now ∧
      (p.step last).capture = ({ p.capture with lastFlow := flow } : Capture).emit t
        ended.emission now) ∧
    ∀ s ∈ p.past, b.Timely s ∧ Flowbook.HandlesOnly [none, none] Command.ownFlows s ∧
      ((b.drawsIn s.minutes.started s.stopped).length : Int) ≤ TickRate.maxTicks ∧
      (∃ row ∈ s.recording.flowChains,
        ∃ l ∈ Flowbook.linkOf? [none, none] Command.ownFlows s.minutes row.2.first,
        ∃ l' ∈ Flowbook.linkOf? [none, none] Command.ownFlows s.minutes row.2.last,
          l.place < s.stopped ∧ l.opening = l'.opening ∧
          ∀ s' ∈ p.past, s'.minutes.started < l.opening → l.opening < s'.stopped → s' = s) ∧
      ∀ row ∈ s.recording.flowChains, ∃ opening, ∀ e ∈ row.2.links, ∃ l,
        Flowbook.linkOf? [none, none] Command.ownFlows s.minutes e = some l ∧
          l.opening = opening := by
  intro p b last ended
  obtain ⟨hemission, hsessions⟩ := flow_links_recorded_at_call [none, none] Command.ownFlows
  have hended : ended ∈ b.entered p last := by decide +kernel
  have hall : ∀ s ∈ p.past, b.Timely s ∧ Flowbook.HandlesOnly [none, none] Command.ownFlows s ∧
      ((b.drawsIn s.minutes.started s.stopped).length : Int) ≤ TickRate.maxTicks := by
    decide +kernel
  have hlinked : ∀ s ∈ p.past, ∃ row ∈ s.recording.flowChains,
      ∃ l ∈ Flowbook.linkOf? [none, none] Command.ownFlows s.minutes row.2.first,
      ∃ l' ∈ Flowbook.linkOf? [none, none] Command.ownFlows s.minutes row.2.last,
        b.Starts l.opening ∧ b.Starts l'.opening ∧ s.minutes.started < l.opening ∧
          s.minutes.started < l'.opening := by
    decide +kernel
  refine ⟨by decide +kernel, ⟨hended, hemission last ended hended⟩, fun s hs => ?_⟩
  obtain ⟨htimely, hhandles, hfits⟩ := hall s hs
  obtain ⟨row, hrow, l, hlink, l', hlink', hstarts, hstarts', hopened, hopened'⟩ := hlinked s hs
  obtain ⟨hrecorded, hchains, hown⟩ := hsessions s hs
  obtain ⟨hinside, hone⟩ := hown htimely
  have hfirst : row.2.first ∈ row.2.links := List.mem_cons_self
  have hlast : row.2.last ∈ row.2.links := List.mem_append_right _ List.mem_cons_self
  have hevent := (Recording.of_mem_links hrow hfirst).1
  exact ⟨htimely, hhandles, hfits,
    ⟨row, hrow, l, hlink, l', hlink', (hrecorded _ hevent l hlink).2.2.1,
      hchains hfits row hrow _ hfirst _ hlast l l' hlink hlink' hstarts hstarts' hopened hopened',
      (hinside _ hevent l hlink).2⟩,
    hone hfits hhandles⟩

/-- A flow that is left open in one session and ended in the next, after
another has been started there under its number. -/
def Command.staleHandle : List Command :=
  [.start {} 0, .call 0 (.startFlow 7) ⟨1, 1⟩, .stop 2, .start {} 3,
    .call 0 (.startFlow 8) ⟨4, 4⟩, .call 0 (.endHandle 0) ⟨5, 5⟩, .stop 6]

/-- The later session has the end of a flow that was opened in the earlier
one, and makes a chain of it with the start of its own, though it was captured
through handles only. -/
theorem flow_ends_elsewhere_staleHandle :
    let p := Program.run [none] Command.staleHandle
    p.past.map (fun s => s.recording.events.map fun e => (e.id, e.kind, e.flow)) =
      [[(7, .flowStart, 1)], [(8, .flowStart, 1), (7, .flowEnd, 1)]] ∧
    (∃ s' ∈ p.past, ∃ s ∈ p.past, s'.stopped < s.minutes.started ∧
      ∃ e ∈ s.recording.events, e.kind = .flowEnd ∧
        ∃ l ∈ Flowbook.linkOf? [none] Command.staleHandle s.minutes e,
          s'.minutes.started < l.opening ∧ l.opening < s'.stopped) ∧
    ∃ s ∈ p.past, Flowbook.HandlesOnly [none] Command.staleHandle s ∧
      ∃ row ∈ s.recording.flowChains,
        ∃ l ∈ Flowbook.linkOf? [none] Command.staleHandle s.minutes row.2.first,
        ∃ l' ∈ Flowbook.linkOf? [none] Command.staleHandle s.minutes row.2.last,
          l.opening ≠ l'.opening := by
  refine ⟨?_, ?_, ?_⟩
  · decide +kernel
  · decide +kernel
  · decide +kernel

end EventTrace
