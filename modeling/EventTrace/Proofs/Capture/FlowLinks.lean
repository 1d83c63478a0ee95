import EventTrace.Proofs.Capture.FlowNumbers
import EventTrace.Proofs.Capture.Tracing
import Mathlib.Data.List.Pairwise
/-!
# Capture — well-formed flows

The book of a program has the links that were asked for, and a recording has
those of them that were recorded, each once and in one session at most
(`Flowbook.nodup_recordedLinks`). So what the book says of links holds of
events: whoever holds a flow, on whichever thread and in whatever session,
ends it once at most, and links it no more after that.
-/

namespace EventTrace

namespace Flowbook

open Capture

variable {b : Flowbook} {p : Program} {names : List (Option String)} {commands : List Command}
  {l l' : FlowLink} {s : PastSession} {e e' : Event} {r : Remark}

/-! ## Links are remarks -/

/-- The links a command enters. -/
def entered (b : Flowbook) (p : Program) : Command → List FlowLink
  | .call t request _ => if p.hasThread t then (b.link? p t request).toList else []
  | _ => []

theorem links_after (b : Flowbook) (p : Program) (command : Command) :
    (b.after p command).links = b.links ++ b.entered p command := by
  cases command with
  | start o now =>
    simp only [after, entered, List.append_nil]
    split <;> rfl
  | stop now => exact (List.append_nil _).symm
  | call t request now =>
    simp only [after, entered]
    split
    · rfl
    · exact (List.append_nil _).symm

/-- A book loses nothing. -/
theorem prefix_after (b : Flowbook) (p : Program) (command : Command) :
    b.handles <+: (b.after p command).handles ∧ b.draws <+: (b.after p command).draws := by
  cases command with
  | start o now =>
    simp only [after]
    split <;> exact ⟨List.prefix_rfl, List.prefix_rfl⟩
  | stop now => exact ⟨List.prefix_rfl, List.prefix_rfl⟩
  | call t request now =>
    simp only [after]
    split
    · exact ⟨List.prefix_append _ _, List.prefix_append _ _⟩
    · exact ⟨List.prefix_rfl, List.prefix_rfl⟩

/-- A link that is entered is of the call and what it asks for. -/
theorem of_mem_entered {command : Command} (hl : l ∈ b.entered p command) :
    ∃ t request now, command = .call t request now ∧ p.hasThread t = true ∧
      l.place = p.place ∧ b.opening? p request = some l.opening ∧
      p.remark? t request = some l.emission := by
  cases command with
  | start | stop => exact absurd hl List.not_mem_nil
  | call t request now =>
    simp only [entered] at hl
    split at hl
    · next hthread =>
      obtain ⟨opening, hopening, hl⟩ := Option.bind_eq_some_iff.mp (Option.mem_toList.mp hl)
      obtain ⟨e, he, rfl⟩ := Option.map_eq_some_iff.mp hl
      exact ⟨t, request, now, rfl, hthread, rfl, hopening, he⟩
    · exact absurd hl List.not_mem_nil

/-- Links are entered before the program goes on. -/
theorem place_lt (names : List (Option String)) (commands : List Command)
    (hl : l ∈ (of names commands).links) : l.place < commands.length := by
  have hplace := ((booked_run names commands).settled.made l hl).1
  rwa [(Program.minuted_run names commands).place] at hplace

/-- **A link is what its call asked to have recorded.** -/
theorem emission_of_link (names : List (Option String)) (commands : List Command) :
    ∀ l ∈ (of names commands).links,
      (Program.remarkAt? names commands l.place).map Remark.emission = some l.emission := by
  induction commands using List.reverseRecOn with
  | nil => exact fun _ hl => absurd hl List.not_mem_nil
  | append_singleton commands command ih =>
    intro l hl
    rw [of_append, links_after] at hl
    rcases List.mem_append.mp hl with hl | hl
    · rw [Program.remarkAt?_append (place_lt names commands hl)]
      exact ih l hl
    · obtain ⟨t, request, now, rfl, hthread, hplace, -, hremark⟩ := of_mem_entered hl
      rw [hplace, (Program.minuted_run names commands).place, Program.remarkAt?_length]
      simp only [hthread, hremark, if_true]
      rfl

/-- There is one link to a call. -/
theorem eq_of_place (hl : l ∈ (of names commands).links) (hl' : l' ∈ (of names commands).links)
    (hplace : l.place = l'.place) : l = l' := by
  have hplaces : ((of names commands).links.map FlowLink.place).Nodup :=
    List.pairwise_map.mpr ((booked_run names commands).settled.ordered.imp fun h => Nat.ne_of_lt h)
  exact List.inj_on_of_nodup_map hplaces hl hl' hplace

/-! ## Links on record -/

/-- The link that an event is the record of, if the call was one. -/
def linkOf? (names : List (Option String)) (commands : List Command) (m : Minutes) (e : Event) :
    Option FlowLink :=
  (Program.remarkOf? names commands m e).bind fun r =>
    (of names commands).links.find? fun l => l.place == r.place

/-- The links that recordings have, session by session. -/
def recordedLinks (names : List (Option String)) (commands : List Command) : List FlowLink :=
  (Program.run names commands).past.flatMap fun s =>
    s.recording.events.filterMap (linkOf? names commands s.minutes)

theorem linkOf?_eq_some {m : Minutes} : linkOf? names commands m e = some l ↔
    l ∈ (of names commands).links ∧
      ∃ r, Program.remarkOf? names commands m e = some r ∧ r.place = l.place := by
  rw [linkOf?, Option.bind_eq_some_iff]
  constructor
  · rintro ⟨r, hr, hfind⟩
    have hplace := List.find?_some hfind
    exact ⟨List.mem_of_find?_eq_some hfind, r, hr, (beq_iff_eq.mp hplace).symm⟩
  · rintro ⟨hl, r, hr, hplace⟩
    refine ⟨r, hr, ?_⟩
    cases hfind : (of names commands).links.find? fun l => l.place == r.place with
    | none => exact absurd (List.find?_eq_none.mp hfind l hl) (by simp [hplace])
    | some l' =>
      have hplace' : l'.place = r.place := by simpa using List.find?_some hfind
      rw [eq_of_place (List.mem_of_find?_eq_some hfind) hl (hplace'.trans hplace)]

/-- **A link on record** was asked for while its session ran, and the event is
what it asked for. -/
theorem spec_of_linkOf? (hs : s ∈ (Program.run names commands).past)
    (he : e ∈ s.recording.events) (hlink : linkOf? names commands s.minutes e = some l) :
    l ∈ (of names commands).links ∧ s.minutes.started < l.place ∧ l.place < s.stopped ∧
      e.kind = l.emission.kind ∧ e.flow = l.emission.flow ∧ e.id = l.emission.id := by
  obtain ⟨hl, r, hr, hplace⟩ := linkOf?_eq_some.mp hlink
  obtain ⟨r', hr'mem, hr', heq, -⟩ :=
    (Program.traced_run names commands).exists_remarkOf hs he
  obtain rfl : r' = r := Option.some.inj (hr'.symm.trans hr)
  rw [((Program.minuted_run names commands).past s hs).2.2] at hr'mem
  obtain ⟨hstarted, hstopped, hat⟩ := Program.mem_remarksIn hr'mem
  have hemission := emission_of_link names commands l hl
  rw [← hplace, hat, Option.map_some, Option.some.injEq] at hemission
  rw [hplace] at hstarted hstopped
  exact ⟨hl, hstarted, hstopped, by rw [heq, ← hemission]; rfl, by rw [heq, ← hemission]; rfl,
    by rw [heq, ← hemission]; rfl⟩

/-- **No link is on record twice**, be it in one session or in two. -/
theorem nodup_recordedLinks (names : List (Option String)) (commands : List Command) :
    (recordedLinks names commands).Nodup := by
  have hT := Program.traced_run names commands
  have hm := Program.minuted_run names commands
  refine List.nodup_flatMap.mpr ⟨fun s hs => ?_, hm.apart.imp_of_mem ?_⟩
  · -- events of one link are of one call
    refine List.pairwise_filterMap.mpr ((hT.nodup_events hs).imp_of_mem ?_)
    rintro e e' he he' hne l hl l' hl' rfl
    obtain ⟨-, r, hr, hplace⟩ := linkOf?_eq_some.mp hl
    obtain ⟨-, r', hr', hplace'⟩ := linkOf?_eq_some.mp hl'
    exact hne (hT.eq_of_remarkOf hm hs he he' hr hr' (hplace.trans hplace'.symm))
  · intro s s' hs hs' hapart l hl hl'
    obtain ⟨e, he, hlink⟩ := List.mem_filterMap.mp hl
    obtain ⟨e', he', hlink'⟩ := List.mem_filterMap.mp hl'
    have hbefore := (spec_of_linkOf? hs he hlink).2.2.1
    have hafter := (spec_of_linkOf? hs' he' hlink').2.1
    omega

/-- What is on record is in the book. -/
theorem mem_links_of_recorded (hl : l ∈ recordedLinks names commands) :
    l ∈ (of names commands).links := by
  obtain ⟨s, hs, hl⟩ := List.mem_flatMap.mp hl
  obtain ⟨e, he, hlink⟩ := List.mem_filterMap.mp hl
  exact (spec_of_linkOf? hs he hlink).1

/-! ## One end -/

/-- Of two things in a list, one stands before the other. -/
theorem eq_or_of_pairwise {α : Type} {R : α → α → Prop} {as : List α} (h : as.Pairwise R)
    {a b : α} (ha : a ∈ as) (hb : b ∈ as) : a = b ∨ R a b ∨ R b a := by
  by_cases hab : a = b
  · exact .inl hab
  · have hsymm : Std.Symm fun a b => R a b ∨ R b a := ⟨fun _ _ => Or.symm⟩
    have heither : as.Pairwise fun a b => R a b ∨ R b a := h.imp Or.inl
    exact .inr (heither.forall ha hb hab)

/-- **An end is the last link of its flow.** -/
theorem place_lt_of_end (hl : l ∈ (of names commands).links)
    (hl' : l' ∈ (of names commands).links) (hopening : l.opening = l'.opening)
    (hend : l.emission.kind = .flowEnd) (hne : l ≠ l') : l'.place < l.place := by
  have hsettled := (booked_run names commands).settled
  rcases eq_or_of_pairwise (hsettled.ordered.and hsettled.once) hl hl' with
    heq | ⟨-, honce⟩ | ⟨hbefore, -⟩
  · exact absurd heq hne
  · exact absurd hend (honce hopening)
  · exact hbefore

/-- **A flow is ended once** at most by whoever holds it. -/
theorem eq_of_ends (hl : l ∈ (of names commands).links) (hl' : l' ∈ (of names commands).links)
    (hopening : l.opening = l'.opening) (hend : l.emission.kind = .flowEnd)
    (hend' : l'.emission.kind = .flowEnd) : l = l' := by
  by_contra hne
  have := place_lt_of_end hl hl' hopening hend hne
  have := place_lt_of_end hl' hl hopening.symm hend' (Ne.symm hne)
  omega

theorem length_le_one_of_nodup {α : Type} {l : List α} (hnodup : l.Nodup)
    (hsame : ∀ a ∈ l, ∀ b ∈ l, a = b) : l.length ≤ 1 := by
  match l with
  | [] => exact Nat.zero_le _
  | [_] => exact Nat.le_refl _
  | a :: b :: l =>
    have hab := hsame a List.mem_cons_self b (List.mem_cons_of_mem _ List.mem_cons_self)
    exact absurd (hab ▸ List.mem_cons_self) (List.nodup_cons.mp hnodup).1

/-- So recordings have one end of it at most, all of them together. -/
theorem countP_ends_le_one (names : List (Option String)) (commands : List Command)
    (opening : Nat) : (recordedLinks names commands).countP
      (fun l => l.opening == opening && l.emission.kind == .flowEnd) ≤ 1 := by
  rw [List.countP_eq_length_filter]
  refine length_le_one_of_nodup ((nodup_recordedLinks names commands).filter _) ?_
  intro l hl l' hl'
  rw [List.mem_filter, Bool.and_eq_true, beq_iff_eq, beq_iff_eq] at hl hl'
  exact eq_of_ends (mem_links_of_recorded hl.1) (mem_links_of_recorded hl'.1)
    (hl.2.1.trans hl'.2.1.symm) hl.2.2 hl'.2.2

/-! ## What ends and drops answer -/

theorem length_told (names : List (Option String)) (commands : List Command) :
    (Program.told names commands).length = commands.length := by
  induction commands using List.reverseRecOn with
  | nil => rfl
  | append_singleton commands command ih =>
    rw [Program.told_concat, List.length_append, List.length_append, ih]
    rfl

/-- A call that says it ended a handle enters an end of its flow. -/
theorem exists_end_of_answer (hb : Booked p b) {t : ThreadId} {h : Nat} {now : Reading}
    (hanswer : p.answer (.call t (.endHandle h) now) = .ended true) :
    ∃ l ∈ b.entered p (.call t (.endHandle h) now), l.place = p.place ∧
      b.handles[h]? = some l.opening ∧ l.emission.kind = .flowEnd := by
  rw [Program.answer] at hanswer
  split at hanswer
  · next hthread =>
    rw [Program.reply] at hanswer
    split at hanswer
    · next handle hget =>
      obtain ⟨opening, hopening⟩ := opening_of_handle hb.handles hget
      have hremark : p.remark? t (.endHandle h) =
          some { id := handle.id, kind := .flowEnd, flow := handle.flow } := by
        simp only [Program.remark?, hget, Option.bind_some, FlowHandle.remark?]
        simp only [Capture.endFlow, Answer.ended.injEq] at hanswer
        split at hanswer
        · next hopen => rw [if_pos hopen]
        · exact absurd hanswer (by simp)
      have hused : b.opening? p (.endHandle h) = some opening := hopening
      refine ⟨⟨p.place, opening, { id := handle.id, kind := .flowEnd, flow := handle.flow }⟩, ?_,
        rfl, hopening, rfl⟩
      simp only [entered, hthread, if_true, Option.mem_toList]
      rw [link?, hused, hremark]
      rfl
    · exact absurd hanswer (by simp)
  · exact absurd hanswer (by simp)

/-- A call that ended a handle is the end of its flow. -/
theorem exists_end_of_told (names : List (Option String)) (commands : List Command) :
    ∀ (place : Nat) (t : ThreadId) (h : Nat) (now : Reading),
      commands[place]? = some (.call t (.endHandle h) now) →
      (Program.told names commands)[place]? = some (.ended true) →
      ∃ l ∈ (of names commands).links, l.place = place ∧
        (of names commands).handles[h]? = some l.opening ∧ l.emission.kind = .flowEnd := by
  induction commands using List.reverseRecOn with
  | nil => exact fun _ _ _ _ hnone => absurd hnone (by simp)
  | append_singleton commands command ih =>
    intro place t h now hcommand htold
    rw [Program.told_concat] at htold
    rw [of_append, links_after]
    have hgrown := (prefix_after (of names commands) (Program.run names commands) command).1
    rcases Nat.lt_or_ge place commands.length with hlt | hge
    · rw [List.getElem?_append_left hlt] at hcommand
      rw [List.getElem?_append_left (by rwa [length_told])] at htold
      obtain ⟨l, hl, hplace, hopening, hkind⟩ := ih place t h now hcommand htold
      refine ⟨l, List.mem_append_left _ hl, hplace, ?_, hkind⟩
      obtain ⟨new, hnew⟩ := hgrown
      rw [← hnew, List.getElem?_append_left (List.getElem?_eq_some_iff.mp hopening).1]
      exact hopening
    · obtain rfl : place = commands.length := by
        have hlast := (List.getElem?_eq_some_iff.mp hcommand).1
        rw [List.length_append, List.length_singleton] at hlast
        omega
      rw [List.getElem?_concat_length, Option.some.injEq] at hcommand
      rw [← length_told names commands, List.getElem?_concat_length, Option.some.injEq,
        hcommand] at htold
      obtain ⟨l, hl, hplace, hopening, hkind⟩ :=
        exists_end_of_answer (booked_run names commands) htold
      refine ⟨l, List.mem_append_right _ (hcommand ▸ hl), ?_, ?_, hkind⟩
      · rw [hplace, (Program.minuted_run names commands).place]
      · obtain ⟨new, hnew⟩ := hgrown
        rw [← hnew, List.getElem?_append_left (List.getElem?_eq_some_iff.mp hopening).1]
        exact hopening

/-- A flow scope that is held has not ended. -/
theorem scope_open (names : List (Option String)) (commands : List Command) :
    ∀ scope, some scope ∈ (Program.run names commands).scopes → scope.handle.ended = false := by
  refine Program.run_induction
    (P := fun p => ∀ scope, some scope ∈ p.scopes → scope.handle.ended = false) names
    (fun _ hscope => absurd hscope List.not_mem_nil) (fun {_ _ p} command _ hp => ?_) commands
  cases command with
  | start o now =>
    simp only [Program.step, Program.obey]
    split <;> exact hp
  | stop now =>
    simp only [Program.step, Program.obey]
    split <;> exact hp
  | call t request now =>
    simp only [Program.step, Program.obey]
    split
    · cases request with
      | openFlow id =>
        intro scope hscope
        rcases List.mem_append.mp hscope with hscope | hscope
        · exact hp scope hscope
        · obtain rfl := Option.some.inj (List.mem_singleton.mp hscope)
          exact (startFlow_spec p.capture t id now).1
      | dropFlow i | takeHandle i =>
        simp only [Program.serve]
        split
        · intro scope hscope
          rcases List.mem_or_eq_of_mem_set hscope with hscope | hnone
          · exact hp scope hscope
          · exact absurd hnone (by simp)
        · exact hp
      | closeScope | stepHandle | endHandle | stepFlow =>
        simp only [Program.serve]
        split <;> exact hp
      | _ => exact hp
    · exact hp

/-! ## No flow without a number -/

theorem flow_ne_of_handle {h : FlowHandle} {kind : Kind} {em : Emission}
    (hremark : h.remark? kind = some em) : em.flow ≠ noFlow := by
  unfold FlowHandle.remark? at hremark
  split at hremark
  · next hopen =>
    obtain rfl := Option.some.inj hremark
    simpa [FlowHandle.isValid] using (Bool.and_eq_true_iff.mp hopen).1
  · exact absurd hremark (by simp)

/-- What is asked for as a link of a flow is of a flow. -/
theorem flow_ne_of_remark {t : ThreadId} {request : Request} {em : Emission}
    (hremark : p.remark? t request = some em) (hkind : em.kind.isFlow = true) :
    em.flow ≠ noFlow := by
  cases request with
  | openScope | instant | counter =>
    obtain rfl := Option.some.inj hremark
    exact absurd hkind (by simp [Kind.isFlow])
  | closeScope g =>
    simp only [Program.remark?] at hremark
    split at hremark
    · split at hremark
      · obtain rfl := Option.some.inj hremark
        exact absurd hkind (by simp [Kind.isFlow])
      · exact absurd hremark (by simp)
    · exact absurd hremark (by simp)
  | startNewFlow | startFlow | openFlow =>
    obtain rfl := Option.some.inj hremark
    exact newFlow_ne p.capture
  | link id kind flow =>
    simp only [Program.remark?] at hremark
    split at hremark
    · exact absurd hremark (by simp)
    · next hne =>
      obtain rfl := Option.some.inj hremark
      exact hne
  | stepHandle | endHandle | stepFlow | dropFlow =>
    obtain ⟨_, -, hremark⟩ := Option.bind_eq_some_iff.mp hremark
    exact flow_ne_of_handle hremark
  | newFlow | makeHandle | takeHandle | endThread =>
    exact absurd hremark (by simp [Program.remark?])

/-- Nor is anything of the kind on record. -/
theorem flow_ne_of_recorded (hs : s ∈ (Program.run names commands).past)
    (he : e ∈ s.recording.events) (hkind : e.kind.isFlow = true) : e.flow ≠ noFlow := by
  obtain ⟨r, hr, -, heq, -⟩ := (Program.traced_run names commands).exists_remarkOf hs he
  rw [((Program.minuted_run names commands).past s hs).2.2] at hr
  obtain ⟨-, -, hat⟩ := Program.mem_remarksIn hr
  obtain ⟨-, p, t, request, hremark⟩ := Program.of_remarkAt? hat
  rw [heq] at hkind ⊢
  exact flow_ne_of_remark hremark hkind

/-! ## Flow scopes -/

/-- **A drop is one end**: the flow of a scope has not ended, dropping the
scope ends it as ending its handle does, and the scope is gone. -/
theorem drop_spec (hb : Booked p b) {t : ThreadId} {now : Reading} {i : Nat} {scope : FlowScope}
    (hthread : p.hasThread t = true) (hscope : p.scope? i = some scope)
    (hended : scope.handle.ended = false) :
    let dropped := p.step (.call t (.dropFlow i) now)
    dropped.capture = (p.capture.endFlow t scope.handle now).2.2 ∧ dropped.scope? i = none ∧
      ∃ opening, b.scopes[i]? = some opening ∧
        (b.after p (.call t (.dropFlow i) now)).links = b.links ++
          if scope.handle.isValid then [⟨p.place, opening,
            { id := scope.handle.id, kind := .flowEnd, flow := scope.handle.flow }⟩] else [] := by
  obtain ⟨opening, hopening⟩ := opening_of_scope hb.scopes hscope
  have hlt := (List.getElem?_eq_some_iff.mp (Option.join_eq_some_iff.mp hscope)).1
  have hlink : b.link? p t (.dropFlow i) = if scope.handle.isValid then some ⟨p.place, opening,
      { id := scope.handle.id, kind := .flowEnd, flow := scope.handle.flow }⟩ else none := by
    have hused : b.opening? p (.dropFlow i) = some opening := hopening
    have hremark : p.remark? t (.dropFlow i) = scope.handle.remark? .flowEnd := by
      simp only [Program.remark?, hscope, Option.bind_some]
    rw [link?, hused, hremark, Option.bind_some, FlowHandle.remark?, hended]
    cases scope.handle.isValid <;> rfl
  simp only [Program.step, Program.obey, hthread, if_true, Program.serve, hscope]
  refine ⟨rfl, by simp [Program.scope?, hlt], opening, hopening, ?_⟩
  rw [links_after, entered, if_pos hthread, hlink]
  cases scope.handle.isValid <;> rfl

/-- **Taking the handle ends nothing**: the process is as it was, the scope is
gone, and the open handle ends the flow as dropping the scope would have. -/
theorem take_spec (hb : Booked p b) {t : ThreadId} {now : Reading} {i : Nat} {scope : FlowScope}
    (hthread : p.hasThread t = true) (hscope : p.scope? i = some scope) :
    let dropped := p.step (.call t (.dropFlow i) now)
    let taken := p.step (.call t (.takeHandle i) now)
    taken.capture = p.capture ∧ taken.scope? i = none ∧
      taken.handles = p.handles ++ [scope.handle] ∧
      (taken.step (.call t (.endHandle p.handles.length) now)).capture = dropped.capture ∧
      ∃ opening, b.scopes[i]? = some opening ∧
        (b.after p (.call t (.takeHandle i) now)).handles = b.handles ++ [opening] ∧
        (b.after p (.call t (.takeHandle i) now)).links = b.links := by
  obtain ⟨opening, hopening⟩ := opening_of_scope hb.scopes hscope
  have hlt := (List.getElem?_eq_some_iff.mp (Option.join_eq_some_iff.mp hscope)).1
  intro dropped taken
  have htaken : taken = { p with
      handles := p.handles ++ [scope.handle]
      scopes := p.scopes.set i none
      minutes := p.noted t now (.takeHandle i)
      place := p.place + 1 } := by
    simp only [taken, Program.step, Program.obey, hthread, if_true, Program.serve, hscope]
    rfl
  have hthread' : taken.hasThread t = true := by
    rw [htaken]
    exact hthread
  have hget : taken.handles[p.handles.length]? = some scope.handle := by
    rw [htaken]
    exact List.getElem?_concat_length
  refine ⟨by rw [htaken], ?_, by rw [htaken], ?_, opening, hopening, ?_, ?_⟩
  · rw [htaken]
    simp [Program.scope?, hlt]
  · simp only [dropped, Program.step, Program.obey, hthread, hthread', if_true, Program.serve,
      hscope, hget]
    rw [htaken]
    rfl
  · simp only [after, hthread, if_true, enter, handed, hscope, Option.bind_some, hopening,
      Option.toList_some]
  · rw [links_after, entered, if_pos hthread]
    exact List.append_nil _

end Flowbook

/-- **Flows are well formed.** In every run, whatever the threads do by turns
and however many sessions there are: no recording has a link of no flow; the
flow numbers given out since the last start are positive and none comes twice,
as long as they fit in a word, and whoever opens a flow is given a number if a
session runs and an inert handle if none does; every handle and flow scope has
an opening in the book, all recordings together have at most one end of what a
call opened, whoever held it, every other link of it was asked for before the
end, and of all calls that end a handle at most one says it did; and a flow
scope that is held has not ended: dropping it is one end of its handle, and
taking the handle out of it ends nothing. -/
theorem flows_well_formed (names : List (Option String)) (commands : List Command) :
    let p := Program.run names commands
    let b := Flowbook.of names commands
    (∀ s ∈ p.past, ∀ e ∈ s.recording.events, e.kind.isFlow = true → e.flow ≠ noFlow) ∧
    ((b.fresh.length : Int) ≤ TickRate.maxTicks →
      (b.fresh.map FlowDraw.flow).Nodup ∧ ∀ flow ∈ b.fresh.map FlowDraw.flow, 0 < flow) ∧
    (∀ t now id, p.hasThread t = true → ∃ h,
      p.answer (.call t (.startFlow id) now) = .handle h ∧
      p.answer (.call t (.openFlow id) now) = .scope ⟨h⟩ ∧
      h.ended = false ∧ h.isValid = p.capture.running) ∧
    (b.handles.length = p.handles.length ∧ b.scopes.length = p.scopes.length) ∧
    (∀ opening, (Flowbook.recordedLinks names commands).countP
      (fun l => l.opening == opening && l.emission.kind == .flowEnd) ≤ 1) ∧
    (∀ l ∈ b.links, ∀ l' ∈ b.links, l.opening = l'.opening → l.emission.kind = .flowEnd →
      l ≠ l' → l'.place < l.place) ∧
    (∀ (place place' : Nat) (t t' : ThreadId) (h : Nat) (now now' : Reading),
      commands[place]? = some (.call t (.endHandle h) now) →
      commands[place']? = some (.call t' (.endHandle h) now') →
      (Program.told names commands)[place]? = some (.ended true) →
      (Program.told names commands)[place']? = some (.ended true) → place = place') ∧
    ∀ (t : ThreadId) (now : Reading) (i : Nat) (scope : FlowScope), p.hasThread t = true →
      p.scope? i = some scope →
      let dropped := p.step (.call t (.dropFlow i) now)
      let taken := p.step (.call t (.takeHandle i) now)
      scope.handle.ended = false ∧
      (dropped.capture = (p.capture.endFlow t scope.handle now).2.2 ∧ dropped.scope? i = none ∧
        ∃ opening, b.scopes[i]? = some opening ∧
          (b.after p (.call t (.dropFlow i) now)).links = b.links ++
            if scope.handle.isValid then [⟨p.place, opening,
              { id := scope.handle.id, kind := .flowEnd, flow := scope.handle.flow }⟩] else []) ∧
      taken.capture = p.capture ∧ taken.scope? i = none ∧
      taken.handles = p.handles ++ [scope.handle] ∧
      (taken.step (.call t (.endHandle p.handles.length) now)).capture = dropped.capture ∧
      ∃ opening, b.scopes[i]? = some opening ∧
        (b.after p (.call t (.takeHandle i) now)).handles = b.handles ++ [opening] ∧
        (b.after p (.call t (.takeHandle i) now)).links = b.links := by
  intro p b
  have hb : Flowbook.Booked p b := Flowbook.booked_run names commands
  have hnumbered : Flowbook.Numbered p b := Flowbook.numbered_run names commands
  refine ⟨fun s hs e he => Flowbook.flow_ne_of_recorded hs he, fun hfits => ?_,
    fun t now id hthread => ?_, ⟨hb.handles, hb.scopes⟩,
    Flowbook.countP_ends_le_one names commands,
    fun l hl l' hl' => Flowbook.place_lt_of_end hl hl', ?_, ?_⟩
  · rw [hnumbered.fresh]
    exact Capture.nodup_flowNumbers hfits
  · obtain ⟨hended, hvalid, -⟩ := Capture.startFlow_spec p.capture t id now
    refine ⟨_, ?_, ?_, hended, hvalid⟩
    · rw [Program.answer, if_pos hthread]
      rfl
    · rw [Program.answer, if_pos hthread]
      rfl
  · intro place place' t t' h now now' hcommand hcommand' htold htold'
    obtain ⟨l, hl, rfl, hopening, hend⟩ :=
      Flowbook.exists_end_of_told names commands place t h now hcommand htold
    obtain ⟨l', hl', rfl, hopening', hend'⟩ :=
      Flowbook.exists_end_of_told names commands place' t' h now' hcommand' htold'
    have hsame : l.opening = l'.opening := Option.some.inj (hopening.symm.trans hopening')
    rw [Flowbook.eq_of_ends hl hl' hsame hend hend']
  · intro t now i scope hthread hscope
    have hended : scope.handle.ended = false :=
      Flowbook.scope_open names commands scope
        (List.mem_of_getElem? (Option.join_eq_some_iff.mp hscope))
    exact ⟨hended, Flowbook.drop_spec hb hthread hscope hended,
      Flowbook.take_spec hb hthread hscope⟩

/-- A flow that is stepped and ended on another thread, ended again in vain,
and a flow scope in the next session. -/
def Command.endedTwice : List Command :=
  [.start {} 0, .call 0 (.startFlow 7) ⟨1, 1⟩, .call 1 (.stepHandle 0) ⟨2, 2⟩,
    .call 1 (.endHandle 0) ⟨3, 3⟩, .call 0 (.endHandle 0) ⟨4, 4⟩, .stop 5, .start {} 6,
    .call 0 (.openFlow 8) ⟨7, 7⟩]

/-- Its recording has a start, a step and one end, which the first of the two
calls says it was, and the scope has the first number of its session. -/
theorem flows_well_formed_endedTwice :
    let p := Program.run [none, none] Command.endedTwice
    let b := Flowbook.of [none, none] Command.endedTwice
    let start : FlowLink := ⟨1, 1, { id := 7, kind := .flowStart, flow := 1 }⟩
    let ended : FlowLink := ⟨3, 1, { id := 7, kind := .flowEnd, flow := 1 }⟩
    let scope : FlowScope := ⟨{ id := 8, flow := 1 }⟩
    (∃ s ∈ p.past, ∃ e ∈ s.recording.events, e.kind.isFlow = true ∧ e.flow ≠ noFlow) ∧
    (b.fresh.map FlowDraw.flow = [1] ∧ (b.fresh.map FlowDraw.flow).Nodup) ∧
    (Flowbook.recordedLinks [none, none] Command.endedTwice).countP
      (fun l => l.opening == 1 && l.emission.kind == .flowEnd) = 1 ∧
    (start ∈ b.links ∧ ended ∈ b.links ∧ start.place < ended.place) ∧
    ((Program.told [none, none] Command.endedTwice).map Answer.isEnd =
        [false, false, false, true, false, false, false, false] ∧
      ∀ place : Nat, Command.endedTwice[place]? = some (.call 0 (.endHandle 0) ⟨4, 4⟩) →
        (Program.told [none, none] Command.endedTwice)[place]? = some (.ended true) →
        place = 3) ∧
    p.scope? 0 = some scope ∧
    (p.step (.call 1 (.dropFlow 0) ⟨8, 8⟩)).capture =
      (p.capture.endFlow 1 scope.handle ⟨8, 8⟩).2.2 ∧
    (p.step (.call 1 (.takeHandle 0) ⟨8, 8⟩)).handles = p.handles ++ [scope.handle] := by
  intro p b start ended scope
  obtain ⟨hflow, hfresh, -, -, hone, hlast, htold, hscope⟩ :=
    flows_well_formed [none, none] Command.endedTwice
  have hevent : ∃ s ∈ p.past, ∃ e ∈ s.recording.events, e.kind.isFlow = true := by
    decide +kernel
  obtain ⟨s, hs, e, he, hkind⟩ := hevent
  have hdrawn : b.fresh.map FlowDraw.flow = [1] := by decide +kernel
  have hstart : start ∈ b.links := by decide +kernel
  have hended : ended ∈ b.links := by decide +kernel
  have hends : (Program.told [none, none] Command.endedTwice).map Answer.isEnd =
      [false, false, false, true, false, false, false, false] := by
    decide +kernel
  have hsaid : (Program.told [none, none] Command.endedTwice)[3]? = some (.ended true) := by
    have hthird : ((Program.told [none, none] Command.endedTwice).map Answer.isEnd)[3]? =
        some true := by rw [hends]; rfl
    rw [List.getElem?_map] at hthird
    obtain ⟨a, ha, hend⟩ := Option.map_eq_some_iff.mp hthird
    rw [ha, Answer.isEnd_iff.mp hend]
  have hheld : p.scope? 0 = some scope := by decide +kernel
  obtain ⟨-, ⟨hdrop, -⟩, -, -, htake, -⟩ :=
    hscope 1 ⟨8, 8⟩ 0 scope (by decide +kernel) hheld
  exact ⟨⟨s, hs, e, he, hkind, hflow s hs e he hkind⟩,
    ⟨hdrawn, (hfresh (by decide +kernel)).1⟩, by decide +kernel,
    ⟨hstart, hended, hlast ended hended start hstart rfl rfl (by decide)⟩,
    ⟨hends, fun place hagain htold' => htold place 3 0 1 0 ⟨4, 4⟩ ⟨3, 3⟩ hagain rfl htold' hsaid⟩,
    hheld, hdrop, htake⟩

end EventTrace
