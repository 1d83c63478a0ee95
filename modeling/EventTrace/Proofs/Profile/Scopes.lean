import EventTrace.Proofs.Profile.Findings
import EventTrace.Proofs.Profile.Nested
/-!
# Profile — the scopes of nested events, and what a replay makes of them

Where every begin is closed by an end of its own, events tell a forest of
scopes (`Nests`), whatever else is recorded between them; they do so exactly
if they leave no scope open (`exists_nests_iff`). A replay of such events, from
any state of their thread, does no damage and hands down a node for each
scope, as if the scopes had been given to it whole (`Nests.runs`). Nothing is
asked of the timestamps but that no scope ends before it begins and that words
hold what scopes take.
-/

namespace EventTrace

/-! ## Scopes -/

/-- A scope, with the scopes directly inside it. -/
structure Scope where
  id : Int
  start : Int
  finish : Int
  children : List Scope
deriving Repr

namespace Scope

/-- The ticks from begin to end. -/
def duration (x : Scope) : Int := x.finish - x.start

/-- The ticks of some scopes together. -/
def durations (xs : List Scope) : Int := (xs.map duration).sum

/-- The ticks that the scopes directly inside leave of a scope, zero if they
take longer than it does. -/
def exclusive (x : Scope) : Int := max 0 (x.duration - durations x.children)

/-- What a scope counts. -/
def amount (x : Scope) : Amount := (1, x.duration, x.exclusive)

mutual

/-- A scope and all scopes inside it, each with the ids of the scopes around
it, the outermost first, and then its own. -/
def placed : Scope → List (List Int × Scope)
  | ⟨id, start, finish, children⟩ =>
    ([id], ⟨id, start, finish, children⟩) :: (placedAll children).map fun p => (id :: p.1, p.2)

/-- Some scopes and all scopes inside them, each with its path. -/
def placedAll : List Scope → List (List Int × Scope)
  | [] => []
  | x :: xs => placed x ++ placedAll xs

end

/-- The scopes of a path. -/
def atPath (path : List Int) (xs : List Scope) : List Scope :=
  ((placedAll xs).filter (·.1 == path)).map Prod.snd

/-- No scope ends before it begins, at any level. -/
def Lasting (xs : List Scope) : Prop := ∀ p ∈ placedAll xs, p.2.start ≤ p.2.finish

/-- Words hold how long each scope takes, and how long the scopes directly
inside it take together, at every level. -/
def Brief (xs : List Scope) : Prop := ∀ p ∈ placedAll xs,
  p.2.duration ≤ TickRate.maxTicks ∧ durations p.2.children ≤ TickRate.maxTicks

mutual

/-- The node of a scope, with the nodes of the scopes inside it joined. -/
def node : Scope → Node
  | ⟨id, start, finish, children⟩ =>
    ⟨id, 1, finish - start, max 0 (finish - start - durations children),
      Node.addAllTo (nodes children) []⟩

/-- The nodes of some scopes, one for each. -/
def nodes : List Scope → List Node
  | [] => []
  | x :: xs => node x :: nodes xs

end

variable {x : Scope} {xs : List Scope}

@[simp] theorem durations_cons (x : Scope) (xs : List Scope) :
    durations (x :: xs) = x.duration + durations xs := by
  rw [durations, List.map_cons, List.sum_cons, durations]

theorem placed_eq (x : Scope) :
    x.placed = ([x.id], x) :: (placedAll x.children).map fun p => (x.id :: p.1, p.2) := by
  obtain ⟨id, start, finish, children⟩ := x
  rw [placed]

theorem node_eq (x : Scope) :
    x.node = ⟨x.id, 1, x.duration, x.exclusive, Node.addAllTo (nodes x.children) []⟩ := by
  obtain ⟨id, start, finish, children⟩ := x
  rw [node]
  rfl

theorem lasting_nil : Lasting [] := by simp [Lasting, placedAll]

theorem lasting_cons :
    Lasting (x :: xs) ↔ x.start ≤ x.finish ∧ Lasting x.children ∧ Lasting xs := by
  simp only [Lasting, placedAll, placed_eq, List.cons_append, List.mem_cons, List.mem_append,
    List.mem_map, or_imp, forall_and, forall_eq, forall_exists_index, and_imp,
    forall_apply_eq_imp_iff₂]

theorem brief_nil : Brief [] := by simp [Brief, placedAll]

theorem brief_cons : Brief (x :: xs) ↔ (x.duration ≤ TickRate.maxTicks ∧
    durations x.children ≤ TickRate.maxTicks) ∧ Brief x.children ∧ Brief xs := by
  simp only [Brief, placedAll, placed_eq, List.cons_append, List.mem_cons, List.mem_append,
    List.mem_map, or_imp, forall_and, forall_eq, forall_exists_index, and_imp,
    forall_apply_eq_imp_iff₂]
  tauto

mutual

theorem Lasting.inside : ∀ x : Scope, Lasting [x] → ∀ p ∈ placed x, Lasting p.2.children
  | ⟨id, start, finish, children⟩, h, p, hp => by
    obtain ⟨-, hchildren, -⟩ := lasting_cons.mp h
    rw [placed] at hp
    rcases List.mem_cons.mp hp with rfl | hp
    · exact hchildren
    · obtain ⟨q, hq, rfl⟩ := List.mem_map.mp hp
      exact Lasting.children children hchildren q hq

/-- Where scopes last, so do those inside each of them. -/
theorem Lasting.children : ∀ xs : List Scope, Lasting xs →
    ∀ p ∈ placedAll xs, Lasting p.2.children
  | [], _, p, hp => by
    rw [placedAll] at hp
    exact absurd hp List.not_mem_nil
  | x :: xs, h, p, hp => by
    obtain ⟨hle, hchildren, hxs⟩ := lasting_cons.mp h
    rw [placedAll] at hp
    rcases List.mem_append.mp hp with hp | hp
    · exact Lasting.inside x (lasting_cons.mpr ⟨hle, hchildren, lasting_nil⟩) p hp
    · exact Lasting.children xs hxs p hp

end

/-- Scopes that last take no less than no time. -/
theorem Lasting.durations_nonneg (h : Lasting xs) : 0 ≤ durations xs := by
  induction xs with
  | nil => exact le_rfl
  | cons x xs ih =>
    obtain ⟨hx, -, hxs⟩ := lasting_cons.mp h
    rw [durations_cons]
    exact add_nonneg (sub_nonneg.mpr hx) (ih hxs)

end Scope

/-! ## Nested events -/

/-- Events that are nested and all closed, and the scopes they tell: each begin
has an end of its id behind it, with nested events between the two, and other
kinds of events may stand anywhere. -/
inductive Nests : List Event → List Scope → Prop
  | nil : Nests [] []
  /-- What is neither a begin nor an end tells of no scope. -/
  | other {e : Event} {rest : List Event} {xs : List Scope} :
      e.kind.isScope = false → Nests rest xs → Nests (e :: rest) xs
  /-- A begin, what is inside its scope, its end, and what comes after. -/
  | scope {b e : Event} {inside rest : List Event} {children xs : List Scope} :
      b.kind = .scopeBegin → e.kind = .scopeEnd → e.id = b.id →
      Nests inside children → Nests rest xs →
      Nests (b :: (inside ++ e :: rest)) (⟨b.id, b.timestamp, e.timestamp, children⟩ :: xs)

section Nesting

variable {events rest : List Event} {opened : List Int} {xs : List Scope} {e : Event}

theorem nest_begin (he : e.kind = .scopeBegin) (opened : List Int) :
    nest opened e = some (e.id :: opened) := by
  simp [nest, he]

theorem nest_end (he : e.kind = .scopeEnd) (opened : List Int) :
    nest (e.id :: opened) e = some opened := by
  simp [nest, he]

/-- Nested events leave open what was open before. -/
theorem Nests.foldlM_nest (h : Nests events xs) (opened : List Int) :
    events.foldlM nest opened = some opened := by
  induction h generalizing opened with
  | nil => rfl
  | @other e rest xs he _ ih =>
    rw [List.foldlM_cons, nest_of_not_isScope he]
    exact ih opened
  | scope hb he hid _ _ ihinside ihrest =>
    rw [List.foldlM_cons, nest_begin hb, Option.bind_eq_bind, Option.bind_some,
      List.foldlM_append, ihinside, Option.bind_eq_bind, Option.bind_some, List.foldlM_cons,
      ← hid, nest_end he]
    exact ihrest opened

/-- Events that close some open scopes one after another, the innermost first,
with nested events before, between and after. -/
def Unwinds : List Int → List Event → Prop
  | [], events => ∃ xs, Nests events xs
  | id :: opened, events => ∃ inside xs e rest, events = inside ++ e :: rest ∧ Nests inside xs ∧
      e.kind = .scopeEnd ∧ e.id = id ∧ Unwinds opened rest

/-- Nested events before the first end do not matter. -/
theorem Unwinds.prepend {front : List Event}
    (hfront : ∀ {events xs}, Nests events xs → ∃ ys, Nests (front ++ events) ys)
    (h : Unwinds opened events) : Unwinds opened (front ++ events) := by
  cases opened with
  | nil =>
    obtain ⟨xs, hnests⟩ := h
    exact hfront hnests
  | cons id opened =>
    obtain ⟨inside, xs, e, rest, rfl, hinside, he, hid, hrest⟩ := h
    obtain ⟨ys, hnests⟩ := hfront hinside
    exact ⟨front ++ inside, ys, e, rest, by rw [List.append_assoc], hnests, he, hid, hrest⟩

/-- Events that leave nothing open close what was open before them. -/
theorem unwinds_of_foldlM (h : events.foldlM nest opened = some []) : Unwinds opened events := by
  induction events generalizing opened with
  | nil =>
    obtain rfl : opened = [] := Option.some.inj h
    exact ⟨[], .nil⟩
  | cons e rest ih =>
    rw [List.foldlM_cons, Option.bind_eq_bind, Option.bind_eq_some_iff] at h
    obtain ⟨after, hnest, hrest⟩ := h
    have hrest := ih hrest
    cases hkind : e.kind with
    | scopeBegin =>
      rw [nest_begin hkind, Option.some.injEq] at hnest
      subst hnest
      -- the first scope to close is the one that the event opens
      obtain ⟨inside, xs, e', rest', rfl, hinside, he', hid, hrest⟩ := hrest
      have hfront : ∀ {events ys}, Nests events ys →
          ∃ zs, Nests ((e :: inside ++ [e']) ++ events) zs := fun hnests => by
        have hscope := Nests.scope hkind he' hid hinside hnests
        exact ⟨_, by simpa using hscope⟩
      simpa using hrest.prepend hfront
    | scopeEnd =>
      simp only [nest, hkind, Option.ite_none_right_eq_some, Option.some.injEq] at hnest
      obtain ⟨hhead, rfl⟩ := hnest
      obtain ⟨below, rfl⟩ : ∃ below, opened = e.id :: below := by
        cases opened with
        | nil => exact absurd hhead (by simp)
        | cons id below => exact ⟨below, by rw [Option.some.inj hhead]⟩
      exact ⟨[], [], e, rest, rfl, .nil, hkind, rfl, hrest⟩
    | _ =>
      have he : e.kind.isScope = false := by rw [hkind]; rfl
      rw [nest_of_not_isScope he, Option.some.injEq] at hnest
      subst hnest
      have hfront : ∀ {events ys}, Nests events ys → ∃ zs, Nests ([e] ++ events) zs :=
        fun hnests => ⟨_, .other he hnests⟩
      exact hrest.prepend hfront

/-- **Events tell scopes exactly if each end is of the innermost open scope and
none is left open.** -/
theorem exists_nests_iff : (∃ xs, Nests events xs) ↔ openScopes? events = some [] :=
  ⟨fun ⟨_, h⟩ => h.foldlM_nest [], unwinds_of_foldlM⟩

end Nesting

/-! ## Replaying nested events -/

namespace ThreadState

variable {strict : Bool} {s s' s'' : ThreadState} {events events' : List Event} {xs : List Scope}

/-- Events take a thread from one state to another and do no damage on the
way. -/
inductive Runs (strict : Bool) : ThreadState → List Event → ThreadState → Prop
  | refl (s : ThreadState) : Runs strict s [] s
  | step {s s' : ThreadState} {e : Event} {rest : List Event} :
      (s.step strict e).2.anomalies = 0 → Runs strict (s.step strict e).1 rest s' →
      Runs strict s (e :: rest) s'

namespace Runs

theorem append (h : Runs strict s events s') (h' : Runs strict s' events' s'') :
    Runs strict s (events ++ events') s'' := by
  induction h with
  | refl => exact h'
  | step hclean _ ih => exact .step hclean (ih h')

theorem foldl_eq (h : Runs strict s events s') :
    events.foldl (fun s e => (s.step strict e).1) s = s' := by
  induction h with
  | refl => rfl
  | step _ _ ih => exact ih

/-- No event on the way does damage. -/
theorem clean {before after : List Event} {e : Event}
    (h : Runs strict s (before ++ e :: after) s') :
    ((before.foldl (fun s e => (s.step strict e).1) s).step strict e).2.anomalies = 0 := by
  induction before generalizing s with
  | nil =>
    cases h with
    | step hclean _ => exact hclean
  | cons first before ih =>
    cases h with
    | step _ hrest => exact ih hrest

end Runs

/-- The nodes of scopes, handed down one after another. -/
def handDownAll (s : ThreadState) (xs : List Scope) : ThreadState :=
  xs.foldl (fun s x => s.handDown (.ofNode x.node)) s

/-- With no frame open, the roots take them. -/
theorem handDownAll_roots (xs : List Scope) (roots : List Node) :
    handDownAll ⟨[], roots⟩ xs = ⟨[], Node.addAllTo (Scope.nodes xs) roots⟩ := by
  induction xs generalizing roots with
  | nil => rw [Scope.nodes, Node.addAllTo]; rfl
  | cons x xs ih =>
    rw [Scope.nodes, Node.addAllTo, ← ih]
    simp only [handDownAll, List.foldl_cons, handDown, Pending.ofNode, Node.addAllTo]

/-- With a frame open, the frame takes them, and their ticks as a word has
them. -/
theorem handDownAll_frame (xs : List Scope) (f : Frame Pending) (below : List (Frame Pending))
    (roots : List Node) (hfit : Ticks.Fit f.data.ticks) :
    handDownAll ⟨f :: below, roots⟩ xs =
      ⟨⟨f.id, f.start, ⟨Node.addAllTo (Scope.nodes xs) f.data.children,
        Ticks.wrap (f.data.ticks + Scope.durations xs)⟩⟩ :: below, roots⟩ := by
  induction xs generalizing f with
  | nil =>
    have hticks : Ticks.wrap (f.data.ticks + Scope.durations []) = f.data.ticks := by
      rw [Scope.durations, List.map_nil, List.sum_nil, add_zero, hfit.wrap_eq]
    rw [hticks, Scope.nodes, Node.addAllTo]
    rfl
  | cons x xs ih =>
    have hticks : x.node.inclusive = x.duration := by rw [Scope.node_eq]
    have hone : (⟨f :: below, roots⟩ : ThreadState).handDown (.ofNode x.node) =
        ⟨⟨f.id, f.start, ⟨Node.addTo x.node f.data.children,
          Ticks.wrap (f.data.ticks + x.duration)⟩⟩ :: below, roots⟩ := by
      simp only [handDown, Pending.ofNode, Pending.adopt, Node.addAllTo, hticks]
    have hrest := ih ⟨f.id, f.start, ⟨Node.addTo x.node f.data.children,
      Ticks.wrap (f.data.ticks + x.duration)⟩⟩ (Ticks.fit_wrap _)
    rw [handDownAll, List.foldl_cons, hone]
    refine hrest.trans ?_
    simp only [Scope.nodes, Node.addAllTo, Scope.durations_cons, Ticks.wrap_wrap_add, add_assoc]

/-- **An end closes its scope**: the frame has taken the nodes inside, and what
is handed down is the node of the scope. -/
theorem step_end (strict : Bool) {b e : Event} (he : e.kind = .scopeEnd) (hid : e.id = b.id)
    {children : List Scope} (hlasting : Scope.Lasting [⟨b.id, b.timestamp, e.timestamp, children⟩])
    (hbrief : Scope.Brief [⟨b.id, b.timestamp, e.timestamp, children⟩]) (s : ThreadState) :
    let x : Scope := ⟨b.id, b.timestamp, e.timestamp, children⟩
    let opened : ThreadState := { s with frames := ⟨b.id, b.timestamp, {}⟩ :: s.frames }
    (opened.handDownAll children).step strict e = (s.handDown (.ofNode x.node),
      { closed := some ⟨x.id, e.thread, x.duration, x.exclusive⟩ }) := by
  intro x opened
  obtain ⟨frames, roots⟩ := s
  obtain ⟨hle, hinside, -⟩ := Scope.lasting_cons.mp hlasting
  obtain ⟨⟨hduration, hchildren⟩, -⟩ := Scope.brief_cons.mp hbrief
  have hnonneg := hinside.durations_nonneg
  dsimp only [Scope.duration] at hle hduration hchildren hnonneg
  -- words hold the ticks of the scope, of what is inside it and of what is left
  have hinclusive : Ticks.wrap (e.timestamp - b.timestamp) = e.timestamp - b.timestamp :=
    Ticks.wrap_eq_of_nonneg (by omega) hduration
  have hheld : Ticks.wrap (0 + Scope.durations children) = Scope.durations children := by
    rw [zero_add]
    exact Ticks.wrap_eq_of_nonneg hnonneg hchildren
  have hleft : Ticks.wrap (e.timestamp - b.timestamp - Scope.durations children) =
      e.timestamp - b.timestamp - Scope.durations children := by
    refine Ticks.Fit.wrap_eq ?_
    simp only [Ticks.Fit, TickRate.minTicks, TickRate.maxTicks] at *
    omega
  have hvalid : ¬ e.timestamp - b.timestamp < 0 := by omega
  have hopened : opened.handDownAll children =
      ⟨⟨b.id, b.timestamp, ⟨Node.addAllTo (Scope.nodes children) [],
        Scope.durations children⟩⟩ :: frames, roots⟩ := by
    have htaken := handDownAll_frame children ⟨b.id, b.timestamp, {}⟩ frames roots
      Ticks.fit_zero
    rwa [hheld] at htaken
  rw [hopened]
  simp only [step, he, close, Nesting.close, hid, if_true, Option.map_none, finish, List.foldl_nil,
    hinclusive, hleft, if_neg hvalid, Scope.node_eq, x, Scope.duration, Scope.exclusive]
  rfl

end ThreadState

open ThreadState

/-- **Nested events hand down the nodes of their scopes** and do no damage,
from any state and under either policy. -/
theorem Nests.runs {events : List Event} {xs : List Scope} (h : Nests events xs)
    (hlasting : Scope.Lasting xs) (hbrief : Scope.Brief xs) (strict : Bool) (s : ThreadState) :
    Runs strict s events (s.handDownAll xs) := by
  induction h generalizing s with
  | nil => exact .refl s
  | @other e rest xs he _ ih =>
    have hstep : s.step strict e = (s, {}) := step_of_not_isScope he
    refine .step (by rw [hstep]; rfl) ?_
    rw [hstep]
    exact ih hlasting hbrief s
  | @scope b e inside rest children xs hb he hid _ _ ihinside ihrest =>
    obtain ⟨hle, hchildren, hxs⟩ := Scope.lasting_cons.mp hlasting
    obtain ⟨hticks, hchildren', hxs'⟩ := Scope.brief_cons.mp hbrief
    have hopen : s.step strict b =
        ({ s with frames := ⟨b.id, b.timestamp, {}⟩ :: s.frames }, {}) := by
      simp [step, hb]
    have hclosed := step_end strict he hid
      (Scope.lasting_cons.mpr ⟨hle, hchildren, Scope.lasting_nil⟩)
      (Scope.brief_cons.mpr ⟨hticks, hchildren', Scope.brief_nil⟩) s
    refine .step (by rw [hopen]; rfl) ?_
    rw [hopen]
    refine (ihinside hchildren hchildren' _).append (.step (by rw [hclosed]; rfl) ?_)
    rw [hclosed]
    exact ihrest hxs hxs' _

/-- The trees of nested events are the nodes of their scopes, joined. -/
theorem Nests.run_eq {events : List Event} {xs : List Scope} (h : Nests events xs)
    (hlasting : Scope.Lasting xs) (hbrief : Scope.Brief xs) (strict : Bool) :
    ThreadState.run strict events = { roots := Node.addAllTo (Scope.nodes xs) [] } :=
  (h.runs hlasting hbrief strict {}).foldl_eq.trans (handDownAll_roots xs [])

/-! ## All threads -/

namespace Replay

variable {strict : Bool} {events : List Event} {scopes : Int → List Scope}

/-- A finding is what its event brings to light after those before it. -/
theorem exists_event_of_mem_findings {f : Int × Outcome} (h : f ∈ findings strict events) :
    ∃ before e after, events = before ++ e :: after ∧
      f.2 = ((ThreadState.run strict (before.filter (·.thread == e.thread))).step strict e).2 := by
  induction events using List.reverseRecOn with
  | nil => exact absurd h List.not_mem_nil
  | append_singleton events e ih =>
    rw [findings_concat] at h
    rcases List.mem_append.mp h with h | h
    · obtain ⟨before, e', after, rfl, hf⟩ := ih h
      exact ⟨before, e', after ++ [e], by simp, hf⟩
    · rw [List.mem_singleton.mp h]
      exact ⟨events, e, [], rfl, outcome_run strict events e⟩

/-- **A replay of nested events finds no damage.** -/
theorem totalAnomalies_of_nests (strict : Bool)
    (hnests : ∀ t, Nests (events.filter (·.thread == t)) (scopes t))
    (hlasting : ∀ t, Scope.Lasting (scopes t)) (hbrief : ∀ t, Scope.Brief (scopes t)) :
    (run strict events).totalAnomalies = {} := by
  have hway : (run strict events).anomalies = 0 := by
    rw [anomalies_run]
    refine List.sum_eq_zero fun a ha => ?_
    obtain ⟨f, hf, rfl⟩ := List.mem_map.mp ha
    obtain ⟨before, e, after, rfl, hfound⟩ := exists_event_of_mem_findings hf
    -- the event is one of its thread, whose events run without damage
    have hown := (hnests e.thread).runs (hlasting e.thread) (hbrief e.thread) strict {}
    rw [List.filter_append, List.filter_cons_of_pos (by simp)] at hown
    rw [hfound]
    exact hown.clean
  have hleft : ∀ n ∈ (run strict events).threads.values.map fun s => s.frames.length, n = 0 := by
    intro n hn
    obtain ⟨s, hs, rfl⟩ := List.mem_map.mp hn
    obtain ⟨row, hrow, rfl⟩ := List.mem_map.mp hs
    rw [state_of_mem hrow, (hnests row.1).run_eq (hlasting row.1) (hbrief row.1) strict]
    rfl
  rw [totalAnomalies_eq, hway, List.sum_eq_zero hleft]
  rfl

end Replay

end EventTrace
