import EventTrace.Proofs.Capture.Answers
/-!
# Capture — a book of flows

A flow goes by a number, which a later session gives out again, and a handle
changes hands; what stays is the call that opened the flow. The book of a
program says for each handle and each flow scope which call opened it, and
enters every link through one of them, the start included, with the places of
both calls; and it has the numbers that were given out, as they were
answered. `Flowbook.Booked` is what every command keeps: one holder for each
opening, one flow, and nothing after an end.
-/

namespace EventTrace

open Capture

/-! ## Books -/

/-- A link of a flow through the handle or flow scope that was opened for
it. -/
structure FlowLink where
  /-- The place of the call among all commands. -/
  place : Nat
  /-- The place of the call that opened the flow. -/
  opening : Nat
  emission : Emission
deriving DecidableEq

/-- A flow number that a call gave out. -/
structure FlowDraw where
  place : Nat
  flow : Int

/-- A book of flows. -/
structure Flowbook where
  /-- The openings of the handles that the program holds. -/
  handles : List Nat := []
  /-- The openings of its flow scopes, dropped or not. -/
  scopes : List Nat := []
  links : List FlowLink := []
  draws : List FlowDraw := []
  /-- The place of the last start that went well. -/
  since : Option Nat := none

/-- The flow number that a call gave out, by what it answered: none if the
handle or scope is inert. -/
def Request.drawn? : Request → Answer → Option Int
  | .newFlow, .number flow | .startNewFlow _, .number flow => some flow
  | .startFlow _, .handle h => if h.isValid then some h.flow else none
  | .openFlow _, .scope f => if f.handle.isValid then some f.handle.flow else none
  | _, _ => none

namespace Flowbook

/-- What a call opens, steps, ends or drops, by the opening. While nothing
runs no flow is opened. -/
def opening? (b : Flowbook) (p : Program) : Request → Option Nat
  | .startFlow _ | .openFlow _ => if p.capture.running then some p.place else none
  | .stepHandle h | .endHandle h => b.handles[h]?
  | .stepFlow f | .dropFlow f => b.scopes[f]?
  | _ => none

/-- The link that a call is, if it is one. -/
def link? (b : Flowbook) (p : Program) (t : ThreadId) (request : Request) : Option FlowLink :=
  (b.opening? p request).bind fun opening =>
    (p.remark? t request).map fun emission => ⟨p.place, opening, emission⟩

/-- The openings of the handles a call hands out. -/
def handed (b : Flowbook) (p : Program) : Request → List Nat
  | .startFlow _ | .makeHandle .. => [p.place]
  | .takeHandle f => ((p.scope? f).bind fun _ => b.scopes[f]?).toList
  | _ => []

/-- The book after a call. -/
def enter (b : Flowbook) (p : Program) (t : ThreadId) (now : Reading) (request : Request) :
    Flowbook where
  handles := b.handles ++ b.handed p request
  scopes := b.scopes ++ match request with
    | .openFlow _ => [p.place]
    | _ => []
  links := b.links ++ (b.link? p t request).toList
  draws := b.draws ++ ((request.drawn? (p.reply t now request)).map (⟨p.place, ·⟩)).toList
  since := b.since

/-- The book after a command. -/
def after (b : Flowbook) (p : Program) (command : Command) : Flowbook :=
  match command with
  | .start .. => if (p.answer command).isStarted then { b with since := some p.place } else b
  | .stop _ => b
  | .call t request now => if p.hasThread t then b.enter p t now request else b

theorem after_start_ok {b : Flowbook} {p : Program} {o : Options} {now : Int}
    {started : Capture} (hstart : p.capture.start o now = .ok started) :
    b.after p (.start o now) = { b with since := some p.place } := by
  simp [after, Program.answer, hstart, Answer.isStarted]

theorem after_start_error {b : Flowbook} {p : Program} {o : Options} {now : Int}
    {cause : CaptureError} (hstart : p.capture.start o now = .error cause) :
    b.after p (.start o now) = b := by
  simp [after, Program.answer, hstart, Answer.isStarted]

/-- The book of a program after some commands. -/
def of (names : List (Option String)) (commands : List Command) : Flowbook :=
  (commands.foldl (fun (p, b) command => (p.step command, b.after p command))
    (Program.run names [], {})).2

theorem of_append (names : List (Option String)) (commands : List Command) (command : Command) :
    of names (commands ++ [command]) =
      (of names commands).after (Program.run names commands) command := by
  have hrun : ∀ (l : List Command) (p : Program) (b : Flowbook),
      (l.foldl (fun (p, b) command => (p.step command, b.after p command)) (p, b)).1 =
        l.foldl Program.step p := by
    intro l
    induction l with
    | nil => exact fun _ _ => rfl
    | cons command l ih => exact fun p b => ih _ _
  rw [of, List.foldl_append]
  show Flowbook.after _ _ command = _
  rw [hrun]
  rfl

/-! ## Who holds a flow -/

/-- The handles there are, in flow scopes too, with their openings. -/
def held (b : Flowbook) (p : Program) : List (Nat × FlowHandle) :=
  b.handles.zip p.handles ++
    (b.scopes.zip p.scopes).filterMap fun x => x.2.map fun scope => (x.1, scope.handle)

/-- The pairs of two lists, with that in some place first. -/
theorem zip_perm {α β : Type} {as : List α} {bs : List β} {i : Nat} {a : α} {b : β}
    (ha : as[i]? = some a) (hb : bs[i]? = some b) :
    (as.zip bs).Perm ((a, b) :: (as.eraseIdx i).zip (bs.eraseIdx i)) := by
  induction i generalizing as bs with
  | zero =>
    cases as with
    | nil => exact absurd ha (by simp)
    | cons a' as =>
      cases bs with
      | nil => exact absurd hb (by simp)
      | cons b' bs =>
        obtain rfl : a' = a := by simpa using ha
        obtain rfl : b' = b := by simpa using hb
        exact .refl _
  | succ i ih =>
    cases as with
    | nil => exact absurd ha (by simp)
    | cons a' as =>
      cases bs with
      | nil => exact absurd hb (by simp)
      | cons b' bs =>
        have hrest : (as.zip bs).Perm ((a, b) :: (as.eraseIdx i).zip (bs.eraseIdx i)) :=
          ih (by simpa using ha) (by simpa using hb)
        exact (hrest.cons (a', b')).trans (.swap _ _ _)

variable {b : Flowbook} {p : Program} {t : ThreadId} {now : Reading} {request : Request}
  {opening : Nat} {h : FlowHandle}

/-- What a call does to what is held: nothing, or one flow more, or one that
has ended or is gone; with the link that it is. -/
inductive Turn (b : Flowbook) (p : Program) (t : ThreadId) (request : Request)
    (held' : List (Nat × FlowHandle)) : Prop
  | kept : b.link? p t request = none → held'.Perm (b.held p) → Turn b p t request held'
  | opened (h : FlowHandle) : held'.Perm ((p.place, h) :: b.held p) →
      (∀ l ∈ b.link? p t request,
        l = ⟨p.place, p.place, { id := h.id, kind := .flowStart, flow := h.flow }⟩) →
      Turn b p t request held'
  | stepped (opening : Nat) (h : FlowHandle) : (opening, h) ∈ b.held p → h.ended = false →
      b.link? p t request =
        some ⟨p.place, opening, { id := h.id, kind := .flowStep, flow := h.flow }⟩ →
      held'.Perm (b.held p) → Turn b p t request held'
  | ended (opening : Nat) (h : FlowHandle) (rest : List (Nat × FlowHandle)) :
      (b.held p).Perm ((opening, h) :: rest) → h.ended = false →
      b.link? p t request =
        some ⟨p.place, opening, { id := h.id, kind := .flowEnd, flow := h.flow }⟩ →
      held'.Perm ((opening, { h with ended := true }) :: rest) → Turn b p t request held'
  | dropped (opening : Nat) (h : FlowHandle) : (b.held p).Perm ((opening, h) :: held') →
      (∀ l ∈ b.link? p t request, h.ended = false ∧
        l = ⟨p.place, opening, { id := h.id, kind := .flowEnd, flow := h.flow }⟩) →
      Turn b p t request held'

theorem held_perm_handle {i : Nat} (ho : b.handles[i]? = some opening)
    (hh : p.handles[i]? = some h) : ∃ rest, (b.held p).Perm ((opening, h) :: rest) ∧
      ∀ h', (b.held { p with handles := p.handles.set i h' }).Perm ((opening, h') :: rest) := by
  refine ⟨_, (zip_perm ho hh).append_right _, fun h' => ?_⟩
  have hset : (p.handles.set i h')[i]? = some h' := by
    rw [List.getElem?_set_self (List.getElem?_eq_some_iff.mp hh).1]
  have hperm := zip_perm ho hset
  rw [List.eraseIdx_set_eq] at hperm
  exact hperm.append_right _

theorem held_perm_scope {i : Nat} {scope : FlowScope} (ho : b.scopes[i]? = some opening)
    (hscope : p.scope? i = some scope) :
    (b.held p).Perm
      ((opening, scope.handle) :: b.held { p with scopes := p.scopes.set i none }) := by
  have hget : p.scopes[i]? = some (some scope) := Option.join_eq_some_iff.mp hscope
  have hset : (p.scopes.set i none)[i]? = some none := by
    rw [List.getElem?_set_self (List.getElem?_eq_some_iff.mp hget).1]
  have hwith := (zip_perm ho hget).filterMap
    fun x => x.2.map fun scope : FlowScope => (x.1, scope.handle)
  have hwithout := (zip_perm ho hset).filterMap
    fun x => x.2.map fun scope : FlowScope => (x.1, scope.handle)
  rw [List.eraseIdx_set_eq] at hwithout
  simp only [List.filterMap_cons, Option.map_some, Option.map_none] at hwith hwithout
  refine (hwith.append_left _).trans (List.perm_middle.trans (.cons _ ?_))
  exact (hwithout.append_left _).symm

/-- What a handle asks for while it is open. -/
theorem remark?_eq_some {kind : Kind} {e : Emission} (he : h.remark? kind = some e) :
    h.ended = false ∧ e = { id := h.id, kind, flow := h.flow } := by
  unfold FlowHandle.remark? at he
  split at he
  · next hopen =>
    rw [Bool.and_eq_true, Bool.not_eq_true'] at hopen
    exact ⟨hopen.2, (Option.some.inj he).symm⟩
  · exact absurd he (by simp)

/-- The link of a call that steps or ends a flow. -/
theorem link?_of_handle {kind : Kind} (ho : b.opening? p request = some opening)
    (hremark : p.remark? t request = h.remark? kind) :
    (b.link? p t request = none ∧ h.remark? kind = none) ∨
      h.ended = false ∧ b.link? p t request =
        some ⟨p.place, opening, { id := h.id, kind, flow := h.flow }⟩ := by
  unfold link?
  rw [ho, hremark, Option.bind_some]
  cases he : h.remark? kind with
  | none => exact .inl ⟨rfl, rfl⟩
  | some e =>
    obtain ⟨hended, rfl⟩ := remark?_eq_some he
    exact .inr ⟨hended, rfl⟩

/-- The link of a call that opens a flow. -/
theorem link?_of_start {id : Int}
    (ho : b.opening? p request = if p.capture.running then some p.place else none)
    (hremark : p.remark? t request =
      some { id, kind := .flowStart, flow := p.capture.newFlow.1 }) :
    ∀ l ∈ b.link? p t request, l = ⟨p.place, p.place,
      { id := (p.capture.startFlow t id now).1.id, kind := .flowStart,
        flow := (p.capture.startFlow t id now).1.flow }⟩ := by
  intro l hl
  unfold link? at hl
  rw [ho, hremark] at hl
  cases hrunning : p.capture.running with
  | false => simp [hrunning] at hl
  | true =>
    simp only [hrunning, if_true, Option.bind_some, Option.map_some, Option.mem_def,
      Option.some.injEq] at hl
    simp only [Capture.startFlow, hrunning, if_true]
    exact hl.symm

/-- A call that steps a flow there is. -/
theorem turn_of_step {held' : List (Nat × FlowHandle)} (hmem : (opening, h) ∈ b.held p)
    (ho : b.opening? p request = some opening)
    (hremark : p.remark? t request = h.remark? .flowStep) (hheld : held'.Perm (b.held p)) :
    Turn b p t request held' := by
  rcases link?_of_handle ho hremark with ⟨hnone, -⟩ | ⟨hended, hlink⟩
  · exact .kept hnone hheld
  · exact .stepped opening h hmem hended hlink hheld

/-- The handle after an end. -/
theorem endFlow_handle (c : Capture) (t : ThreadId) (h : FlowHandle) (now : Reading) :
    (c.endFlow t h now).2.1 =
      if (h.remark? .flowEnd).isSome then { h with ended := true } else h := by
  unfold Capture.endFlow FlowHandle.remark?
  split <;> rfl

/-- A call that ends a flow there is. -/
theorem turn_of_end {held' rest : List (Nat × FlowHandle)}
    (hperm : (b.held p).Perm ((opening, h) :: rest))
    (ho : b.opening? p request = some opening)
    (hremark : p.remark? t request = h.remark? .flowEnd)
    (hheld : held'.Perm ((opening, (p.capture.endFlow t h now).2.1) :: rest)) :
    Turn b p t request held' := by
  rw [endFlow_handle] at hheld
  rcases link?_of_handle ho hremark with ⟨hnone, hsilent⟩ | ⟨hended, hlink⟩
  · rw [hsilent] at hheld
    exact .kept hnone (hheld.trans hperm.symm)
  · have hsome : (h.remark? .flowEnd).isSome = true := by
      rw [← hremark]
      unfold link? at hlink
      rw [ho, Option.bind_some] at hlink
      obtain ⟨e, he, -⟩ := Option.map_eq_some_iff.mp hlink
      rw [he, Option.isSome_some]
    rw [if_pos hsome] at hheld
    exact .ended opening h rest hperm hended hlink hheld

/-- Every handle has an opening. -/
theorem opening_of_handle (hhandles : b.handles.length = p.handles.length) {i : Nat}
    (hi : p.handles[i]? = some h) : ∃ opening, b.handles[i]? = some opening :=
  ⟨_, List.getElem?_eq_getElem (hhandles ▸ (List.getElem?_eq_some_iff.mp hi).1)⟩

/-- And so has every flow scope. -/
theorem opening_of_scope (hscopes : b.scopes.length = p.scopes.length) {i : Nat}
    {scope : FlowScope} (hi : p.scope? i = some scope) :
    ∃ opening, b.scopes[i]? = some opening :=
  ⟨_, List.getElem?_eq_getElem
    (hscopes ▸ (List.getElem?_eq_some_iff.mp (Option.join_eq_some_iff.mp hi)).1)⟩

/-- **A call does one of these** to what is held. -/
theorem turn_serve (hhandles : b.handles.length = p.handles.length)
    (hscopes : b.scopes.length = p.scopes.length) (t : ThreadId) (now : Reading)
    (request : Request) :
    Turn b p t request ((b.enter p t now request).held (p.serve t now request)) := by
  -- the pairs of the lists with one more each
  have hzip : ∀ (o : Nat) (h : FlowHandle), (b.handles ++ [o]).zip (p.handles ++ [h]) =
      b.handles.zip p.handles ++ [(o, h)] := fun o h => List.zip_append hhandles
  have hzip' : ∀ (o : Nat) (f : Option FlowScope), (b.scopes ++ [o]).zip (p.scopes ++ [f]) =
      b.scopes.zip p.scopes ++ [(o, f)] := fun o f => List.zip_append hscopes
  cases request with
  | startFlow id =>
    refine .opened (p.capture.startFlow t id now).1 ?_ (link?_of_start rfl rfl)
    simp only [held, enter, handed, Program.serve, hzip, List.append_nil, List.append_assoc]
    exact List.perm_middle
  | openFlow id =>
    refine .opened (p.capture.openFlow t id now).1.handle ?_ (link?_of_start rfl rfl)
    simp only [held, enter, handed, Program.serve, hzip', List.append_nil, List.filterMap_append,
      ← List.append_assoc]
    exact List.perm_append_singleton _ _
  | makeHandle id flow =>
    refine .opened { id, flow } ?_ fun l hl => absurd hl (by simp [link?, opening?])
    simp only [held, enter, handed, Program.serve, hzip, List.append_nil, List.append_assoc]
    exact List.perm_middle
  | stepHandle i =>
    simp only [held, enter, handed, Program.serve, List.append_nil]
    cases hi : p.handles[i]? with
    | none => exact .kept (by simp [link?, Program.remark?, hi]) (.refl _)
    | some h =>
      obtain ⟨opening, ho⟩ := opening_of_handle hhandles hi
      obtain ⟨rest, hperm, -⟩ := held_perm_handle ho hi
      exact turn_of_step (hperm.mem_iff.mpr List.mem_cons_self) ho
        (by simp only [Program.remark?, hi, Option.bind_some]) (.refl _)
  | endHandle i =>
    simp only [held, enter, handed, Program.serve, List.append_nil]
    cases hi : p.handles[i]? with
    | none => exact .kept (by simp [link?, Program.remark?, hi]) (.refl _)
    | some h =>
      obtain ⟨opening, ho⟩ := opening_of_handle hhandles hi
      obtain ⟨rest, hperm, hset⟩ := held_perm_handle ho hi
      exact turn_of_end hperm ho (by simp only [Program.remark?, hi, Option.bind_some]) (hset _)
  | stepFlow i =>
    simp only [held, enter, handed, Program.serve, List.append_nil]
    cases hi : p.scope? i with
    | none => exact .kept (by simp [link?, Program.remark?, hi]) (.refl _)
    | some scope =>
      obtain ⟨opening, ho⟩ := opening_of_scope hscopes hi
      exact turn_of_step ((held_perm_scope ho hi).mem_iff.mpr List.mem_cons_self) ho
        (by simp only [Program.remark?, hi, Option.bind_some]) (.refl _)
  | dropFlow i =>
    simp only [held, enter, handed, Program.serve, List.append_nil]
    cases hi : p.scope? i with
    | none => exact .kept (by simp [link?, Program.remark?, hi]) (.refl _)
    | some scope =>
      obtain ⟨opening, ho⟩ := opening_of_scope hscopes hi
      refine .dropped opening scope.handle (held_perm_scope ho hi) fun l hl => ?_
      have hremark : p.remark? t (.dropFlow i) = scope.handle.remark? .flowEnd := by
        simp only [Program.remark?, hi, Option.bind_some]
      have hopening : b.opening? p (.dropFlow i) = some opening := ho
      rcases link?_of_handle hopening hremark with ⟨hnone, -⟩ | ⟨hended, hlink⟩
      · rw [hnone] at hl
        exact absurd hl (by simp)
      · rw [hlink] at hl
        exact ⟨hended, (Option.some.inj hl).symm⟩
  | takeHandle i =>
    refine .kept (by simp [link?, opening?]) ?_
    simp only [held, enter, handed, Program.serve, List.append_nil]
    cases hi : p.scope? i with
    | none =>
      simp only [Option.bind_none, Option.toList_none, List.append_nil]
      exact .refl _
    | some scope =>
      -- the handle goes from among the scopes to among the handles
      obtain ⟨opening, ho⟩ := opening_of_scope hscopes hi
      have hperm := held_perm_scope ho hi
      simp only [Option.bind_some, ho, Option.toList_some, FlowScope.intoHandle, hzip,
        List.append_assoc]
      exact List.perm_middle.trans hperm.symm
  | closeScope g =>
    refine .kept (by simp [link?, opening?]) ?_
    simp only [held, enter, handed, Program.serve, List.append_nil]
    split <;> exact .refl _
  | _ =>
    refine .kept (by simp [link?, opening?]) ?_
    simp only [held, enter, handed, Program.serve, List.append_nil]
    exact .refl _

/-- The lists of a book are as long as those of its program. -/
theorem length_serve (hhandles : b.handles.length = p.handles.length)
    (hscopes : b.scopes.length = p.scopes.length) (t : ThreadId) (now : Reading)
    (request : Request) :
    (b.enter p t now request).handles.length = (p.serve t now request).handles.length ∧
      (b.enter p t now request).scopes.length = (p.serve t now request).scopes.length := by
  cases request with
  | takeHandle i =>
    simp only [enter, handed, Program.serve]
    cases hi : p.scope? i with
    | none => simp [hhandles, hscopes]
    | some scope =>
      obtain ⟨opening, ho⟩ := opening_of_scope hscopes hi
      simp [hhandles, hscopes, ho]
  | closeScope | stepHandle | endHandle | stepFlow | dropFlow =>
    simp only [enter, handed, Program.serve, List.append_nil]
    split <;> simp [hhandles, hscopes]
  | _ => simp [enter, handed, Program.serve, hhandles, hscopes]

/-! ## One holder, one flow, one end -/

/-- Every flow has one holder at most, its links are of its own number, and
none comes after an end; all of it before some place. -/
structure Settled (place : Nat) (held : List (Nat × FlowHandle)) (links : List FlowLink) :
    Prop where
  /-- No two are of one opening. -/
  apart : (held.map Prod.fst).Nodup
  opened : ∀ x ∈ held, x.1 < place
  made : ∀ l ∈ links, l.place < place ∧ l.opening ≤ l.place
  ordered : links.Pairwise fun l l' => l.place < l'.place
  flow : ∀ l ∈ links, ∀ x ∈ held, x.1 = l.opening → x.2.flow = l.emission.flow
  sameFlow : links.Pairwise fun l l' => l.opening = l'.opening →
    l.emission.flow = l'.emission.flow
  /-- Whoever holds a flow that was ended holds it ended. -/
  finished : ∀ l ∈ links, l.emission.kind = .flowEnd → ∀ x ∈ held, x.1 = l.opening →
    x.2.ended = true
  once : links.Pairwise fun l l' => l.opening = l'.opening → l.emission.kind ≠ .flowEnd

namespace Settled

variable {place : Nat} {held held' rest : List (Nat × FlowHandle)} {links : List FlowLink}
  {l : FlowLink}

/-- Of one opening there is one holder. -/
theorem eq_of_held (hs : Settled place held links) {x y : Nat × FlowHandle} (hx : x ∈ held)
    (hy : y ∈ held) (hxy : x.1 = y.1) : x = y := List.inj_on_of_nodup_map hs.apart hx hy hxy

/-- Holders may go, and change hands. -/
theorem subperm (hs : Settled place held links) (hnodup : (held'.map Prod.fst).Nodup)
    (hsub : ∀ x ∈ held', x ∈ held) : Settled (place + 1) held' links where
  apart := hnodup
  opened x hx := Nat.lt_succ_of_lt (hs.opened x (hsub x hx))
  made l hl := ⟨Nat.lt_succ_of_lt (hs.made l hl).1, (hs.made l hl).2⟩
  ordered := hs.ordered
  flow l hl x hx := hs.flow l hl x (hsub x hx)
  sameFlow := hs.sameFlow
  finished l hl hkind x hx := hs.finished l hl hkind x (hsub x hx)
  once := hs.once

theorem perm (hs : Settled place held links) (hperm : held'.Perm held) :
    Settled (place + 1) held' links :=
  hs.subperm ((hperm.map Prod.fst).nodup_iff.mpr hs.apart) fun _ hx => hperm.mem_iff.mp hx

/-- A flow is opened. -/
theorem opens (hs : Settled place held links) {h : FlowHandle}
    (hperm : held'.Perm ((place, h) :: held)) : Settled (place + 1) held' links := by
  have hmem : ∀ x ∈ held', x = (place, h) ∨ x ∈ held := fun x hx =>
    List.mem_cons.mp (hperm.mem_iff.mp hx)
  -- no link is of a flow that is opened just now
  have hnew : ∀ l ∈ links, place ≠ l.opening := fun l hl => by
    have := hs.made l hl
    omega
  refine ⟨?_, ?_, fun l hl => ⟨Nat.lt_succ_of_lt (hs.made l hl).1, (hs.made l hl).2⟩, hs.ordered,
    ?_, hs.sameFlow, ?_, hs.once⟩
  · refine (hperm.map Prod.fst).nodup_iff.mpr (List.nodup_cons.mpr ⟨fun hin => ?_, hs.apart⟩)
    obtain ⟨x, hx, hplace⟩ := List.mem_map.mp hin
    exact Nat.ne_of_lt (hs.opened x hx) hplace
  · intro x hx
    rcases hmem x hx with rfl | hx
    · exact Nat.lt_succ_self place
    · exact Nat.lt_succ_of_lt (hs.opened x hx)
  · intro l hl x hx hopening
    rcases hmem x hx with rfl | hx
    · exact absurd hopening (hnew l hl)
    · exact hs.flow l hl x hx hopening
  · intro l hl hkind x hx hopening
    rcases hmem x hx with rfl | hx
    · exact absurd hopening (hnew l hl)
    · exact hs.finished l hl hkind x hx hopening

/-- A flow is ended by its holder. -/
theorem ends (hs : Settled place held links) {opening : Nat} {h : FlowHandle}
    (hbefore : held.Perm ((opening, h) :: rest))
    (hafter : held'.Perm ((opening, { h with ended := true }) :: rest)) :
    Settled (place + 1) held' links := by
  have hh := hbefore.mem_iff.mpr List.mem_cons_self
  have hmem : ∀ x ∈ held', x = (opening, { h with ended := true }) ∨ x ∈ held := by
    intro x hx
    rcases List.mem_cons.mp (hafter.mem_iff.mp hx) with rfl | hx
    · exact .inl rfl
    · exact .inr (hbefore.mem_iff.mpr (List.mem_cons_of_mem _ hx))
  refine ⟨?_, ?_, fun l hl => ⟨Nat.lt_succ_of_lt (hs.made l hl).1, (hs.made l hl).2⟩, hs.ordered,
    ?_, hs.sameFlow, ?_, hs.once⟩
  · refine (hafter.map Prod.fst).nodup_iff.mpr ?_
    exact (hbefore.map Prod.fst).nodup_iff.mp hs.apart
  · intro x hx
    rcases hmem x hx with rfl | hx
    · exact Nat.lt_succ_of_lt (hs.opened (opening, h) hh)
    · exact Nat.lt_succ_of_lt (hs.opened x hx)
  · intro l hl x hx hopening
    rcases hmem x hx with rfl | hx
    · exact hs.flow l hl (opening, h) hh hopening
    · exact hs.flow l hl x hx hopening
  · intro l hl hkind x hx hopening
    rcases hmem x hx with rfl | hx
    · rfl
    · exact hs.finished l hl hkind x hx hopening

/-- A link is entered. -/
theorem concat (hs : Settled (place + 1) held links) (hmade : ∀ l' ∈ links, l'.place < place)
    (hplace : l.place = place) (hopening : l.opening ≤ place)
    (hflow : ∀ x ∈ held, x.1 = l.opening → x.2.flow = l.emission.flow)
    (hsame : ∀ l' ∈ links, l'.opening = l.opening → l'.emission.flow = l.emission.flow)
    (hover : l.emission.kind = .flowEnd → ∀ x ∈ held, x.1 = l.opening → x.2.ended = true)
    (honce : ∀ l' ∈ links, l'.opening = l.opening → l'.emission.kind ≠ .flowEnd) :
    Settled (place + 1) held (links ++ [l]) := by
  have hconcat : ∀ {R : FlowLink → FlowLink → Prop}, links.Pairwise R → (∀ l' ∈ links, R l' l) →
      (links ++ [l]).Pairwise R := fun hpairs hlast =>
    List.pairwise_append.mpr ⟨hpairs, List.pairwise_singleton _ _, fun l' hl' l'' hl'' =>
      List.mem_singleton.mp hl'' ▸ hlast l' hl'⟩
  refine ⟨hs.apart, hs.opened, ?_, hconcat hs.ordered fun l' hl' => hplace ▸ hmade l' hl', ?_,
    hconcat hs.sameFlow hsame, ?_, hconcat hs.once honce⟩
  · intro l' hl'
    rcases List.mem_append.mp hl' with hl' | hl'
    · exact hs.made l' hl'
    · rw [List.mem_singleton.mp hl', hplace]
      exact ⟨Nat.lt_succ_self place, hopening⟩
  · intro l' hl'
    rcases List.mem_append.mp hl' with hl' | hl'
    · exact hs.flow l' hl'
    · rwa [List.mem_singleton.mp hl']
  · intro l' hl'
    rcases List.mem_append.mp hl' with hl' | hl'
    · exact hs.finished l' hl'
    · rwa [List.mem_singleton.mp hl']

/-- A link of a flow that has not ended. -/
theorem extend (hs : Settled place held links) {opening : Nat} {h : FlowHandle}
    (hh : (opening, h) ∈ held) (hended : h.ended = false)
    (hs' : Settled (place + 1) held' links) {kind : Kind}
    (hflow : ∀ x ∈ held', x.1 = opening → x.2.flow = h.flow)
    (hover : kind = .flowEnd → ∀ x ∈ held', x.1 = opening → x.2.ended = true) :
    Settled (place + 1) held'
      (links ++ [⟨place, opening, { id := h.id, kind, flow := h.flow }⟩]) := by
  refine hs'.concat (fun l' hl' => (hs.made l' hl').1) rfl (Nat.le_of_lt (hs.opened _ hh)) hflow
    ?_ hover ?_
  · intro l' hl' hopening
    exact (hs.flow l' hl' _ hh hopening.symm).symm
  · intro l' hl' hopening hkind
    have hover := hs.finished l' hl' hkind _ hh hopening.symm
    rw [hended] at hover
    exact absurd hover (by simp)

/-- **A call leaves everything settled.** -/
theorem turn {b : Flowbook} {p : Program} {t : ThreadId} {request : Request}
    {held' : List (Nat × FlowHandle)} (hs : Settled p.place (b.held p) b.links)
    (hturn : Turn b p t request held') :
    Settled (p.place + 1) held' (b.links ++ (b.link? p t request).toList) := by
  cases hturn with
  | kept hlink hperm =>
    rw [hlink, Option.toList_none, List.append_nil]
    exact hs.perm hperm
  | opened h hperm hlink =>
    have hopened := hs.opens hperm
    cases hl : b.link? p t request with
    | none =>
      rw [Option.toList_none, List.append_nil]
      exact hopened
    | some l =>
      obtain rfl := hlink l hl
      have hnew : ∀ l' ∈ b.links, l'.opening ≠ p.place := fun l' hl' => by
        have := hs.made l' hl'
        omega
      refine hopened.concat (fun l' hl' => (hs.made l' hl').1) rfl (Nat.le_refl _) ?_
        (fun l' hl' hopening => absurd hopening (hnew l' hl')) (fun hkind => absurd hkind (by simp))
        (fun l' hl' hopening => absurd hopening (hnew l' hl'))
      intro x hx hopening
      rw [hopened.eq_of_held hx (hperm.mem_iff.mpr List.mem_cons_self) hopening]
  | stepped opening h hh hended hlink hperm =>
    have hkept := hs.perm hperm
    rw [hlink]
    refine hs.extend hh hended hkept (fun x hx hopening => ?_) fun hkind => absurd hkind (by simp)
    rw [hkept.eq_of_held hx (hperm.mem_iff.mpr hh) hopening]
  | ended opening h rest hbefore hended hlink hafter =>
    have hends := hs.ends hbefore hafter
    have hself := hafter.mem_iff.mpr List.mem_cons_self
    rw [hlink]
    refine hs.extend (hbefore.mem_iff.mpr List.mem_cons_self) hended hends
      (fun x hx hopening => ?_) fun _ x hx hopening => ?_
    · rw [hends.eq_of_held hx hself hopening]
    · rw [hends.eq_of_held hx hself hopening]
  | dropped opening h hbefore hlink =>
    have hnodup := List.nodup_cons.mp ((hbefore.map Prod.fst).nodup_iff.mp hs.apart)
    have hgone : ∀ x ∈ held', x.1 ≠ opening := fun x hx hopening =>
      hnodup.1 (List.mem_map.mpr ⟨x, hx, hopening⟩)
    have hdropped := hs.subperm hnodup.2 fun x hx =>
      hbefore.mem_iff.mpr (List.mem_cons_of_mem _ hx)
    cases hl : b.link? p t request with
    | none =>
      rw [Option.toList_none, List.append_nil]
      exact hdropped
    | some l =>
      obtain ⟨hended, rfl⟩ := hlink l hl
      exact hs.extend (hbefore.mem_iff.mpr List.mem_cons_self) hended hdropped
        (fun x hx hopening => absurd hopening (hgone x hx))
        fun _ x hx hopening => absurd hopening (hgone x hx)

end Settled

/-- A book that is kept for a program. -/
structure Booked (p : Program) (b : Flowbook) : Prop where
  handles : b.handles.length = p.handles.length
  scopes : b.scopes.length = p.scopes.length
  settled : Settled p.place (b.held p) b.links

/-- Starts and stops hand out nothing and enter no link. -/
theorem Booked.quiet {p' : Program} {b' : Flowbook} (h : Booked p b)
    (hplace : p'.place = p.place + 1) (hhandles : p'.handles = p.handles)
    (hscopes : p'.scopes = p.scopes) (hbook : ∃ since, b' = { b with since }) :
    Booked p' b' := by
  obtain ⟨since, rfl⟩ := hbook
  have hheld : Flowbook.held { b with since } p' = b.held p := by
    simp only [held, hhandles, hscopes]
  refine ⟨?_, ?_, ?_⟩
  · rw [hhandles]
    exact h.handles
  · rw [hscopes]
    exact h.scopes
  · rw [hplace, hheld]
    exact h.settled.perm (.refl _)

/-- **Every command keeps the book.** -/
theorem Booked.step (h : Booked p b) (command : Command) :
    Booked (p.step command) (b.after p command) := by
  cases command with
  | start o now =>
    refine h.quiet rfl ?_ ?_ ?_
    · simp only [Program.step, Program.obey]
      cases p.capture.start o now <;> rfl
    · simp only [Program.step, Program.obey]
      cases p.capture.start o now <;> rfl
    · simp only [after]
      split
      · exact ⟨some p.place, rfl⟩
      · exact ⟨b.since, rfl⟩
  | stop now =>
    refine h.quiet rfl ?_ ?_ ⟨b.since, rfl⟩
    · simp only [Program.step, Program.obey]
      cases p.capture.stop now <;> rfl
    · simp only [Program.step, Program.obey]
      cases p.capture.stop now <;> rfl
  | call t request now =>
    by_cases hthread : p.hasThread t = true
    · obtain ⟨hhandles, hscopes⟩ := length_serve h.handles h.scopes t now request
      have hturn := turn_serve h.handles h.scopes t now request
      simp only [Program.step, Program.obey, after, hthread, if_true]
      exact ⟨hhandles, hscopes, h.settled.turn hturn⟩
    · simp only [Program.step, Program.obey, after, if_neg hthread]
      exact h.quiet rfl rfl rfl ⟨b.since, rfl⟩

/-- **The book is kept through every run.** -/
theorem booked_run (names : List (Option String)) (commands : List Command) :
    Booked (Program.run names commands) (of names commands) := by
  induction commands using List.reverseRecOn with
  | nil => exact ⟨rfl, rfl, List.nodup_nil, fun _ hx => absurd hx List.not_mem_nil,
      fun _ hl => absurd hl List.not_mem_nil, List.Pairwise.nil,
      fun _ hl => absurd hl List.not_mem_nil, List.Pairwise.nil,
      fun _ hl => absurd hl List.not_mem_nil, List.Pairwise.nil⟩
  | append_singleton commands command ih =>
    rw [Program.run_append, of_append]
    exact ih.step command

end Flowbook

end EventTrace
