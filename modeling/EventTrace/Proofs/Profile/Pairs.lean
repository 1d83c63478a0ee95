import EventTrace.Proofs.Profile.Outcomes
import EventTrace.Proofs.Profile.Scopes
import Mathlib.Data.Set.Card
/-!
# Profile — begins and ends in pairs, and what a cut leaves of them

A begin and a later end of one id are a pair if the events between them are
nested and all closed (`PairedAs`). No two pairs share a begin or an end, and
pairs are told by what is between them, so a stretch of events has the pairs it
would have as part of any longer ones (`pairedAs_append`). In a piece of nested
events an end is one of a pair of the piece, or closes what was opened before
it, and the latter meets no open scope of the piece (`exists_paired_last_iff`).
Reading the piece alone therefore tells how many ends and begins lost the other
of their pair to the cuts (`ncard_orphanEnds`, `ncard_openBegins`).
-/

namespace EventTrace

/-! ## Pairs -/

/-- The events between two places. -/
def between (events : List Event) (i j : Nat) : List Event := (events.take j).drop (i + 1)

/-- A begin at one place and the end at a later one that closes it, with the
scope that they tell: they are of one id, and what is between them is nested and
all closed. -/
structure PairedAs (events : List Event) (i j : Nat) (x : Scope) : Prop where
  lt : i < j
  begins : ∃ b, events[i]? = some b ∧ b.kind = .scopeBegin ∧ x.id = b.id ∧ x.start = b.timestamp
  ends : ∃ e, events[j]? = some e ∧ e.kind = .scopeEnd ∧ x.id = e.id ∧ x.finish = e.timestamp
  inside : Nests (between events i j) x.children

/-- The ticks from the event at one place to the event at another. -/
def ticksBetween (events : List Event) (p : Nat × Nat) : Int :=
  events[p.2]?.elim 0 Event.timestamp - events[p.1]?.elim 0 Event.timestamp

/-- Whether a word holds the ticks from one place to another. -/
def isBrief (events : List Event) (p : Nat × Nat) : Bool :=
  ticksBetween events p ≤ TickRate.maxTicks

/-- A begin at one place is closed by the end at another. -/
def Paired (events : List Event) (i j : Nat) : Prop := ∃ x, PairedAs events i j x

section Pairs

variable {events before inside after u v w : List Event} {b e : Event} {i j i' j' : Nat} {x : Scope}

theorem PairedAs.lt_length (h : PairedAs events i j x) : j < events.length := by
  obtain ⟨e, he, -⟩ := h.ends
  exact (List.getElem?_eq_some_iff.mp he).1

/-- A pair is as far apart as its scope is long. -/
theorem PairedAs.ticksBetween_eq (h : PairedAs events i j x) :
    ticksBetween events (i, j) = x.duration := by
  obtain ⟨b, hb, -, -, hstart⟩ := h.begins
  obtain ⟨e, he, -, -, hfinish⟩ := h.ends
  rw [ticksBetween, hb, he, Scope.duration, hstart, hfinish]
  rfl

/-- **A pair is told by what is between it**, whatever comes before and
after. -/
theorem pairedAs_append (hj : j < v.length) :
    PairedAs (u ++ v ++ w) (u.length + i) (u.length + j) x ↔ PairedAs v i j x := by
  have hat : ∀ k ≤ j, (u ++ v ++ w)[u.length + k]? = v[k]? := by
    intro k hk
    rw [List.append_assoc, List.getElem?_append_right (Nat.le_add_right ..),
      Nat.add_sub_cancel_left, List.getElem?_append_left (by omega)]
  have hbetween : between (u ++ v ++ w) (u.length + i) (u.length + j) = between v i j := by
    rw [between, between, List.append_assoc, List.take_length_add_append,
      List.take_append_of_le_length (by omega), Nat.add_assoc, List.drop_length_add_append]
  constructor
  · rintro ⟨hlt, hbegins, hends, hinside⟩
    have hlt : i < j := by omega
    rw [hat i hlt.le] at hbegins
    rw [hat j le_rfl] at hends
    exact ⟨hlt, hbegins, hends, hbetween ▸ hinside⟩
  · rintro ⟨hlt, hbegins, hends, hinside⟩
    rw [← hat i hlt.le] at hbegins
    rw [← hat j le_rfl] at hends
    exact ⟨by omega, hbegins, hends, hbetween.symm ▸ hinside⟩

theorem paired_append (hj : j < v.length) :
    Paired (u ++ v ++ w) (u.length + i) (u.length + j) ↔ Paired v i j :=
  exists_congr fun _ => pairedAs_append hj

/-- Reading on from nothing open, nested events never come to an end with
nothing open. -/
theorem Nests.no_loose_end {xs ys : List Scope} (h : Nests (inside ++ e :: after) xs)
    (hinside : Nests inside ys) : e.kind ≠ .scopeEnd := by
  intro he
  have hall := h.foldlM_nest []
  rw [List.foldlM_append, hinside.foldlM_nest, Option.bind_eq_bind, Option.bind_some,
    List.foldlM_cons] at hall
  simp [nest, he] at hall

/-- Nor do they leave open what they begin. -/
theorem Nests.no_open_begin {xs ys : List Scope} (h : Nests (before ++ b :: inside) xs)
    (hinside : Nests inside ys) : b.kind ≠ .scopeBegin := by
  intro hb
  have hall := h.foldlM_nest []
  rw [List.foldlM_append, Option.bind_eq_bind, Option.bind_eq_some_iff] at hall
  obtain ⟨opened, -, hall⟩ := hall
  rw [List.foldlM_cons, nest_begin hb, Option.bind_eq_bind, Option.bind_some,
    hinside.foldlM_nest] at hall
  exact nomatch hall

/-- The events up to a place, taken apart at an earlier one. -/
theorem take_eq_append_cons {k n : Nat} (he : events[k]? = some e) (hk : k < n) :
    events.take n = events.take k ++ e :: (events.take n).drop (k + 1) := by
  obtain ⟨hlt, rfl⟩ := List.getElem?_eq_some_iff.mp he
  conv_lhs => rw [← List.take_append_drop k (events.take n)]
  rw [List.take_take, Nat.min_eq_left hk.le, List.drop_eq_getElem_cons (by simp; omega),
    List.getElem_take]

/-- An earlier end is between. -/
theorem between_of_lt_right (he : events[j]? = some e) (hij : i < j) (hjj' : j < j') :
    ∃ after, between events i j' = between events i j ++ e :: after := by
  have hlength : i + 1 ≤ (events.take j).length := by
    have := (List.getElem?_eq_some_iff.mp he).1
    simp only [List.length_take]
    omega
  refine ⟨(events.take j').drop (j + 1), ?_⟩
  conv_lhs => rw [between, take_eq_append_cons he hjj', List.drop_append_of_le_length hlength]
  rfl

/-- A later begin is between. -/
theorem between_of_lt_left (hb : events[i']? = some b) (hii' : i < i') (hi'j : i' < j) :
    ∃ before, between events i j = before ++ b :: between events i' j := by
  have hlength : i + 1 ≤ (events.take i').length := by
    have := (List.getElem?_eq_some_iff.mp hb).1
    simp only [List.length_take]
    omega
  refine ⟨(events.take i').drop (i + 1), ?_⟩
  conv_lhs => rw [between, take_eq_append_cons hb hi'j, List.drop_append_of_le_length hlength]
  rfl

/-- **A begin has one end.** -/
theorem Paired.end_unique (h : Paired events i j) (h' : Paired events i j') : j = j' := by
  have hle : ∀ {j j'}, Paired events i j → Paired events i j' → j' ≤ j := by
    rintro j j' ⟨x, hx⟩ ⟨y, hy⟩
    by_contra hlt
    obtain ⟨e, he, hkind, -⟩ := hx.ends
    obtain ⟨after, hbetween⟩ := between_of_lt_right he hx.lt (Nat.lt_of_not_le hlt)
    exact (hbetween ▸ hy.inside).no_loose_end hx.inside hkind
  exact Nat.le_antisymm (hle h' h) (hle h h')

/-- **An end has one begin.** -/
theorem Paired.begin_unique (h : Paired events i j) (h' : Paired events i' j) : i = i' := by
  have hle : ∀ {i i'}, Paired events i j → Paired events i' j → i' ≤ i := by
    rintro i i' ⟨x, hx⟩ ⟨y, hy⟩
    by_contra hlt
    obtain ⟨b, hb, hkind, -⟩ := hy.begins
    obtain ⟨before, hbetween⟩ := between_of_lt_left hb (Nat.lt_of_not_le hlt) hy.lt
    exact (hbetween ▸ hx.inside).no_open_begin hy.inside hkind
  exact Nat.le_antisymm (hle h' h) (hle h h')

end Pairs

/-! ## A piece of nested events -/

/-- What a piece of nested events has of scopes that reach beyond it. -/
structure Loose where
  /-- Ends of what was opened before the piece. -/
  ends : Nat
  /-- The scopes that the piece leaves open, the innermost first. -/
  opened : List Int

/-- Reads one more event of a piece; none if it ends another scope of the piece
than the innermost. -/
def Loose.read (l : Loose) (e : Event) : Option Loose :=
  match e.kind with
  | .scopeBegin => some ⟨l.ends, e.id :: l.opened⟩
  | .scopeEnd =>
    match l.opened with
    | [] => some ⟨l.ends + 1, []⟩
    | id :: below => if id = e.id then some ⟨l.ends, below⟩ else none
  | _ => some l

/-- What a piece of nested events has of scopes that reach beyond it, if it is
such a piece. -/
def loose? (events : List Event) : Option Loose := events.foldlM Loose.read ⟨0, []⟩

section Pieces

variable {events u v w : List Event} {e : Event} {l l' : Loose} {opened below : List Int} {id : Int}

theorem loose?_concat (events : List Event) (e : Event) :
    loose? (events ++ [e]) = (loose? events).bind (·.read e) := by
  rw [loose?, List.foldlM_append]
  simp [loose?]

theorem loose?_concat_eq_some : loose? (events ++ [e]) = some l' ↔
    ∃ l, loose? events = some l ∧ l.read e = some l' := by
  rw [loose?_concat, Option.bind_eq_some_iff]

/-- What an event does to what reaches beyond the piece. -/
theorem Loose.read_eq_some : l.read e = some l' ↔
    (e.kind = .scopeBegin ∧ l' = ⟨l.ends, e.id :: l.opened⟩) ∨
    (e.kind = .scopeEnd ∧ l.opened = [] ∧ l' = ⟨l.ends + 1, []⟩) ∨
    (e.kind = .scopeEnd ∧ ∃ below, l.opened = e.id :: below ∧ l' = ⟨l.ends, below⟩) ∨
    (e.kind.isScope = false ∧ l' = l) := by
  obtain ⟨ends, opened⟩ := l
  cases hkind : e.kind with
  | scopeBegin => simp [read, hkind, Kind.isScope, eq_comm]
  | scopeEnd =>
    cases opened with
    | nil => simp [read, hkind, Kind.isScope, eq_comm]
    | cons id below =>
      by_cases hid : id = e.id
      · simp [read, hkind, Kind.isScope, hid, eq_comm]
      · simp [read, hkind, Kind.isScope, hid]
  | _ => simp [read, hkind, Kind.isScope, eq_comm]

/-- What an end does to it. -/
theorem Loose.read_end (hkind : e.kind = .scopeEnd) (h : l.read e = some l') :
    (l.opened = [] ∧ l' = ⟨l.ends + 1, []⟩) ∨
      ∃ below, l.opened = e.id :: below ∧ l' = ⟨l.ends, below⟩ := by
  rcases read_eq_some.mp h with ⟨hbegin, -⟩ | ⟨-, hopened, rfl⟩ | ⟨-, below, hopened, rfl⟩ |
    ⟨hother, -⟩
  · exact absurd (hkind.symm.trans hbegin) (by decide)
  · exact .inl ⟨hopened, rfl⟩
  · exact .inr ⟨below, hopened, rfl⟩
  · rw [hkind] at hother
    exact nomatch hother

/-- Nested events read on from what is open leave it open. -/
theorem Nests.foldlM_read {xs : List Scope} (h : Nests events xs) (l : Loose) :
    events.foldlM Loose.read l = some l := by
  induction h generalizing l with
  | nil => rfl
  | @other e rest xs he _ ih =>
    have hread : l.read e = some l := Loose.read_eq_some.mpr (.inr (.inr (.inr ⟨he, rfl⟩)))
    rw [List.foldlM_cons, hread]
    exact ih l
  | @scope b e inside rest children xs hb he hid _ _ ihinside ihrest =>
    have hbegin : l.read b = some ⟨l.ends, b.id :: l.opened⟩ :=
      Loose.read_eq_some.mpr (.inl ⟨hb, rfl⟩)
    have hend : Loose.read ⟨l.ends, b.id :: l.opened⟩ e = some l :=
      Loose.read_eq_some.mpr (.inr (.inr (.inl ⟨he, l.opened, by rw [hid], rfl⟩)))
    rw [List.foldlM_cons, hbegin, Option.bind_eq_bind, Option.bind_some, List.foldlM_append,
      ihinside, Option.bind_eq_bind, Option.bind_some, List.foldlM_cons, hend]
    exact ihrest l

/-- **A piece of nested events reads as one**: it ends the innermost of what was
open before it, and leaves open the rest of that and what it opens. -/
theorem loose?_of_foldlM_nest (h : events.foldlM nest below = some opened) :
    ∃ l, loose? events = some l ∧ l.ends ≤ below.length ∧
      opened = l.opened ++ below.drop l.ends := by
  induction events using List.reverseRecOn generalizing opened with
  | nil => exact ⟨⟨0, []⟩, rfl, Nat.zero_le _, (Option.some.inj h).symm⟩
  | append_singleton events e ih =>
    rw [List.foldlM_append, Option.bind_eq_bind, Option.bind_eq_some_iff] at h
    obtain ⟨before, hbefore, hnest⟩ := h
    have hnest : nest before e = some opened := by simpa using hnest
    obtain ⟨l, hl, hle, rfl⟩ := ih hbefore
    have hread : ∀ {l'}, l.read e = some l' → loose? (events ++ [e]) = some l' := fun h =>
      loose?_concat_eq_some.mpr ⟨l, hl, h⟩
    cases hkind : e.kind with
    | scopeBegin =>
      rw [nest_begin hkind, Option.some.injEq] at hnest
      exact ⟨_, hread (Loose.read_eq_some.mpr (.inl ⟨hkind, rfl⟩)), hle, hnest.symm⟩
    | scopeEnd =>
      simp only [nest, hkind, Option.ite_none_right_eq_some, Option.some.injEq] at hnest
      obtain ⟨hhead, rfl⟩ := hnest
      cases hopened : l.opened with
      | nil =>
        rw [hopened, List.nil_append] at hhead
        have hlt : l.ends < below.length := by
          by_contra hge
          rw [List.drop_of_length_le (Nat.le_of_not_lt hge)] at hhead
          exact absurd hhead (by simp)
        refine ⟨_, hread (Loose.read_eq_some.mpr (.inr (.inl ⟨hkind, hopened, rfl⟩))), hlt, ?_⟩
        rw [List.nil_append, List.nil_append, List.tail_drop]
      | cons id rest =>
        rw [hopened] at hhead
        obtain rfl : id = e.id := Option.some.inj hhead
        exact ⟨_, hread (Loose.read_eq_some.mpr (.inr (.inr (.inl ⟨hkind, rest, hopened, rfl⟩)))),
          hle, rfl⟩
    | _ =>
      have he : e.kind.isScope = false := by rw [hkind]; rfl
      rw [nest_of_not_isScope he, Option.some.injEq] at hnest
      exact ⟨l, hread (Loose.read_eq_some.mpr (.inr (.inr (.inr ⟨he, rfl⟩)))), hle, hnest.symm⟩

/-- Whole nested events end nothing that they did not begin. -/
theorem loose?_of_openScopes? (h : openScopes? events = some opened) :
    loose? events = some ⟨0, opened⟩ := by
  obtain ⟨⟨ends, own⟩, hl, hle, rfl⟩ := loose?_of_foldlM_nest h
  obtain rfl : ends = 0 := by simpa using hle
  simpa using hl

/-- A piece between two others. -/
theorem exists_loose?_of_nested (h : (openScopes? (u ++ v ++ w)).isSome = true) :
    ∃ l, loose? v = some l := by
  obtain ⟨opened, h⟩ := Option.isSome_iff_exists.mp h
  rw [openScopes?, List.foldlM_append, List.foldlM_append, Option.bind_eq_bind,
    Option.bind_eq_some_iff] at h
  obtain ⟨after, h, -⟩ := h
  obtain ⟨before, -, hv⟩ := Option.bind_eq_some_iff.mp h
  obtain ⟨l, hl, -⟩ := loose?_of_foldlM_nest hv
  exact ⟨l, hl⟩

/-- **The innermost scope that a piece leaves open has its begin**, and what
comes after that is nested and all closed. -/
theorem exists_begin_of_opened {ends : Nat} (h : loose? events = some ⟨ends, id :: opened⟩) :
    ∃ before b inside xs, events = before ++ b :: inside ∧ b.kind = .scopeBegin ∧ b.id = id ∧
      Nests inside xs ∧ loose? before = some ⟨ends, opened⟩ := by
  induction hn : events.length using Nat.strong_induction_on generalizing events id opened with
  | _ n ih =>
  cases events using List.reverseRecOn with
  | nil => exact absurd (Option.some.inj h) (by simp)
  | append_singleton events e =>
    have hlength : events.length < n := by
      rw [← hn, List.length_append]
      exact Nat.lt_succ_self _
    obtain ⟨⟨ends', opened'⟩, hevents, hread⟩ := loose?_concat_eq_some.mp h
    rcases Loose.read_eq_some.mp hread with ⟨hkind, heq⟩ | ⟨-, -, heq⟩ |
      ⟨hkind, below, hbelow, heq⟩ | ⟨hkind, heq⟩
    · obtain ⟨rfl, rfl, rfl⟩ : ends = ends' ∧ id = e.id ∧ opened = opened' := by simpa using heq
      exact ⟨events, e, [], [], rfl, hkind, rfl, .nil, hevents⟩
    · exact absurd heq (by simp)
    · -- the event closes the scope inside, so both have their begins before it
      obtain ⟨rfl, rfl⟩ : ends = ends' ∧ id :: opened = below := by simpa using heq
      dsimp only at hbelow
      subst hbelow
      obtain ⟨before, b, inside, xs, rfl, hb, hid, hinside, hbefore⟩ := ih _ hlength hevents rfl
      have hshort : before.length < n := by
        rw [List.length_append] at hlength
        omega
      obtain ⟨before', b', inside', xs', rfl, hb', hid', hinside', hbefore'⟩ :=
        ih _ hshort hbefore rfl
      refine ⟨before', b', inside' ++ b :: (inside ++ [e]), ?_⟩
      have hnests : ∃ ys, Nests (inside' ++ b :: (inside ++ [e])) ys := by
        rw [exists_nests_iff, openScopes?, List.foldlM_append, hinside'.foldlM_nest,
          Option.bind_eq_bind, Option.bind_some, List.foldlM_cons, nest_begin hb,
          Option.bind_eq_bind, Option.bind_some, List.foldlM_append, hinside.foldlM_nest,
          Option.bind_eq_bind, Option.bind_some, hid, List.foldlM_cons, nest_end hkind]
        rfl
      obtain ⟨ys, hnests⟩ := hnests
      exact ⟨ys, by simp, hb', hid', hnests, hbefore'⟩
    · obtain ⟨rfl, rfl⟩ : ends = ends' ∧ id :: opened = opened' := by simpa using heq
      obtain ⟨before, b, inside, xs, rfl, hb, hid, hinside, hbefore⟩ := ih _ hlength hevents rfl
      have hnests : ∃ ys, Nests (inside ++ [e]) ys := by
        rw [exists_nests_iff, openScopes?_concat, exists_nests_iff.mp ⟨xs, hinside⟩,
          Option.bind_some, nest_of_not_isScope hkind]
      obtain ⟨ys, hnests⟩ := hnests
      exact ⟨before, b, inside ++ [e], ys, by simp, hb, hid, hnests, hbefore⟩

/-! ## The pairs of a piece -/

variable {i j : Nat} {x : Scope} {b : Event}

/-- A begin and an end with nested events between are a pair. -/
theorem Nests.pairedAs (before after : List Event) {inside : List Event} {xs : List Scope}
    (h : Nests inside xs) (hb : b.kind = .scopeBegin) (he : e.kind = .scopeEnd)
    (hid : e.id = b.id) :
    PairedAs (before ++ b :: (inside ++ e :: after)) before.length
      (before ++ b :: inside).length ⟨b.id, b.timestamp, e.timestamp, xs⟩ where
  lt := by simp
  begins := ⟨b, by simp, hb, rfl, rfl⟩
  ends := ⟨e, by simp, he, hid.symm, rfl⟩
  inside := by
    have hbetween : between (before ++ b :: (inside ++ e :: after)) before.length
        (before ++ b :: inside).length = inside := by
      rw [between, ← List.cons_append, ← List.append_assoc, List.take_left]
      simp
    rw [hbetween]
    exact h

/-- Pairs before the last event are pairs without it. -/
theorem pairedAs_concat_of_lt (hj : j < events.length) :
    PairedAs (events ++ [e]) i j x ↔ PairedAs events i j x := by
  simpa using pairedAs_append (u := []) (w := [e]) (i := i) (x := x) hj

theorem paired_concat_of_lt (hj : j < events.length) :
    Paired (events ++ [e]) i j ↔ Paired events i j :=
  exists_congr fun _ => pairedAs_concat_of_lt hj

/-- **An end that meets a scope of the piece is one of a pair**: its begin is
that of the innermost. -/
theorem exists_pairedAs_last (hl : loose? events = some l) (hread : l.read e = some l')
    (hkind : e.kind = .scopeEnd) (hopened : l.opened ≠ []) :
    ∃ before b inside xs, events = before ++ b :: inside ∧ b.kind = .scopeBegin ∧ e.id = b.id ∧
      Nests inside xs ∧ PairedAs (events ++ [e]) before.length events.length
        ⟨b.id, b.timestamp, e.timestamp, xs⟩ := by
  obtain ⟨ends, opened⟩ := l
  obtain ⟨id, below, rfl⟩ := List.exists_cons_of_ne_nil hopened
  have hid : id = e.id := by
    rcases Loose.read_end hkind hread with ⟨h, -⟩ | ⟨_, h, -⟩
    · exact nomatch h
    · exact (List.cons_eq_cons.mp h).1
  obtain ⟨before, b, inside, xs, rfl, hb, rfl, hinside, -⟩ := exists_begin_of_opened hl
  have hpaired := hinside.pairedAs before [] hb hkind hid.symm
  rw [← List.cons_append, ← List.append_assoc] at hpaired
  exact ⟨before, b, inside, xs, rfl, hb, hid.symm, hinside, hpaired⟩

/-- An end is one of a pair exactly if it meets a scope that the piece has
opened. -/
theorem exists_paired_last_iff (hl : loose? events = some l) (hread : l.read e = some l') :
    (∃ i, Paired (events ++ [e]) i events.length) ↔ e.kind = .scopeEnd ∧ l.opened ≠ [] := by
  constructor
  · rintro ⟨i, x, hx⟩
    obtain ⟨b, hb, hbegin, -⟩ := hx.begins
    obtain ⟨e', he', hend, -⟩ := hx.ends
    have hlt := hx.lt
    obtain rfl : e = e' := by simpa using he'
    rw [List.getElem?_append_left hlt] at hb
    have hsplit := take_eq_append_cons hb hlt
    have hinside : between (events ++ [e]) i events.length = events.drop (i + 1) := by
      rw [between, List.take_left]
    rw [List.take_length, ← hinside] at hsplit
    -- reading comes past the begin, and what is between leaves it open
    rw [hsplit, loose?, List.foldlM_append, Option.bind_eq_bind, Option.bind_eq_some_iff] at hl
    obtain ⟨before, -, hl⟩ := hl
    have hopen : before.read b = some ⟨before.ends, b.id :: before.opened⟩ :=
      Loose.read_eq_some.mpr (.inl ⟨hbegin, rfl⟩)
    rw [List.foldlM_cons, hopen, Option.bind_eq_bind, Option.bind_some, hx.inside.foldlM_read,
      Option.some.injEq] at hl
    refine ⟨hend, ?_⟩
    rw [← hl]
    simp
  · rintro ⟨hkind, hopened⟩
    obtain ⟨before, b, inside, xs, -, -, -, -, hpaired⟩ :=
      exists_pairedAs_last hl hread hkind hopened
    exact ⟨before.length, _, hpaired⟩

/-- The pairs of some events, in the order of their ends. -/
structure PairsOf (events : List Event) (pairs : List (Nat × Nat)) : Prop where
  sorted : pairs.Pairwise fun p q => p.2 < q.2
  mem : ∀ p, p ∈ pairs ↔ Paired events p.1 p.2

namespace PairsOf

variable {pairs : List (Nat × Nat)}

theorem nil : PairsOf [] [] where
  sorted := .nil
  mem _ := ⟨fun h => absurd h List.not_mem_nil,
    fun ⟨_, hx⟩ => absurd hx.lt_length (Nat.not_lt_zero _)⟩

/-- The pairs of longer events are those of the shorter, and one of the last
event. -/
theorem paired_concat_iff (h : PairsOf events pairs) (p : Nat × Nat) :
    Paired (events ++ [e]) p.1 p.2 ↔
      p ∈ pairs ∨ p.2 = events.length ∧ Paired (events ++ [e]) p.1 events.length := by
  rw [h.mem]
  constructor
  · intro hpaired
    rcases Nat.lt_or_ge p.2 events.length with hlt | hge
    · exact .inl ((paired_concat_of_lt hlt).mp hpaired)
    · obtain ⟨x, hx⟩ := hpaired
      have hlast : p.2 = events.length := by
        have := hx.lt_length
        rw [List.length_append, List.length_singleton] at this
        omega
      exact .inr ⟨hlast, x, hlast ▸ hx⟩
  · rintro (⟨x, hx⟩ | ⟨hlast, hpaired⟩)
    · exact (paired_concat_of_lt hx.lt_length).mpr ⟨x, hx⟩
    · rwa [hlast]

/-- An event that is no end of a pair adds none. -/
theorem same (h : PairsOf events pairs) (hnone : ¬ ∃ i, Paired (events ++ [e]) i events.length) :
    PairsOf (events ++ [e]) pairs where
  sorted := h.sorted
  mem p := by
    rw [h.paired_concat_iff]
    exact ⟨.inl, fun hp => hp.resolve_right fun hlast => hnone ⟨_, hlast.2⟩⟩

/-- An end of a pair adds it. -/
theorem concat (h : PairsOf events pairs) (hpaired : Paired (events ++ [e]) i events.length) :
    PairsOf (events ++ [e]) (pairs ++ [(i, events.length)]) where
  sorted := by
    refine List.pairwise_append.mpr ⟨h.sorted, List.pairwise_singleton .., fun p hp q hq => ?_⟩
    obtain ⟨x, hx⟩ := (h.mem p).mp hp
    rw [List.mem_singleton.mp hq]
    exact hx.lt_length
  mem p := by
    rw [h.paired_concat_iff, List.mem_append, List.mem_singleton]
    refine or_congr_right ⟨?_, fun ⟨hlast, hp⟩ => Prod.ext (hp.begin_unique hpaired) hlast⟩
    rintro rfl
    exact ⟨rfl, hpaired⟩

/-- An event after them leaves pairs as far apart as they were. -/
theorem isBrief_concat (h : PairsOf events pairs) {p : Nat × Nat} (hp : p ∈ pairs) :
    isBrief (events ++ [e]) p = isBrief events p := by
  obtain ⟨x, hx⟩ := (h.mem p).mp hp
  have hx' := (pairedAs_concat_of_lt (e := e) hx.lt_length).mpr hx
  rw [isBrief, isBrief, hx.ticksBetween_eq, hx'.ticksBetween_eq]

/-- So many of the pairs are of some kind. -/
theorem ncard_filter (h : PairsOf events pairs) (kind : Nat × Nat → Bool) :
    {p : Nat × Nat | Paired events p.1 p.2 ∧ kind p = true}.ncard = (pairs.filter kind).length := by
  have hset : {p : Nat × Nat | Paired events p.1 p.2 ∧ kind p = true} =
      ↑(pairs.filter kind).toFinset := by
    ext p
    simp only [Set.mem_ofPred_eq, List.coe_toFinset, List.mem_filter, h.mem]
  have hnodup : pairs.Nodup := h.sorted.imp fun {p q} hlt heq => by
    rw [heq] at hlt
    exact Nat.lt_irrefl _ hlt
  rw [hset, Set.ncard_coe_finset, List.toFinset_card_of_nodup (hnodup.filter _)]

/-- As many ends are one of a pair as there are pairs. -/
theorem ncard_ends (h : PairsOf events pairs) :
    {j | ∃ i, Paired events i j}.ncard = pairs.length := by
  have hset : {j | ∃ i, Paired events i j} = ↑(pairs.map Prod.snd).toFinset := by
    ext j
    simp only [Set.mem_ofPred_eq, List.coe_toFinset, List.mem_map]
    exact ⟨fun ⟨i, hi⟩ => ⟨(i, j), (h.mem _).mpr hi, rfl⟩,
      fun ⟨p, hp, hj⟩ => ⟨p.1, hj ▸ (h.mem p).mp hp⟩⟩
  have hnodup : (pairs.map Prod.snd).Nodup :=
    List.pairwise_map.mpr (h.sorted.imp fun hlt => Nat.ne_of_lt hlt)
  rw [hset, Set.ncard_coe_finset, List.toFinset_card_of_nodup hnodup, List.length_map]

/-- So are as many begins. -/
theorem ncard_begins (h : PairsOf events pairs) :
    {i | ∃ j, Paired events i j}.ncard = pairs.length := by
  have hset : {i | ∃ j, Paired events i j} = ↑(pairs.map Prod.fst).toFinset := by
    ext i
    simp only [Set.mem_ofPred_eq, List.coe_toFinset, List.mem_map]
    exact ⟨fun ⟨j, hj⟩ => ⟨(i, j), (h.mem _).mpr hj, rfl⟩,
      fun ⟨p, hp, hi⟩ => ⟨p.2, hi ▸ (h.mem p).mp hp⟩⟩
  have hnodup : (pairs.map Prod.fst).Nodup := by
    refine List.pairwise_map.mpr (h.sorted.imp_of_mem fun {p q} hp hq hlt heq => ?_)
    have hpaired := (h.mem q).mp hq
    rw [← heq] at hpaired
    exact Nat.ne_of_lt hlt (((h.mem p).mp hp).end_unique hpaired)
  rw [hset, Set.ncard_coe_finset, List.toFinset_card_of_nodup hnodup, List.length_map]

end PairsOf

/-- **The pairs of a piece** come to the ends and the begins that do not reach
beyond it. -/
theorem exists_pairsOf (hl : loose? events = some l) : ∃ pairs, PairsOf events pairs ∧
    l.ends + pairs.length = Replay.ends events ∧
    l.opened.length + pairs.length = Replay.begins events := by
  induction events using List.reverseRecOn generalizing l with
  | nil =>
    obtain rfl : ⟨0, []⟩ = l := Option.some.inj hl
    exact ⟨[], .nil, rfl, rfl⟩
  | append_singleton events e ih =>
    obtain ⟨before, hbefore, hread⟩ := loose?_concat_eq_some.mp hl
    obtain ⟨pairs, hpairs, hends, hbegins⟩ := ih hbefore
    have hlast := exists_paired_last_iff hbefore hread
    have hcount : ∀ k : Kind, (events ++ [e]).countP (·.kind == k) =
        events.countP (·.kind == k) + if e.kind = k then 1 else 0 := by
      intro k
      simp [List.countP_append, List.countP_singleton]
    simp only [Replay.ends, Replay.begins] at hends hbegins ⊢
    rw [hcount, hcount, ← hends, ← hbegins]
    rcases Loose.read_eq_some.mp hread with ⟨hkind, rfl⟩ | ⟨hkind, hopened, rfl⟩ |
      ⟨hkind, below, hopened, rfl⟩ | ⟨hkind, rfl⟩
    · refine ⟨pairs, hpairs.same (by simp [hlast, hkind]), ?_, ?_⟩
      · simp [hkind]
      · simp only [hkind, List.length_cons, if_true]
        omega
    · refine ⟨pairs, hpairs.same (by simp [hlast, hopened]), ?_, ?_⟩
      · simp only [hkind, if_true]
        omega
      · simp [hkind, hopened]
    · obtain ⟨i, hi⟩ := hlast.mpr ⟨hkind, by simp [hopened]⟩
      refine ⟨pairs ++ [(i, events.length)], hpairs.concat hi, ?_, ?_⟩
      · simp only [hkind, List.length_append, List.length_singleton, if_true]
        omega
      · simp only [hkind, List.length_append, List.length_singleton, reduceCtorEq, if_false]
        rw [hopened, List.length_cons]
        omega
    · have hneither : ∀ k : Kind, k.isScope = true → e.kind ≠ k := by
        rintro k hk rfl
        exact Bool.false_ne_true (hkind.symm.trans hk)
      have hend := hneither .scopeEnd rfl
      have hbegin := hneither .scopeBegin rfl
      refine ⟨pairs, hpairs.same (by simp [hlast, hend]), ?_, ?_⟩
      · simp [hend]
      · simp [hbegin]

/-! ## What the cuts took -/

/-- The places of the events of a kind. -/
def placesOf (k : Kind) (events : List Event) : Set Nat :=
  {j | ∃ e, events[j]? = some e ∧ e.kind = k}

/-- The ends of a piece whose begin is in what was cut off before it. -/
def orphanEnds (u v w : List Event) : Set Nat :=
  {j | j ∈ placesOf .scopeEnd v ∧ ∃ i < u.length, Paired (u ++ v ++ w) i (u.length + j)}

/-- The begins of a piece whose end is in what was cut off after it, or that
have none. -/
def openBegins (u v w : List Event) : Set Nat :=
  {i | i ∈ placesOf .scopeBegin v ∧
    ((∃ j, u.length + v.length ≤ j ∧ Paired (u ++ v ++ w) (u.length + i) j) ∨
      ¬ ∃ j, Paired (u ++ v ++ w) (u.length + i) j)}

/-- The pairs that last longer than a word can tell. -/
def overlongPairs (events : List Event) : Set (Nat × Nat) :=
  {p | Paired events p.1 p.2 ∧ (!isBrief events p) = true}

theorem ncard_overlongPairs {pairs : List (Nat × Nat)} (h : PairsOf events pairs) :
    (overlongPairs events).ncard = (pairs.filter fun p => !isBrief events p).length :=
  h.ncard_filter fun p => !isBrief events p

theorem finite_placesOf (k : Kind) (events : List Event) : (placesOf k events).Finite := by
  refine (Set.finite_lt_nat events.length).subset fun j hj => ?_
  obtain ⟨e, he, -⟩ := hj
  exact (List.getElem?_eq_some_iff.mp he).1

theorem ncard_placesOf (k : Kind) (events : List Event) :
    (placesOf k events).ncard = events.countP (·.kind == k) := by
  induction events using List.reverseRecOn with
  | nil =>
    have hempty : placesOf k [] = ∅ := Set.eq_empty_iff_forall_notMem.mpr fun j ⟨e, he, _⟩ => by
      simp at he
    rw [hempty, Set.ncard_empty]
    rfl
  | append_singleton events e ih =>
    have hplaces : ∀ j, j ∈ placesOf k (events ++ [e]) ↔
        j ∈ placesOf k events ∨ j = events.length ∧ e.kind = k := by
      intro j
      simp only [placesOf, Set.mem_ofPred_eq]
      rcases Nat.lt_trichotomy j events.length with hj | rfl | hj
      · simp [List.getElem?_append_left hj, Nat.ne_of_lt hj]
      · simp
      · have hbeyond : (events ++ [e]).length ≤ j := by simpa using hj
        simp [List.getElem?_eq_none hbeyond, List.getElem?_eq_none hj.le, Nat.ne_of_gt hj]
    rw [List.countP_append, List.countP_singleton, ← ih]
    by_cases hk : e.kind = k
    · have hset : placesOf k (events ++ [e]) = insert events.length (placesOf k events) := by
        ext j
        rw [hplaces, Set.mem_insert_iff, or_comm]
        simp [hk]
      have hnew : events.length ∉ placesOf k events := fun ⟨e, he, _⟩ => by simp at he
      rw [hset, Set.ncard_insert_of_notMem hnew (finite_placesOf k events)]
      simp [hk]
    · have hset : placesOf k (events ++ [e]) = placesOf k events := by
        ext j
        rw [hplaces]
        simp [hk]
      simp [hset, hk]

/-- A pair of the piece is one of the whole. -/
theorem Paired.of_piece (h : Paired v i j) (u w : List Event) :
    Paired (u ++ v ++ w) (u.length + i) (u.length + j) := by
  obtain ⟨x, hx⟩ := h
  exact (paired_append hx.lt_length).mpr ⟨x, hx⟩

/-- **The ends that lost their begin** are those that are not one of a pair of
the piece. -/
theorem orphanEnds_eq (h : (openScopes? (u ++ v ++ w)).isSome = true) :
    orphanEnds u v w = placesOf .scopeEnd v \ {j | ∃ i, Paired v i j} := by
  ext j
  constructor
  · rintro ⟨hj, i, hi, hpaired⟩
    refine ⟨hj, fun ⟨i', hi'⟩ => ?_⟩
    have := hpaired.begin_unique (hi'.of_piece u w)
    omega
  · rintro ⟨⟨e, he, hkind⟩, hnone⟩
    refine ⟨⟨e, he, hkind⟩, ?_⟩
    -- in the whole the end has a begin, which is then not in the piece
    have hlt := (List.getElem?_eq_some_iff.mp he).1
    have hparts : u ++ v ++ w = (u ++ v.take j) ++ [e] ++ (v.drop (j + 1) ++ w) := by
      have hsplit := take_eq_append_cons he hlt
      rw [List.take_length] at hsplit
      conv_lhs => rw [hsplit]
      simp
    have hwhole := h
    rw [hparts, openScopes?, List.foldlM_append, Option.bind_eq_bind,
      Option.isSome_iff_exists] at hwhole
    obtain ⟨_, hwhole⟩ := hwhole
    obtain ⟨after, hafter, -⟩ := Option.bind_eq_some_iff.mp hwhole
    obtain ⟨l, hl, hread⟩ := loose?_concat_eq_some.mp (loose?_of_openScopes? hafter)
    have hopened : l.opened ≠ [] := by
      rcases Loose.read_end hkind hread with ⟨-, h⟩ | ⟨_, h, -⟩
      · exact absurd h (by simp)
      · simp [h]
    obtain ⟨i, hi⟩ := (exists_paired_last_iff hl hread).mpr ⟨hkind, hopened⟩
    have hlength : (u ++ v.take j).length = u.length + j := by
      rw [List.length_append, List.length_take, Nat.min_eq_left hlt.le]
    have hpaired := hi.of_piece [] (v.drop (j + 1) ++ w)
    rw [List.nil_append, ← hparts, List.length_nil, Nat.zero_add, Nat.zero_add, hlength] at hpaired
    refine ⟨i, ?_, hpaired⟩
    by_contra hge
    obtain ⟨i', rfl⟩ := Nat.exists_eq_add_of_le (Nat.le_of_not_lt hge)
    exact hnone ⟨i', (paired_append hlt).mp hpaired⟩

/-- **The begins that lost their end**, or never had one, are those that are not
one of a pair of the piece. -/
theorem openBegins_eq : openBegins u v w = placesOf .scopeBegin v \ {i | ∃ j, Paired v i j} := by
  ext i
  constructor
  · rintro ⟨hi, hlost⟩
    refine ⟨hi, fun ⟨j, hj⟩ => ?_⟩
    have hwhole := hj.of_piece u w
    rcases hlost with ⟨j', hj', hpaired⟩ | hnone
    · obtain ⟨x, hx⟩ := hj
      have := hpaired.end_unique hwhole
      have := hx.lt_length
      omega
    · exact hnone ⟨_, hwhole⟩
  · rintro ⟨hi, hnone⟩
    refine ⟨hi, ?_⟩
    by_cases hwhole : ∃ j, Paired (u ++ v ++ w) (u.length + i) j
    · obtain ⟨j, x, hx⟩ := hwhole
      refine .inl ⟨j, ?_, x, hx⟩
      by_contra hlt
      have hle := hx.lt
      obtain ⟨j', rfl⟩ := Nat.exists_eq_add_of_le (show u.length ≤ j by omega)
      exact hnone ⟨j', (paired_append (by omega)).mp ⟨x, hx⟩⟩
    · exact .inr hwhole

/-- **Reading a piece alone tells how many ends lost their begin.** -/
theorem ncard_orphanEnds (h : (openScopes? (u ++ v ++ w)).isSome = true)
    (hl : loose? v = some l) : (orphanEnds u v w).ncard = l.ends := by
  obtain ⟨pairs, hpairs, hends, -⟩ := exists_pairsOf hl
  have hsub : {j | ∃ i, Paired v i j} ⊆ placesOf .scopeEnd v := by
    rintro j ⟨i, x, hx⟩
    obtain ⟨e, he, hkind, -⟩ := hx.ends
    exact ⟨e, he, hkind⟩
  rw [orphanEnds_eq h, Set.ncard_sdiff hsub ((finite_placesOf _ _).subset hsub), ncard_placesOf,
    hpairs.ncard_ends]
  rw [Replay.ends] at hends
  omega

/-- **And how many begins have no end in it.** -/
theorem ncard_openBegins (hl : loose? v = some l) : (openBegins u v w).ncard = l.opened.length := by
  obtain ⟨pairs, hpairs, -, hbegins⟩ := exists_pairsOf hl
  have hsub : {i | ∃ j, Paired v i j} ⊆ placesOf .scopeBegin v := by
    rintro i ⟨j, x, hx⟩
    obtain ⟨b, hb, hkind, -⟩ := hx.begins
    exact ⟨b, hb, hkind⟩
  rw [openBegins_eq, Set.ncard_sdiff hsub ((finite_placesOf _ _).subset hsub), ncard_placesOf,
    hpairs.ncard_begins]
  rw [Replay.begins] at hbegins
  omega

end Pieces

end EventTrace
