import EventTrace.Durations
import EventTrace.Proofs.Profile.Findings
import Mathlib.Algebra.Order.BigOperators.Group.List
/-!
# Durations — spreads as summaries of durations

A spread is fed one duration at a time. It tells of the durations it was fed
(`Spread.Tells`): how many there were, their sum as a word has it, and the
least and the greatest of them. Ids are filed in the order of their first scope,
as they are among hotspots, so the spreads of some scopes and the hotspots of
the same scopes have the same rows, as far as both count
(`map_ranked_spreadsOf`).
-/

namespace EventTrace

/-! ## Tables seen through a view -/

namespace Table

variable {α β : Type}

/-- The rows of a table with their values seen through a view. -/
def view (f : α → β) (t : Table α) : List (Int × β) := t.rows.map fun row => (row.1, f row.2)

/-- **A write is seen as a write**, if the view of what it makes is up to the
view of what was there. -/
theorem view_alter {f : α → β} {write : Option α → α} {seen : Option β → β}
    (h : ∀ value, f (write value) = seen (value.map f)) (t : Table α) (key : Int) :
    (t.alter key write).view f = put key seen (t.view f) := by
  obtain ⟨rows, distinct⟩ := t
  show (put key write rows).map _ = put key seen (rows.map _)
  clear distinct
  induction rows with
  | nil => simp [put, h]
  | cons row rest ih =>
    obtain ⟨j, v⟩ := row
    by_cases hj : j = key
    · simp [hj, h]
    · simp [hj, ih]

end Table

/-! ## One spread -/

namespace Spread

/-- A spread tells of some durations: their number, their sum, wrapped around
if no word holds it, and the least and the greatest of them. -/
structure Tells (s : Spread) (durations : List Int) : Prop where
  count : s.count = durations.length
  total : s.total = Ticks.wrap durations.sum
  shortest : s.shortest ∈ durations
  longest : s.longest ∈ durations
  between : ∀ ticks ∈ durations, s.shortest ≤ ticks ∧ ticks ≤ s.longest

/-- A spread, if there is one, tells of some durations; none tells of no
duration. -/
def TellsAny : Option Spread → List Int → Prop
  | none, durations => durations = []
  | some s, durations => s.Tells durations

variable {s : Spread} {durations : List Int}

theorem Tells.add (h : s.Tells durations) (ticks : Int) :
    (s.add ticks).Tells (durations ++ [ticks]) where
  count := by rw [List.length_append, ← h.count]; rfl
  total := by
    rw [List.sum_append, List.sum_singleton, ← Ticks.wrap_wrap_add, ← h.total]
    rfl
  shortest := by
    rw [List.mem_append, List.mem_singleton]
    show min s.shortest ticks ∈ durations ∨ min s.shortest ticks = ticks
    rcases min_choice s.shortest ticks with hmin | hmin
    · rw [hmin]
      exact .inl h.shortest
    · exact .inr hmin
  longest := by
    rw [List.mem_append, List.mem_singleton]
    show max s.longest ticks ∈ durations ∨ max s.longest ticks = ticks
    rcases max_choice s.longest ticks with hmax | hmax
    · rw [hmax]
      exact .inl h.longest
    · exact .inr hmax
  between := by
    intro d hd
    show min s.shortest ticks ≤ d ∧ d ≤ max s.longest ticks
    rcases List.mem_append.mp hd with hd | hd
    · have hold := h.between d hd
      omega
    · have hnew := List.mem_singleton.mp hd
      omega

/-- **One more duration is told of as well.** -/
theorem tells_extend {before : Option Spread} (h : TellsAny before durations) {ticks : Int}
    (hfit : Ticks.Fit ticks) : (extend before ticks).Tells (durations ++ [ticks]) := by
  cases before with
  | some s => exact Tells.add h ticks
  | none =>
    rw [show durations = [] from h]
    rw [List.nil_append]
    have htotal : ticks = Ticks.wrap [ticks].sum := by
      rw [List.sum_singleton]
      exact hfit.wrap_eq.symm
    exact ⟨rfl, htotal, List.mem_singleton_self _, List.mem_singleton_self _,
      fun d hd => by rw [List.mem_singleton.mp hd]; exact ⟨le_rfl, le_rfl⟩⟩

/-- **If a word holds the sum of the durations**, it is the total: no less than
as many of the shortest, and no more than as many of the longest. -/
theorem Tells.total_eq (h : s.Tells durations) (hfit : Ticks.Fit durations.sum) :
    s.total = durations.sum ∧ s.count * s.shortest ≤ s.total ∧
      s.total ≤ s.count * s.longest := by
  have htotal : s.total = durations.sum := h.total.trans hfit.wrap_eq
  have hshortest := List.card_nsmul_le_sum durations s.shortest fun d hd => (h.between d hd).1
  have hlongest := List.sum_le_card_nsmul durations s.longest fun d hd => (h.between d hd).2
  rw [← h.count, ← htotal, nsmul_eq_mul] at hshortest hlongest
  exact ⟨htotal, hshortest, hlongest⟩

end Spread

/-! ## The spreads of scopes -/

/-- The durations of an id's scopes. -/
def durationsOf (id : Int) (scopes : List ClosedScope) : List Int :=
  (scopes.filter (·.id == id)).map ClosedScope.inclusive

theorem durationsOf_concat (id : Int) (scopes : List ClosedScope) (scope : ClosedScope) :
    durationsOf id (scopes ++ [scope]) =
      durationsOf id scopes ++ if scope.id = id then [scope.inclusive] else [] := by
  by_cases hid : scope.id = id
  · simp [durationsOf, hid]
  · simp [durationsOf, hid]

/-- The spreads with one more scope. -/
def Spread.tally (ids : Table Spread) (scope : ClosedScope) : Table Spread :=
  ids.alter scope.id fun s => Spread.extend s scope.inclusive

/-- The spreads of some scopes, counted in order. -/
def spreadsOf (scopes : List ClosedScope) : Table Spread := scopes.foldl Spread.tally ∅

theorem spreadsOf_concat (scopes : List ClosedScope) (scope : ClosedScope) :
    spreadsOf (scopes ++ [scope]) = Spread.tally (spreadsOf scopes) scope :=
  List.foldl_concat ..

/-- **The spread of an id tells of the durations of its scopes**, and an id
without scopes has none. -/
theorem tells_spreadsOf {scopes : List ClosedScope} (hfit : ∀ scope ∈ scopes, scope.amount.Fit)
    (id : Int) : Spread.TellsAny ((spreadsOf scopes).get? id) (durationsOf id scopes) := by
  induction scopes using List.reverseRecOn with
  | nil => rfl
  | append_singleton scopes scope ih =>
    obtain ⟨hbefore, hlast⟩ := List.forall_mem_append.mp hfit
    have ih := ih hbefore
    rw [spreadsOf_concat, Spread.tally, Table.get?_alter, durationsOf_concat]
    by_cases hid : scope.id = id
    · subst hid
      rw [if_pos rfl, if_pos rfl]
      exact Spread.tells_extend ih (hlast scope List.mem_cons_self).1
    · rw [if_neg (Ne.symm hid), if_neg hid, List.append_nil]
      exact ih

/-- An id has a spread exactly if it has a scope. -/
theorem exists_spread_iff {scopes : List ClosedScope} (hfit : ∀ scope ∈ scopes, scope.amount.Fit)
    (id : Int) : (∃ s, (spreadsOf scopes).get? id = some s) ↔ ∃ scope ∈ scopes, scope.id = id := by
  have htells := tells_spreadsOf hfit id
  constructor
  · rintro ⟨s, hs⟩
    rw [hs] at htells
    obtain ⟨scope, hscope, -⟩ := List.mem_map.mp (Spread.Tells.shortest htells)
    exact ⟨scope, List.mem_of_mem_filter hscope, beq_iff_eq.mp (List.mem_filter.mp hscope).2⟩
  · rintro ⟨scope, hscope, hid⟩
    cases hget : (spreadsOf scopes).get? id with
    | some s => exact ⟨s, rfl⟩
    | none =>
      rw [hget] at htells
      have hmem : scope.inclusive ∈ durationsOf id scopes :=
        List.mem_map_of_mem (List.mem_filter.mpr ⟨hscope, beq_iff_eq.mpr hid⟩)
      rw [show durationsOf id scopes = [] from htells] at hmem
      exact absurd hmem List.not_mem_nil

/-- One more scope, counted with the ticks of the ones so far. -/
def countTicks (ticks : Int) (before : Option (Nat × Int)) : Nat × Int :=
  ((before.getD (0, 0)).1 + 1, Ticks.wrap ((before.getD (0, 0)).2 + ticks))

/-- Spreads and hotspots count scopes and their ticks alike. -/
theorem view_spreadsOf {scopes : List ClosedScope} (hfit : ∀ scope ∈ scopes, scope.amount.Fit) :
    (spreadsOf scopes).view (fun s => (s.count, s.total)) =
      (Hotspots.ofScopes scopes).ids.view fun totals => (totals.count, totals.inclusive) := by
  induction scopes using List.reverseRecOn with
  | nil => rfl
  | append_singleton scopes scope ih =>
    obtain ⟨hbefore, hlast⟩ := List.forall_mem_append.mp hfit
    have hticks : Ticks.wrap scope.inclusive = scope.inclusive :=
      (hlast scope List.mem_cons_self).1.wrap_eq
    have hspread : ∀ s, ((Spread.extend s scope.inclusive).count,
        (Spread.extend s scope.inclusive).total) =
          countTicks scope.inclusive (s.map fun s => (s.count, s.total)) := by
      rintro (_ | s) <;> simp [Spread.extend, Spread.first, Spread.add, countTicks, hticks]
    have htotals : ∀ totals : Option IdTotals, (((totals.getD {}).add scope).count,
        ((totals.getD {}).add scope).inclusive) =
          countTicks scope.inclusive (totals.map fun t => (t.count, t.inclusive)) := by
      rintro (_ | totals) <;> rfl
    rw [spreadsOf_concat, Hotspots.ofScopes_concat]
    show ((spreadsOf scopes).alter _ _).view _ =
      ((Hotspots.ofScopes scopes).ids.alter _ _).view _
    rw [Table.view_alter hspread, Table.view_alter htotals, ih hbefore]

/-- **Ranked, spreads and hotspots have the same rows**, as far as both
count. -/
theorem map_ranked_spreadsOf {scopes : List ClosedScope}
    (hfit : ∀ scope ∈ scopes, scope.amount.Fit) :
      (rankBy (fun row => (row.2.total, row.1)) (spreadsOf scopes).rows).map
        (fun row => (row.1, row.2.count, row.2.total)) =
      (Hotspots.ofScopes scopes).ranked.map
        fun row => (row.1, row.2.count, row.2.inclusive) := by
  let place : Int × Nat × Int → Int × Int := fun row => (row.2.2, row.1)
  calc (rankBy (fun row => (row.2.total, row.1)) (spreadsOf scopes).rows).map _
      = rankBy place ((spreadsOf scopes).view fun s => (s.count, s.total)) :=
        map_rankBy (by intro _; rfl) _
    _ = rankBy place ((Hotspots.ofScopes scopes).ids.view
          fun totals => (totals.count, totals.inclusive)) := by rw [view_spreadsOf hfit]
    _ = (Hotspots.ofScopes scopes).ranked.map _ := (map_rankBy (by intro _; rfl) _).symm

end EventTrace
