import EventTrace.Proofs.Depot.Posting
/-!
# Depot — the chronicle of a run

A chronicle keeps beside the depot what the depot forgets: which session and
thread each writer came for, every write that was tried and what came of it,
and which sessions were frozen. It is a record only; nothing in it has a say
in what the depot does (`depot_step`).
-/

namespace EventTrace

open Depot

/-- A write that was tried. -/
structure Attempt where
  writer : WriterId
  emission : Emission
  now : Reading
  /-- The session the writer came for. -/
  collector : Option CollectorId
  /-- Whether the writer was not closed. -/
  isOpen : Bool
  /-- Whether the session's options let the id pass. -/
  passes : Bool
  /-- What the write returned. -/
  written : Bool

/-- A depot and what happened in it. -/
structure Chronicle where
  depot : Depot
  /-- The session and thread of each writer, by the writer's place. -/
  enrolled : List (CollectorId × Int) := []
  attempts : List Attempt := []
  frozen : List CollectorId := []

/-- Whether the filter that options ask for lets an id pass. -/
def Options.passes (o : Options) (id : Int) : Bool :=
  (CategoryFilter.ofOptions? o).all (·.allows id)

namespace Chronicle

/-- The session a writer came for. -/
def home (h : Chronicle) (w : WriterId) : Option CollectorId := h.enrolled[w]?.map Prod.fst

/-- A write as it is tried now. -/
def attempt (h : Chronicle) (w : WriterId) (e : Emission) (now : Reading) : Attempt where
  writer := w
  emission := e
  now := now
  collector := h.home w
  isOpen := (h.depot.reaches w).isSome
  passes := (h.home w).any fun k => (h.depot.collector k).options.passes e.id
  written := (h.depot.write w e now).1

/-- The chronicle after a call. -/
def step (h : Chronicle) (c : Call) : Chronicle where
  depot := c.apply h.depot
  enrolled := match c with
    | .newWriter k thread _ =>
      if k < h.depot.collectors.size then h.enrolled ++ [(k, thread)] else h.enrolled
    | _ => h.enrolled
  attempts := match c with
    | .write w e now => h.attempts ++ [h.attempt w e now]
    | _ => h.attempts
  frozen := c.freezes ++ h.frozen

/-- The chronicle of a run over a pool of chunks of some capacity. -/
def ofCalls (capacity : Nat) (calls : List Call) : Chronicle :=
  calls.foldl step { depot := .ofCapacity capacity }

theorem depot_step (h : Chronicle) (c : Call) : (h.step c).depot = c.apply h.depot := rfl

section

variable {h : Chronicle} {k : CollectorId}

theorem depot_newWriter (hk : k < h.depot.collectors.size) (thread : Int)
    (name : Option String) : (h.step (.newWriter k thread name)).depot =
      (h.depot.newWriter k thread name).2 := if_pos hk

/-- A writer that comes goes on record behind the others. -/
theorem enrolled_newWriter (hk : k < h.depot.collectors.size) (thread : Int)
    (name : Option String) : (h.step (.newWriter k thread name)).enrolled =
      h.enrolled ++ [(k, thread)] := if_pos hk

end

theorem ofCalls_concat (capacity : Nat) (calls : List Call) (c : Call) :
    ofCalls capacity (calls ++ [c]) = (ofCalls capacity calls).step c := List.foldl_concat ..

/-- A property of chronicles that every call keeps holds of every run. -/
theorem ofCalls_induction {P : Chronicle → Prop} (capacity : Nat)
    (start : P { depot := .ofCapacity capacity }) (next : ∀ h c, P h → P (h.step c))
    (calls : List Call) : P (ofCalls capacity calls) := by
  have hrun : ∀ h, P h → P (calls.foldl step h) := by
    induction calls with
    | nil => exact fun _ hp => hp
    | cons c calls ih => exact fun h hp => ih (h.step c) (next h c hp)
  exact hrun _ start

/-! ## What is counted -/

/-- The writes tried on writers of a session that were not closed, of ids that
its options let pass. -/
def presented (h : Chronicle) (k : CollectorId) : Nat :=
  h.attempts.countP fun a => a.collector == some k && a.isOpen && a.passes

/-- The writes on writers of a session that returned true. -/
def accepted (h : Chronicle) (k : CollectorId) : Nat :=
  h.attempts.countP fun a => a.collector == some k && a.written

/-! ## Writers and where they came from -/

/-- Every writer is on record, in the session it came for or in none. -/
structure Staffed (h : Chronicle) : Prop where
  length : h.enrolled.length = h.depot.writers.size
  home : ∀ w s, h.depot.writer? w = some s → ∃ k, h.enrolled[w]? = some (k, s.thread) ∧
    (s.collector = some k ∨ s.collector = none)

namespace Staffed

variable {h : Chronicle} {d d' : Depot} {k : CollectorId} {w : WriterId} {s : Writer}

/-- The session a writer is in is the one it came for. -/
theorem home_eq (hs : Staffed h) (hw : h.depot.writer? w = some s) (hk : s.collector = some k) :
    h.enrolled[w]? = some (k, s.thread) := by
  obtain ⟨j, hj, hcollector⟩ := hs.home w s hw
  rcases hcollector with heq | hnone
  · rw [hk, Option.some.injEq] at heq
    rw [hj, heq]
  · exact absurd (hnone.symm.trans hk) (by simp)

end Staffed

end Chronicle

namespace Depot

variable {d d' e : Depot} {c : ChunkId} {k : CollectorId} {w : WriterId} {s : Writer}

/-- Writers keep their places and threads, and change their sessions only for
none. -/
structure SamePlaces (d d' : Depot) : Prop where
  size : d'.writers.size = d.writers.size
  writer : ∀ w s', d'.writer? w = some s' → ∃ s, d.writer? w = some s ∧
    s'.thread = s.thread ∧ (s'.collector = s.collector ∨ s'.collector = none)

namespace SamePlaces

theorem trans (h : SamePlaces d d') (h' : SamePlaces d' e) : SamePlaces d e where
  size := h'.size.trans h.size
  writer w s'' hw := by
    obtain ⟨s', hw', hthread', hcollector'⟩ := h'.writer w s'' hw
    obtain ⟨s, hw, hthread, hcollector⟩ := h.writer w s' hw'
    refine ⟨s, hw, hthread'.trans hthread, ?_⟩
    rcases hcollector' with heq | hnone
    · rw [heq]
      exact hcollector
    · exact .inr hnone

theorem of_staff (h : SameStaff d d') : SamePlaces d d' where
  size := h.size
  writer w s' hw := by
    obtain ⟨s, hw, -, hthread, -, hcollector⟩ := h.writer w s' hw
    exact ⟨s, hw, hthread, hcollector⟩

theorem of_moves (h : Moves d d') : SamePlaces d d' := .of_staff (sameStaff_moves h)

theorem of_alike (h : Alike d d') : SamePlaces d d' where
  size := by simpa only [Array.size_map] using congrArg Array.size h.writers
  writer w s' hw := by
    obtain ⟨s, hw, hcore⟩ := h.writer? hw
    refine ⟨s, hw, ?_, .inl ?_⟩
    · simpa using (congrArg Writer.thread hcore).symm
    · simpa using (congrArg Writer.collector hcore).symm

theorem accept (d : Depot) (k : CollectorId) (w : WriterId) (c : ChunkId) (event : Event) :
    SamePlaces d (d.accept k w c event) where
  size := Array.size_modify
  writer v s' hv := by
    obtain ⟨s, hs, rfl⟩ := exists_writer?_accept hv
    exact ⟨s, hs, rfl, .inl rfl⟩

theorem writeEnds {e : Emission} {now : Reading} {r : Bool × Depot}
    (hends : WriteEnds d w e now r) : SamePlaces d r.2 := by
  have hscreened : ∀ screen, SamePlaces d (d.rescreen w screen) := fun screen =>
    .of_alike (alike_rescreen d w screen)
  cases hends with
  | closed _ hmoves => exact .of_moves hmoves
  | filtered => exact hscreened _
  | refused _ _ _ _ _ hbefore hrefuses hafter =>
    exact (((hscreened _).trans (.of_moves hbefore)).trans (.of_alike hrefuses.toAlike)).trans
      (.of_moves hafter)
  | written _ _ _ _ _ hbefore _ _ _ hagree =>
    exact (((hscreened _).trans (.of_moves hbefore)).trans (.accept _ _ _ _ _)).trans
      (.of_alike hagree.toAlike)

end SamePlaces

end Depot

namespace Chronicle

variable {h : Chronicle} {d' : Depot}

/-- Writers that keep their places stay on record. -/
theorem Staffed.samePlaces (hs : Staffed h) (hsame : SamePlaces h.depot d')
    {h' : Chronicle} (hdepot : h'.depot = d') (henrolled : h'.enrolled = h.enrolled) :
    Staffed h' where
  length := by rw [hdepot, henrolled, hsame.size, hs.length]
  home w s' hw := by
    rw [hdepot] at hw
    obtain ⟨s, hw, hthread, hcollector⟩ := hsame.writer w s' hw
    obtain ⟨k, hk, hhome⟩ := hs.home w s hw
    refine ⟨k, by rw [henrolled, hthread, hk], ?_⟩
    rcases hcollector with heq | hnone
    · rw [heq]
      exact hhome
    · exact .inr hnone

/-- **Every call keeps the writers on record.** -/
theorem Staffed.step (hs : Staffed h) (howned : Owned h.depot) (c : Call) :
    Staffed (h.step c) := by
  cases c with
  | newCollector o =>
    have hsame : SamePlaces h.depot (h.depot.newCollector o).2 :=
      ⟨rfl, fun w s hw => ⟨s, hw, rfl, .inl rfl⟩⟩
    exact hs.samePlaces hsame rfl rfl
  | newWriter k thread name =>
    by_cases hk : k < h.depot.collectors.size
    · obtain ⟨d₁, hagree, heq⟩ := newWriter_eq h.depot k thread name
      have hdepot := depot_newWriter hk thread name
      have henrolled := enrolled_newWriter hk thread name
      rw [heq] at hdepot
      refine ⟨?_, ?_⟩
      · rw [hdepot, henrolled, List.length_append, hs.length, ← hagree.sameWriters]
        exact (Array.size_push _).symm
      · intro w s hw
        rw [hdepot] at hw
        rw [henrolled]
        -- records and writers are as many, so the new record is of the new writer
        by_cases hlast : w = d₁.writers.size
        · rw [hlast, writer?_enlist, Option.some.injEq] at hw
          subst hw
          rw [hlast, hagree.sameWriters, ← hs.length, List.getElem?_concat_length]
          exact ⟨k, rfl, .inl rfl⟩
        · rw [writer?_enlist_of_ne hlast, hagree.writer?_eq] at hw
          obtain ⟨j, hj, hhome⟩ := hs.home w s hw
          refine ⟨j, ?_, hhome⟩
          rw [List.getElem?_append_left (List.getElem?_eq_some_iff.mp hj).1, hj]
    · exact hs.samePlaces (.of_alike (.refl _)) (if_neg hk) (if_neg hk)
  | write w e now => exact hs.samePlaces (.writeEnds (howned.writeEnds w e now)) rfl rfl
  | detach w => exact hs.samePlaces (.of_moves (moves_detach _ w)) rfl rfl
  | dropWriter w => exact hs.samePlaces (.of_moves (moves_dropWriter _ w)) rfl rfl
  | close k => exact hs.samePlaces (.of_moves (.single (.turn k (.close _)))) rfl rfl
  | closeWriters k => exact hs.samePlaces (.of_alike (agree_closeWriters _ k).toAlike) rfl rfl
  | freeze k => exact hs.samePlaces (.of_staff (sameStaff_freeze h.depot k)) rfl rfl

theorem staffed_start (capacity : Nat) : Staffed { depot := .ofCapacity capacity } where
  length := rfl
  home w s hw := absurd hw (by simp [writer?, Depot.ofCapacity])

end Chronicle

end EventTrace
