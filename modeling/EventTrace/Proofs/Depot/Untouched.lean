import EventTrace.Proofs.Depot.Drawing
import EventTrace.Proofs.Depot.Seclusion
/-!
# Depot — what others do leaves a writer and its session alone

A writer has a close flag of its own, which only its session's closing of
writers or its own leaving raises (`Linked`). So whatever other writers do in
other sessions, and whatever is done to those sessions, a writer, its flag and
all its session has are as they were (`Linked.untouched`).
-/

namespace EventTrace

open Depot

/-- A call that ends a writer's writing to a session. -/
def Call.ends (w : WriterId) (k : CollectorId) : Call → Bool
  | .detach v | .dropWriter v => v == w
  | .close j | .closeWriters j | .freeze j => j == k
  | _ => false

namespace Depot

variable {d d' e : Depot} {c : ChunkId} {k j : CollectorId} {v w : WriterId} {s : Writer}
  {l : LinkId}

/-! ## A writer and its session -/

/-- A writer with its close flag, and its session with its chunks, are as
they were. -/
structure Untouched (w : WriterId) (k : CollectorId) (d d' : Depot) : Prop where
  capacity : d'.capacity = d.capacity
  collector : d'.collector k = d.collector k
  writer : d'.writer? w = d.writer? w
  flag : ∀ s, d.writer? w = some s → d'.isLinkClosed s.link = d.isLinkClosed s.link
  chunk : ∀ c, d.Ledgers k c → d'.chunk c = d.chunk c
  evictions : d'.evictions k = d.evictions k

namespace Untouched

theorem refl (w : WriterId) (k : CollectorId) (d : Depot) : Untouched w k d d :=
  ⟨rfl, rfl, rfl, fun _ _ => rfl, fun _ _ => rfl, rfl⟩

theorem trans (h : Untouched w k d d') (h' : Untouched w k d' e) : Untouched w k d e where
  capacity := h'.capacity.trans h.capacity
  collector := h'.collector.trans h.collector
  writer := h'.writer.trans h.writer
  flag s hw := (h'.flag s (h.writer.trans hw)).trans (h.flag s hw)
  chunk c hc := by
    have hc' : d'.Ledgers k c := by rwa [Ledgers, h.collector]
    exact (h'.chunk c hc').trans (h.chunk c hc)
  evictions := h'.evictions.trans h.evictions

/-- What a session holds is as it was. -/
theorem contents (h : Untouched w k d d') : d'.contents k = d.contents k :=
  contents_congr (by rw [h.collector]) fun c hc => by rw [h.chunk c hc]

/-- Another flag goes up. -/
theorem closeLink (hl : ∀ s, d.writer? w = some s → s.link ≠ l) :
    Untouched w k d (d.closeLink l) where
  capacity := rfl
  collector := rfl
  writer := rfl
  flag s hw := by
    simp only [Depot.closeLink, isLinkClosed, Array.getElem?_modify, if_neg (Ne.symm (hl s hw))]
  chunk _ _ := rfl
  evictions := rfl

end Untouched

/-- Whatever is done in another session by another writer. -/
theorem Secluded.untouched (h : Secluded v j d d') (hw : w ≠ v) (hk : k ≠ j) :
    Untouched w k d d' where
  capacity := h.capacity
  collector := h.collectors k hk
  writer := h.others w hw
  flag _ _ := by rw [isLinkClosed, isLinkClosed, h.links]
  chunk := h.chunk k hk
  evictions := h.evictions k hk

/-! ## Freezes -/

/-- A freeze raises no flag, and leaves the capacity. -/
theorem unmoved_freezeEntries (entries : List LedgerEntry) (frozen : Frozen) (d : Depot) :
    (freezeEntries j entries frozen d).2.links = d.links ∧
      (freezeEntries j entries frozen d).2.capacity = d.capacity := by
  induction entries generalizing d frozen with
  | nil => exact ⟨rfl, rfl⟩
  | cons entry rest ih =>
    have hback := giveBack_eq (d.modifyCollector j fun s => { s with ledger := rest }) entry.chunk
    have hlinks := congrArg Depot.links hback
    have hcapacity := congrArg Depot.capacity hback
    unfold freezeEntries
    dsimp only
    split
    · next taken heq =>
      rw [heq] at hlinks hcapacity
      exact ⟨(ih _ _).1.trans hlinks, (ih _ _).2.trans hcapacity⟩
    · next taken heq =>
      rw [heq] at hlinks hcapacity
      exact ⟨(ih _ _).1.trans hlinks, (ih _ _).2.trans hcapacity⟩

theorem unmoved_freeze (d : Depot) (j : CollectorId) :
    (d.freeze j).2.links = d.links ∧ (d.freeze j).2.capacity = d.capacity :=
  unmoved_freezeEntries (d.collector j).ledger {} d

theorem Untouched.freeze (hk : k ≠ j) : Untouched w k d (d.freeze j).2 := by
  obtain ⟨-, hfrozen⟩ := freeze_spec d j
  obtain ⟨hlinks, hcapacity⟩ := unmoved_freeze d j
  have hcollector := hfrozen.others k hk
  refine ⟨hcapacity, hcollector, writer?_freeze d j w, fun s _ => ?_, fun c hc => ?_,
    hfrozen.evictions k⟩
  · rw [isLinkClosed, isLinkClosed, hlinks]
  · exact hfrozen.chunk k c (by rwa [Ledgers, hcollector])

/-! ## Closing all writers of a session -/

theorem isLinkClosed_foldl_closeLink {links : List LinkId} (hl : l ∉ links) (d : Depot) :
    (links.foldl Depot.closeLink d).isLinkClosed l = d.isLinkClosed l := by
  induction links generalizing d with
  | nil => rfl
  | cons i links ih =>
    rw [List.mem_cons, not_or] at hl
    obtain ⟨hne, hl⟩ := hl
    rw [List.foldl_cons, ih hl, isLinkClosed, isLinkClosed, Depot.closeLink,
      Array.getElem?_modify, if_neg (Ne.symm hne)]

theorem Untouched.closeWriters (hk : k ≠ j)
    (hl : ∀ s, d.writer? w = some s → s.link ∉ (d.collector j).writers) :
    Untouched w k d (d.closeWriters j).2 := by
  obtain ⟨flags, heq⟩ := foldl_closeLink (d.collector j).writers d
  have hclosed : (d.closeWriters j).2 =
      ({ d with links := flags } : Depot).modifyCollector j fun s => { s with writers := [] } := by
    rw [← heq]
    rfl
  rw [hclosed]
  refine ⟨rfl, collector_modifyCollector_of_ne hk, rfl, fun s hw => ?_, fun _ _ => rfl, rfl⟩
  have hflag := isLinkClosed_foldl_closeLink (hl s hw) d
  rwa [heq] at hflag

/-! ## Sessions and writers that come and go -/

theorem Untouched.newCollector (hk : k ≠ d.collectors.size) (o : Options) :
    Untouched w k d (d.newCollector o).2 :=
  ⟨rfl, collector_newCollector_of_ne hk o, rfl, fun _ _ => rfl, fun _ _ => rfl, rfl⟩

theorem collector_newWriter_of_ne (hk : k ≠ j) (thread : Int) (name : Option String) :
    (d.newWriter j thread name).2.collector k = d.collector k := by
  have hregistered : ((d.newLink.2.registerLink j d.newLink.1).collector k) = d.collector k :=
    collector_modifyCollector_of_ne hk
  cases name with
  | none => exact hregistered
  | some name =>
    show ((d.newLink.2.registerLink j d.newLink.1).nameThread j thread name).collector k = _
    unfold nameThread
    split
    · exact hregistered
    · exact (collector_modifyCollector_of_ne hk).trans hregistered

/-- The flag of a new writer is registered with its session, after the
others. -/
theorem registered_newWriter (hj : j < d.collectors.size) (thread : Int) (name : Option String) :
    ((d.newWriter j thread name).2.collector j).writers =
      (d.collector j).writers ++ [d.links.size] := by
  have hregistered : ((d.newLink.2.registerLink j d.newLink.1).collector j).writers =
      (d.collector j).writers ++ [d.links.size] := by
    rw [registerLink, collector_modifyCollector (d := d.newLink.2) hj]
    rfl
  cases name with
  | none => exact hregistered
  | some name =>
    show (((d.newLink.2.registerLink j d.newLink.1).nameThread j thread name).collector j).writers
      = _
    unfold nameThread
    split
    · exact hregistered
    · refine (congr_modifyCollector Collector.writers ?_ j).trans hregistered
      exact fun _ => rfl

theorem Untouched.newWriter (hk : k ≠ j) (hw : w ≠ d.writers.size)
    (hl : ∀ s, d.writer? w = some s → s.link < d.links.size) (thread : Int)
    (name : Option String) : Untouched w k d (d.newWriter j thread name).2 := by
  have hsolo := solo_newWriter d j thread name
  obtain ⟨d₁, hagree, heq⟩ := newWriter_eq d j thread name
  refine ⟨?_, collector_newWriter_of_ne hk thread name, hsolo.others w hw, fun s hs => ?_,
    fun c _ => ?_, hsolo.evictions k⟩
  · rw [heq]
    exact hagree.capacity
  · rw [isLinkClosed, isLinkClosed, links_newWriter, Array.getElem?_push,
      if_neg (Nat.ne_of_lt (hl s hs))]
  · rw [heq]
    exact hagree.chunk c

theorem Untouched.dropWriter (hw : w ≠ v) (hk : ∀ s, d.writer? v = some s → s.collector ≠ some k) :
    Untouched w k d (d.dropWriter v) := by
  have hvacated : ∀ e : Depot, Untouched w k e (e.vacate v) := fun e =>
    ⟨rfl, rfl, writer?_vacate_of_ne hw, fun _ _ => rfl, fun _ _ => rfl, rfl⟩
  unfold Depot.dropWriter
  split
  · exact .refl w k d
  · next s hs =>
    cases hj : s.collector with
    | none => exact hvacated d
    | some j =>
      have hkj : k ≠ j := by
        rintro rfl
        exact hk s hs hj
      exact ((Secluded.letGo d v j).untouched hw hkj).trans (hvacated _)

/-- A writer that leaves raises its own flag. -/
theorem Untouched.detach (hw : w ≠ v) (hk : ∀ s, d.writer? v = some s → s.collector ≠ some k)
    (hl : ∀ r s, d.writer? v = some r → d.writer? w = some s → s.link ≠ r.link) :
    Untouched w k d (d.detach v) := by
  unfold Depot.detach
  split
  · exact .refl w k d
  · next r hr =>
    have hclosed : Untouched w k d (d.closeLink r.link) := .closeLink fun s hs => hl r s hr hs
    dsimp only
    cases hj : r.collector with
    | none => exact hclosed
    | some j =>
      have hkj : k ≠ j := by
        rintro rfl
        exact hk r hr hj
      have hleft : Secluded v j (d.closeLink r.link)
          ((d.closeLink r.link).modifyWriter v fun s => { s with collector := none }) :=
        .modifyWriter fun _ => rfl
      exact hclosed.trans ((hleft.trans (.letGo _ v j)).untouched hw hkj)

/-- **A depot's capacity is for good.** -/
theorem Posted.capacity_call {F : List CollectorId} (h : Posted F d) (call : Call) :
    (call.apply d).capacity = d.capacity := by
  have hdetach : ∀ v, (d.detach v).capacity = d.capacity := fun v => by
    unfold Depot.detach
    split
    · rfl
    · dsimp only
      split
      · rfl
      · exact (Secluded.letGo _ v _).capacity
  cases call with
  | newCollector o => rfl
  | newWriter j thread name =>
    rw [Call.apply]
    split
    · obtain ⟨d₁, hagree, heq⟩ := newWriter_eq d j thread name
      rw [heq]
      exact hagree.capacity
    · rfl
  | write v em now =>
    rw [Call.apply]
    cases hreach : d.reaches v with
    | none =>
      rw [write_of_not_reaches hreach]
      exact hdetach v
    | some j => exact (h.secluded_write hreach em now).capacity
  | detach v => exact hdetach v
  | dropWriter v =>
    rw [Call.apply]
    unfold Depot.dropWriter
    split
    · rfl
    · dsimp only
      split
      · rfl
      · exact (Secluded.letGo d v _).capacity
  | close j => rfl
  | closeWriters j => exact (agree_closeWriters d j).capacity
  | freeze j => exact (unmoved_freeze d j).2

/-! ## Whose flag is whose -/

/-- Writers keep their close flags, and none is registered anew. -/
structure SameFlags (d d' : Depot) : Prop where
  size : d'.links.size = d.links.size
  writer : ∀ w s', d'.writer? w = some s' → ∃ s, d.writer? w = some s ∧ s'.link = s.link
  registered : ∀ k, ∀ l ∈ (d'.collector k).writers, l ∈ (d.collector k).writers

namespace SameFlags

theorem of_writers (hsize : d'.links.size = d.links.size) (hwriters : d'.writers = d.writers)
    (hregistered : ∀ k, ∀ l ∈ (d'.collector k).writers, l ∈ (d.collector k).writers) :
    SameFlags d d' := by
  refine ⟨hsize, fun w s' hw => ?_, hregistered⟩
  rw [writer?, hwriters] at hw
  exact ⟨s', hw, rfl⟩

theorem trans (h : SameFlags d d') (h' : SameFlags d' e) : SameFlags d e where
  size := h'.size.trans h.size
  writer w s'' hw := by
    obtain ⟨s', hw', hlink'⟩ := h'.writer w s'' hw
    obtain ⟨s, hw, hlink⟩ := h.writer w s' hw'
    exact ⟨s, hw, hlink'.trans hlink⟩
  registered k l hl := h.registered k l (h'.registered k l hl)

theorem of_secluded (h : Secluded v j d d') : SameFlags d d' where
  size := by rw [h.links]
  writer w s' hw := by
    by_cases hv : w = v
    · subst hv
      have hlink := h.link
      rw [hw] at hlink
      obtain ⟨s, hs, hsame⟩ := Option.map_eq_some_iff.mp hlink.symm
      exact ⟨s, hs, hsame.symm⟩
    · rw [h.others w hv] at hw
      exact ⟨s', hw, rfl⟩
  registered k l hl := by
    by_cases hk : k = j
    · subst hk
      rwa [h.registered] at hl
    · rwa [h.collectors k hk] at hl

theorem closeLink (d : Depot) (l : LinkId) : SameFlags d (d.closeLink l) :=
  .of_writers Array.size_modify rfl fun _ _ hl => hl

theorem detach (d : Depot) (v : WriterId) : SameFlags d (d.detach v) := by
  unfold Depot.detach
  split
  · exact .of_writers rfl rfl fun _ _ hl => hl
  · next r hr =>
    dsimp only
    cases r.collector with
    | none => exact closeLink d r.link
    | some j =>
      have hleft : Secluded v j (d.closeLink r.link)
          ((d.closeLink r.link).modifyWriter v fun s => { s with collector := none }) :=
        .modifyWriter fun _ => rfl
      exact (closeLink d r.link).trans (.of_secluded (hleft.trans (.letGo _ v j)))

theorem dropWriter (d : Depot) (v : WriterId) : SameFlags d (d.dropWriter v) := by
  have hvacated : ∀ e : Depot, SameFlags e (e.vacate v) := by
    refine fun e => ⟨rfl, fun w s' hw => ?_, fun _ _ hl => hl⟩
    by_cases hv : w = v
    · rw [hv, writer?_vacate] at hw
      exact absurd hw (by simp)
    · rw [writer?_vacate_of_ne hv] at hw
      exact ⟨s', hw, rfl⟩
  unfold Depot.dropWriter
  split
  · exact .of_writers rfl rfl fun _ _ hl => hl
  · next s hs =>
    cases s.collector with
    | none => exact hvacated d
    | some j => exact (SameFlags.of_secluded (.letGo d v j)).trans (hvacated _)

theorem size_foldl_closeLink (links : List LinkId) (d : Depot) :
    (links.foldl Depot.closeLink d).links.size = d.links.size := by
  induction links generalizing d with
  | nil => rfl
  | cons l links ih => exact (ih (d.closeLink l)).trans Array.size_modify

theorem closeWriters (d : Depot) (j : CollectorId) : SameFlags d (d.closeWriters j).2 := by
  obtain ⟨flags, heq⟩ := foldl_closeLink (d.collector j).writers d
  have hsize := size_foldl_closeLink (d.collector j).writers d
  have hclosed : (d.closeWriters j).2 =
      ({ d with links := flags } : Depot).modifyCollector j fun s => { s with writers := [] } := by
    rw [← heq]
    rfl
  rw [heq] at hsize
  rw [hclosed]
  refine .of_writers hsize rfl fun k l hl => ?_
  rcases collector_modifyCollector_cases ({ d with links := flags } : Depot) j k
    (fun s => { s with writers := [] }) with hsame | hcleared
  · rwa [hsame] at hl
  · rw [hcleared] at hl
    exact absurd hl List.not_mem_nil

end SameFlags

end Depot

namespace Chronicle

variable {h : Chronicle} {k : CollectorId} {w : WriterId}

/-- The next writer to come is not on record. -/
theorem home_newcomer (h : Chronicle) : h.home h.enrolled.length = none := by
  rw [home, List.getElem?_eq_none (Nat.le_refl _)]
  rfl

theorem home_newWriter {j : CollectorId} (hj : j < h.depot.collectors.size) (thread : Int)
    (name : Option String) :
    (h.step (.newWriter j thread name)).home h.enrolled.length = some j := by
  have henrolled := enrolled_newWriter hj thread name
  rw [home, henrolled, List.getElem?_concat_length]
  rfl

/-- A call changes what is on record of a writer only when that writer
comes. -/
theorem enrolled_step_cases (h : Chronicle) (c : Call) (w : WriterId) :
    (h.step c).enrolled[w]? = h.enrolled[w]? ∨
      ∃ j thread name, c = .newWriter j thread name ∧ j < h.depot.collectors.size ∧
        w = h.enrolled.length := by
  cases c with
  | newWriter j thread name =>
    by_cases hj : j < h.depot.collectors.size
    · have henrolled := enrolled_newWriter hj thread name
      rw [henrolled]
      rcases Nat.lt_trichotomy w h.enrolled.length with hlt | rfl | hgt
      · exact .inl (List.getElem?_append_left hlt)
      · exact .inr ⟨j, thread, name, rfl, hj, rfl⟩
      · refine .inl ?_
        rw [List.getElem?_eq_none (Nat.le_of_lt hgt), List.getElem?_eq_none]
        rwa [List.length_append]
    · exact .inl (congrArg (·[w]?) (if_neg hj))
  | _ => exact .inl rfl

/-- Every writer has the close flag in its own place, and no session has
another's. -/
structure Linked (h : Chronicle) : Prop where
  size : h.depot.links.size = h.depot.writers.size
  own : ∀ w s, h.depot.writer? w = some s → s.link = w
  registered : ∀ k, ∀ l ∈ (h.depot.collector k).writers, h.home l = some k

namespace Linked

theorem start (capacity : Nat) : Linked { depot := .ofCapacity capacity } where
  size := rfl
  own _ _ hw := absurd hw (by simp [writer?, Depot.ofCapacity])
  registered k l hl := by
    rw [collector_of_ge (Nat.zero_le k)] at hl
    exact absurd hl List.not_mem_nil

/-- Where no one came, flags stay with their writers. -/
theorem sameFlags (hl : Linked h) {h' : Chronicle} (hsame : SameFlags h.depot h'.depot)
    (hsize : h'.depot.writers.size = h.depot.writers.size)
    (henrolled : h'.enrolled = h.enrolled) : Linked h' where
  size := by rw [hsame.size, hl.size, hsize]
  own w s' hw := by
    obtain ⟨s, hs, hlink⟩ := hsame.writer w s' hw
    rw [hlink, hl.own w s hs]
  registered k l hin := by
    rw [home, henrolled]
    exact hl.registered k l (hsame.registered k l hin)

/-- A writer that comes has a flag in its own place. -/
theorem newWriter (hl : Linked h) (hs : Staffed h) {j : CollectorId}
    (hj : j < h.depot.collectors.size) (thread : Int) (name : Option String) :
    Linked (h.step (.newWriter j thread name)) := by
  have hdepot := depot_newWriter hj thread name
  have henrolled := enrolled_newWriter hj thread name
  have hsolo := solo_newWriter h.depot j thread name
  refine ⟨?_, fun w s hw => ?_, fun k l hin => ?_⟩
  · obtain ⟨d₁, hagree, heq⟩ := newWriter_eq h.depot j thread name
    rw [hdepot, links_newWriter, Array.size_push, hl.size, heq, ← hagree.sameWriters]
    exact (Array.size_push _).symm
  · rw [hdepot] at hw
    by_cases hlast : w = h.depot.writers.size
    · rw [hlast, (writer?_newWriter h.depot j thread name).1, Option.some.injEq] at hw
      rw [← hw, hlast]
      exact hl.size
    · rw [hsolo.others w hlast] at hw
      exact hl.own w s hw
  · rw [hdepot] at hin
    -- whoever is registered was, or has just come to this session
    have hcases : l ∈ (h.depot.collector k).writers ∨ k = j ∧ l = h.enrolled.length := by
      by_cases hk : k = j
      · subst hk
        rw [registered_newWriter hj, List.mem_append, List.mem_singleton, hl.size,
          ← hs.length] at hin
        exact hin.imp_right fun heq => ⟨rfl, heq⟩
      · rw [collector_newWriter_of_ne hk] at hin
        exact .inl hin
    rw [home, henrolled]
    rcases hcases with hin | ⟨rfl, rfl⟩
    · have hhome := hl.registered k l hin
      obtain ⟨p, hp, -⟩ := Option.map_eq_some_iff.mp hhome
      rw [List.getElem?_append_left (List.getElem?_eq_some_iff.mp hp).1]
      exact hhome
    · rw [List.getElem?_concat_length]
      rfl

/-- **Every call leaves flags with their writers.** -/
theorem step (hl : Linked h) (hs : Staffed h) {F : List CollectorId} (hp : Posted F h.depot)
    (c : Call) : Linked (h.step c) := by
  have hplaces : ∀ {h' : Chronicle}, Staffed h' → h'.enrolled = h.enrolled →
      h'.depot.writers.size = h.depot.writers.size := fun hs' heq => by
    rw [← hs'.length, heq, hs.length]
  have hstaffed := hs.step hp.owned c
  -- all but a writer that comes leave the record of writers as it was
  have hquiet : (h.step c).enrolled = h.enrolled → SameFlags h.depot (h.step c).depot →
      Linked (h.step c) := fun heq hsame => hl.sameFlags hsame (hplaces hstaffed heq) heq
  cases c with
  | newCollector o =>
    refine hquiet rfl (.of_writers rfl rfl fun k l hin => ?_)
    by_cases hk : k = h.depot.collectors.size
    · have hnew : (h.step (.newCollector o)).depot.collector k = { options := o } := by
        rw [hk]
        exact collector_newCollector h.depot o
      rw [hnew] at hin
      exact absurd hin List.not_mem_nil
    · have hold : (h.step (.newCollector o)).depot.collector k = h.depot.collector k :=
        collector_newCollector_of_ne hk o
      rwa [hold] at hin
  | newWriter j thread name =>
    by_cases hj : j < h.depot.collectors.size
    · exact hl.newWriter hs hj thread name
    · have hsame : (h.step (.newWriter j thread name)).depot = h.depot := if_neg hj
      refine hquiet (if_neg hj) ?_
      rw [hsame]
      exact .of_writers rfl rfl fun _ _ hin => hin
  | write v em now =>
    refine hquiet rfl ?_
    show SameFlags h.depot (h.depot.write v em now).2
    cases hreach : h.depot.reaches v with
    | none =>
      rw [write_of_not_reaches hreach]
      exact .detach h.depot v
    | some j => exact .of_secluded (hp.secluded_write hreach em now)
  | detach v => exact hquiet rfl (.detach h.depot v)
  | dropWriter v => exact hquiet rfl (.dropWriter h.depot v)
  | close j =>
    have hclosed : Secluded 0 j h.depot (h.depot.close j) := .modifyCollector fun _ => rfl
    exact hquiet rfl (.of_secluded hclosed)
  | closeWriters j => exact hquiet rfl (.closeWriters h.depot j)
  | freeze j =>
    obtain ⟨-, hfrozen⟩ := freeze_spec h.depot j
    refine hquiet rfl (.of_writers ?_ hfrozen.writers fun k l hin => ?_)
    · exact congrArg Array.size (unmoved_freeze h.depot j).1
    · have hin : l ∈ ((h.depot.freeze j).2.collector k).writers := hin
      by_cases hk : k = j
      · rw [hk, hfrozen.collector] at hin
        exact hk ▸ hin
      · rwa [hfrozen.others k hk] at hin

/-- **What others do leaves a writer and its session alone**, who is the only
one there and stays where it is. -/
theorem untouched (hl : Linked h) (hs : Staffed h) {F : List CollectorId}
    (hp : Posted F h.depot) {c : Call} (hends : c.ends w k = false)
    (hnew : ∀ o, c = .newCollector o → k ≠ h.depot.collectors.size)
    (hwrite : ∀ em now, c ≠ .write w em now) (hhome : (h.step c).home w = h.home w)
    (hplace : ∀ j, h.home w = some j → j = k)
    (hlone : ∀ v, (h.step c).home v = some k → v = w) :
    Untouched w k h.depot (h.step c).depot := by
  have hne : ∀ {v}, v ≠ w → h.home v = (h.step c).home v → ∀ s, h.depot.writer? v = some s →
      s.collector ≠ some k := by
    intro v hv hsame s hw hk
    rw [home_of_writer? hs hw hk] at hsame
    exact hv (hlone v hsame.symm)
  have hlinks : ∀ {v}, v ≠ w → ∀ r s, h.depot.writer? v = some r → h.depot.writer? w = some s →
      s.link ≠ r.link := by
    intro v hv r s hr hw
    rw [hl.own v r hr, hl.own w s hw]
    exact Ne.symm hv
  cases c with
  | newCollector o => exact .newCollector (hnew o rfl) o
  | newWriter j thread name =>
    by_cases hj : j < h.depot.collectors.size
    · have hdepot := depot_newWriter hj thread name
      have hcame := home_newWriter hj thread name
      -- whoever has just come is another one
      have hw : w ≠ h.enrolled.length := by
        rintro rfl
        rw [hcame, home_newcomer] at hhome
        exact absurd hhome (by simp)
      rw [hdepot]
      refine .newWriter ?_ (hs.length ▸ hw) (fun s hs => ?_) thread name
      · rintro rfl
        exact hw (hlone _ hcame).symm
      · rw [hl.own w s hs, hl.size]
        exact (Array.getElem?_eq_some_iff.mp (getElem?_of_writer? hs)).1
    · have hsame : (h.step (.newWriter j thread name)).depot = h.depot := if_neg hj
      rw [hsame]
      exact .refl w k h.depot
  | write v em now =>
    have hv : v ≠ w := fun heq => hwrite em now (by rw [heq])
    show Untouched w k h.depot (h.depot.write v em now).2
    cases hreach : h.depot.reaches v with
    | none =>
      rw [write_of_not_reaches hreach]
      exact .detach (Ne.symm hv) (hne hv rfl) (hlinks hv)
    | some j =>
      refine (hp.secluded_write hreach em now).untouched (Ne.symm hv) ?_
      rintro rfl
      exact hv (hlone v (hs.home_of_reaches hreach))
  | detach v =>
    have hv : v ≠ w := by simpa [Call.ends] using hends
    exact .detach (Ne.symm hv) (hne hv rfl) (hlinks hv)
  | dropWriter v =>
    have hv : v ≠ w := by simpa [Call.ends] using hends
    exact .dropWriter (Ne.symm hv) (hne hv rfl)
  | close j =>
    have hj : j ≠ k := by simpa [Call.ends] using hends
    have hclosed : Secluded (w + 1) j h.depot (h.depot.close j) := .modifyCollector fun _ => rfl
    exact hclosed.untouched (Nat.ne_of_lt (Nat.lt_succ_self w)) (Ne.symm hj)
  | closeWriters j =>
    have hj : j ≠ k := by simpa [Call.ends] using hends
    refine .closeWriters (Ne.symm hj) fun s hw hin => ?_
    rw [hl.own w s hw] at hin
    exact hj (hplace j (hl.registered j w hin))
  | freeze j =>
    have hj : j ≠ k := by simpa [Call.ends] using hends
    exact .freeze (Ne.symm hj)

end Linked

end Chronicle

end EventTrace
