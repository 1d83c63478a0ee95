import EventTrace.Proofs.Depot.Alarms
/-!
# Depot — operations that meet no limit

Most operations can neither overflow a session nor cost it anything: a writer
comes or goes, a chunk is given back, a session is closed or copied out. Such
an operation leaves every session's losses, opens none that is closed and
sounds no alarm (`unpressed_op`). The few others press against a limit.
-/

namespace EventTrace

open Depot

/-- Whether an operation may meet a limit, or counts a loss that is one of the
signs of an overflow. -/
def Op.presses : Op → Bool
  | call (.write ..) | rent _ | offerEvent _ | recordDropped .. | recordRateLimited _ | holdRoom _
  | evict _ => true
  | _ => false

/-- The losses that go with an overflow, and its flag. Sampling is none of
them. -/
def Losses.pressing (l : Losses) : Losses := { l with sampledOut := 0 }

namespace Depot

variable {d d' e : Depot} {c : ChunkId} {k j : CollectorId} {w : WriterId} {s : Writer}

/-- Nothing is lost to a limit, and no session is told that it was. -/
structure Unpressed (d d' : Depot) : Prop where
  size : d.collectors.size ≤ d'.collectors.size
  options : ∀ k < d.collectors.size, (d'.collector k).options = (d.collector k).options
  closed : ∀ k, (d.collector k).closed = true → (d'.collector k).closed = true
  losses : ∀ k, (d'.collector k).losses.pressing = (d.collector k).losses.pressing
  alarms : d'.alarms = d.alarms

namespace Unpressed

theorem of_collectors (hcollectors : d'.collectors = d.collectors)
    (halarms : d'.alarms = d.alarms) : Unpressed d d' := by
  have hcollector : ∀ k, d'.collector k = d.collector k := by
    intro k
    rw [collector, hcollectors, collector]
  refine ⟨Nat.le_of_eq (by rw [hcollectors]), fun k _ => ?_, fun k h => ?_, fun k => ?_, halarms⟩
  · rw [hcollector]
  · rwa [hcollector]
  · rw [hcollector]

theorem refl (d : Depot) : Unpressed d d := of_collectors rfl rfl

theorem trans (h : Unpressed d d') (h' : Unpressed d' e) : Unpressed d e where
  size := Nat.le_trans h.size h'.size
  options k hk := (h'.options k (Nat.lt_of_lt_of_le hk h.size)).trans (h.options k hk)
  closed k hclosed := h'.closed k (h.closed k hclosed)
  losses k := (h'.losses k).trans (h.losses k)
  alarms := h'.alarms.trans h.alarms

/-- Something that concerns no session may come before. -/
theorem after (h : Unpressed d' e) (hcollectors : d'.collectors = d.collectors)
    (halarms : d'.alarms = d.alarms) : Unpressed d e := (of_collectors hcollectors halarms).trans h

theorem modifyCollector {f : Collector → Collector} (hoptions : ∀ s, (f s).options = s.options)
    (hclosed : ∀ s, s.closed = true → (f s).closed = true)
    (hlosses : ∀ s, (f s).losses.pressing = s.losses.pressing) :
    Unpressed d (d.modifyCollector k f) where
  size := Nat.le_of_eq Array.size_modify.symm
  options j _ := congr_modifyCollector Collector.options hoptions j
  closed j h := by
    rcases collector_modifyCollector_cases d k j f with hsame | hchanged
    · rwa [hsame]
    · rw [hchanged]
      exact hclosed _ h
  losses j := congr_modifyCollector (fun s => s.losses.pressing) hlosses j
  alarms := rfl

end Unpressed

/-! ## Sessions -/

theorem unpressed_newCollector (d : Depot) (o : Options) : Unpressed d (d.newCollector o).2 where
  size := by
    rw [newCollector, Array.size_push]
    exact Nat.le_succ _
  options k hk := by rw [collector_newCollector_of_ne (Nat.ne_of_lt hk)]
  closed k h := by rwa [congr_newCollector Collector.closed o rfl k]
  losses k := congr_newCollector (fun s => s.losses.pressing) o rfl k
  alarms := rfl

theorem unpressed_close (d : Depot) (k : CollectorId) : Unpressed d (d.close k) :=
  .modifyCollector (fun _ => rfl) (fun _ _ => rfl) fun _ => rfl

theorem unpressed_giveBack (d : Depot) (c : ChunkId) : Unpressed d (d.giveBack c).2 :=
  .of_collectors (giveBack_collectors d c) (alarms_giveBack d c)

/-- A session is copied out without an alarm. -/
theorem alarms_freezeEntries (k : CollectorId) (entries : List LedgerEntry) (frozen : Frozen)
    (d : Depot) : (freezeEntries k entries frozen d).2.alarms = d.alarms := by
  induction entries generalizing frozen d with
  | nil => rfl
  | cons entry rest ih =>
    unfold freezeEntries
    dsimp only
    have hback := alarms_giveBack (d.modifyCollector k fun s => { s with ledger := rest })
      entry.chunk
    split
    · next heq =>
      rw [heq] at hback
      exact (ih _ _).trans hback
    · next heq =>
      rw [heq] at hback
      exact (ih _ _).trans hback

theorem unpressed_freeze (d : Depot) (k : CollectorId) : Unpressed d (d.freeze k).2 := by
  obtain ⟨-, hfrozen⟩ := freeze_spec d k
  have hsame : ∀ j, ∃ ledger, (d.freeze k).2.collector j = { d.collector j with ledger } := by
    intro j
    by_cases hj : j = k
    · exact ⟨[], hj ▸ hfrozen.collector⟩
    · exact ⟨_, hfrozen.others j hj⟩
  refine ⟨Nat.le_of_eq hfrozen.size.symm, fun j _ => ?_, fun j hclosed => ?_, fun j => ?_, ?_⟩
  · obtain ⟨ledger, heq⟩ := hsame j
    rw [heq]
  · obtain ⟨ledger, heq⟩ := hsame j
    rwa [heq]
  · obtain ⟨ledger, heq⟩ := hsame j
    rw [heq]
  · exact (alarms_note rfl).trans (alarms_freezeEntries k _ {} d)

/-! ## Writers -/

theorem unpressed_registerLink (d : Depot) (k : CollectorId) (l : LinkId) :
    Unpressed d (d.registerLink k l) := .modifyCollector (fun _ => rfl) (fun _ => id) fun _ => rfl

theorem unpressed_nameThread (d : Depot) (k : CollectorId) (thread : Int) (name : String) :
    Unpressed d (d.nameThread k thread name) := by
  unfold nameThread
  split
  · exact .refl d
  · exact .modifyCollector (fun _ => rfl) (fun _ => id) fun _ => rfl

theorem unpressed_newWriter (d : Depot) (k : CollectorId) (thread : Int) (name : Option String) :
    Unpressed d (d.newWriter k thread name).2 := by
  have hregistered : Unpressed d (d.newLink.2.registerLink k d.newLink.1) :=
    (unpressed_registerLink _ k _).after rfl rfl
  cases name with
  | none => exact hregistered.trans (.of_collectors rfl rfl)
  | some name =>
    exact (hregistered.trans (unpressed_nameThread _ k thread name)).trans (.of_collectors rfl rfl)

theorem unpressed_closeWriters (d : Depot) (k : CollectorId) :
    Unpressed d (d.closeWriters k).2 := by
  obtain ⟨flags, heq⟩ := foldl_closeLink (d.collector k).writers d
  unfold closeWriters
  dsimp only
  rw [heq]
  have hlinks : Unpressed d { d with links := flags } := .of_collectors rfl rfl
  exact hlinks.trans (.modifyCollector (fun _ => rfl) (fun _ => id) fun _ => rfl)

theorem unpressed_releaseChunk (d : Depot) (k : CollectorId) (c : ChunkId) :
    Unpressed d (d.releaseChunk k c) := by
  unfold releaseChunk
  split
  · exact unpressed_giveBack d c
  · exact .modifyCollector (fun _ => rfl) (fun _ => id) fun _ => rfl

theorem unpressed_letGo (d : Depot) (w : WriterId) (k : CollectorId) :
    Unpressed d (d.letGo w k) := by
  unfold letGo
  split
  · exact .refl d
  · exact (unpressed_releaseChunk _ k _).after rfl rfl

theorem unpressed_detach (d : Depot) (w : WriterId) : Unpressed d (d.detach w) := by
  unfold detach
  split
  · exact .refl d
  · split
    · exact .of_collectors rfl rfl
    · exact (unpressed_letGo _ w _).after rfl rfl

theorem unpressed_dropWriter (d : Depot) (w : WriterId) : Unpressed d (d.dropWriter w) := by
  unfold dropWriter
  split
  · exact .refl d
  · split
    · exact .of_collectors rfl rfl
    · exact (unpressed_letGo d w _).trans (.of_collectors rfl rfl)

/-! ## Operations -/

/-- **An operation that meets no limit costs no session anything** and sounds no
alarm. -/
theorem unpressed_op {o : Op} (ho : o.presses = false) (d : Depot) : Unpressed d (o.apply d) := by
  cases o with
  | call call =>
    cases call with
    | newCollector o => exact unpressed_newCollector d o
    | newWriter k thread name =>
      dsimp only [Op.apply, Call.apply]
      split
      · exact unpressed_newWriter d k thread name
      · exact .refl d
    | write w em now => exact absurd ho (by simp [Op.presses])
    | detach w => exact unpressed_detach d w
    | dropWriter w => exact unpressed_dropWriter d w
    | close k => exact unpressed_close d k
    | closeWriters k => exact unpressed_closeWriters d k
    | freeze k => exact unpressed_freeze d k
  | rent k => exact absurd ho (by simp [Op.presses])
  | writeRental r event =>
    dsimp only [Op.apply, writeRental]
    split <;> exact .of_collectors rfl rfl
  | release k r =>
    dsimp only [Op.apply, release]
    split
    · exact (unpressed_releaseChunk _ k _).after rfl rfl
    · exact .refl d
  | dropRental r => exact .of_collectors rfl rfl
  | shareRental r =>
    dsimp only [Op.apply, shareRental]
    split <;> exact .of_collectors rfl rfl
  | markIdle k c => exact .modifyCollector (fun _ => rfl) (fun _ => id) fun _ => rfl
  | takeShare => exact .of_collectors (take_collectors d) (alarms_take d)
  | makeShare capacity => exact .of_collectors rfl rfl
  | cloneShare h =>
    dsimp only [Op.apply]
    split <;> exact .of_collectors rfl rfl
  | dropShare h => exact .of_collectors rfl rfl
  | resetShare h =>
    dsimp only [Op.apply, resetShare]
    split
    · split <;> exact .of_collectors rfl rfl
    · exact .refl d
  | returnShare h =>
    dsimp only [Op.apply, returnShare]
    split
    · exact (unpressed_giveBack _ _).after rfl rfl
    · exact .refl d
  | offerEvent k => exact absurd ho (by simp [Op.presses])
  | recordDropped k reason => exact absurd ho (by simp [Op.presses])
  | recordSampledOut k => exact .modifyCollector (fun _ => rfl) (fun _ => id) fun _ => rfl
  | recordRateLimited k => exact absurd ho (by simp [Op.presses])
  | nameThread k thread name => exact unpressed_nameThread d k thread name
  | newLink => exact .of_collectors rfl rfl
  | registerLink k l => exact unpressed_registerLink d k l
  | closeLink l => exact .of_collectors rfl rfl
  | screen w em arrival =>
    dsimp only [Op.apply]
    split <;> exact .of_collectors rfl rfl
  | letGo w =>
    dsimp only [Op.apply]
    split
    · exact unpressed_letGo d w _
    · exact .refl d
  | holdRoom w => exact absurd ho (by simp [Op.presses])
  | evict k => exact absurd ho (by simp [Op.presses])

end Depot

end EventTrace
