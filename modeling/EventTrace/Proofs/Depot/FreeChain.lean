import EventTrace.Depot.FreeChain
import Mathlib.Data.List.Nodup
import Mathlib.Tactic.Common
/-!
# Depot — links that hold the free list

A chain holds a list of chunks if links lead from its head through these chunks
in order and end there, and no other chunk is linked (`FreeChain.Holds`). Every
walk then ends, taking a chunk takes the first of the list, and putting one back
puts it in front (`FreeChain.Holds.take`, `FreeChain.Holds.giveBack`), so the
links never run in a circle and never lead to a chunk that is in use.
-/

namespace EventTrace

namespace FreeChain

variable {f : FreeChain} {next next' : ChunkId → Option ChunkId} {start : Option ChunkId}
variable {l m : List ChunkId} {c first last : ChunkId} {steps : Nat}

/-- Links lead from some start through the chunks of a list in order, and end
there. -/
def Leads (next : ChunkId → Option ChunkId) : Option ChunkId → List ChunkId → Prop
  | start, [] => start = none
  | start, c :: rest => start = some c ∧ Leads next (next c) rest

/-- The links of a chain lead through a list of distinct chunks, and no other
chunk is linked. -/
structure Holds (f : FreeChain) (l : List ChunkId) : Prop where
  leads : Leads f.next f.head l
  nodup : l.Nodup
  unlinked : ∀ c ∉ l, f.next c = none

theorem Leads.start_eq (h : Leads next start l) : start = l.head? := by
  cases l with
  | nil => exact h
  | cons c rest => exact h.1

/-- Only the links of the chunks on the way matter. -/
theorem Leads.congr (h : Leads next start l) (hnext : ∀ c ∈ l, next' c = next c) :
    Leads next' start l := by
  induction l generalizing start with
  | nil => exact h
  | cons c rest ih =>
    refine ⟨h.1, ?_⟩
    rw [hnext c List.mem_cons_self]
    exact ih h.2 fun x hx => hnext x (List.mem_cons_of_mem c hx)

/-- **A walk ends**, at the last chunk, if it may take a step for each. -/
theorem last?_of_leads (h : Leads f.next (some first) (l ++ [last]))
    (hsteps : l.length < steps) : f.last? steps first = some last := by
  induction l generalizing first steps with
  | nil =>
    obtain ⟨hfirst, hend⟩ := h
    obtain rfl := Option.some.inj hfirst
    cases steps with
    | zero => exact absurd hsteps (Nat.not_lt_zero _)
    | succ steps =>
      have hend : f.next first = none := hend
      rw [last?, hend]
  | cons c rest ih =>
    obtain ⟨hfirst, hrest⟩ := h
    obtain rfl := Option.some.inj hfirst
    cases steps with
    | zero => exact absurd hsteps (Nat.not_lt_zero _)
    | succ steps =>
      have hafter : ∃ after, f.next first = some after := by
        rw [hrest.start_eq]
        cases rest <;> exact ⟨_, rfl⟩
      obtain ⟨after, hafter⟩ := hafter
      rw [hafter] at hrest
      rw [last?, hafter]
      exact ih hrest (Nat.lt_of_succ_lt_succ hsteps)

/-- Where a list ends, its links lead on once the last chunk is linked. -/
theorem Leads.append (h : Leads next start (l ++ [last])) (hlast : last ∉ l)
    (hm : Leads next' (next' last) m) (hnext : ∀ c ∈ l, next' c = next c) :
    Leads next' start (l ++ [last] ++ m) := by
  induction l generalizing start with
  | nil => exact ⟨h.1, hm⟩
  | cons c rest ih =>
    refine ⟨h.1, ?_⟩
    rw [hnext c List.mem_cons_self]
    exact ih h.2 (fun hmem => hlast (List.mem_cons_of_mem c hmem))
      fun x hx => hnext x (List.mem_cons_of_mem c hx)

/-- **Chunks that are linked one to the next are put in front of those held.** -/
theorem exists_push?_eq (hfirst : Leads f.next (some first) (l ++ [last]))
    (hheld : Leads f.next f.head m) (hnodup : (l ++ [last] ++ m).Nodup)
    (hunlinked : ∀ c ∉ l ++ [last] ++ m, f.next c = none) (hsteps : l.length < steps) :
    ∃ f', f.push? steps first = some f' ∧ f'.Holds (l ++ [last] ++ m) := by
  obtain ⟨hfront, -, happart⟩ := List.nodup_append.mp hnodup
  have hlast : last ∉ l := by
    have hone := List.nodup_append.mp hfront
    exact fun hmem => hone.2.2 last hmem last List.mem_cons_self rfl
  refine ⟨{ f.link last f.head with head := some first }, ?_, ?_, hnodup, ?_⟩
  · rw [push?, last?_of_leads hfirst hsteps]
    rfl
  · refine hfirst.append hlast ?_ fun c hc => if_neg ?_
    · show Leads _ (if last = last then f.head else _) m
      rw [if_pos rfl]
      refine hheld.congr fun c hc => if_neg ?_
      rintro rfl
      exact happart c (List.mem_append_right l List.mem_cons_self) c hc rfl
    · rintro rfl
      exact hlast hc
  · intro c hc
    have hne : c ≠ last := by
      rintro rfl
      exact hc (List.mem_append_left m (List.mem_append_right l List.mem_cons_self))
    show (if c = last then f.head else f.next c) = none
    rw [if_neg hne, hunlinked c hc]

/-- The empty chain holds nothing. -/
theorem holds_empty : Holds {} [] := ⟨rfl, .nil, fun _ _ => rfl⟩

namespace Holds

/-- From an empty chain no chunk is taken. -/
theorem take_nil (h : f.Holds []) (steps : Nat) : f.take? steps = some (none, f) := by
  have hhead : f.head = none := h.leads
  rw [take?, hhead]

/-- **The chunk taken is the first**, it is unlinked, and the others are held as
before. -/
theorem take_cons (h : f.Holds (c :: l)) (hsteps : l.length ≤ steps) :
    ∃ f', f.take? steps = some (some c, f') ∧ f'.Holds l := by
  obtain ⟨hhead, hrest⟩ := h.leads
  obtain ⟨hc, hnodup⟩ := List.nodup_cons.mp h.nodup
  have hlink : ∀ x, x ≠ c → (f.link c none).next x = f.next x := fun x hx => if_neg hx
  have hunlinked : ∀ x ∉ l, (f.link c none).next x = none := by
    intro x hx
    by_cases hxc : x = c
    · exact if_pos hxc
    · rw [hlink x hxc]
      exact h.unlinked x (by simp [hxc, hx])
  have hleads : Leads (f.link c none).next (f.next c) l :=
    hrest.congr fun x hx => hlink x fun hxc => hc (hxc ▸ hx)
  unfold take?
  rw [hhead]
  dsimp only
  cases hnext : f.next c with
  | none =>
    rw [hnext] at hleads
    obtain rfl : l = [] := List.head?_eq_none_iff.mp hleads.start_eq.symm
    exact ⟨_, rfl, rfl, .nil, hunlinked⟩
  | some first =>
    rw [hnext] at hleads
    -- the walk to the end of the others takes one step for each of them
    obtain ⟨front, last, rfl⟩ : ∃ front last, l = front ++ [last] := by
      have hne : l ≠ [] := by
        rintro rfl
        exact absurd hleads.start_eq (by simp)
      exact ⟨_, _, (List.dropLast_concat_getLast hne).symm⟩
    have hshort : front.length < steps := Nat.lt_of_succ_le (by simpa using hsteps)
    have hpushed := exists_push?_eq (m := []) (f := { f.link c none with head := none }) hleads rfl
      (by simpa using hnodup) (by simpa using hunlinked) hshort
    obtain ⟨f', hpush, hholds⟩ := hpushed
    rw [List.append_nil] at hholds
    dsimp only
    rw [hpush]
    exact ⟨f', rfl, hholds⟩

/-- **The chunk put back is the first from then on.** -/
theorem giveBack (h : f.Holds l) (hc : c ∉ l) (hsteps : 0 < steps) :
    ∃ f', f.giveBack? steps c = some f' ∧ f'.Holds (c :: l) := by
  have hlink : ∀ x, x ≠ c → (f.link c none).next x = f.next x := fun x hx => if_neg hx
  have hfirst : Leads (f.link c none).next (some c) ([] ++ [c]) := ⟨rfl, if_pos rfl⟩
  refine exists_push?_eq hfirst ?_ (List.nodup_cons.mpr ⟨hc, h.nodup⟩) ?_ hsteps
  · exact h.leads.congr fun x hx => hlink x fun hxc => hc (hxc ▸ hx)
  · intro x hx
    have hx : x ≠ c ∧ x ∉ l := by simpa using hx
    rw [hlink x hx.1, h.unlinked x hx.2]

end Holds

/-- Any distinct chunks are held by some chain. -/
theorem exists_holds (h : l.Nodup) : ∃ f : FreeChain, f.Holds l := by
  induction l with
  | nil => exact ⟨{}, holds_empty⟩
  | cons c rest ih =>
    obtain ⟨hc, hrest⟩ := List.nodup_cons.mp h
    obtain ⟨f, hf⟩ := ih hrest
    obtain ⟨f', -, hf'⟩ := hf.giveBack hc Nat.one_pos
    exact ⟨f', hf'⟩

end FreeChain

end EventTrace
