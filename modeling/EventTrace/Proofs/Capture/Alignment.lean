import EventTrace.Proofs.Capture.Program
import EventTrace.Proofs.Profile.Nested
/-!
# Capture — decisions in step with the guards

A sampler keeps a decision for each open begin that it was asked about, and
an end takes the innermost one, without a look at its id. That decision is the
right one as long as the guards of a thread are dropped innermost first: then
what the sampler remembers is what became of the begins of the open guards
(`Aligned`), an end is recorded exactly if its begin was, and what a lane
leaves open are the guards whose begin it has (`Balanced`).
-/

namespace EventTrace

/-- Whether neither a cap nor a rate leaves anything out. -/
def Options.isUnlimited (o : Options) : Bool := o.isUncapped && o.maxEventsPerSecond == 0

/-- The ids of the guards whose begin was recorded. -/
def recordedIds (guards : List HeldGuard) : List Int :=
  (guards.filter (·.written)).map (·.guard.id)

/-- What became of the begins whose category is recorded. -/
def decisions (o : Options) (guards : List HeldGuard) : List Bool :=
  (guards.filter fun g => o.allows g.guard.id).map (·.written)

theorem recordedIds_cons (g : HeldGuard) (guards : List HeldGuard) : recordedIds (g :: guards) =
    if g.written then g.guard.id :: recordedIds guards else recordedIds guards := by
  cases hw : g.written <;> simp [recordedIds, hw]

theorem decisions_cons (o : Options) (g : HeldGuard) (guards : List HeldGuard) :
    decisions o (g :: guards) =
      if o.allows g.guard.id then g.written :: decisions o guards else decisions o guards := by
  cases ha : o.allows g.guard.id <;> simp [decisions, ha]

variable {o : Options} {s : Screen} {e : Emission} {now : Reading} {g : HeldGuard}
  {guards guards' : List HeldGuard}

/-! ## One thread's tests -/

/-- The tests of a thread are in step with its open guards, the innermost
first: a begin was recorded only if its category is, and the sampler
remembers what became of each begin that it was asked about. -/
structure Aligned (o : Options) (guards : List HeldGuard) (s : Screen) : Prop where
  tuned : s.Tuned o
  allowed : ∀ g ∈ guards, g.written = true → o.allows g.guard.id = true
  whole : o.hasSampling = false → ∀ g ∈ guards, o.allows g.guard.id = true → g.written = true
  scopes : o.hasSampling = true → s.sampler.scopes = decisions o guards

/-- An emission of a thread leaves it with other open guards: its tests are in
step with those, and they are what it leaves open if it is recorded. -/
structure Turns (o : Options) (s : Screen) (e : Emission) (now : Reading)
    (guards guards' : List HeldGuard) : Prop where
  aligned : Aligned o guards' (s.screen e.id e.kind now.arrival).2
  nests : ∀ n place,
    (if (s.screen e.id e.kind now.arrival).1 = .passed
      then nest (recordedIds guards) (e.event n now.stamp place) else some (recordedIds guards)) =
    some (recordedIds guards')

namespace Aligned

theorem start (h : o.maxEventsPerSecond = 0) : Aligned o [] (.ofOptions o) where
  tuned := Screen.tuned_ofOptions h
  allowed _ hg := absurd hg List.not_mem_nil
  whole _ _ hg := absurd hg List.not_mem_nil
  scopes _ := rfl

/-- **A begin is remembered with its guard.** -/
theorem opens (h : Aligned o guards s) (hid : e.id = g.guard.id) (hkind : e.kind = .scopeBegin)
    (hwritten : g.written = ((s.screen e.id e.kind now.arrival).1 == .passed)) :
    Turns o s e now guards (g :: guards) := by
  obtain ⟨htuned, hpassed, hsampler⟩ := h.tuned.screen e.id e.kind now.arrival
  have hwritten' : g.written = true ↔ o.allows g.guard.id = true ∧
      (o.hasSampling = true → (s.sampler.keep e.id .scopeBegin).1 = true) := by
    rw [hwritten, beq_iff_eq, hpassed, hid, hkind]
  refine ⟨⟨htuned, ?_, ?_, ?_⟩, ?_⟩
  · intro g' hg' hw
    rcases List.mem_cons.mp hg' with rfl | hg'
    · exact (hwritten'.mp hw).1
    · exact h.allowed g' hg' hw
  · intro hsampling g' hg' ha
    rcases List.mem_cons.mp hg' with rfl | hg'
    · exact hwritten'.mpr ⟨ha, by simp [hsampling]⟩
    · exact h.whole hsampling g' hg' ha
  · intro hsampling
    rw [hsampler, hkind, hid, hsampling, Bool.and_true, decisions_cons]
    split
    · next ha =>
      have hkept : (s.sampler.keep g.guard.id .scopeBegin).1 = g.written := by
        rw [Bool.eq_iff_iff, hwritten', hid]
        simp [ha, hsampling]
      rw [Sampler.scopes_keep_begin, hkept, h.scopes hsampling]
    · exact h.scopes hsampling
  · intro n place
    have hnest : nest (recordedIds guards) (e.event n now.stamp place) =
        some (e.id :: recordedIds guards) := by simp [nest, Emission.event, hkind]
    rw [hnest, recordedIds_cons, hwritten, ← hid]
    simp only [beq_iff_eq]
    split <;> rfl

/-- **An end is recorded exactly if its begin was**, when it is of the
innermost guard. -/
theorem closes (h : Aligned o (g :: guards) s) (hid : e.id = g.guard.id)
    (hkind : e.kind = .scopeEnd) : Turns o s e now (g :: guards) guards := by
  obtain ⟨htuned, hpassed, hsampler⟩ := h.tuned.screen e.id e.kind now.arrival
  have hallowed := h.allowed g List.mem_cons_self
  have hwhole : o.hasSampling = false → o.allows g.guard.id = true → g.written = true :=
    fun hsampling => h.whole hsampling g List.mem_cons_self
  -- of an id that is recorded the sampler remembers this guard before the rest
  have hkeep : o.hasSampling = true → o.allows g.guard.id = true →
      s.sampler.keep e.id .scopeEnd =
        (g.written, { s.sampler with scopes := decisions o guards }) := by
    intro hsampling ha
    have hscopes := h.scopes hsampling
    rw [decisions_cons, if_pos ha] at hscopes
    simp [Sampler.keep, hscopes]
  have hwritten : (s.screen e.id e.kind now.arrival).1 = .passed ↔ g.written = true := by
    rw [hpassed, hid, hkind, ← hid]
    constructor
    · rintro ⟨ha, hkept⟩
      cases hsampling : o.hasSampling with
      | false => exact hwhole hsampling (hid ▸ ha)
      | true =>
        have hdecided := hkept hsampling
        rwa [hkeep hsampling (hid ▸ ha)] at hdecided
    · intro hw
      refine ⟨hid ▸ hallowed hw, fun hsampling => ?_⟩
      rw [hkeep hsampling (hallowed hw)]
      exact hw
  refine ⟨⟨htuned, fun g' hg' => h.allowed g' (List.mem_cons_of_mem _ hg'),
    fun hsampling g' hg' => h.whole hsampling g' (List.mem_cons_of_mem _ hg'), ?_⟩, ?_⟩
  · intro hsampling
    rw [hsampler, hkind, hid, hsampling, Bool.and_true]
    split
    · next ha => rw [← hid, hkeep hsampling ha]
    · next ha =>
      have hscopes := h.scopes hsampling
      rwa [decisions_cons, if_neg ha] at hscopes
  · intro n place
    simp only [hwritten, recordedIds_cons]
    split
    · simp [nest, Emission.event, hkind, hid]
    · rfl

/-- What is no scope leaves the guards and what is remembered of them. -/
theorem passes (h : Aligned o guards s) (hkind : e.kind.isScope = false) :
    Turns o s e now guards guards := by
  obtain ⟨htuned, -, hsampler⟩ := h.tuned.screen e.id e.kind now.arrival
  refine ⟨⟨htuned, h.allowed, h.whole, fun hsampling => ?_⟩, fun n place => ?_⟩
  · rw [hsampler]
    split
    · exact (s.sampler.scopes_keep e.id hkind).trans (h.scopes hsampling)
    · exact h.scopes hsampling
  · rw [nest_of_not_isScope hkind, ite_self]

end Aligned

/-! ## A session's lanes -/

namespace Capture

variable {c : Capture} {t : ThreadId} {live : LiveSession} {opened opened' : Int → List HeldGuard}
  {stamps : List Int} {E : List (CollectorId × Int)} {F : List CollectorId}
  {ended : List ThreadId}

/-- A session whose threads' tests are in step with the guards each has open,
the innermost first, and whose lanes leave open those whose begin they
have. -/
structure Balanced (live : LiveSession) (ended : List ThreadId) (opened : Int → List HeldGuard)
    (c : Capture) : Prop where
  unhindered : Unhindered live c
  aligned : ∀ t < c.slots.size, t ∉ ended →
    Aligned live.options (opened ((t : Int) + 1)) (c.screenOf live.options t)
  lane : ∀ n, openScopes? (c.lane live n) = some (recordedIds (opened n))

namespace Balanced

/-- **An emission keeps a session balanced** with the guards it leaves its
thread with. -/
theorem emit (hb : Balanced live ended opened c) (h : Laned E F ended c) (ht : t < c.slots.size)
    (hended : t ∉ ended) (hlive : c.session = some live)
    (hturns : Turns live.options (c.screenOf live.options t) e now (opened ((t : Int) + 1))
      (opened' ((t : Int) + 1)))
    (hothers : ∀ n ≠ (t : Int) + 1, opened' n = opened n) :
    Balanced live ended opened' (c.emit t e now) := by
  have hoffered := hb.unhindered.emit h ht hended hlive e now
  refine ⟨hoffered.unhindered, ?_, ?_⟩
  · intro u hu hlasting
    rw [(SameOutline.emit c t e now).size] at hu
    rw [hoffered.screen u hu]
    split
    · next hself => exact hself ▸ hturns.aligned
    · next hother =>
      rw [hothers _ (by omega)]
      exact hb.aligned u hu hlasting
  · intro n
    rw [hoffered.lane, h.number t ht]
    by_cases hn : n = (t : Int) + 1
    · subst hn
      rw [← hturns.nests ((t : Int) + 1) (c.lane live ((t : Int) + 1)).length]
      simp only [and_true]
      show _ = if (c.judge live.options t e now).1 = .passed then _ else _
      split
      · rw [openScopes?_concat, hb.lane]
        rfl
      · rw [List.append_nil, hb.lane]
    · rw [if_neg fun hboth => hn hboth.2, List.append_nil, hothers n hn]
      exact hb.lane n

/-- Flow numbers are of no account. -/
theorem renumber (hb : Balanced live ended opened c) (flow : Int) :
    Balanced live ended opened { c with lastFlow := flow } :=
  ⟨hb.unhindered.renumber flow, hb.aligned, hb.lane⟩

/-- A thread that ends leaves the others in step, and its guards open. -/
theorem endThread (hb : Balanced live ended opened c) (h : Laned E F ended c)
    (hlive : c.session = some live) (t : ThreadId) :
    Balanced live (t :: ended) opened (c.endThread t) := by
  obtain ⟨ho, hlane, hscreen⟩ := hb.unhindered.dropWriter h hlive t
  refine ⟨ho, ?_, fun n => by rw [← hb.lane n, ← hlane n]; rfl⟩
  intro u hu hlasting
  obtain ⟨hne, hlasting⟩ := not_or.mp (mt List.mem_cons.mpr hlasting)
  have hsize : u < c.slots.size := (SameOutline.dropWriter c t).size ▸ hu
  have hsame : (c.endThread t).screenOf live.options u = c.screenOf live.options u :=
    (hscreen live.options u).trans (if_neg hne)
  rw [hsame]
  exact hb.aligned u hsize hlasting

end Balanced

/-- The lanes of a session are in order, with stamps from a clock's. -/
structure Timely (live : LiveSession) (stamps : List Int) (c : Capture) : Prop where
  ordered : ∀ n, (c.lane live n).Pairwise fun a b => a.timestamp ≤ b.timestamp
  stamped : ∀ n, ∀ e ∈ c.lane live n, e.timestamp ∈ stamps

/-- **An emission no earlier than all before it** goes to the end of its lane
in order. -/
theorem Timely.emit (htimely : Timely live stamps c) {c' : Capture}
    (hoffered : Offered live t e now c c') (hclock : ∀ stamp ∈ stamps, stamp ≤ now.stamp) :
    Timely live (stamps ++ [now.stamp]) c' := by
  refine ⟨fun n => ?_, fun n event hevent => ?_⟩
  · rw [hoffered.lane]
    refine List.pairwise_append.mpr ⟨htimely.ordered n, ?_, ?_⟩
    · split
      · exact List.pairwise_singleton _ _
      · exact List.Pairwise.nil
    · intro event hevent event' hevent'
      obtain rfl : event' = e.event n now.stamp (c.lane live n).length := by
        split at hevent'
        · exact List.mem_singleton.mp hevent'
        · exact absurd hevent' List.not_mem_nil
      exact hclock _ (htimely.stamped n event hevent)
  · rw [hoffered.lane] at hevent
    rcases List.mem_append.mp hevent with hevent | hevent
    · exact List.mem_append_left _ (htimely.stamped n event hevent)
    · split at hevent
      · rw [List.mem_singleton.mp hevent]
        exact List.mem_append_right _ (List.mem_singleton.mpr rfl)
      · exact absurd hevent List.not_mem_nil

/-- Time passes for sessions that hear nothing of it. -/
theorem Timely.mono (htimely : Timely live stamps c) {c' : Capture} {stamps' : List Int}
    (hlane : ∀ n, c'.lane live n = c.lane live n) (hsub : stamps ⊆ stamps') :
    Timely live stamps' c' where
  ordered n := hlane n ▸ htimely.ordered n
  stamped n e he := hsub (htimely.stamped n e (hlane n ▸ he))

end Capture

end EventTrace
