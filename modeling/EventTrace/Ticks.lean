/-!
# Ticks — clock ticks and wall units

Ticks are kept in words of 64 bits, which hold what a clock can show: a sum
or a difference that does not fit wraps around (`Ticks.wrap`). Totals stay in
ticks until they are shown. A conversion is one product and one quotient of
floating-point numbers, in that order, each rounded to the nearest, so a total
keeps its precision up to the last step.
-/

namespace EventTrace

/-- Ticks per second, never zero or less. -/
structure TickRate where
  frequency : Int
  positive : 0 < frequency

namespace TickRate

/-- One tick per nanosecond, the rate of a live clock. -/
def nanoseconds : TickRate := ⟨1000000000, by decide⟩

instance : Inhabited TickRate := ⟨nanoseconds⟩

/-- A frequency that is not positive stands for the live clock's. -/
def ofFrequency (frequency : Int) : TickRate :=
  if h : 0 < frequency then ⟨frequency, h⟩ else nanoseconds

theorem frequency_ofFrequency_of_pos {f : Int} (h : 0 < f) : (ofFrequency f).frequency = f := by
  simp [ofFrequency, h]

/-- Ticks as units of which `perSecond` make a second. -/
def toUnit (rate : TickRate) (perSecond : Float) (ticks : Int) : Float :=
  Float.ofInt ticks * perSecond / Float.ofInt rate.frequency

/-- Ticks as milliseconds. -/
def toMillis (rate : TickRate) (ticks : Int) : Float := rate.toUnit 1000.0 ticks

/-- Ticks as microseconds. -/
def toMicros (rate : TickRate) (ticks : Int) : Float := rate.toUnit 1000000.0 ticks

/-- The latest instant a clock can show. -/
def maxTicks : Int := 9223372036854775807

/-- The earliest instant a clock can show. -/
def minTicks : Int := -9223372036854775808

/-- A number of ticks held within what a clock can show. -/
def clamp (ticks : Int) : Int := max minTicks (min maxTicks ticks)

/-- The ticks of a number of seconds, held within what a clock can show. -/
def perSeconds (rate : TickRate) (seconds : Int) : Int := clamp (rate.frequency * seconds)

end TickRate

/-! ## Words -/

namespace Ticks

open TickRate (maxTicks minTicks)

/-- A word holds so many ticks. -/
def Fit (ticks : Int) : Prop := minTicks ≤ ticks ∧ ticks ≤ maxTicks

instance : DecidablePred Fit := fun ticks =>
  inferInstanceAs (Decidable (minTicks ≤ ticks ∧ ticks ≤ maxTicks))

/-- What a word has of a number of ticks: the number itself if it fits, and
else what is left when it has wrapped around. -/
def wrap (ticks : Int) : Int := (ticks - minTicks) % 18446744073709551616 + minTicks

variable {m n : Int}

theorem fit_wrap (n : Int) : Fit (wrap n) := by
  simp only [Fit, wrap, minTicks, maxTicks]
  omega

/-- **What fits does not wrap.** -/
theorem Fit.wrap_eq (h : Fit n) : wrap n = n := by
  simp only [Fit, wrap, minTicks, maxTicks] at *
  omega

theorem wrap_eq_of_nonneg (h : 0 ≤ n) (hle : n ≤ maxTicks) : wrap n = n :=
  Fit.wrap_eq ⟨Int.le_trans (by decide) h, hle⟩

theorem fit_zero : Fit 0 := by decide

theorem Fit.max_zero (h : Fit n) : Fit (max 0 n) := by
  simp only [Fit, minTicks, maxTicks] at *
  omega

@[simp] theorem wrap_wrap_add (m n : Int) : wrap (wrap m + n) = wrap (m + n) := by
  simp only [wrap, minTicks]
  omega

@[simp] theorem wrap_add_wrap (m n : Int) : wrap (m + wrap n) = wrap (m + n) := by
  simp only [wrap, minTicks]
  omega

end Ticks

end EventTrace
