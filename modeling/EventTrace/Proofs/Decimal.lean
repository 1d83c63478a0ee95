import EventTrace.Text.Decimal
import Mathlib.Data.List.Induction
import Mathlib.Tactic.Common
/-!
# Decimal — the one written form

A whole number is read from the digits it is written in and from no others:
`decimal?_eq_some_iff`. So a key that is written in digits comes back as the
number it stands for, sign and all, and no two keys stand for one number.
-/

namespace EventTrace

namespace Text

/-! ## Digits -/

theorem digit?_digitChar {d : Nat} (h : d < 10) : digit? (digitChar d) = some d := by
  have hall : ∀ d < 10, digit? (digitChar d) = some d := by decide
  exact hall d h

/-- A digit is the one written for its value, which is below ten. -/
theorem eq_digitChar_of_digit? {c : Char} {d : Nat} (h : digit? c = some d) :
    c = digitChar d ∧ d < 10 := by
  rw [digit?] at h
  split at h
  · next hrange =>
    have hlow : '0'.toNat ≤ c.toNat := hrange.1
    have hhigh : c.toNat ≤ '9'.toNat := hrange.2
    have hd : c.toNat - '0'.toNat = d := Option.some.inj h
    refine ⟨?_, ?_⟩
    · rw [digitChar, ← hd, Nat.add_sub_cancel' hlow, Char.ofNat_toNat]
    · have hzero : '0'.toNat = 48 := rfl
      have hnine : '9'.toNat = 57 := rfl
      omega
  · exact absurd h (by simp)

theorem digits_of_lt {n : Nat} (h : n < 10) : digits n = [digitChar n] := by
  rw [digits, if_pos h]

/-- The digits of a number with several are those of its tenth and one more. -/
theorem digits_snoc {m d : Nat} (hm : m ≠ 0) (hd : d < 10) :
    digits (10 * m + d) = digits m ++ [digitChar d] := by
  have hbig : ¬ 10 * m + d < 10 := by omega
  rw [digits, if_neg hbig]
  congr 2
  · omega
  · congr 1
    omega

/-- Numbers are built up digit by digit. -/
theorem digitsInduction {motive : Nat → Prop} (one : ∀ d < 10, motive d)
    (snoc : ∀ m d, m ≠ 0 → d < 10 → motive m → motive (10 * m + d)) (n : Nat) : motive n := by
  induction n using Nat.strongRecOn with
  | _ n ih =>
    by_cases hn : n < 10
    · exact one n hn
    · have hsplit : n = 10 * (n / 10) + n % 10 := by omega
      rw [hsplit]
      exact snoc (n / 10) (n % 10) (by omega) (by omega) (ih (n / 10) (by omega))

theorem digits_ne_nil (n : Nat) : digits n ≠ [] := by
  induction n using digitsInduction with
  | one d hd => simp [digits_of_lt hd]
  | snoc m d hm hd _ => simp [digits_snoc hm hd]

/-- Every character of a number's digits is a digit. -/
theorem exists_digit?_of_mem_digits {n : Nat} {c : Char} (h : c ∈ digits n) :
    ∃ d, digit? c = some d := by
  induction n using digitsInduction with
  | one d hd =>
    rw [digits_of_lt hd, List.mem_singleton] at h
    exact ⟨d, h ▸ digit?_digitChar hd⟩
  | snoc m d hm hd ih =>
    rw [digits_snoc hm hd, List.mem_append, List.mem_singleton] at h
    rcases h with h | rfl
    · exact ih h
    · exact ⟨d, digit?_digitChar hd⟩

/-- Only zero starts with the digit zero. -/
theorem head?_digits_ne {n : Nat} (h : n ≠ 0) : (digits n).head? ≠ some '0' := by
  induction n using digitsInduction with
  | one d hd =>
    have hall : ∀ d < 10, d ≠ 0 → digitChar d ≠ '0' := by decide
    simpa [digits_of_lt hd] using hall d hd h
  | snoc m d hm hd ih =>
    rw [digits_snoc hm hd, List.head?_append, List.head?_eq_some_head (digits_ne_nil m),
      Option.some_or, ← List.head?_eq_some_head]
    exact ih hm

/-! ## Reading -/

theorem continued?_append (soFar : Nat) (cs more : List Char) :
    continued? soFar (cs ++ more) = (continued? soFar cs).bind (continued? · more) := by
  induction cs generalizing soFar with
  | nil => rfl
  | cons c rest ih =>
    rw [List.cons_append, continued?, continued?, Option.bind_assoc]
    exact congrArg _ (funext fun d => ih _)

theorem continued?_digits (n : Nat) : continued? 0 (digits n) = some n := by
  induction n using digitsInduction with
  | one d hd => simp [digits_of_lt hd, continued?, digit?_digitChar hd]
  | snoc m d hm hd ih =>
    rw [digits_snoc hm hd, continued?_append, ih]
    simp [continued?, digit?_digitChar hd]

theorem natural?_digits (n : Nat) : natural? (digits n) = some n := by
  cases hdigits : digits n with
  | nil => exact absurd hdigits (digits_ne_nil n)
  | cons c rest =>
    have hlead : ¬ (c = '0' ∧ rest ≠ []) := by
      rintro ⟨rfl, hrest⟩
      -- only zero starts with a zero, and it has no second digit
      have hn : n = 0 := by_contra fun hn => head?_digits_ne hn (by rw [hdigits]; rfl)
      rw [hn, digits_of_lt (by decide)] at hdigits
      exact hrest (List.cons.inj hdigits).2.symm
    rw [natural?, if_neg hlead, ← hdigits, continued?_digits]

/-- Digits without a leading zero are those of the number they make. -/
theorem eq_digits_of_continued? {cs : List Char} {n : Nat} (hcs : cs ≠ [])
    (hlead : cs.head? = some '0' → cs.length = 1) (h : continued? 0 cs = some n) :
    cs = digits n := by
  induction cs using List.reverseRecOn generalizing n with
  | nil => exact absurd rfl hcs
  | append_singleton front last ih =>
    rw [continued?_append] at h
    obtain ⟨m, hm, hlast⟩ := Option.bind_eq_some_iff.mp h
    obtain ⟨d, hd, hn⟩ := Option.bind_eq_some_iff.mp hlast
    obtain ⟨rfl, hlt⟩ := eq_digitChar_of_digit? hd
    rw [continued?, Option.some.injEq] at hn
    cases front with
    | nil =>
      rw [continued?, Option.some.injEq] at hm
      rw [← hn, ← hm, Nat.mul_zero, Nat.zero_add, digits_of_lt hlt, List.nil_append]
    | cons first rest =>
      -- what comes before the last digit is no zero, which alone would be a leading one
      have hfirst : first ≠ '0' := by
        rintro rfl
        have hone := hlead rfl
        simp at hone
      have hfront : first :: rest = digits m :=
        ih (List.cons_ne_nil _ _) (fun hzero => absurd (Option.some.inj hzero) hfirst) hm
      have hm0 : m ≠ 0 := by
        rintro rfl
        rw [digits_of_lt (by decide)] at hfront
        exact hfirst (List.cons.inj hfront).1
      rw [← hn, digits_snoc hm0 hlt, hfront]

theorem natural?_eq_some_iff {cs : List Char} {n : Nat} : natural? cs = some n ↔ cs = digits n := by
  constructor
  · intro h
    cases cs with
    | nil => exact absurd h (by simp [natural?])
    | cons c rest =>
      rw [natural?] at h
      split at h
      · exact absurd h (by simp)
      · next hlead =>
        refine eq_digits_of_continued? (List.cons_ne_nil _ _) (fun hzero => ?_) h
        have hrest : rest = [] :=
          by_contra fun hrest => hlead ⟨Option.some.inj hzero, hrest⟩
        rw [hrest, List.length_singleton]
  · rintro rfl
    exact natural?_digits n

/-! ## Whole numbers -/

/-- The characters a whole number is written in. -/
theorem toList_decimal (n : Int) : (decimal n).toList =
    match n with
    | .ofNat m => digits m
    | .negSucc m => '-' :: digits (m + 1) := by
  cases n <;> exact String.toList_ofList

/-- A number's digits do not start with a sign. -/
theorem digits_ne_sign (n : Nat) (rest : List Char) : digits n ≠ '-' :: rest := by
  intro h
  obtain ⟨d, hd⟩ := exists_digit?_of_mem_digits (h ▸ List.mem_cons_self : '-' ∈ digits n)
  exact absurd hd (by decide +revert)

/-- **A whole number is read from its written form and from no other.** -/
theorem decimal?_eq_some_iff {s : String} {n : Int} : decimal? s = some n ↔ s = decimal n := by
  rw [← String.toList_inj, toList_decimal, decimal?]
  split
  · next rest hs =>
    rw [hs, Option.bind_eq_some_iff]
    cases n with
    | ofNat m =>
      refine iff_of_false ?_ fun h => digits_ne_sign m rest h.symm
      rintro ⟨k, -, hk⟩
      split at hk
      · exact absurd hk (by simp)
      · have hneg := Option.some.inj hk
        rw [Int.ofNat_eq_natCast] at hneg
        omega
    | negSucc m =>
      rw [List.cons_inj_right, ← natural?_eq_some_iff]
      constructor
      · rintro ⟨k, hk, hneg⟩
        split at hneg
        · exact absurd hneg (by simp)
        · have hval := Option.some.inj hneg
          rw [hk, Option.some.injEq]
          omega
      · intro hread
        refine ⟨m + 1, hread, ?_⟩
        rw [if_neg (Nat.succ_ne_zero m)]
        rfl
  · next hsign =>
    cases n with
    | ofNat m =>
      simp only [Option.map_eq_some_iff, Int.ofNat_eq_natCast, Int.natCast_inj, exists_eq_right,
        natural?_eq_some_iff]
    | negSucc m =>
      refine iff_of_false ?_ fun h => hsign _ h
      simp

end Text

end EventTrace
