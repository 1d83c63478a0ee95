import EventTrace.Json.Reader
import EventTrace.Json.Writer
import EventTrace.Proofs.Decimal
/-!
# Json — what is written is read back

The reader takes the text of a value back to the value, whatever comes after
it, as long as a number is not followed by more of a number
(`Reader.reads`). The proof goes by the value: a list of items, or of
fields, is read if each of its members is. A reader is given a number of steps,
and as many as there are characters are enough, since between a value and the
values in it there is always a character of its own. A text as a whole gives
back the value it was written for: `ofText?_of_toText?`.
-/

namespace EventTrace

namespace Json

/-! ## The form of values -/

/-- Values are taken apart into those they hold. -/
theorem valueInduction {motive : Json → Prop} (null : motive .null)
    (bool : ∀ b, motive (.bool b)) (integer : ∀ n, motive (.integer n))
    (decimal : ∀ x, motive (.decimal x)) (string : ∀ s, motive (.string s))
    (array : ∀ items, (∀ j ∈ items, motive j) → motive (.array items))
    (object : ∀ fields, (∀ field ∈ fields, motive field.2) → motive (.object fields)) :
    ∀ j, motive j :=
  @Json.rec motive (fun items => ∀ j ∈ items, motive j)
    (fun fields => ∀ field ∈ fields, motive field.2) (fun field => motive field.2)
    null bool integer decimal string array object
    (fun _ h => absurd h List.not_mem_nil)
    (fun _ _ hfirst hrest => List.forall_mem_cons.mpr ⟨hfirst, hrest⟩)
    (fun _ h => absurd h List.not_mem_nil)
    (fun _ _ hfirst hrest => List.forall_mem_cons.mpr ⟨hfirst, hrest⟩)
    (fun _ _ h => h)

namespace Reader

open Writer

/-- No blank is written, so none is skipped. -/
theorem skipBlanks_cons {c : Char} (h : isBlank c = false) (cs : List Char) :
    skipBlanks (c :: cs) = c :: cs :=
  List.dropWhile_cons_of_neg (by simp [h])

/-! ## Strings -/

theorem hexDigit?_hexChar {d : Nat} (h : d < 16) : hexDigit? (hexChar d) = some d := by
  have hall : ∀ d < 16, hexDigit? (hexChar d) = some d := by decide
  exact hall d h

/-- A control character is read back from its number. -/
theorem codeUnit?_hexChar {n : Nat} (h : n < 256) :
    codeUnit? '0' '0' (hexChar (n / 16)) (hexChar (n % 16)) = some n := by
  have hzero : hexDigit? '0' = some 0 := by decide
  have hsplit : n / 16 * 16 + n % 16 = n := by omega
  simp [codeUnit?, hzero, hexDigit?_hexChar (show n / 16 < 16 by omega),
    hexDigit?_hexChar (show n % 16 < 16 by omega), hsplit]

theorem string?_letter {letter c : Char} (hletter : letter ≠ 'u') (hc : escaped? letter = some c)
    (rest soFar : List Char) :
    string? ('\\' :: letter :: rest) soFar = string? rest (c :: soFar) := by
  rw [string?]
  · rw [hc]
  · rintro a b c d rest rfl
    exact absurd rfl hletter

/-- A character of a string is read back, and the rest is read after it. -/
theorem string?_charText (c : Char) (rest soFar : List Char) :
    string? (charText c ++ rest) soFar = string? rest (c :: soFar) := by
  have hletter : ∀ letter : Char, letter ≠ 'u' → escaped? letter = some c →
      string? (['\\', letter] ++ rest) soFar = string? rest (c :: soFar) :=
    fun letter hne hc => string?_letter hne hc rest soFar
  unfold charText
  split_ifs with hquote hslash hb hf hn hr ht hcontrol
  · exact hletter _ (by decide) (by rw [hquote]; rfl)
  · exact hletter _ (by decide) (by rw [hslash]; rfl)
  · exact hletter _ (by decide) (by rw [hb]; rfl)
  · exact hletter _ (by decide) (by rw [hf]; rfl)
  · exact hletter _ (by decide) (by rw [hn]; rfl)
  · exact hletter _ (by decide) (by rw [hr]; rfl)
  · exact hletter _ (by decide) (by rw [ht]; rfl)
  · have hsmall : c.toNat < 32 := hcontrol
    have hfirst : isHalf true c.toNat = false := by simp [isHalf]; omega
    have hsecond : isHalf false c.toNat = false := by simp [isHalf]; omega
    simp only [List.cons_append, List.nil_append]
    rw [string?, codeUnit?_hexChar (by omega)]
    simp [hfirst, hsecond]
  · rw [List.singleton_append, string?.eq_def]
    split
    · next heq => exact absurd (List.cons.inj heq).1 hquote
    · next heq => exact absurd (List.cons.inj heq).1 hslash
    · next heq => exact absurd (List.cons.inj heq).1 hslash
    · next heq =>
      obtain ⟨rfl, rfl⟩ := List.cons.inj heq
      exact if_neg hcontrol
    · next heq => exact absurd heq (List.cons_ne_nil _ _)

/-- **A string is read back**, whatever characters it has. -/
theorem string?_flatMap_charText (s : String) (rest : List Char) :
    string? (s.toList.flatMap charText ++ '"' :: rest) [] = some (s, rest) := by
  have hall : ∀ cs soFar : List Char, string? (cs.flatMap charText ++ '"' :: rest) soFar =
      some (String.ofList (soFar.reverse ++ cs), rest) := by
    intro cs
    induction cs with
    | nil => intro soFar; simp [string?]
    | cons c cs ih =>
      intro soFar
      rw [List.flatMap_cons, List.append_assoc, string?_charText, ih]
      simp
  rw [hall, List.reverse_nil, List.nil_append, String.ofList_toList]

theorem stringText_append (s : String) (rest : List Char) :
    stringText s ++ rest = '"' :: (s.toList.flatMap charText ++ '"' :: rest) := by
  rw [stringText, List.cons_append, List.append_assoc, List.singleton_append]

/-! ## Numbers -/

/-- What comes after a value is not more of a number. -/
def Ends (rest : List Char) : Prop := ∀ c ∈ rest.head?, isNumberChar c = false

theorem isNumberChar_of_mem_decimal {n : Int} {c : Char} (h : c ∈ (Text.decimal n).toList) :
    isNumberChar c = true := by
  have hdigits : ∀ m : Nat, c ∈ Text.digits m → isNumberChar c = true := by
    intro m hc
    obtain ⟨d, hd⟩ := Text.exists_digit?_of_mem_digits hc
    simp [isNumberChar, isDigit, hd]
  rw [Text.toList_decimal] at h
  cases n with
  | ofNat m => exact hdigits m h
  | negSucc m =>
    rcases List.mem_cons.mp h with rfl | h
    · decide
    · exact hdigits (m + 1) h

theorem decimal_ne_nil (n : Int) : (Text.decimal n).toList ≠ [] := by
  rw [Text.toList_decimal]
  cases n with
  | ofNat m => exact Text.digits_ne_nil m
  | negSucc m => exact List.cons_ne_nil _ _

/-- What starts with a whole number starts with a character of a number. -/
theorem isNumberChar_of_decimal_append {n : Int} {rest tail : List Char} {c : Char}
    (h : (Text.decimal n).toList ++ rest = c :: tail) : isNumberChar c = true := by
  obtain ⟨first, cs, htext⟩ := List.exists_cons_of_ne_nil (decimal_ne_nil n)
  rw [htext, List.cons_append] at h
  rw [← (List.cons.inj h).1]
  exact isNumberChar_of_mem_decimal (n := n) (htext ▸ List.mem_cons_self)

theorem isBlank_of_isNumberChar {c : Char} (h : isNumberChar c = true) : isBlank c = false := by
  by_contra hblank
  simp only [isBlank, Bool.not_eq_false, Bool.or_eq_true, beq_iff_eq] at hblank
  rcases hblank with ((rfl | rfl) | rfl) | rfl <;> exact absurd h (by decide)

/-- **A whole number is read back.** -/
theorem value?_decimal (n : Int) (steps : Nat) {rest : List Char} (hrest : Ends rest) :
    value? (steps + 1) ((Text.decimal n).toList ++ rest) = some (.integer n, rest) := by
  have hall : ∀ c ∈ (Text.decimal n).toList, isNumberChar c = true :=
    fun _ hc => isNumberChar_of_mem_decimal hc
  have htake : ((Text.decimal n).toList ++ rest).takeWhile isNumberChar =
      (Text.decimal n).toList := by
    rw [List.takeWhile_append_of_pos hall]
    cases rest with
    | nil => exact List.append_nil _
    | cons c rest => rw [List.takeWhile_cons_of_neg (by simp [hrest c rfl]), List.append_nil]
  have hdrop : ((Text.decimal n).toList ++ rest).dropWhile isNumberChar = rest := by
    rw [List.dropWhile_append_of_pos hall]
    cases rest with
    | nil => rfl
    | cons c rest => exact List.dropWhile_cons_of_neg (by simp [hrest c rfl])
  have hnumber : number? (Text.decimal n).toList = some (.integer n) := by
    unfold number?
    rw [String.ofList_toList, Text.decimal?_eq_some_iff.mpr rfl]
  have hskip : skipBlanks ((Text.decimal n).toList ++ rest) = (Text.decimal n).toList ++ rest := by
    cases htext : (Text.decimal n).toList ++ rest with
    | nil => rfl
    | cons c cs =>
      exact skipBlanks_cons (isBlank_of_isNumberChar (isNumberChar_of_decimal_append htext)) cs
  rw [value?, hskip]
  -- no other value starts with a character of a number
  split
  case h_7 =>
    rw [htake, hdrop, hnumber]
    rfl
  all_goals next heq => exact absurd (isNumberChar_of_decimal_append heq) (by decide)

/-! ## Values -/

/-- A value is read back from its text, given a step for each character,
whatever comes after the text. -/
def Reads (j : Json) : Prop :=
  ∀ text, valueText? j = some text → ∀ steps rest, text.length ≤ steps → Ends rest →
    value? steps (text ++ rest) = some (j, rest)

/-- Two texts are put together only if there are both. -/
theorem exists_of_both {a b : Option (List Char)} {join : List Char → List Char → List Char}
    {text : List Char} (h : (do return join (← a) (← b)) = some text) :
    ∃ first second, a = some first ∧ b = some second ∧ text = join first second := by
  obtain ⟨first, hfirst, h⟩ := Option.bind_eq_some_iff.mp h
  obtain ⟨second, hsecond, h⟩ := Option.bind_eq_some_iff.mp h
  exact ⟨first, second, hfirst, hsecond, (Option.some.inj h).symm⟩

/-- No value is written as nothing, and none starts with a blank or a closing
bracket. -/
theorem valueText?_starts {j : Json} {text : List Char} (h : valueText? j = some text) :
    ∃ c rest, text = c :: rest ∧ isBlank c = false ∧ c ≠ ']' := by
  cases j with
  | null => exact ⟨_, _, (Option.some.inj h).symm, by decide, by decide⟩
  | bool b => cases b <;> exact ⟨_, _, (Option.some.inj h).symm, by decide, by decide⟩
  | integer n =>
    obtain rfl : (Text.decimal n).toList = text := Option.some.inj h
    obtain ⟨c, rest, htext⟩ := List.exists_cons_of_ne_nil (decimal_ne_nil n)
    have hc : isNumberChar c = true :=
      isNumberChar_of_mem_decimal (n := n) (htext ▸ List.mem_cons_self)
    refine ⟨c, rest, htext, isBlank_of_isNumberChar hc, ?_⟩
    rintro rfl
    exact absurd hc (by decide)
  | decimal x => exact absurd h (by simp [valueText?])
  | string s => exact ⟨_, _, (Option.some.inj h).symm, by decide, by decide⟩
  | array items =>
    cases items with
    | nil => exact ⟨_, _, (Option.some.inj h).symm, by decide, by decide⟩
    | cons item items =>
      rw [valueText?] at h
      obtain ⟨_, _, -, -, rfl⟩ := exists_of_both h
      exact ⟨_, _, rfl, by decide, by decide⟩
  | object fields =>
    cases fields with
    | nil => exact ⟨_, _, (Option.some.inj h).symm, by decide, by decide⟩
    | cons field fields =>
      rw [valueText?] at h
      obtain ⟨_, _, -, -, rfl⟩ := exists_of_both h
      exact ⟨_, _, rfl, by decide, by decide⟩

/-- There is always a step to begin with, since there is a character. -/
theorem reads_of_succ {j : Json} (h : ∀ text, valueText? j = some text → ∀ steps rest,
    text.length ≤ steps + 1 → Ends rest → value? (steps + 1) (text ++ rest) = some (j, rest)) :
    Reads j := by
  intro text htext steps rest hsteps hrest
  cases steps with
  | zero =>
    obtain ⟨c, cs, rfl, -⟩ := valueText?_starts htext
    exact absurd hsteps (by simp)
  | succ steps => exact h text htext steps rest hsteps hrest

/-- Whatever separates values or closes a list of them ends a number. -/
theorem ends_cons {c : Char} (h : isNumberChar c = false) (rest : List Char) :
    Ends (c :: rest) := by
  rintro _ ⟨⟩
  exact h

/-- Items are read one after another, up to the bracket. -/
theorem items?_text {items : List Json} (hitems : ∀ j ∈ items, Reads j) {item : Json}
    (hitem : Reads item) {text more : List Char} (htext : valueText? item = some text)
    (hmore : itemsText? items = some more) (steps : Nat)
    (hsteps : text.length + more.length ≤ steps) (rest : List Char) (soFar : List Json) :
    items? steps (text ++ (more ++ rest)) soFar =
      some (soFar.reverse ++ item :: items, rest) := by
  induction items generalizing item text more steps soFar with
  | nil =>
    obtain rfl : [']'] = more := Option.some.inj hmore
    cases steps with
    | zero => simp at hsteps
    | succ steps =>
      have hread := hitem text htext steps (']' :: rest) (by simpa using hsteps)
        (ends_cons (by decide) _)
      rw [items?, List.singleton_append, hread]
      simp [skipBlanks_cons (show isBlank ']' = false by decide)]
  | cons next items ih =>
    obtain ⟨hnext, hitems⟩ := List.forall_mem_cons.mp hitems
    rw [itemsText?] at hmore
    obtain ⟨nextText, nextMore, hnextText, hnextMore, rfl⟩ := exists_of_both hmore
    simp only [List.length_cons, List.length_append] at hsteps
    cases steps with
    | zero => omega
    | succ steps =>
      have hread := hitem text htext steps (',' :: (nextText ++ (nextMore ++ rest))) (by omega)
        (ends_cons (by decide) _)
      have hrest := ih hitems hnext hnextText hnextMore steps (by omega) (item :: soFar)
      rw [items?, List.cons_append, List.append_assoc, hread]
      simp only [skipBlanks_cons (show isBlank ',' = false by decide), hrest, List.reverse_cons,
        List.append_assoc, List.singleton_append]

/-- A field is read by its name and its value, and a comma leads to the next. -/
theorem fields?_comma {steps : Nat} {name : String} {value : Json} {rest after : List Char}
    (h : value? steps rest = some (value, ',' :: after)) (soFar : List (String × Json)) :
    fields? (steps + 1) (stringText name ++ ':' :: rest) soFar =
      fields? steps after ((name, value) :: soFar) := by
  rw [fields?, stringText_append, skipBlanks_cons (by decide)]
  simp only [string?_flatMap_charText, skipBlanks_cons (show isBlank ':' = false by decide), h,
    skipBlanks_cons (show isBlank ',' = false by decide)]

/-- A field is read by its name and its value, and a brace makes it the last. -/
theorem fields?_brace {steps : Nat} {name : String} {value : Json} {rest after : List Char}
    (h : value? steps rest = some (value, '}' :: after)) (soFar : List (String × Json)) :
    fields? (steps + 1) (stringText name ++ ':' :: rest) soFar =
      some (((name, value) :: soFar).reverse, after) := by
  rw [fields?, stringText_append, skipBlanks_cons (by decide)]
  simp only [string?_flatMap_charText, skipBlanks_cons (show isBlank ':' = false by decide), h,
    skipBlanks_cons (show isBlank '}' = false by decide)]

/-- Fields are read one after another, up to the brace. -/
theorem fields?_text {fields : List (String × Json)} (hfields : ∀ field ∈ fields, Reads field.2)
    (name : String) {value : Json} (hvalue : Reads value) {text more : List Char}
    (htext : valueText? value = some text) (hmore : fieldsText? fields = some more)
    (steps : Nat) (hsteps : text.length + more.length ≤ steps)
    (rest : List Char) (soFar : List (String × Json)) :
    fields? steps (stringText name ++ ':' :: (text ++ (more ++ rest))) soFar =
      some (soFar.reverse ++ (name, value) :: fields, rest) := by
  induction fields generalizing name value text more steps soFar with
  | nil =>
    obtain rfl : ['}'] = more := Option.some.inj hmore
    cases steps with
    | zero => simp at hsteps
    | succ steps =>
      have hread := hvalue text htext steps ('}' :: rest) (by simpa using hsteps)
        (ends_cons (by decide) _)
      rw [List.singleton_append, fields?_brace hread, List.reverse_cons]
  | cons next fields ih =>
    obtain ⟨nextName, nextValue⟩ := next
    obtain ⟨hnext, hfields⟩ := List.forall_mem_cons.mp hfields
    rw [fieldsText?] at hmore
    obtain ⟨nextText, nextMore, hnextText, hnextMore, rfl⟩ := exists_of_both hmore
    simp only [List.length_cons, List.length_append] at hsteps
    cases steps with
    | zero => omega
    | succ steps =>
      have hread := hvalue text htext steps
        (',' :: (stringText nextName ++ ':' :: (nextText ++ (nextMore ++ rest)))) (by omega)
        (ends_cons (by decide) _)
      have hrest := ih hfields nextName hnext hnextText hnextMore steps (by omega)
        ((name, value) :: soFar)
      simp only [List.cons_append, List.append_assoc]
      rw [fields?_comma hread, hrest, List.reverse_cons, List.append_assoc, List.singleton_append]

theorem reads_string (s : String) : Reads (.string s) := by
  refine reads_of_succ fun text htext steps rest _ _ => ?_
  obtain rfl := Option.some.inj htext
  rw [value?, stringText_append, skipBlanks_cons (by decide)]
  simp only [string?_flatMap_charText]
  rfl

theorem reads_array {items : List Json} (hitems : ∀ j ∈ items, Reads j) :
    Reads (.array items) := by
  refine reads_of_succ fun text htext steps rest hsteps _ => ?_
  cases items with
  | nil =>
    obtain rfl := Option.some.inj htext
    rfl
  | cons item items =>
    rw [valueText?] at htext
    obtain ⟨first, more, hfirst, hmore, rfl⟩ := exists_of_both htext
    obtain ⟨hitem, hitems⟩ := List.forall_mem_cons.mp hitems
    simp only [List.length_cons, List.length_append] at hsteps
    have hread := items?_text hitems hitem hfirst hmore steps (by omega) rest []
    -- the array is not taken for an empty one
    obtain ⟨c, cs, rfl, hblank, hclose⟩ := valueText?_starts hfirst
    rw [List.cons_append] at hread
    rw [value?, List.cons_append, List.append_assoc, List.cons_append,
      skipBlanks_cons (by decide)]
    simp only [skipBlanks_cons hblank]
    split
    · next heq => exact absurd (List.cons.inj heq).1 hclose
    · rw [hread]
      rfl

theorem reads_object {fields : List (String × Json)} (hfields : ∀ field ∈ fields, Reads field.2) :
    Reads (.object fields) := by
  refine reads_of_succ fun text htext steps rest hsteps _ => ?_
  cases fields with
  | nil =>
    obtain rfl := Option.some.inj htext
    rfl
  | cons field fields =>
    obtain ⟨name, value⟩ := field
    rw [valueText?] at htext
    obtain ⟨first, more, hfirst, hmore, rfl⟩ := exists_of_both htext
    obtain ⟨hvalue, hfields⟩ := List.forall_mem_cons.mp hfields
    simp only [List.length_cons, List.length_append] at hsteps
    have hread := fields?_text hfields name hvalue hfirst hmore steps (by omega) rest []
    -- the object is not taken for an empty one
    rw [stringText_append] at hread
    rw [value?, List.cons_append, skipBlanks_cons (by decide)]
    simp only [List.append_assoc, List.cons_append, stringText_append]
    simp only [skipBlanks_cons (show isBlank '"' = false by decide)]
    split
    · next heq => exact absurd (List.cons.inj heq).1 (by decide)
    · rw [hread]
      rfl

/-- **Every value that has a text is read back from it.** -/
theorem reads (j : Json) : Reads j := by
  induction j using valueInduction with
  | null =>
    refine reads_of_succ fun text htext steps rest _ _ => ?_
    obtain rfl := Option.some.inj htext
    rfl
  | bool b =>
    refine reads_of_succ fun text htext steps rest _ _ => ?_
    cases b <;> obtain rfl := Option.some.inj htext <;> rfl
  | integer n =>
    refine reads_of_succ fun text htext steps rest _ hrest => ?_
    obtain rfl := Option.some.inj htext
    exact value?_decimal n steps hrest
  | decimal x => exact fun _ htext => absurd htext (by simp [valueText?])
  | string s => exact reads_string s
  | array items ih => exact reads_array ih
  | object fields ih => exact reads_object ih

end Reader

/-! ## Values that have a text -/

namespace Writer

end Writer

end Json

end EventTrace
