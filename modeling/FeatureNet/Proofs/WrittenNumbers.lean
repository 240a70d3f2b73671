import FeatureNet.Json.Number
import FeatureNet.Json.Reader
import FeatureNet.Json.Value
import FeatureNet.Proofs.NearestNumber
import Mathlib.Data.List.Basic
import Mathlib.Data.List.TakeWhile

namespace FeatureNet

namespace Decimal

variable {n : Nat} {c : Char}

theorem isDigit_of_mem_naturalText (member : c ∈ naturalText n) : c.isDigit = true :=
  Nat.isDigit_of_mem_toDigits (by decide) (by decide) member

theorem naturalText_ne_nil (n : Nat) : naturalText n ≠ [] := Nat.toDigits_ne_nil

/-- No number but zero begins with the digit zero. -/
theorem head_naturalText (positive : 0 < n) : (naturalText n).head? ≠ some '0' := by
  unfold naturalText
  induction n using Nat.strongRecOn with
  | ind n ih =>
    by_cases small : n < 10
    · rw [Nat.toDigits_of_lt_base small, List.head?_cons]
      simpa using Nat.pos_iff_ne_zero.mp positive
    · have large : 10 ≤ n := by omega
      have less : n / 10 < n := by omega
      rw [Nat.toDigits_of_base_le (by decide) large, List.head?_append_of_ne_nil _ Nat.toDigits_ne_nil]
      exact ih _ less (by omega)

end Decimal

namespace Json

open Decimal

variable {rest digits whole : List Char} {c : Char} {fraction : Option (List Char)}

/-- A text with which no number goes on. -/
def Ends (rest : List Char) : Prop :=
  ∀ c, rest.head? = some c → c.isDigit = false ∧ c ≠ '.' ∧ c ≠ 'e' ∧ c ≠ 'E'

theorem ends_nil : Ends [] := fun _ head => by cases head

theorem ends_cons (notDigit : c.isDigit = false) (other : c ≠ '.' ∧ c ≠ 'e' ∧ c ≠ 'E') :
    Ends (c :: rest) := fun _ head => Option.some.inj head ▸ ⟨notDigit, other⟩

theorem ends_comma (rest : List Char) : Ends (',' :: rest) := ends_cons (by decide) (by decide)

section Literals

/-- One digit or more. -/
def Digits (cs : List Char) : Prop := cs ≠ [] ∧ ∀ c ∈ cs, c.isDigit = true

/-- Digits as they stand before the point: a zero, or digits that do not begin with one. -/
def Leads (whole : List Char) : Prop := Digits whole ∧ (whole = ['0'] ∨ whole.head? ≠ some '0')

theorem digits_naturalText (n : Nat) : Digits (naturalText n) :=
  ⟨naturalText_ne_nil n, fun _ => isDigit_of_mem_naturalText⟩

theorem leads_naturalText (n : Nat) : Leads (naturalText n) := by
  refine ⟨digits_naturalText n, ?_⟩
  rcases n.eq_zero_or_pos with rfl | positive
  · exact .inl rfl
  · exact .inr (head_naturalText positive)

def fractionText : Option (List Char) → List Char
  | none => []
  | some digits => '.' :: digits

def powerText : Option (Bool × List Char) → List Char
  | none => []
  | some (negative, digits) => 'e' :: (if negative then '-' else '+') :: digits

/-- A literal with its parts put together. -/
def Literal.text (l : Literal) : List Char :=
  (if l.negative then ['-'] else []) ++ (l.whole ++ (fractionText l.fraction ++ powerText l.exponent))

/-- A literal of the grammar. -/
structure Literal.Proper (l : Literal) : Prop where
  whole : Leads l.whole
  fraction : ∀ digits ∈ l.fraction, Digits digits
  exponent : ∀ power ∈ l.exponent, Digits power.2

theorem readDigits_append (all : Digits digits) (stops : ∀ c, rest.head? = some c → c.isDigit = false) :
    readDigits (digits ++ rest) = some (digits, rest) := by
  have apart : rest.takeWhile Char.isDigit = [] ∧ rest.dropWhile Char.isDigit = rest := by
    cases rest with
    | nil => exact ⟨rfl, rfl⟩
    | cons c rest =>
      have notDigit := stops c rfl
      simp [notDigit]
  unfold readDigits
  rw [List.takeWhile_append_of_pos all.2, List.dropWhile_append_of_pos all.2, apart.1, apart.2]
  simpa using all.1

theorem readWhole_append (leads : Leads whole) (stops : ∀ c, rest.head? = some c → c.isDigit = false) :
    readWhole (whole ++ rest) = some (whole, rest) := by
  obtain ⟨all, rfl | first⟩ := leads
  · rfl
  · rw [← readDigits_append all stops]
    unfold readWhole
    split
    · next zero =>
      rw [← List.head?_append_of_ne_nil _ all.1, zero] at first
      exact absurd rfl first
    · rfl

theorem readFraction_append (all : ∀ digits ∈ fraction, Digits digits)
    (stops : ∀ c, rest.head? = some c → c.isDigit = false ∧ c ≠ '.') :
    readFraction (fractionText fraction ++ rest) = some (fraction, rest) := by
  cases fraction with
  | none =>
    rw [fractionText, List.nil_append]
    unfold readFraction
    split
    · next point => exact absurd rfl (stops '.' rfl).2
    · rfl
  | some digits =>
    have read := readDigits_append (all digits rfl) fun c first => (stops c first).1
    rw [fractionText, List.cons_append, readFraction, read, Option.map_some]

theorem readExponent_append {exponent : Option (Bool × List Char)} (all : ∀ power ∈ exponent, Digits power.2)
    (ends : Ends rest) :
    readExponent (powerText exponent ++ rest) = some (exponent, rest) := by
  rcases exponent with _ | ⟨negative, digits⟩
  · rw [powerText, List.nil_append]
    cases rest with
    | nil => rfl
    | cons c rest =>
      obtain ⟨_, _, small, capital⟩ := ends c rfl
      simp [readExponent, small, capital]
  · have read := readDigits_append (all (negative, digits) rfl) fun c first => (ends c first).1
    cases negative <;> simp [powerText, readExponent, readSign, read]

/-- After the digits of a fraction a number goes on with its exponent or ends. -/
theorem Ends.power (ends : Ends rest) (exponent : Option (Bool × List Char)) (c : Char)
    (first : (powerText exponent ++ rest).head? = some c) : c.isDigit = false ∧ c ≠ '.' := by
  cases exponent with
  | none => exact ⟨(ends c first).1, (ends c first).2.1⟩
  | some exponent =>
    obtain rfl := Option.some.inj first
    decide

variable {l : Literal}

theorem Literal.Proper.readUnsigned_text (proper : l.Proper) (ends : Ends rest) :
    readUnsigned l.negative (l.whole ++ (fractionText l.fraction ++ powerText l.exponent) ++ rest) =
      some (l, rest) := by
  have afterWhole (c : Char) (first : (fractionText l.fraction ++ (powerText l.exponent ++ rest)).head? = some c) :
      c.isDigit = false := by
    cases shape : l.fraction with
    | none =>
      rw [shape] at first
      exact (ends.power l.exponent c first).1
    | some digits =>
      rw [shape] at first
      obtain rfl := Option.some.inj first
      decide
  have whole := readWhole_append proper.whole afterWhole
  have fraction := readFraction_append proper.fraction (ends.power l.exponent)
  have exponent := readExponent_append proper.exponent ends
  unfold readUnsigned
  simp only [List.append_assoc, whole, fraction, exponent, Option.bind_eq_bind, Option.bind_some, Option.pure_def]

/-- Whether a character is the first one of a number. -/
def Begins (c : Char) : Prop := c = '-' ∨ c.isDigit = true

theorem Begins.ne {other : Char} (begins : Begins c) (notMinus : other ≠ '-')
    (notDigit : other.isDigit = false) : c ≠ other := by
  rintro rfl
  rcases begins with minus | digit
  · exact notMinus minus
  · rw [notDigit] at digit
    cases digit

theorem Literal.Proper.begins_text (proper : l.Proper) : ∃ c cs, l.text = c :: cs ∧ Begins c := by
  unfold Literal.text
  cases l.negative with
  | true => exact ⟨_, _, rfl, .inl rfl⟩
  | false =>
    obtain ⟨c, cs, shape⟩ := List.exists_cons_of_ne_nil proper.whole.1.1
    refine ⟨c, _, by rw [shape]; rfl, .inr (proper.whole.1.2 c ?_)⟩
    rw [shape]
    exact List.mem_cons_self ..

/-- A literal is read to its end, whatever follows that does not go on with a number. -/
theorem Literal.Proper.readLiteral_text (proper : l.Proper) (ends : Ends rest) :
    readLiteral (l.text ++ rest) = some (l, rest) := by
  have unsigned := proper.readUnsigned_text ends
  unfold Literal.text
  cases sign : l.negative with
  | true =>
    rw [sign] at unsigned
    exact unsigned
  | false =>
    rw [sign] at unsigned
    simp only [Bool.false_eq_true, if_false, List.nil_append]
    unfold readLiteral
    split
    · next minus =>
      obtain ⟨c, cs, shape⟩ := List.exists_cons_of_ne_nil proper.whole.1.1
      have digit := proper.whole.1.2 c (by rw [shape]; exact List.mem_cons_self ..)
      rw [shape] at minus
      obtain rfl := (List.cons.inj minus).1
      exact absurd digit (by decide)
    · exact unsigned

end Literals

section Integers

/-- The number literal that a whole number is written as. -/
def intLiteral (n : Int) : Literal where
  negative := n < 0
  whole := naturalText n.natAbs
  fraction := none
  exponent := none

theorem proper_intLiteral (n : Int) : (intLiteral n).Proper where
  whole := leads_naturalText _
  fraction := by simp [intLiteral]
  exponent := by simp [intLiteral]

theorem text_intLiteral (n : Int) : (intLiteral n).text = integerText n := by
  unfold integerText
  split
  · next negative => simp [Literal.text, intLiteral, fractionText, powerText, negative]
  · next positive => simp [Literal.text, intLiteral, fractionText, powerText, positive]

theorem readLiteral_integerText (n : Int) (ends : Ends rest) :
    readLiteral (integerText n ++ rest) = some (intLiteral n, rest) := by
  rw [← text_intLiteral]
  exact (proper_intLiteral n).readLiteral_text ends

/-- All digits are taken in, if the number stays within the limit. -/
theorem takeDigits_of_le {digits : List Char} {s : Nat}
    (within : Nat.ofDigitChars 10 digits s ≤ Number.significandLimit) :
    Number.takeDigits s digits = (Nat.ofDigitChars 10 digits s, []) := by
  induction digits generalizing s with
  | nil => simp [Number.takeDigits]
  | cons c rest ih =>
    rw [Nat.ofDigitChars_cons] at within ⊢
    have least (next : Nat) : next ≤ Nat.ofDigitChars 10 rest next := by
      rw [Nat.ofDigitChars_eq_ofDigitChars_zero]
      have := Nat.le_mul_of_pos_left next (Nat.pow_pos (n := rest.length) (show 0 < 10 by decide))
      omega
    unfold Number.takeDigits
    rw [if_pos ((least _).trans within), ih within]

theorem number?_intLiteral {n : Int} (least : -0x8000000000000000 ≤ n) (most : n ≤ 0xFFFFFFFFFFFFFFFF) :
    (intLiteral n).number? = some (.int n) := by
  have value : Nat.ofDigitChars 10 (naturalText n.natAbs) 0 = n.natAbs := Nat.ofDigitChars_ten_toDigits
  have taken : Number.takeDigits 0 (naturalText n.natAbs) = (n.natAbs, []) := by
    have within : Nat.ofDigitChars 10 (naturalText n.natAbs) 0 ≤ Number.significandLimit := by
      rw [value, Number.significandLimit]
      omega
    rw [takeDigits_of_le within, value]
  unfold Literal.number?
  rw [intLiteral, taken]
  by_cases negative : n < 0
  · have bounds : ¬(n.natAbs = 0 ∨ 0x8000000000000000 < n.natAbs) := by omega
    have value' : -(n.natAbs : Int) = n := by omega
    simp only [List.isEmpty_nil, if_true, decide_eq_true negative, if_neg bounds, value']
  · have value' : (n.natAbs : Int) = n := by omega
    simp only [List.isEmpty_nil, if_true, decide_eq_false negative, Bool.false_eq_true, if_false, value']

end Integers

end Json

namespace Decimal

open Binary64 Json

section Shortest

variable {m : Nat} {tie : Tie} {d : Decimal} {exponent : Int}

theorem gridStep_pos (exponent : Int) : 0 < (gridStep exponent).2 := by
  unfold gridStep
  split
  · exact Nat.one_pos
  · exact Nat.pow_pos (by decide)

/-- Zero rounds to no positive magnitude. -/
theorem roundsTo_zero (positive : 0 < m) {den : Nat} (den_pos : 0 < den) : roundsTo m 0 den = false := by
  have low : 0 < (unitsOf (m - 1) + unitsOf m) * den :=
    Nat.mul_pos (Nat.add_pos_right _ (unitsOf_pos positive)) den_pos
  have high : 0 < (unitsOf m + unitsOf (m + 1)) * den :=
    Nat.mul_pos (Nat.add_pos_left (unitsOf_pos positive) _) den_pos
  simp [roundsTo, low.ne, high.ne]

theorem onGrid_pos (positive : 0 < m) (found : onGrid tie m exponent = some d) : 0 < d.digits := by
  have nonzero : ∀ below, roundsTo m (below * (gridStep exponent).1) (gridStep exponent).2 = true → below ≠ 0 := by
    rintro _ rounds rfl
    rw [Nat.zero_mul, roundsTo_zero positive (gridStep_pos exponent)] at rounds
    cases rounds
  unfold onGrid at found
  dsimp only at found
  split at found
  · cases found
  · next below _ =>
    obtain rfl := Option.some.inj found
    exact Nat.pos_of_ne_zero (nonzero _ below)
  · obtain rfl := Option.some.inj found
    exact Nat.succ_pos _
  · next below _ =>
    obtain rfl := Option.some.inj found
    dsimp only
    split
    · exact Nat.succ_pos _
    · exact Nat.pos_of_ne_zero (nonzero _ below)

/-- A decimal that stands for zero is written as a single digit. -/
def Tidy (d : Decimal) : Prop := d.digits = 0 → d.exponent = 0

theorem tidy_shortest (tie : Tie) (m : Nat) : (shortest tie m).Tidy := by
  unfold shortest
  split
  · exact fun _ => rfl
  · next nonzero =>
    cases search : (List.range 20).findSome? fun (i : Nat) => onGrid tie m (topExponent m - i) with
    | none => exact fun _ => rfl
    | some d =>
      obtain ⟨_, _, found⟩ := List.exists_of_findSome?_eq_some search
      exact fun zero => absurd zero (onGrid_pos (Nat.pos_of_ne_zero nonzero) found).ne'

end Shortest

section Layouts

variable {d : Decimal} {whole digits : List Char}

theorem isDigit_of_mem_zeros {count : Nat} {c : Char} (member : c ∈ zeros count) : c.isDigit = true := by
  rw [List.eq_of_mem_replicate member]
  decide

theorem digits_zeros (count : Nat) (all : Digits digits) : Digits (zeros count ++ digits) :=
  ⟨by simp [all.1], fun c member => (List.mem_append.mp member).elim isDigit_of_mem_zeros (all.2 c)⟩

theorem digits_drop (all : Digits digits) {count : Nat} (less : count < digits.length) :
    Digits (digits.drop count) := by
  refine ⟨?_, fun c member => all.2 c (List.mem_of_mem_drop member)⟩
  rw [Ne, List.drop_eq_nil_iff]
  omega

theorem leads_whole (tidy : d.Tidy) : Leads (naturalText d.digits ++ zeros d.exponent.toNat) := by
  have all := digits_naturalText d.digits
  refine ⟨⟨by simp [all.1], fun c member => (List.mem_append.mp member).elim (all.2 c) isDigit_of_mem_zeros⟩, ?_⟩
  rcases d.digits.eq_zero_or_pos with zero | positive
  · rw [zero, tidy zero]
    exact .inl rfl
  · rw [List.head?_append_of_ne_nil _ all.1]
    exact .inr (head_naturalText positive)

/-- The digits before the point may be as many of the first ones as one likes. -/
theorem leads_take (leads : Leads digits) {count : Nat} (positive : 0 < count) : Leads (digits.take count) := by
  obtain ⟨count, rfl⟩ := Nat.exists_eq_succ_of_ne_zero positive.ne'
  obtain ⟨⟨nonempty, all⟩, first⟩ := leads
  obtain ⟨c, cs, rfl⟩ := List.exists_cons_of_ne_nil nonempty
  refine ⟨⟨by simp, fun c member => all c (List.mem_of_mem_take member)⟩, ?_⟩
  rcases first with zero | first
  · rw [zero]
    exact .inl (by simp)
  · exact .inr (by simpa using first)

/-- A text that is a literal without a sign. -/
def Unsigned (cs : List Char) : Prop := ∃ l : Literal, l.Proper ∧ l.negative = false ∧ l.text = cs

theorem unsigned_text (leads : Leads whole) {fraction : Option (List Char)} {exponent : Option (Bool × List Char)}
    (fractional : ∀ digits ∈ fraction, Digits digits) (exponential : ∀ power ∈ exponent, Digits power.2) :
    Unsigned (whole ++ (fractionText fraction ++ powerText exponent)) :=
  ⟨⟨false, whole, fraction, exponent⟩, ⟨leads, fractional, exponential⟩, rfl, rfl⟩

theorem unsigned_whole (leads : Leads whole) : Unsigned whole := by
  have unsigned : Unsigned (whole ++ (fractionText none ++ powerText none)) :=
    unsigned_text leads (by simp) (by simp)
  rwa [fractionText, powerText, List.append_nil, List.append_nil] at unsigned

theorem unsigned_point (leads : Leads whole) (all : Digits digits) : Unsigned (whole ++ '.' :: digits) := by
  have unsigned : Unsigned (whole ++ (fractionText (some digits) ++ powerText none)) :=
    unsigned_text leads (by simpa using all) (by simp)
  rwa [fractionText, powerText, List.append_nil] at unsigned

/-- A number with a fraction: its point stands among its digits, or zeros come between. -/
theorem unsigned_pointText (leads : Leads digits) {places : Nat} (positive : 0 < places) :
    Unsigned (pointText digits places) := by
  unfold pointText
  split
  · next within =>
    exact unsigned_point (leads_take leads (by omega)) (digits_drop leads.1 (by omega))
  · have zero : Leads ['0'] := leads_naturalText 0
    exact unsigned_point zero (digits_zeros _ leads.1)

theorem unsigned_exponentText (leads : Leads digits) (place : Int) : Unsigned (exponentText digits place) := by
  have first : Leads (digits.take 1) := leads_take leads Nat.one_pos
  have unsigned (fraction : Option (List Char)) (fractional : ∀ digits ∈ fraction, Digits digits) :
      Unsigned (digits.take 1 ++ (fractionText fraction ++
        'e' :: (if place < 0 then '-' else '+') :: naturalText place.natAbs)) := by
    have power : powerText (some (place < 0, naturalText place.natAbs)) =
        'e' :: (if place < 0 then '-' else '+') :: naturalText place.natAbs := by simp [powerText]
    rw [← power]
    exact unsigned_text first fractional (by simp [digits_naturalText])
  unfold exponentText
  dsimp only
  rw [List.append_assoc]
  split
  · exact unsigned none (by simp)
  · next others =>
    rw [List.isEmpty_iff, List.drop_eq_nil_iff] at others
    have tail : Digits (digits.drop 1) := digits_drop leads.1 (by omega)
    exact unsigned (some (digits.drop 1)) (by simpa using tail)

theorem unsigned_write (layout : Layout) (tidy : d.Tidy) : Unsigned (layout.write d) := by
  have leads := leads_naturalText d.digits
  unfold Layout.write
  dsimp only
  split
  · split
    · split
      · exact unsigned_point (leads_whole tidy) (digits_naturalText 0)
      · rw [List.append_nil]
        exact unsigned_whole (leads_whole tidy)
    · exact unsigned_pointText leads (by omega)
  · exact unsigned_exponentText leads _

end Layouts

/-- Every layout writes every finite number as a literal. -/
theorem exists_layout_text (layout : Layout) (x : Binary64) : ∃ l : Literal, l.Proper ∧ l.text = layout.text x := by
  obtain ⟨l, proper, unsigned, text⟩ := unsigned_write layout (tidy_shortest layout.tie x.magnitude)
  unfold Layout.text
  dsimp only
  rw [← text]
  split
  · refine ⟨{ l with negative := true }, ⟨proper.whole, proper.fraction, proper.exponent⟩, ?_⟩
    simp [Literal.text, unsigned]
  · exact ⟨l, proper, rfl⟩

end Decimal

namespace Json

theorem exists_floatText {x : Binary64} (finite : x.isFinite = true) :
    ∃ l : Literal, l.Proper ∧ l.text = floatText x := by
  rw [floatText, if_pos finite]
  exact Decimal.exists_layout_text numberLayout x

end Json

end FeatureNet
