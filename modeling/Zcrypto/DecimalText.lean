import Mathlib.Algebra.Order.Ring.Unbundled.Rat
import Mathlib.Data.List.Basic

/- Decimal numbers, each a coefficient under a power of ten, and their text. A number keeps the zeros it
   was written with, so equal values may have different texts. The decimal digits of other scripts and the
   bounds on an exponent are left out. -/
namespace DecimalText

inductive Decimal where
  | finite (negative : Bool) (coefficient : Nat) (exponent : Int)
  | infinity (negative : Bool)
  | nan (negative signaling : Bool) (payload : Nat)
  deriving DecidableEq, Repr

def tenTo : Int → ℚ
  | .ofNat n => 10 ^ n
  | .negSucc n => 1 / 10 ^ (n + 1)

def signed (negative : Bool) (magnitude : ℚ) : ℚ := if negative then -magnitude else magnitude

def Decimal.value : Decimal → Option ℚ
  | .finite negative coefficient exponent => some (signed negative (coefficient * tenTo exponent))
  | _ => none

/- Writing. -/

def digits (n : Nat) : List Char := Nat.toDigits 10 n

def signText (negative : Bool) : List Char := if negative then ['-'] else []

def exponentText (e : Int) : List Char :=
  if e = 0 then [] else 'E' :: (if e < 0 then '-' else '+') :: digits e.natAbs

def pointText (frac : List Char) : List Char := if frac = [] then [] else '.' :: frac

/-- How many digits stand before the point: all that do, where the number needs no exponent, and
    else one. -/
def dotplace (left exponent : Int) : Int := if exponent ≤ 0 ∧ -6 < left then left else 1

/-- The digits before the point and those behind it. -/
def parts (ds : List Char) (point : Int) : List Char × List Char :=
  if point ≤ 0 then (['0'], List.replicate point.natAbs '0' ++ ds)
  else (ds.take point.toNat ++ List.replicate (point.toNat - ds.length) '0', ds.drop point.toNat)

def finiteText (coefficient : Nat) (exponent : Int) : List Char :=
  let ds := digits coefficient
  let left := exponent + ds.length
  let point := dotplace left exponent
  (parts ds point).1 ++ pointText (parts ds point).2 ++ exponentText (left - point)

def payloadText (payload : Nat) : List Char := if payload = 0 then [] else digits payload

def Decimal.chars : Decimal → List Char
  | .finite negative coefficient exponent => signText negative ++ finiteText coefficient exponent
  | .infinity negative => signText negative ++ ['I', 'n', 'f', 'i', 'n', 'i', 't', 'y']
  | .nan negative false payload => signText negative ++ 'N' :: 'a' :: 'N' :: payloadText payload
  | .nan negative true payload => signText negative ++ 's' :: 'N' :: 'a' :: 'N' :: payloadText payload

def Decimal.text (d : Decimal) : String := String.ofList d.chars

/- Reading. -/

def isSpace (c : Char) : Bool :=
  let n := c.toNat
  (9 ≤ n && n ≤ 13) || (28 ≤ n && n ≤ 32) || (8192 ≤ n && n ≤ 8202) ||
    [133, 160, 5760, 8232, 8233, 8239, 8287, 12288].contains n

def strip (text : List Char) : List Char :=
  ((text.dropWhile isSpace).reverse.dropWhile isSpace).reverse

def signOf : List Char → Bool × List Char
  | '-' :: rest => (true, rest)
  | '+' :: rest => (false, rest)
  | text => (false, text)

def number (ds : List Char) : Nat := Nat.ofDigitChars 10 ds 0

def digitsOf (text : List Char) : List Char × List Char :=
  (text.takeWhile Char.isDigit, text.dropWhile Char.isDigit)

def fractionOf : List Char → List Char × List Char
  | '.' :: rest => digitsOf rest
  | rest => ([], rest)

def exponentOf : List Char → Option Int
  | [] => some 0
  | mark :: rest =>
    if mark.toLower = 'e' ∧ (signOf rest).2 ≠ [] ∧ (signOf rest).2.all Char.isDigit then
      some (if (signOf rest).1 then -(number (signOf rest).2) else number (signOf rest).2)
    else none

def finiteOf (negative : Bool) (text : List Char) : Option Decimal :=
  let int := digitsOf text
  let frac := fractionOf int.2
  if int.1 = [] ∧ frac.1 = [] then none
  else (exponentOf frac.2).map fun e => .finite negative (number (int.1 ++ frac.1)) (e - frac.1.length)

def nanOf (negative signaling : Bool) (payload : List Char) : Option Decimal :=
  if payload.all Char.isDigit then some (.nan negative signaling (number payload)) else none

/-- The letters are in lower case. -/
def specialOf (negative : Bool) : List Char → Option Decimal
  | ['i', 'n', 'f'] => some (.infinity negative)
  | ['i', 'n', 'f', 'i', 'n', 'i', 't', 'y'] => some (.infinity negative)
  | 'n' :: 'a' :: 'n' :: payload => nanOf negative false payload
  | 's' :: 'n' :: 'a' :: 'n' :: payload => nanOf negative true payload
  | _ => none

def ofChars (text : List Char) : Option Decimal :=
  let (negative, rest) := signOf text
  (finiteOf negative rest).or (specialOf negative (rest.map Char.toLower))

def ofText (text : String) : Option Decimal :=
  ofChars ((strip text.toList).filter fun c => c ≠ '_')

section
variable {c : Char} {ds rest int frac : List Char} {e : Int}

/- Digits. -/

theorem digits_isDigit (n : Nat) : ∀ c ∈ digits n, c.isDigit = true :=
  fun _ => Nat.isDigit_of_mem_toDigits (by decide) (by decide)

@[simp] theorem number_digits (n : Nat) : number (digits n) = n := Nat.ofDigitChars_ten_toDigits

theorem digits_ne_nil (n : Nat) : digits n ≠ [] := Nat.toDigits_ne_nil

theorem isDigit_bounds (digit : c.isDigit = true) : 48 ≤ c.toNat ∧ c.toNat ≤ 57 := by
  simpa [Char.isDigit, UInt32.le_iff_toNat_le] using digit

theorem isDigit_ne (digit : c.isDigit = true) {other : Char} (differs : other.isDigit = false) :
    c ≠ other := by
  intro same
  rw [same, differs] at digit
  cases digit

theorem isDigit_lower (digit : c.isDigit = true) : c.toLower = c := by
  have bounds := isDigit_bounds digit
  have small : ¬ (c.val ≥ 'A'.val ∧ c.val ≤ 'Z'.val) := by
    intro upper
    have above : 65 ≤ c.toNat := by simpa [UInt32.le_iff_toNat_le] using upper.1
    omega
  unfold Char.toLower
  rw [dif_neg small]

theorem number_zeros (n : Nat) (ds : List Char) : number (List.replicate n '0' ++ ds) = number ds := by
  induction n with
  | zero => rfl
  | succ n ih =>
    rw [List.replicate_succ, List.cons_append]
    exact ih

/-- What stands behind the digits does not begin with one. -/
theorem digitsOf_append (all : ∀ c ∈ ds, c.isDigit = true) (stop : ∀ c ∈ rest.head?, c.isDigit = false) :
    digitsOf (ds ++ rest) = (ds, rest) := by
  have none : rest.takeWhile Char.isDigit = [] ∧ rest.dropWhile Char.isDigit = rest := by
    cases rest with
    | nil => exact ⟨rfl, rfl⟩
    | cons c rest =>
      have differs : c.isDigit = false := stop c rfl
      simp [differs]
  unfold digitsOf
  rw [List.takeWhile_append_of_pos all, List.dropWhile_append_of_pos all, none.1, none.2,
    List.append_nil]

theorem signOf_digit (digit : c.isDigit = true) : signOf (c :: rest) = (false, c :: rest) := by
  unfold signOf
  split
  · rename_i same
    injection same with same
    rw [same] at digit
    cases digit
  · rename_i same
    injection same with same
    rw [same] at digit
    cases digit
  · rfl

/- A number read back. -/

theorem exponentOf_text (e : Int) : exponentOf (exponentText e) = some e := by
  unfold exponentText
  split
  · rename_i zero
    rw [zero]
    rfl
  · have all : (digits e.natAbs).all Char.isDigit = true := List.all_eq_true.mpr (digits_isDigit _)
    have some_ := digits_ne_nil e.natAbs
    by_cases negative : e < 0
    · rw [if_pos negative, exponentOf]
      simp only [signOf, all, some_, number_digits, ne_eq, not_false_eq_true, and_self, if_true]
      rw [if_pos (by decide)]
      congr 1
      omega
    · rw [if_neg negative, exponentOf]
      simp only [signOf, all, some_, number_digits, ne_eq, not_false_eq_true, and_self]
      rw [if_pos (by decide), if_neg (by decide)]
      congr 1
      omega

theorem exponentText_head : ∀ c ∈ (exponentText e).head?, c = 'E' := by
  intro c mem
  unfold exponentText at mem
  split at mem
  · cases mem
  · exact (Option.some.inj mem).symm

theorem fractionOf_text (all : ∀ c ∈ frac, c.isDigit = true) :
    fractionOf (pointText frac ++ exponentText e) = (frac, exponentText e) := by
  have stop : ∀ c ∈ (exponentText e).head?, c.isDigit = false := by
    intro c mem
    rw [exponentText_head c mem]
    rfl
  unfold pointText
  split
  · rename_i empty
    rw [empty, List.nil_append]
    unfold exponentText
    split
    · rfl
    · rfl
  · exact digitsOf_append all stop

theorem finiteOf_text (negative : Bool) (some_ : int ≠ []) (whole : ∀ c ∈ int, c.isDigit = true)
    (behind : ∀ c ∈ frac, c.isDigit = true) (e : Int) :
    finiteOf negative (int ++ pointText frac ++ exponentText e) =
      some (.finite negative (number (int ++ frac)) (e - frac.length)) := by
  have stop : ∀ c ∈ (pointText frac ++ exponentText e).head?, c.isDigit = false := by
    intro c mem
    unfold pointText at mem
    split at mem
    · rw [exponentText_head c mem]
      rfl
    · rw [← Option.some.inj mem]
      rfl
  unfold finiteOf
  rw [List.append_assoc, digitsOf_append whole stop]
  simp only [fractionOf_text behind, exponentOf_text, some_, false_and, if_false, Option.map_some]

/-- The digits on both sides of the point are the number's own, with zeros before them at most. -/
theorem parts_spec (all : ∀ c ∈ ds, c.isDigit = true) (some_ : ds ≠ []) (exponent : Int) :
    let left := exponent + ds.length
    let point := dotplace left exponent
    (parts ds point).1 ≠ [] ∧ (∀ c ∈ (parts ds point).1, c.isDigit = true) ∧
      (∀ c ∈ (parts ds point).2, c.isDigit = true) ∧
      number ((parts ds point).1 ++ (parts ds point).2) = number ds ∧
      left - point - (parts ds point).2.length = exponent := by
  intro left point
  have length : 0 < ds.length := List.length_pos_iff.mpr some_
  have either : (point = left ∧ exponent ≤ 0) ∨ point = 1 := by
    simp only [point, dotplace]
    split
    · rename_i plain
      exact .inl ⟨rfl, plain.1⟩
    · exact .inr rfl
  unfold parts
  by_cases before : point ≤ 0
  · have here : point = left := by omega
    rw [if_pos before]
    refine ⟨by simp, ?_, ?_, ?_, ?_⟩
    · intro c mem
      rw [List.mem_singleton.mp mem]
      rfl
    · intro c mem
      rcases List.mem_append.mp mem with zero | own
      · rw [List.eq_of_mem_replicate zero]
        rfl
      · exact all c own
    · exact number_zeros (point.natAbs + 1) ds
    · simp only [List.length_append, List.length_replicate]
      omega
  · have within : point ≤ ds.length := by omega
    have unpadded : point.toNat - ds.length = 0 := by omega
    rw [if_neg before, unpadded, List.replicate_zero, List.append_nil]
    refine ⟨?_, fun c mem => all c (List.mem_of_mem_take mem), fun c mem => all c (List.mem_of_mem_drop mem),
      ?_, ?_⟩
    · rw [← List.length_pos_iff, List.length_take]
      omega
    · rw [List.take_append_drop]
    · rw [List.length_drop]
      omega

theorem finiteOf_finiteText (negative : Bool) (coefficient : Nat) (exponent : Int) :
    finiteOf negative (finiteText coefficient exponent) = some (.finite negative coefficient exponent) := by
  obtain ⟨some_, whole, behind, same, place⟩ :=
    parts_spec (digits_isDigit coefficient) (digits_ne_nil coefficient) exponent
  unfold finiteText
  rw [finiteOf_text negative some_ whole behind, same, number_digits, place]

theorem finiteText_head (coefficient : Nat) (exponent : Int) :
    ∃ c rest, finiteText coefficient exponent = c :: rest ∧ c.isDigit = true := by
  obtain ⟨some_, whole, -⟩ :=
    parts_spec (digits_isDigit coefficient) (digits_ne_nil coefficient) exponent
  obtain ⟨c, rest, same⟩ := List.exists_cons_of_ne_nil some_
  have head := whole c (by rw [same]; exact List.mem_cons_self)
  simp only [finiteText, same, List.cons_append]
  exact ⟨c, _, rfl, head⟩

theorem signOf_text (negative : Bool) (unsigned : signOf rest = (false, rest)) :
    signOf (signText negative ++ rest) = (negative, rest) := by
  cases negative with
  | true => rfl
  | false => exact unsigned

theorem nanOf_text (negative signaling : Bool) (payload : Nat) :
    nanOf negative signaling (payloadText payload) = some (.nan negative signaling payload) := by
  have all : (payloadText payload).all Char.isDigit = true := by
    unfold payloadText
    split
    · rfl
    · exact List.all_eq_true.mpr (digits_isDigit _)
  have same : number (payloadText payload) = payload := by
    unfold payloadText
    split
    · rename_i zero
      rw [zero]
      rfl
    · exact number_digits payload
  rw [nanOf, if_pos all, same]

theorem payloadText_lower (payload : Nat) : (payloadText payload).map Char.toLower = payloadText payload := by
  have all : ∀ c ∈ payloadText payload, c.isDigit = true := by
    unfold payloadText
    split
    · exact fun c mem => absurd mem List.not_mem_nil
    · exact digits_isDigit payload
  calc
    (payloadText payload).map Char.toLower = (payloadText payload).map id :=
      List.map_congr_left fun c mem => isDigit_lower (all c mem)
    _ = payloadText payload := List.map_id _

theorem ofChars_chars (d : Decimal) : ofChars d.chars = some d := by
  cases d with
  | finite negative coefficient exponent =>
    obtain ⟨c, rest, same, digit⟩ := finiteText_head coefficient exponent
    have unsigned : signOf (finiteText coefficient exponent) = (false, finiteText coefficient exponent) := by
      rw [same]
      exact signOf_digit digit
    rw [Decimal.chars, ofChars, signOf_text negative unsigned]
    simp only [finiteOf_finiteText, Option.some_or]
  | infinity negative =>
    rw [Decimal.chars, ofChars, signOf_text negative rfl]
    rfl
  | nan negative signaling payload =>
    cases signaling with
    | false =>
      rw [Decimal.chars, ofChars, signOf_text negative rfl]
      simp only [List.map_cons, payloadText_lower]
      exact nanOf_text negative false payload
    | true =>
      rw [Decimal.chars, ofChars, signOf_text negative rfl]
      simp only [List.map_cons, payloadText_lower]
      exact nanOf_text negative true payload

/- What a text is made of. -/

/-- Neither a blank nor an underscore. -/
def Bare (text : List Char) : Prop := ∀ c ∈ text, isSpace c = false ∧ c ≠ '_'

theorem Bare.append {text more : List Char} (first : Bare text) (second : Bare more) : Bare (text ++ more) := by
  intro c mem
  rcases List.mem_append.mp mem with here | there
  · exact first c here
  · exact second c there

theorem bare_cons {text : List Char} (first : isSpace c = false ∧ c ≠ '_') (rest : Bare text) :
    Bare (c :: text) := by
  intro other mem
  rcases List.mem_cons.mp mem with here | there
  · exact here ▸ first
  · exact rest other there

theorem bare_nil : Bare [] := fun _ mem => absurd mem List.not_mem_nil

theorem bare_digits (all : ∀ c ∈ ds, c.isDigit = true) : Bare ds := by
  intro c mem
  have bounds := isDigit_bounds (all c mem)
  refine ⟨?_, isDigit_ne (all c mem) rfl⟩
  have n9 : c.toNat ≠ 133 := by omega
  simp [isSpace]
  omega

theorem bare_chars (d : Decimal) : Bare d.chars := by
  have sign : ∀ negative, Bare (signText negative) := by
    intro negative
    cases negative with
    | true => exact bare_cons (by decide) bare_nil
    | false => exact bare_nil
  have payload : ∀ n, Bare (payloadText n) := by
    intro n
    unfold payloadText
    split
    · exact bare_nil
    · exact bare_digits (digits_isDigit n)
  cases d with
  | finite negative coefficient exponent =>
    obtain ⟨-, whole, behind, -⟩ :=
      parts_spec (digits_isDigit coefficient) (digits_ne_nil coefficient) exponent
    apply (sign negative).append
    refine ((bare_digits whole).append ?_).append ?_
    · unfold pointText
      split
      · exact bare_nil
      · exact bare_cons (by decide) (bare_digits behind)
    · unfold exponentText
      split
      · exact bare_nil
      · refine bare_cons (by decide) (bare_cons ?_ (bare_digits (digits_isDigit _)))
        split
        · decide
        · decide
  | infinity negative =>
    rw [Decimal.chars]
    apply (sign negative).append
    iterate 8 apply bare_cons (by decide)
    exact bare_nil
  | nan negative signaling n =>
    cases signaling with
    | false =>
      rw [Decimal.chars]
      apply (sign negative).append
      iterate 3 apply bare_cons (by decide)
      exact payload n
    | true =>
      rw [Decimal.chars]
      apply (sign negative).append
      iterate 4 apply bare_cons (by decide)
      exact payload n

theorem strip_bare {text : List Char} (bare : Bare text) : strip text = text := by
  have whole : ∀ {l : List Char}, Bare l → l.dropWhile isSpace = l := by
    intro l bare
    cases l with
    | nil => rfl
    | cons c rest =>
      rw [List.dropWhile_cons_of_neg]
      simp [(bare c List.mem_cons_self).1]
  have reversed : Bare text.reverse := fun c mem => bare c (List.mem_reverse.mp mem)
  rw [strip, whole bare, whole reversed, List.reverse_reverse]

/-- A number is read back from its text just as it was. -/
theorem ofText_text (d : Decimal) : ofText d.text = some d := by
  have kept : d.chars.filter (fun c => c ≠ '_') = d.chars := by
    rw [List.filter_eq_self]
    intro c mem
    simpa using (bare_chars d c mem).2
  rw [ofText, Decimal.text, String.toList_ofList, strip_bare (bare_chars d), kept, ofChars_chars]

theorem text_injective {a b : Decimal} (same : a.text = b.text) : a = b := by
  have read := congrArg ofText same
  rw [ofText_text, ofText_text] at read
  exact Option.some.inj read

end

end DecimalText
