import Zcrypto.JsonLaws

/- The lines of a text where more than the newline ends one, and the JSON texts that stay on one line.
   A value's text escapes every control character below the blank, and nothing above it. -/
namespace JsonLines
open JsonText

-- a text's own characters are tried, never all there are
scoped instance decidableChars (p : Char → Prop) [DecidablePred p] (text : List Char) : Decidable (∀ c ∈ text, p c) :=
  List.decidableBAll p text

/-- What ends a line, besides a carriage return and a newline that are one end together. -/
def breaks : List Char :=
  ['\n', '\r', '\x0b', '\x0c', '\x1c', '\x1d', '\x1e', '\u0085', '\u2028', '\u2029']

def splitFrom (line : List Char) : List Char → List (List Char)
  | [] => if line = [] then [] else [line.reverse]
  | '\r' :: '\n' :: rest => line.reverse :: splitFrom [] rest
  | c :: rest => if c ∈ breaks then line.reverse :: splitFrom [] rest else splitFrom (c :: line) rest

/-- The lines of a text, none after a last end. -/
def splitlines (text : List Char) : List (List Char) := splitFrom [] text

/-- The ends of a line that no JSON text escapes. -/
def wideBreaks : List Char := ['\u0085', '\u2028', '\u2029']

section
variable {line rest text : List Char} {c : Char}

theorem splitFrom_cons (other : c ≠ '\r') : splitFrom line (c :: rest) =
    if c ∈ breaks then line.reverse :: splitFrom [] rest else splitFrom (c :: line) rest := by
  rw [splitFrom]
  rintro _ rfl
  exact absurd rfl other

theorem splitFrom_unbroken (unbroken : ∀ c ∈ text, c ∉ breaks) :
    splitFrom line (text ++ rest) = splitFrom (text.reverse ++ line) rest := by
  induction text generalizing line with
  | nil => rfl
  | cons c text ih =>
    have plain : c ∉ breaks := unbroken c List.mem_cons_self
    have other : c ≠ '\r' := by
      rintro rfl
      exact plain (by decide)
    rw [List.cons_append, splitFrom_cons other, if_neg plain,
      ih fun d mem => unbroken d (List.mem_cons_of_mem _ mem)]
    simp

theorem splitlines_break (unbroken : ∀ d ∈ text, d ∉ breaks) (ends : c ∈ breaks) (other : c ≠ '\r') :
    splitlines (text ++ c :: rest) = text :: splitlines rest := by
  unfold splitlines
  rw [splitFrom_unbroken unbroken, splitFrom_cons other, if_pos ends]
  simp

end

section
variable {F : Type} {floats : Floats F}

/- The strings of a value. -/

mutual
/-- Every string of a value, keys among them. -/
def strings : Value F → List String
  | .str s => [s]
  | .arr items => itemStrings items
  | .obj members => memberStrings members
  | _ => []

def itemStrings : List (Value F) → List String
  | [] => []
  | v :: rest => strings v ++ itemStrings rest

def memberStrings : List (String × Value F) → List String
  | [] => []
  | (key, v) :: rest => key :: (strings v ++ memberStrings rest)
end

/- The characters of a text. -/

/-- No control character, and none above the plain ones. -/
def Plain (text : List Char) : Prop := ∀ c ∈ text, 32 ≤ c.toNat ∧ c.toNat < 127

theorem plain_digit {c : Char} (digit : c.isDigit = true) : 32 ≤ c.toNat ∧ c.toNat < 127 := by
  obtain ⟨low, high⟩ := Char.isDigit_iff_toNat.mp digit
  have zero : '0'.toNat = 48 := rfl
  have nine : '9'.toNat = 57 := rfl
  omega

theorem plain_next {p q : Phase} {c : Char} (next : p.next c = some q) :
    32 ≤ c.toNat ∧ c.toNat < 127 := by
  by_cases digit : c.isDigit = true
  · exact plain_digit digit
  · have one_of : c = '0' ∨ c = '.' ∨ c = 'e' ∨ c = 'E' ∨ c = '+' ∨ c = '-' := by
      cases p <;> simp [Phase.next, isPoint, isExponent, digit] at next <;> grind
    rcases one_of with rfl | rfl | rfl | rfl | rfl | rfl <;> decide

theorem plain_after {p q : Phase} {text : List Char} (path : p.after text = some q) : Plain text := by
  induction text generalizing p with
  | nil => simp [Plain]
  | cons c rest ih =>
    unfold Phase.after at path
    rw [List.foldlM_cons] at path
    obtain ⟨mid, next, path⟩ := Option.bind_eq_some_iff.mp path
    intro d mem
    rcases List.mem_cons.mp mem with rfl | mem
    · exact plain_next next
    · exact ih path d mem

theorem plain_start {q : Phase} {text : List Char} (path : Phase.start text = some q) :
    Plain text := by
  unfold Phase.start at path
  split at path
  · rename_i rest
    intro c mem
    rcases List.mem_cons.mp mem with rfl | mem
    · decide
    · exact plain_after path c mem
  · exact plain_after path

theorem plain_repr (x : F) : Plain (floats.repr x) := by
  have lexeme := floats.lexeme x
  unfold isFloatText at lexeme
  rw [Bool.or_eq_true, decide_eq_true_eq, decide_eq_true_eq] at lexeme
  rcases lexeme with path | path
  · exact plain_start path
  · exact plain_start path

theorem hexDigit_plain : ∀ n < 16, 32 ≤ (hexDigit n).toNat ∧ (hexDigit n).toNat < 127 := by decide

/-- A character is escaped to plain ones, or stands for itself and is no control character. -/
theorem escape_plain (c : Char) : Plain (escape c) ∧ c.toNat < 127 ∨ escape c = [c] ∧ 32 ≤ c.toNat := by
  unfold escape
  split
  case h_8 =>
    split
    · rename_i low
      refine Or.inl ⟨?_, by omega⟩
      intro d mem
      simp only [List.mem_cons, List.not_mem_nil, or_false] at mem
      rcases mem with rfl | rfl | rfl | rfl | rfl | rfl
      case inr.inr.inr.inr.inl => exact hexDigit_plain _ (by omega)
      case inr.inr.inr.inr.inr => exact hexDigit_plain _ (by omega)
      all_goals decide
    · exact Or.inr ⟨rfl, by omega⟩
  all_goals exact Or.inl (by unfold Plain; decide)

theorem escape_printed {c d : Char} (mem : d ∈ escape c) : 32 ≤ d.toNat := by
  rcases escape_plain c with ⟨plain, _⟩ | ⟨itself, printed⟩
  · exact (plain d mem).1
  · rw [itself, List.mem_singleton] at mem
    rw [mem]
    exact printed

theorem quote_printed {text : String} {c : Char} (mem : c ∈ quote text) : 32 ≤ c.toNat := by
  unfold quote at mem
  simp only [List.mem_cons, List.mem_append, List.mem_flatMap, List.not_mem_nil, or_false] at mem
  rcases mem with rfl | ⟨d, _, escaped⟩ | rfl
  · decide
  · exact escape_printed escaped
  · decide

theorem plain_printed {text : List Char} (plain : Plain text) {c : Char} (mem : c ∈ text) :
    32 ≤ c.toNat := (plain c mem).1

mutual
/-- A value's text has no control character below the blank. -/
theorem dumps_printed (v : Value F) : ∀ c ∈ dumps floats v, 32 ≤ c.toNat := by
  match v with
  | .null => simp only [dumps]; decide
  | .bool true => simp only [dumps]; decide
  | .bool false => simp only [dumps]; decide
  | .int z => exact fun _ => plain_printed (plain_start (Scan.intText_start z))
  | .float x => exact fun _ => plain_printed (plain_repr x)
  | .str text => exact fun _ => quote_printed
  | .arr [] => simp only [dumps]; decide
  | .arr (v :: rest) =>
    have first := dumps_printed v
    have others := dumpsItems_printed rest
    intro c mem
    simp only [dumps, List.mem_cons, List.mem_append, List.not_mem_nil, or_false] at mem
    rcases mem with rfl | mem | mem | rfl
    · decide
    · exact first c mem
    · exact others c mem
    · decide
  | .obj [] => simp only [dumps]; decide
  | .obj ((key, v) :: rest) =>
    have first := dumps_printed v
    have others := dumpsMembers_printed rest
    intro c mem
    simp only [dumps, List.mem_cons, List.mem_append, List.not_mem_nil, or_false] at mem
    rcases mem with rfl | mem | rfl | mem | mem | rfl
    · decide
    · exact quote_printed mem
    · decide
    · exact first c mem
    · exact others c mem
    · decide

theorem dumpsItems_printed (items : List (Value F)) : ∀ c ∈ dumpsItems floats items, 32 ≤ c.toNat := by
  match items with
  | [] => simp [dumpsItems]
  | v :: rest =>
    have first := dumps_printed v
    have others := dumpsItems_printed rest
    intro c mem
    simp only [dumpsItems, List.mem_cons, List.mem_append] at mem
    rcases mem with rfl | mem | mem
    · decide
    · exact first c mem
    · exact others c mem

theorem dumpsMembers_printed (members : List (String × Value F)) :
    ∀ c ∈ dumpsMembers floats members, 32 ≤ c.toNat := by
  match members with
  | [] => simp [dumpsMembers]
  | (key, v) :: rest =>
    have first := dumps_printed v
    have others := dumpsMembers_printed rest
    intro c mem
    simp only [dumpsMembers, List.mem_cons, List.mem_append] at mem
    rcases mem with rfl | mem | rfl | mem | mem
    · decide
    · exact quote_printed mem
    · decide
    · exact first c mem
    · exact others c mem
end

section
variable {c : Char}

theorem wide_ne {d : Char} (wide : 127 ≤ c.toNat) (plain : d.toNat < 127) : c ≠ d := by
  rintro rfl
  omega

theorem wide_plain {text : List Char} (wide : 127 ≤ c.toNat) (plain : Plain text) : c ∉ text := by
  intro mem
  have := (plain c mem).2
  omega

theorem wide_quote (wide : 127 ≤ c.toNat) (text : String) : c ∈ quote text ↔ c ∈ text.toList := by
  have quotes : c ≠ '"' := wide_ne wide (by decide)
  have alone : ∀ d, c ∈ escape d ↔ c = d := by
    intro d
    rcases escape_plain d with ⟨plain, low⟩ | ⟨itself, _⟩
    · exact iff_of_false (wide_plain wide plain) (wide_ne wide low)
    · rw [itself, List.mem_singleton]
  unfold quote
  simp [quotes, alone]

mutual
/-- Above the plain characters, a value's text has those of its strings. -/
theorem wide_dumps (wide : 127 ≤ c.toNat) (v : Value F) :
    c ∈ dumps floats v ↔ ∃ s ∈ strings v, c ∈ s.toList := by
  have no {d : Char} (plain : d.toNat < 127) : c ≠ d := wide_ne wide plain
  match v with
  | .null => simp [dumps, strings, no]
  | .bool true => simp [dumps, strings, no]
  | .bool false => simp [dumps, strings, no]
  | .int z => simp [dumps, strings, wide_plain wide (plain_start (Scan.intText_start z))]
  | .float x => simp [dumps, strings, wide_plain wide (plain_repr x)]
  | .str text => simp [dumps, strings, wide_quote wide]
  | .arr [] => simp [dumps, strings, itemStrings, no]
  | .arr (v :: rest) =>
    simp [dumps, strings, itemStrings, no, wide_dumps wide v, wide_items wide rest, or_and_right,
      exists_or]
  | .obj [] => simp [dumps, strings, memberStrings, no]
  | .obj ((key, v) :: rest) =>
    simp [dumps, strings, memberStrings, no, wide_quote wide, wide_dumps wide v,
      wide_members wide rest, or_and_right, exists_or]

theorem wide_items (wide : 127 ≤ c.toNat) (items : List (Value F)) :
    c ∈ dumpsItems floats items ↔ ∃ s ∈ itemStrings items, c ∈ s.toList := by
  have no {d : Char} (plain : d.toNat < 127) : c ≠ d := wide_ne wide plain
  match items with
  | [] => simp [dumpsItems, itemStrings]
  | v :: rest =>
    simp [dumpsItems, itemStrings, no, wide_dumps wide v, wide_items wide rest, or_and_right,
      exists_or]

theorem wide_members (wide : 127 ≤ c.toNat) (members : List (String × Value F)) :
    c ∈ dumpsMembers floats members ↔ ∃ s ∈ memberStrings members, c ∈ s.toList := by
  have no {d : Char} (plain : d.toNat < 127) : c ≠ d := wide_ne wide plain
  match members with
  | [] => simp [dumpsMembers, memberStrings]
  | (key, v) :: rest =>
    simp [dumpsMembers, memberStrings, no, wide_quote wide, wide_dumps wide v,
      wide_members wide rest, or_and_right, exists_or]
end

end

/-- Of what ends a line, a value's text has only what its strings have of the wide ones. -/
theorem breaks_dumps {c : Char} {v : Value F} (mem : c ∈ dumps floats v) (ends : c ∈ breaks) :
    c ∈ wideBreaks ∧ ∃ s ∈ strings v, c ∈ s.toList := by
  have printed := dumps_printed v c mem
  have among : c ∈ wideBreaks := by
    have cases : ∀ d ∈ breaks, 32 ≤ d.toNat → d ∈ wideBreaks := by decide
    exact cases c ends printed
  have wide : 127 ≤ c.toNat := by
    have above : ∀ d ∈ wideBreaks, 127 ≤ d.toNat := by decide
    exact above c among
  exact ⟨among, (wide_dumps wide v).mp mem⟩

end

end JsonLines
