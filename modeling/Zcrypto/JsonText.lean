import Mathlib.Data.List.Lex
import Mathlib.Data.String.Basic
import Zcrypto.Fallible

/- JSON as a text: a scanner that takes one character after another, and the compact text of a value.
   A scan of a text is a scan of its beginning first, so what is read of a text cut short is what the
   scanner holds there. How a double is read and written is a parameter. -/
namespace JsonText
open Fallible

/-- A value. The members of an object are kept in the order of their keys. -/
inductive Value (F : Type) where
  | null
  | bool (b : Bool)
  | int (z : Int)
  | float (x : F)
  | str (s : String)
  | arr (items : List (Value F))
  | obj (members : List (String × Value F))

/-- The order of keys, by code points. -/
def Precedes (a b : String) : Prop := a.toList < b.toList

instance (a b : String) : Decidable (Precedes a b) :=
  inferInstanceAs (Decidable (a.toList < b.toList))

mutual
/-- Every object's keys ascend. -/
def Value.Canonical {F : Type} : Value F → Prop
  | .arr items => AllCanonical items
  | .obj members => members.Pairwise (fun a b => Precedes a.1 b.1) ∧ MembersCanonical members
  | _ => True

def AllCanonical {F : Type} : List (Value F) → Prop
  | [] => True
  | v :: rest => v.Canonical ∧ AllCanonical rest

def MembersCanonical {F : Type} : List (String × Value F) → Prop
  | [] => True
  | (_, v) :: rest => v.Canonical ∧ MembersCanonical rest
end

/-- A text that is no JSON; a constant that JSON does not have; a value that has no text of its own,
    for half of a surrogate pair or a number beyond the doubles in it. -/
inductive Fault where
  | malformed
  | constant
  | unwritable
  deriving DecidableEq, Repr

/- Numbers. -/

/-- How much of a number has been read. -/
inductive Phase where
  | sign | zero | digits | point | fraction | exponent | exponentSign | power
  deriving DecidableEq, Repr

def isPoint (c : Char) : Bool := c = '.'
def isExponent (c : Char) : Bool := c = 'e' || c = 'E'

def Phase.next (p : Phase) (c : Char) : Option Phase :=
  match p with
  | .sign => if c = '0' then some .zero else if c.isDigit then some .digits else none
  | .zero => if isPoint c then some .point else if isExponent c then some .exponent else none
  | .digits =>
    if c.isDigit then some .digits
    else if isPoint c then some .point else if isExponent c then some .exponent else none
  | .point => if c.isDigit then some .fraction else none
  | .fraction =>
    if c.isDigit then some .fraction else if isExponent c then some .exponent else none
  | .exponent =>
    if c = '+' || c = '-' then some .exponentSign else if c.isDigit then some .power else none
  | .exponentSign | .power => if c.isDigit then some .power else none

/-- The phase after a whole text. -/
def Phase.after (p : Phase) (text : List Char) : Option Phase := text.foldlM Phase.next p

/-- A sign, where there is one, is read before the first digit. -/
def Phase.start (text : List Char) : Option Phase :=
  match text with
  | '-' :: rest => Phase.sign.after rest
  | _ => Phase.sign.after text

def isFloatText (text : List Char) : Bool :=
  Phase.start text = some .fraction || Phase.start text = some .power

/-- Finite doubles: the text of one, the one a text is of, none beyond them, and whether one is less
    than an integer. -/
structure Floats (F : Type) where
  repr : F → List Char
  parse : List Char → Option F
  below : F → Int → Bool
  lexeme : ∀ x, isFloatText (repr x) = true
  back : ∀ x, parse (repr x) = some x

def natOf (digits : List Char) : Int := Nat.ofDigitChars 10 digits 0

def intOf (text : List Char) : Int :=
  match text with
  | '-' :: digits => -natOf digits
  | digits => natOf digits

def intText (z : Int) : List Char :=
  if z < 0 then '-' :: Nat.toDigits 10 z.natAbs else Nat.toDigits 10 z.natAbs

/- The scanner. -/

/-- What is open around the value being read. -/
inductive Frame (F : Type) where
  | arr (earlier : List (Value F))
  | obj (members : List (String × Value F))
  | member (members : List (String × Value F)) (key : String)

inductive Literal where
  | null
  | bool (b : Bool)
  | constant
  deriving DecidableEq, Repr

/-- What a string is read for. -/
inductive Role where
  | key | value
  deriving DecidableEq, Repr

inductive Mode (F : Type) where
  | value
  | firstItem
  | firstKey
  | key
  | colon (key : String)
  | after
  | done (v : Value F)
  | text (role : Role) (read : List Char)
  | escape (role : Role) (read : List Char)
  | unit (role : Role) (read : List Char) (high : Option Nat) (digits : List Nat)
  | pairSlash (role : Role) (read : List Char) (high : Nat)
  | pairEscape (role : Role) (read : List Char) (high : Nat)
  | number (phase : Phase) (read : List Char)
  | literal (rest : List Char) (what : Literal)

/-- Whether something read so far has no text of its own. -/
structure Scan (F : Type) where
  mode : Mode F
  stack : List (Frame F)
  lossy : Bool

section
variable {F : Type}

/-- A member put among members in the order of their keys, in the place of its key's. -/
def put (key : String) (v : Value F) : List (String × Value F) → List (String × Value F)
  | [] => [(key, v)]
  | (k, w) :: rest =>
    if key = k then (key, v) :: rest
    else if Precedes key k then (key, v) :: (k, w) :: rest
    else (k, w) :: put key v rest

def isBlank (c : Char) : Bool := c = ' ' || c = '\t' || c = '\n' || c = '\r'

def hexVal (c : Char) : Option Nat :=
  if c.isDigit then some (c.toNat - '0'.toNat)
  else if 'a' ≤ c ∧ c ≤ 'f' then some (c.toNat - 'a'.toNat + 10)
  else if 'A' ≤ c ∧ c ≤ 'F' then some (c.toNat - 'A'.toNat + 10)
  else none

def escaped (c : Char) : Option Char :=
  match c with
  | '"' => some '"'
  | '\\' => some '\\'
  | '/' => some '/'
  | 'b' => some '\x08'
  | 'f' => some '\x0c'
  | 'n' => some '\n'
  | 'r' => some '\r'
  | 't' => some '\t'
  | _ => none

namespace Scan

/-- A value is whole inside what is open. -/
def deliver (stack : List (Frame F)) (lossy : Bool) (v : Value F) : Scan F :=
  match stack with
  | [] => ⟨.done v, [], lossy⟩
  | .arr earlier :: outer => ⟨.after, .arr (v :: earlier) :: outer, lossy⟩
  | .member members key :: outer => ⟨.after, .obj (put key v members) :: outer, lossy⟩
  | .obj members :: outer => ⟨.after, .obj members :: outer, lossy⟩

def close (s : Scan F) (role : Role) (read : List Char) : Scan F :=
  match role with
  | .key => { s with mode := .colon (String.ofList read.reverse) }
  | .value => deliver s.stack s.lossy (.str (String.ofList read.reverse))

def stepText (s : Scan F) (role : Role) (read : List Char) (c : Char) : Except Fault (Scan F) :=
  if c = '"' then .ok (s.close role read)
  else if c = '\\' then .ok { s with mode := .escape role read }
  else if c.toNat < 32 then .error .malformed
  else .ok { s with mode := .text role (c :: read) }

def stepEscape (s : Scan F) (role : Role) (read : List Char) (c : Char) : Except Fault (Scan F) :=
  if c = 'u' then .ok { s with mode := .unit role read none [] }
  else match escaped c with
    | some e => .ok { s with mode := .text role (e :: read) }
    | none => .error .malformed

/-- A half that no other half follows. -/
def halved (s : Scan F) : Scan F := { s with lossy := true }

def pairOf (high low : Nat) : Char :=
  Char.ofNat (0x10000 + (high - 0xD800) * 0x400 + (low - 0xDC00))

/-- A unit, after a high half that may be the first of a pair. -/
def unitRead (s : Scan F) (role : Role) (read : List Char) (high : Option Nat) (u : Nat) : Scan F :=
  match high with
  | some h =>
    if 0xDC00 ≤ u ∧ u < 0xE000 then
      { s with mode := .text role (pairOf h u :: read) }
    else if 0xD800 ≤ u ∧ u < 0xDC00 then { s.halved with mode := .pairSlash role read u }
    else { s.halved with mode := .text role (Char.ofNat u :: read) }
  | none =>
    if 0xD800 ≤ u ∧ u < 0xDC00 then { s with mode := .pairSlash role read u }
    else if 0xDC00 ≤ u ∧ u < 0xE000 then { s.halved with mode := .text role read }
    else { s with mode := .text role (Char.ofNat u :: read) }

def stepUnit (s : Scan F) (role : Role) (read : List Char) (high : Option Nat) (digits : List Nat)
    (c : Char) : Except Fault (Scan F) :=
  match hexVal c with
  | none => .error .malformed
  | some d =>
    match digits with
    | [x, y, z] => .ok (s.unitRead role read high (((x * 16 + y) * 16 + z) * 16 + d))
    | _ => .ok { s with mode := .unit role read high (digits ++ [d]) }

def opens (s : Scan F) (c : Char) : Except Fault (Scan F) :=
  if c = '"' then .ok { s with mode := .text .value [] }
  else if c = '{' then .ok { s with mode := .firstKey, stack := .obj [] :: s.stack }
  else if c = '[' then .ok { s with mode := .firstItem, stack := .arr [] :: s.stack }
  else if c = 'n' then .ok { s with mode := .literal ['u', 'l', 'l'] .null }
  else if c = 't' then .ok { s with mode := .literal ['r', 'u', 'e'] (.bool true) }
  else if c = 'f' then .ok { s with mode := .literal ['a', 'l', 's', 'e'] (.bool false) }
  else if c = 'N' then .ok { s with mode := .literal ['a', 'N'] .constant }
  else if c = 'I' then .ok { s with mode := .literal ['n', 'f', 'i', 'n', 'i', 't', 'y'] .constant }
  else if c = '-' then .ok { s with mode := .number .sign [c] }
  else match Phase.sign.next c with
    | some p => .ok { s with mode := .number p [c] }
    | none => .error .malformed

def stepAfter (s : Scan F) (c : Char) : Except Fault (Scan F) :=
  match s.stack with
  | .arr earlier :: outer =>
    if c = ',' then .ok { s with mode := .value }
    else if c = ']' then .ok (deliver outer s.lossy (.arr earlier.reverse))
    else .error .malformed
  | .obj members :: outer =>
    if c = ',' then .ok { s with mode := .key }
    else if c = '}' then .ok (deliver outer s.lossy (.obj members))
    else .error .malformed
  | _ => .error .malformed

/-- The character after a value: inside what is open, or past the end. -/
def stepRest (s : Scan F) (c : Char) : Except Fault (Scan F) :=
  match s.mode with
  | .after => if isBlank c then .ok s else s.stepAfter c
  | _ => if isBlank c then .ok s else .error .malformed

def stepLiteral (s : Scan F) (rest : List Char) (what : Literal) (c : Char) :
    Except Fault (Scan F) :=
  match rest with
  | [] => .error .malformed
  | d :: more =>
    if c ≠ d then .error .malformed
    else if more ≠ [] then .ok { s with mode := .literal more what }
    else match what with
      | .null => .ok (deliver s.stack s.lossy .null)
      | .bool b => .ok (deliver s.stack s.lossy (.bool b))
      | .constant => .error .constant

variable (floats : Floats F)

/-- The number read, where it is one, none where it is beyond the doubles. -/
def numberRead (phase : Phase) (read : List Char) : Option (Option (Value F)) :=
  match phase with
  | .zero | .digits => some (some (.int (intOf read.reverse)))
  | .fraction | .power => some ((floats.parse read.reverse).map .float)
  | _ => none

def deliverNumber (stack : List (Frame F)) (lossy : Bool) : Option (Value F) → Scan F
  | some v => deliver stack lossy v
  | none => deliver stack true .null

def stepNumber (s : Scan F) (phase : Phase) (read : List Char) (c : Char) : Except Fault (Scan F) :=
  if phase = .sign ∧ c = 'I' then
    .ok { s with mode := .literal ['n', 'f', 'i', 'n', 'i', 't', 'y'] .constant }
  else match phase.next c with
    | some p => .ok { s with mode := .number p (c :: read) }
    | none => match numberRead floats phase read with
      | some v => (deliverNumber s.stack s.lossy v).stepRest c
      | none => .error .malformed

def step (s : Scan F) (c : Char) : Except Fault (Scan F) :=
  match s.mode with
  | .value => if isBlank c then .ok s else s.opens c
  | .firstItem =>
    if isBlank c then .ok s
    else if c = ']' then .ok (deliver s.stack.tail s.lossy (.arr []))
    else s.opens c
  | .firstKey =>
    if isBlank c then .ok s
    else if c = '}' then .ok (deliver s.stack.tail s.lossy (.obj []))
    else if c = '"' then .ok { s with mode := .text .key [] }
    else .error .malformed
  | .key =>
    if isBlank c then .ok s
    else if c = '"' then .ok { s with mode := .text .key [] }
    else .error .malformed
  | .colon key =>
    if isBlank c then .ok s
    else if c = ':' then match s.stack with
      | .obj members :: outer =>
        .ok { s with mode := .value, stack := .member members key :: outer }
      | _ => .error .malformed
    else .error .malformed
  | .after | .done _ => s.stepRest c
  | .text role read => s.stepText role read c
  | .escape role read => s.stepEscape role read c
  | .unit role read high digits => s.stepUnit role read high digits c
  | .pairSlash role read high =>
    if c = '\\' then .ok { s with mode := .pairEscape role read high }
    else s.halved.stepText role read c
  | .pairEscape role read high =>
    if c = 'u' then .ok { s with mode := .unit role read (some high) [] }
    else s.halved.stepEscape role read c
  | .number phase read => s.stepNumber floats phase read c
  | .literal rest what => s.stepLiteral rest what c

def run (s : Scan F) (text : List Char) : Except Fault (Scan F) := text.foldlM (step floats) s

def whole (s : Scan F) : Except Fault (Value F) :=
  match s.mode with
  | .done v => if s.lossy then .error .unwritable else .ok v
  | _ => .error .malformed

/-- What has been read where the text ends. -/
def finish (s : Scan F) : Except Fault (Value F) :=
  match s.mode with
  | .number phase read => match numberRead floats phase read with
    | some v => (deliverNumber s.stack s.lossy v).whole
    | none => .error .malformed
  | _ => s.whole

def start : Scan F := ⟨.value, [], false⟩

end Scan

def loads (floats : Floats F) (text : List Char) : Except Fault (Value F) := do
  let s ← Scan.start.run floats text
  s.finish floats

/- The text of a value. -/

def hexDigit (n : Nat) : Char := Nat.digitChar n

def escape (c : Char) : List Char :=
  match c with
  | '"' => ['\\', '"']
  | '\\' => ['\\', '\\']
  | '\n' => ['\\', 'n']
  | '\r' => ['\\', 'r']
  | '\t' => ['\\', 't']
  | '\x08' => ['\\', 'b']
  | '\x0c' => ['\\', 'f']
  | _ =>
    if c.toNat < 32 then ['\\', 'u', '0', '0', hexDigit (c.toNat / 16), hexDigit (c.toNat % 16)]
    else [c]

def quote (s : String) : List Char := '"' :: (s.toList.flatMap escape ++ ['"'])

mutual
def dumps (floats : Floats F) : Value F → List Char
  | .null => ['n', 'u', 'l', 'l']
  | .bool true => ['t', 'r', 'u', 'e']
  | .bool false => ['f', 'a', 'l', 's', 'e']
  | .int z => intText z
  | .float x => floats.repr x
  | .str s => quote s
  | .arr [] => ['[', ']']
  | .arr (v :: rest) => '[' :: (dumps floats v ++ (dumpsItems floats rest ++ [']']))
  | .obj [] => ['{', '}']
  | .obj ((key, v) :: rest) =>
    '{' :: (quote key ++ ':' :: (dumps floats v ++ (dumpsMembers floats rest ++ ['}'])))

/-- The items after the first, each after a comma. -/
def dumpsItems (floats : Floats F) : List (Value F) → List Char
  | [] => []
  | v :: rest => ',' :: (dumps floats v ++ dumpsItems floats rest)

def dumpsMembers (floats : Floats F) : List (String × Value F) → List Char
  | [] => []
  | (key, v) :: rest => ',' :: (quote key ++ ':' :: (dumps floats v ++ dumpsMembers floats rest))
end

end

end JsonText
