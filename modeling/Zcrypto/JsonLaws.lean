import Zcrypto.JsonText

/- What a scan reads back: the text of a value is that value, a text of an object that is cut short is
   malformed, and so is one with anything after it. -/
namespace JsonText
open Fallible

theorem precedes_trans {a b c : String} (first : Precedes a b) (second : Precedes b c) :
    Precedes a c :=
  lt_trans first second

theorem precedes_other {a b : String} (less : Precedes a b) : b ≠ a ∧ ¬ Precedes b a := by
  refine ⟨?_, not_lt_of_gt less⟩
  rintro rfl
  exact lt_irrefl _ less

theorem precedes_of_not {a b : String} (behind : ¬ Precedes a b) (differ : a ≠ b) : Precedes b a :=
  lt_of_le_of_ne (not_lt.mp behind) fun same => differ (String.toList_injective same.symm)

section
variable {F : Type} {floats : Floats F} {s t : Scan F} {text rest : List Char} {c : Char}

namespace Scan

@[simp] theorem run_nil : s.run floats [] = .ok s := rfl

theorem run_cons : s.run floats (c :: rest) = s.step floats c >>= fun t => t.run floats rest := rfl

theorem run_append : s.run floats (text ++ rest) = s.run floats text >>= fun t => t.run floats rest := by
  unfold run
  rw [List.foldlM_append]

theorem run_step (stepped : s.step floats c = .ok t) :
    s.run floats (c :: rest) = t.run floats rest := by
  rw [run_cons, stepped]
  rfl

theorem run_then (ran : s.run floats text = .ok t) :
    s.run floats (text ++ rest) = t.run floats rest := by
  rw [run_append, ran]
  rfl

/- Strings. -/

variable {stack : List (Frame F)} {lossy : Bool} {role : Role} {read : List Char}

theorem hexVal_hexDigit : ∀ n < 16, hexVal (hexDigit n) = some n := by decide

theorem run_control (low : c.toNat < 32) :
    run floats ⟨.text role read, stack, lossy⟩
        ['\\', 'u', '0', '0', hexDigit (c.toNat / 16), hexDigit (c.toNat % 16)] =
      .ok ⟨.text role (c :: read), stack, lossy⟩ := by
  have first := hexVal_hexDigit (c.toNat / 16) (by omega)
  have second := hexVal_hexDigit (c.toNat % 16) (by omega)
  have zero : hexVal '0' = some 0 := by decide
  have back : c.toNat / 16 * 16 + c.toNat % 16 = c.toNat := by omega
  have small : ¬ (55296 ≤ c.toNat ∧ c.toNat < 56320) := by omega
  have other : ¬ (56320 ≤ c.toNat ∧ c.toNat < 57344) := by omega
  simp [run, List.foldlM, step, stepText, stepEscape, stepUnit, unitRead, first, second, zero,
    bind, Except.bind, pure, Except.pure, back, small, other]

theorem run_escape (c : Char) :
    run floats ⟨.text role read, stack, lossy⟩ (escape c) =
      .ok ⟨.text role (c :: read), stack, lossy⟩ := by
  unfold escape
  split
  case h_8 quote slash _ _ _ _ _ =>
    split
    · rename_i low
      exact run_control low
    · rename_i high
      unfold run
      rw [List.foldlM_cons]
      simp only [step, stepText, if_neg quote, if_neg slash, if_neg high]
      rfl
  all_goals rfl

theorem run_escaped (chars : List Char) (read : List Char) :
    run floats ⟨.text role read, stack, lossy⟩ (chars.flatMap escape) =
      .ok ⟨.text role (chars.reverse ++ read), stack, lossy⟩ := by
  induction chars generalizing read with
  | nil => rfl
  | cons c chars ih =>
    rw [List.flatMap_cons, run_then (run_escape c), ih]
    simp

theorem run_string (text : String) :
    run floats ⟨.text role [], stack, lossy⟩ (text.toList.flatMap escape ++ ['"']) =
      .ok ((⟨.text role [], stack, lossy⟩ : Scan F).close role text.toList.reverse) := by
  rw [run_then (run_escaped text.toList [])]
  unfold run
  rw [List.foldlM_cons]
  simp only [step, stepText, List.append_nil, if_true]
  cases role <;> rfl

theorem run_quote (text : String) :
    run floats ⟨.value, stack, lossy⟩ (quote text) =
      .ok (deliver stack lossy (.str text)) := by
  have opened : step floats ⟨.value, stack, lossy⟩ '"' = .ok ⟨.text .value [], stack, lossy⟩ := rfl
  unfold quote
  rw [run_step opened, run_string]
  simp [close]

theorem run_quote_key (text : String) {m : Mode F} (wants : m = .key ∨ m = .firstKey) :
    run floats ⟨m, stack, lossy⟩ (quote text) = .ok ⟨.colon text, stack, lossy⟩ := by
  have opened : step floats ⟨m, stack, lossy⟩ '"' = .ok ⟨.text .key [], stack, lossy⟩ := by
    rcases wants with rfl | rfl <;> rfl
  unfold quote
  rw [run_step opened, run_string]
  simp [close]

/- Numbers. -/

theorem run_number {p q : Phase} (path : p.after text = some q) (read : List Char) :
    run floats ⟨.number p read, stack, lossy⟩ text =
      .ok ⟨.number q (text.reverse ++ read), stack, lossy⟩ := by
  induction text generalizing p read with
  | nil =>
    injection path with same
    rw [same]
    rfl
  | cons c rest ih =>
    unfold Phase.after at path
    rw [List.foldlM_cons] at path
    obtain ⟨mid, next, path⟩ := Option.bind_eq_some_iff.mp path
    have stepped : step floats ⟨.number p read, stack, lossy⟩ c =
        .ok ⟨.number mid (c :: read), stack, lossy⟩ := by
      have plain : ¬ (p = .sign ∧ c = 'I') := by
        rintro ⟨rfl, rfl⟩
        cases next
      simp [step, stepNumber, plain, next]
    rw [run_step stepped, ih path]
    simp

theorem opens_digit {p : Phase} (next : Phase.sign.next c = some p) :
    step floats ⟨.value, stack, lossy⟩ c = .ok ⟨.number p [c], stack, lossy⟩ := by
  have digit : c = '0' ∨ c.isDigit := by
    simp only [Phase.next] at next
    split at next
    · rename_i zero
      exact Or.inl zero
    · split at next
      · rename_i digit
        exact Or.inr digit
      · cases next
  have apart : ∀ d : Char, d.isDigit = false → c ≠ d := by
    rintro d plain rfl
    rcases digit with rfl | digit
    · cases plain
    · rw [plain] at digit
      cases digit
  have blank : isBlank c = false := by
    simp [isBlank, apart ' ' rfl, apart '\t' rfl, apart '\n' rfl, apart '\r' rfl]
  simp [step, opens, blank, apart '"' rfl, apart '{' rfl, apart '[' rfl, apart 'n' rfl,
    apart 't' rfl, apart 'f' rfl, apart 'N' rfl, apart 'I' rfl, apart '-' rfl, next]

/-- A text of a number is read as one, up to where it ends. -/
theorem run_start {q : Phase} (path : Phase.start text = some q) (ends : q ≠ .sign) :
    run floats ⟨.value, stack, lossy⟩ text = .ok ⟨.number q text.reverse, stack, lossy⟩ := by
  have signed : ∀ rest, Phase.sign.after rest = some q → (∀ c ∈ rest.head?, c ≠ '-') →
      run floats ⟨.value, stack, lossy⟩ rest = .ok ⟨.number q rest.reverse, stack, lossy⟩ := by
    intro rest path _
    cases rest with
    | nil =>
      injection path with same
      exact absurd same.symm ends
    | cons c rest =>
      unfold Phase.after at path
      rw [List.foldlM_cons] at path
      obtain ⟨mid, next, path⟩ := Option.bind_eq_some_iff.mp path
      rw [run_step (opens_digit next), run_number path]
      simp
  unfold Phase.start at path
  split at path
  · have minus : step floats ⟨.value, stack, lossy⟩ '-' =
        .ok ⟨.number .sign ['-'], stack, lossy⟩ := rfl
    rw [run_step minus, run_number path]
    simp
  · rename_i plain
    apply signed text path
    intro c first same
    cases text with
    | nil => cases first
    | cons d rest =>
      simp only [List.head?_cons, Option.mem_def, Option.some.injEq] at first
      exact plain rest (by rw [first, same])

theorem toDigits_after (n : Nat) :
    Phase.sign.after (Nat.toDigits 10 n) = some (if n = 0 then .zero else .digits) := by
  have digit : ∀ d < 10, (Nat.digitChar d).isDigit = true := by decide
  have first : ∀ d < 10, 0 < d → Phase.sign.next (Nat.digitChar d) = some .digits := by decide
  induction n using Nat.strongRecOn with
  | ind n ih =>
    by_cases small : n < 10
    · rw [Nat.toDigits_of_lt_base small]
      by_cases none_left : n = 0
      · rw [none_left]
        rfl
      · simp [Phase.after, first n small (by omega), none_left]
    · rw [Nat.toDigits_of_base_le (by omega) (by omega)]
      have most := ih (n / 10) (by omega)
      have some_left : n / 10 ≠ 0 := by omega
      have positive : n ≠ 0 := by omega
      unfold Phase.after at most ⊢
      rw [List.foldlM_append, most, if_neg some_left, if_neg positive]
      simp [Phase.next, digit (n % 10) (by omega)]

theorem toDigits_unsigned (n : Nat) (rest : List Char) : Nat.toDigits 10 n ≠ '-' :: rest := by
  intro same
  have digit := Nat.isDigit_of_mem_toDigits (b := 10) (by omega) (by omega)
    (show '-' ∈ Nat.toDigits 10 n by simp [same])
  cases digit

theorem intText_start (z : Int) : Phase.start (intText z) = some (if z = 0 then .zero else .digits) := by
  unfold intText
  split
  · have nonzero : z ≠ 0 := by omega
    simp [Phase.start, toDigits_after, nonzero]
  · unfold Phase.start
    split
    · rename_i rest same
      exact absurd same (toDigits_unsigned _ rest)
    · simp [toDigits_after]

theorem intOf_intText (z : Int) : intOf (intText z) = z := by
  unfold intText
  split
  · unfold intOf natOf
    simp only [Nat.ofDigitChars_ten_toDigits]
    omega
  · unfold intOf
    split
    · rename_i rest same
      exact absurd same (toDigits_unsigned _ rest)
    · unfold natOf
      rw [Nat.ofDigitChars_ten_toDigits]
      omega

/- Values. -/

/-- What may follow a value inside an array or an object. -/
def IsDelimiter (c : Char) : Prop := c = ',' ∨ c = ']' ∨ c = '}'

/-- Two states that go the same way at a delimiter and at the end. -/
structure Alike (floats : Floats F) (s t : Scan F) : Prop where
  step : ∀ c, IsDelimiter c → s.step floats c = t.step floats c
  finish : s.finish floats = t.finish floats

theorem deliver_step (v : Value F) (c : Char) :
    (deliver stack lossy v).step floats c = (deliver stack lossy v).stepRest c := by
  unfold deliver
  rcases stack with _ | ⟨_ | _ | _, _⟩ <;> rfl

theorem deliver_finish (v : Value F) :
    (deliver stack lossy v).finish floats = (deliver stack lossy v).whole := by
  unfold deliver
  rcases stack with _ | ⟨_ | _ | _, _⟩ <;> rfl

theorem alike_number {p : Phase} {v : Value F} (is_number : numberRead floats p read = some (some v)) :
    Alike floats ⟨.number p read, stack, lossy⟩ (deliver stack lossy v) := by
  constructor
  · intro c delimiter
    have stops : p.next c = none := by
      rcases delimiter with rfl | rfl | rfl <;> cases p <;> rfl
    have plain : ¬ (p = .sign ∧ c = 'I') := by
      rintro ⟨_, rfl⟩
      rcases delimiter with same | same | same <;> cases same
    rw [deliver_step]
    simp only [step, stepNumber, if_neg plain, stops, is_number, deliverNumber]
  · rw [deliver_finish]
    simp only [finish, is_number, deliverNumber]

/-- A text is read as a value, whatever is open around it. -/
def Reads (floats : Floats F) (text : List Char) (v : Value F) : Prop :=
  ∀ stack lossy, ∃ s, run floats ⟨.value, stack, lossy⟩ text = .ok s ∧
    Alike floats s (deliver stack lossy v)

theorem reads_exactly {v : Value F}
    (ran : ∀ stack lossy, run floats ⟨.value, stack, lossy⟩ text = .ok (deliver stack lossy v)) :
    Reads floats text v :=
  fun stack lossy => ⟨_, ran stack lossy, fun _ _ => rfl, rfl⟩

theorem reads_number {q : Phase} {v : Value F} (path : Phase.start text = some q)
    (is_number : numberRead floats q text.reverse = some (some v)) : Reads floats text v := by
  intro stack lossy
  have ends : q ≠ .sign := by
    rintro rfl
    cases is_number
  exact ⟨_, run_start path ends, alike_number is_number⟩

theorem reads_int (z : Int) : Reads floats (intText z) (.int z) := by
  apply reads_number (intText_start z)
  have back := intOf_intText z
  split <;> simp [numberRead, back]

theorem reads_float (x : F) : Reads floats (floats.repr x) (.float x) := by
  have lexeme := floats.lexeme x
  have back := floats.back x
  unfold isFloatText at lexeme
  rw [Bool.or_eq_true, decide_eq_true_eq, decide_eq_true_eq] at lexeme
  rcases lexeme with path | path
  · exact reads_number path (by simp [numberRead, back])
  · exact reads_number path (by simp [numberRead, back])

/-- The first character of a number's text. -/
theorem number_opening {q : Phase} (path : Phase.start text = some q) (ends : q ≠ .sign) :
    ∃ c rest, text = c :: rest ∧ (c = '-' ∨ c.isDigit) := by
  cases text with
  | nil =>
    injection path with same
    exact absurd same.symm ends
  | cons c rest =>
    refine ⟨c, rest, rfl, ?_⟩
    unfold Phase.start at path
    split at path
    · rename_i same
      injection same with same
      exact Or.inl same
    · unfold Phase.after at path
      rw [List.foldlM_cons] at path
      obtain ⟨mid, next, _⟩ := Option.bind_eq_some_iff.mp path
      simp only [Phase.next] at next
      split at next
      · rename_i zero
        exact Or.inr (by rw [zero]; rfl)
      · split at next
        · rename_i digit
          exact Or.inr digit
        · cases next

theorem digit_opening (first : c = '-' ∨ c.isDigit) : isBlank c = false ∧ c ≠ ']' := by
  have apart : ∀ d : Char, d ≠ '-' → d.isDigit = false → c ≠ d := by
    rintro d other plain rfl
    rcases first with same | digit
    · exact other same
    · rw [plain] at digit
      cases digit
  refine ⟨?_, apart ']' (by decide) rfl⟩
  simp [isBlank, apart ' ' (by decide) rfl, apart '\t' (by decide) rfl,
    apart '\n' (by decide) rfl, apart '\r' (by decide) rfl]

variable (floats) in
/-- A value's text starts neither with a blank nor as the end of an array does. -/
theorem dumps_opening (v : Value F) :
    ∃ c rest, dumps floats v = c :: rest ∧ isBlank c = false ∧ c ≠ ']' := by
  have of_number : ∀ {text : List Char} {q : Phase}, Phase.start text = some q → q ≠ .sign →
      ∃ c rest, text = c :: rest ∧ isBlank c = false ∧ c ≠ ']' := by
    intro text q path ends
    obtain ⟨c, rest, same, first⟩ := number_opening path ends
    exact ⟨c, rest, same, digit_opening first⟩
  cases v with
  | int z => exact of_number (intText_start z) (by split <;> decide)
  | float x =>
    have lexeme := floats.lexeme x
    unfold isFloatText at lexeme
    rw [Bool.or_eq_true, decide_eq_true_eq, decide_eq_true_eq] at lexeme
    rcases lexeme with path | path
    · exact of_number path (by decide)
    · exact of_number path (by decide)
  | null => exact ⟨_, _, rfl, rfl, by decide⟩
  | bool b => cases b <;> exact ⟨_, _, rfl, rfl, by decide⟩
  | str text => exact ⟨_, _, rfl, rfl, by decide⟩
  | arr items => cases items <;> exact ⟨_, _, rfl, rfl, by decide⟩
  | obj members => rcases members with _ | ⟨⟨_, _⟩, _⟩ <;> exact ⟨_, _, rfl, rfl, by decide⟩

theorem opens_mode (m n : Mode F) (c : Char) :
    (⟨m, stack, lossy⟩ : Scan F).opens c = (⟨n, stack, lossy⟩ : Scan F).opens c := rfl

theorem run_first_item (v : Value F) :
    run floats ⟨.firstItem, stack, lossy⟩ (dumps floats v ++ rest) =
      run floats ⟨.value, stack, lossy⟩ (dumps floats v ++ rest) := by
  obtain ⟨c, more, same, solid, other⟩ := dumps_opening floats v
  have alike : step floats ⟨.firstItem, stack, lossy⟩ c = step floats ⟨.value, stack, lossy⟩ c := by
    simp only [step, solid, if_neg other]
    exact opens_mode .firstItem .value c
  rw [same, List.cons_append, run_cons, run_cons, alike]

theorem put_last {key : String} {v : Value F} {members : List (String × Value F)}
    (below : ∀ m ∈ members, Precedes m.1 key) : put key v members = members ++ [(key, v)] := by
  induction members with
  | nil => rfl
  | cons m members ih =>
    obtain ⟨other, behind⟩ := precedes_other (below m List.mem_cons_self)
    unfold put
    rw [if_neg other, if_neg behind, ih fun m mem => below m (List.mem_cons_of_mem _ mem)]
    rfl

/-- A value read after a colon becomes a member. -/
theorem run_member (stack : List (Frame F)) (lossy : Bool) (key : String)
    (members : List (String × Value F)) {v : Value F} {m : Mode F}
    (wants : m = .key ∨ m = .firstKey) (reads : Reads floats (dumps floats v) v) :
    ∃ s, run floats ⟨m, .obj members :: stack, lossy⟩ (quote key ++ ':' :: dumps floats v) = .ok s ∧
      Alike floats s ⟨.after, .obj (put key v members) :: stack, lossy⟩ := by
  have colon : step floats ⟨.colon key, .obj members :: stack, lossy⟩ ':' =
      .ok ⟨.value, .member members key :: stack, lossy⟩ := rfl
  rw [run_then (run_quote_key key wants), run_step colon]
  exact reads (.member members key :: stack) lossy

theorem reads_null : Reads floats (dumps floats .null) .null := reads_exactly fun _ _ => rfl

theorem reads_bool (b : Bool) : Reads floats (dumps floats (.bool b)) (.bool b) := by
  apply reads_exactly
  intro stack lossy
  cases b <;> rfl

theorem reads_empty_array : Reads floats (dumps floats (.arr [])) (.arr []) :=
  reads_exactly fun _ _ => rfl

theorem reads_empty_object : Reads floats (dumps floats (.obj [])) (.obj []) :=
  reads_exactly fun _ _ => rfl

end Scan

end

namespace Scan
variable {F : Type} {floats : Floats F}

mutual
theorem reads_dumps (v : Value F) (canonical : v.Canonical) : Reads floats (dumps floats v) v := by
  match v with
  | .null => exact reads_null
  | .bool b => exact reads_bool b
  | .int z => exact reads_int z
  | .float x => exact reads_float x
  | .str text => exact reads_exactly fun _ _ => run_quote text
  | .arr [] => exact reads_empty_array
  | .arr (v :: rest) =>
    apply reads_exactly
    intro stack lossy
    obtain ⟨head, tail⟩ := canonical
    obtain ⟨s, ran, alike⟩ := reads_dumps v head (.arr [] :: stack) lossy
    have opened : step floats ⟨.value, stack, lossy⟩ '[' =
        .ok ⟨.firstItem, .arr [] :: stack, lossy⟩ := rfl
    unfold dumps
    rw [run_step opened, run_first_item, run_then ran]
    exact run_items rest tail alike
  | .obj [] => exact reads_empty_object
  | .obj ((key, v) :: rest) =>
    apply reads_exactly
    intro stack lossy
    obtain ⟨ascending, head, tail⟩ := canonical
    have opened : step floats ⟨.value, stack, lossy⟩ '{' =
        .ok ⟨.firstKey, .obj [] :: stack, lossy⟩ := rfl
    obtain ⟨s, ran, alike⟩ := run_member stack lossy key [] (Or.inr rfl)
      (reads_dumps v head)
    have parted : dumps floats (.obj ((key, v) :: rest)) =
        '{' :: ((quote key ++ ':' :: dumps floats v) ++ (dumpsMembers floats rest ++ ['}'])) := by
      simp [dumps]
    rw [parted, run_step opened, run_then ran]
    exact run_members rest tail [(key, v)] ascending alike

/-- The items after the first, up to the end of the array. -/
theorem run_items (items : List (Value F)) (canonical : AllCanonical items)
    {earlier : List (Value F)} {outer : List (Frame F)} {lossy : Bool} {s : Scan F}
    (alike : Alike floats s ⟨.after, .arr earlier :: outer, lossy⟩) :
    run floats s (dumpsItems floats items ++ [']']) =
      .ok (deliver outer lossy (.arr (earlier.reverse ++ items))) := by
  match items with
  | [] =>
    have closed : step floats s ']' = .ok (deliver outer lossy (.arr earlier.reverse)) :=
      alike.step ']' (Or.inr (Or.inl rfl))
    rw [List.append_nil]
    exact run_step closed
  | v :: rest =>
    obtain ⟨head, tail⟩ := canonical
    have comma : step floats s ',' = .ok ⟨.value, .arr earlier :: outer, lossy⟩ :=
      alike.step ',' (Or.inl rfl)
    obtain ⟨t, ran, next⟩ := reads_dumps v head (.arr earlier :: outer) lossy
    unfold dumpsItems
    rw [List.cons_append, run_step comma, List.append_assoc, run_then ran,
      run_items rest tail next, List.reverse_cons, List.append_assoc]
    rfl

/-- The members after the first, up to the end of the object. -/
theorem run_members (members : List (String × Value F)) (canonical : MembersCanonical members)
    (earlier : List (String × Value F)) {outer : List (Frame F)} {lossy : Bool} {s : Scan F}
    (ascending : (earlier ++ members).Pairwise fun a b => Precedes a.1 b.1)
    (alike : Alike floats s ⟨.after, .obj earlier :: outer, lossy⟩) :
    run floats s (dumpsMembers floats members ++ ['}']) =
      .ok (deliver outer lossy (.obj (earlier ++ members))) := by
  match members with
  | [] =>
    have closed : step floats s '}' = .ok (deliver outer lossy (.obj earlier)) :=
      alike.step '}' (Or.inr (Or.inr rfl))
    rw [List.append_nil]
    exact run_step closed
  | (key, v) :: rest =>
    obtain ⟨head, tail⟩ := canonical
    have comma : step floats s ',' = .ok ⟨.key, .obj earlier :: outer, lossy⟩ :=
      alike.step ',' (Or.inl rfl)
    obtain ⟨t, ran, next⟩ := run_member outer lossy key earlier (Or.inl rfl)
      (reads_dumps v head)
    have below : ∀ m ∈ earlier, Precedes m.1 key :=
      fun m mem => (List.pairwise_append.mp ascending).2.2 m mem (key, v) List.mem_cons_self
    rw [put_last below] at next
    have parted : dumpsMembers floats ((key, v) :: rest) ++ ['}'] =
        ',' :: ((quote key ++ ':' :: dumps floats v) ++ (dumpsMembers floats rest ++ ['}'])) := by
      simp [dumpsMembers]
    have moved : earlier ++ (key, v) :: rest = (earlier ++ [(key, v)]) ++ rest := by simp
    rw [parted, run_step comma, run_then ran, moved]
    exact run_members rest tail _ (moved ▸ ascending) next
end

/- Where a text stops. -/

/-- Something is open, or nothing has been read. -/
def Inside (s : Scan F) : Prop := s.stack ≠ [] ∧ ∀ v, s.mode ≠ .done v

def IsDone (s : Scan F) : Prop := ∃ v, s.mode = .done v

theorem deliver_split (stack : List (Frame F)) (lossy : Bool) (v : Value F) :
    Inside (deliver stack lossy v) ∨ IsDone (deliver stack lossy v) := by
  unfold deliver
  rcases stack with _ | ⟨_ | _ | _, outer⟩
  · exact Or.inr ⟨v, rfl⟩
  all_goals exact Or.inl ⟨by simp, by simp⟩

theorem deliverNumber_split (stack : List (Frame F)) (lossy : Bool) (v : Option (Value F)) :
    Inside (deliverNumber stack lossy v) ∨ IsDone (deliverNumber stack lossy v) := by
  cases v with
  | some v => exact deliver_split stack lossy v
  | none => exact deliver_split stack true .null

theorem done_stepRest {s t : Scan F} {c : Char} (done : IsDone s) (stepped : s.stepRest c = .ok t) :
    isBlank c = true ∧ t = s := by
  obtain ⟨v, mode⟩ := done
  unfold stepRest at stepped
  rw [mode] at stepped
  simp only at stepped
  split at stepped
  · rename_i blank
    injection stepped with same
    exact ⟨blank, same.symm⟩
  · cases stepped

theorem done_step {s t : Scan F} {c : Char} (done : IsDone s) (stepped : s.step floats c = .ok t) :
    isBlank c = true ∧ t = s := by
  have rest : s.stepRest c = .ok t := by
    obtain ⟨v, mode⟩ := done
    unfold step at stepped
    rw [mode] at stepped
    exact stepped
  exact done_stepRest done rest

/-- Where a step from inside may lead. -/
def Within (s : Scan F) : Prop := Inside s ∨ IsDone s

theorem within_mode {m : Mode F} {stack : List (Frame F)} {lossy : Bool} (opened : stack ≠ [])
    (reading : ∀ v, m ≠ .done v) : Within (⟨m, stack, lossy⟩ : Scan F) :=
  Or.inl ⟨opened, reading⟩

theorem close_within {s : Scan F} (role : Role) (read : List Char) (opened : s.stack ≠ []) :
    Within (s.close role read) := by
  cases role with
  | key => exact within_mode opened (by simp)
  | value => exact deliver_split s.stack s.lossy _

theorem stepText_within {s t : Scan F} {role : Role} {read : List Char} {c : Char}
    (opened : s.stack ≠ []) (stepped : s.stepText role read c = .ok t) : Within t := by
  unfold stepText at stepped
  split at stepped
  · injection stepped with same
    exact same ▸ close_within role read opened
  · split at stepped
    · injection stepped with same
      exact same ▸ within_mode opened (by simp)
    · split at stepped
      · cases stepped
      · injection stepped with same
        exact same ▸ within_mode opened (by simp)

theorem stepEscape_within {s t : Scan F} {role : Role} {read : List Char} {c : Char}
    (opened : s.stack ≠ []) (stepped : s.stepEscape role read c = .ok t) : Within t := by
  unfold stepEscape at stepped
  split at stepped
  · injection stepped with same
    exact same ▸ within_mode opened (by simp)
  · split at stepped
    · injection stepped with same
      exact same ▸ within_mode opened (by simp)
    · cases stepped

theorem unitRead_within {s : Scan F} (role : Role) (read : List Char) (high : Option Nat) (u : Nat)
    (opened : s.stack ≠ []) : Within (s.unitRead role read high u) := by
  unfold unitRead
  split
  · split
    · exact within_mode opened (by simp)
    · split
      · exact within_mode opened (by simp)
      · exact within_mode opened (by simp)
  · split
    · exact within_mode opened (by simp)
    · split
      · exact within_mode opened (by simp)
      · exact within_mode opened (by simp)

theorem stepUnit_within {s t : Scan F} {role : Role} {read : List Char} {high : Option Nat}
    {digits : List Nat} {c : Char} (opened : s.stack ≠ [])
    (stepped : s.stepUnit role read high digits c = .ok t) : Within t := by
  unfold stepUnit at stepped
  split at stepped
  · cases stepped
  · split at stepped
    · injection stepped with same
      exact same ▸ unitRead_within role read high _ opened
    · injection stepped with same
      exact same ▸ within_mode opened (by simp)

theorem opens_within {s t : Scan F} {c : Char} (opened : s.stack ≠ []) (stepped : s.opens c = .ok t) :
    Within t := by
  unfold opens at stepped
  repeat' split at stepped
  all_goals cases stepped
  all_goals first
    | exact within_mode opened (by simp)
    | exact within_mode (List.cons_ne_nil _ _) (by simp)

theorem stepAfter_within {s t : Scan F} {c : Char} (opened : s.stack ≠ [])
    (stepped : s.stepAfter c = .ok t) : Within t := by
  unfold stepAfter at stepped
  repeat' split at stepped
  all_goals cases stepped
  all_goals first
    | exact within_mode opened (by simp)
    | exact deliver_split _ _ _

theorem stepRest_within {s t : Scan F} {c : Char} (within : Within s) (stepped : s.stepRest c = .ok t) :
    Within t := by
  rcases within with inside | done
  · unfold stepRest at stepped
    repeat' split at stepped
    · cases stepped
      exact Or.inl inside
    · exact stepAfter_within inside.1 stepped
    · cases stepped
      exact Or.inl inside
    · cases stepped
  · obtain ⟨_, same⟩ := done_stepRest done stepped
    exact same ▸ Or.inr done

theorem stepNumber_within {s t : Scan F} {phase : Phase} {read : List Char} {c : Char}
    (opened : s.stack ≠ []) (stepped : s.stepNumber floats phase read c = .ok t) : Within t := by
  unfold stepNumber at stepped
  repeat' split at stepped
  · cases stepped
    exact within_mode opened (by simp)
  · cases stepped
    exact within_mode opened (by simp)
  · exact stepRest_within (deliverNumber_split _ _ _) stepped
  · cases stepped

theorem stepLiteral_within {s t : Scan F} {rest : List Char} {what : Literal} {c : Char}
    (opened : s.stack ≠ []) (stepped : s.stepLiteral rest what c = .ok t) : Within t := by
  unfold stepLiteral at stepped
  repeat' split at stepped
  all_goals cases stepped
  all_goals first
    | exact within_mode opened (by simp)
    | exact deliver_split _ _ _

/-- A step from inside leads inside or to the end of the value. -/
theorem inside_step {s t : Scan F} {c : Char} (inside : Inside s) (stepped : s.step floats c = .ok t) :
    Within t := by
  obtain ⟨opened, reading⟩ := inside
  unfold step at stepped
  split at stepped
  case h_7 done => exact absurd done (reading _)
  case h_8 => exact stepText_within opened stepped
  case h_9 => exact stepEscape_within opened stepped
  case h_10 => exact stepUnit_within opened stepped
  case h_13 => exact stepNumber_within opened stepped
  case h_14 => exact stepLiteral_within opened stepped
  case h_6 => exact stepRest_within (Or.inl ⟨opened, reading⟩) stepped
  case h_1 mode =>
    split at stepped
    · cases stepped
      exact Or.inl ⟨opened, reading⟩
    · exact opens_within opened stepped
  case h_2 mode =>
    repeat' split at stepped
    · cases stepped
      exact Or.inl ⟨opened, reading⟩
    · cases stepped
      exact deliver_split _ _ _
    · exact opens_within opened stepped
  case h_11 =>
    split at stepped
    · cases stepped
      exact within_mode opened (by simp)
    · exact stepText_within (s := s.halved) opened stepped
  case h_12 =>
    split at stepped
    · cases stepped
      exact within_mode opened (by simp)
    · exact stepEscape_within (s := s.halved) opened stepped
  all_goals
    repeat' split at stepped
    all_goals cases stepped
    all_goals first
      | exact Or.inl ⟨opened, reading⟩
      | exact deliver_split _ _ _
      | exact within_mode opened (by simp)
      | exact within_mode (List.cons_ne_nil _ _) (by simp)

theorem done_run {s t : Scan F} {text : List Char} (done : IsDone s)
    (ran : s.run floats text = .ok t) : ∀ c ∈ text, isBlank c = true := by
  induction text with
  | nil => simp
  | cons c rest ih =>
    rw [run_cons] at ran
    obtain ⟨mid, stepped, ran⟩ := bind_ok.mp ran
    obtain ⟨blank, same⟩ := done_step done stepped
    rw [same] at ran
    intro d mem
    rcases List.mem_cons.mp mem with rfl | mem
    · exact blank
    · exact ih ran d mem

theorem within_run {s t : Scan F} {text : List Char} (within : Within s)
    (ran : s.run floats text = .ok t) : Within t := by
  induction text generalizing s with
  | nil =>
    cases ran
    exact within
  | cons c rest ih =>
    rw [run_cons] at ran
    obtain ⟨mid, stepped, ran⟩ := bind_ok.mp ran
    refine ih ?_ ran
    rcases within with inside | done
    · exact inside_step inside stepped
    · obtain ⟨_, same⟩ := done_step done stepped
      exact same ▸ Or.inr done

theorem inside_whole {s : Scan F} (reading : ∀ v, s.mode ≠ .done v) :
    s.whole = .error .malformed := by
  unfold whole
  split
  · rename_i v mode
    exact absurd mode (reading v)
  · rfl

theorem deliver_whole {stack : List (Frame F)} (opened : stack ≠ []) (lossy : Bool) (v : Value F) :
    (deliver stack lossy v).whole = .error .malformed := by
  unfold deliver
  rcases stack with _ | ⟨_ | _ | _, outer⟩
  · exact absurd rfl opened
  all_goals rfl

theorem inside_finish {s : Scan F} (inside : Inside s) : s.finish floats = .error .malformed := by
  unfold finish
  split
  · split
    · rename_i v _
      cases v with
      | none => exact deliver_whole inside.1 true .null
      | some v => exact deliver_whole inside.1 s.lossy v
    · rfl
  · exact inside_whole inside.2

/-- A state that a whole value has been read to takes no further value. -/
theorem finish_then_brace {s : Scan F} {v : Value F} (read : s.finish floats = .ok v) :
    s.step floats '{' = .error .malformed := by
  unfold finish at read
  split at read
  · rename_i phase text mode
    split at read
    · rename_i number is_number
      have top : s.stack = [] := by
        by_contra opened
        cases number with
        | none =>
          rw [deliverNumber, deliver_whole opened] at read
          cases read
        | some number =>
          rw [deliverNumber, deliver_whole opened] at read
          cases read
      have stops : phase.next '{' = none := by cases phase <;> rfl
      have other : ¬ (phase = .sign ∧ '{' = 'I') := by
        rintro ⟨_, same⟩
        cases same
      unfold step stepNumber
      rw [mode]
      simp only [if_neg other, stops, is_number, top]
      cases number <;> rfl
    · cases read
  · unfold whole at read
    split at read
    · rename_i mode
      unfold step
      rw [mode]
      simp only [stepRest, mode]
      rfl
    · cases read

end Scan

section
variable {F : Type} {floats : Floats F}

/-- The text of a value is read as that value. -/
theorem loads_dumps {v : Value F} (canonical : v.Canonical) : loads floats (dumps floats v) = .ok v := by
  have reads : Scan.Reads floats (dumps floats v) v := Scan.reads_dumps v canonical
  obtain ⟨s, ran, alike⟩ := reads [] false
  have read : s.finish floats = .ok v := by
    rw [alike.finish]
    rfl
  unfold loads
  exact bind_ok.mpr ⟨s, ran, read⟩

variable (floats) in
theorem dumps_object (members : List (String × Value F)) :
    ∃ body, dumps floats (.obj members) = '{' :: (body ++ ['}']) := by
  rcases members with _ | ⟨⟨key, v⟩, rest⟩
  · exact ⟨[], rfl⟩
  · exact ⟨quote key ++ ':' :: (dumps floats v ++ dumpsMembers floats rest), by simp [dumps]⟩

/-- An object's text that is cut short is no JSON. -/
theorem loads_cut {members : List (String × Value F)} (canonical : (Value.obj members).Canonical)
    {beginning rest : List Char} (parted : dumps floats (.obj members) = beginning ++ rest)
    (cut : rest ≠ []) : loads floats beginning = .error .malformed := by
  have reads : Scan.Reads floats (dumps floats (.obj members)) (.obj members) :=
    Scan.reads_dumps (.obj members) canonical
  obtain ⟨s, ran, _⟩ := reads [] false
  rw [parted, Scan.run_append] at ran
  obtain ⟨mid, reached, completed⟩ := bind_ok.mp ran
  obtain ⟨body, shape⟩ := dumps_object floats members
  cases beginning with
  | nil => rfl
  | cons c beginning =>
    rw [parted, List.cons_append] at shape
    injection shape with brace shape
    have opened : Scan.step floats (⟨.value, [], false⟩ : Scan F) c =
        .ok ⟨.firstKey, [.obj []], false⟩ := by
      rw [brace]
      rfl
    have after := reached
    rw [Scan.run_step opened] at after
    -- a value that is whole lets blanks follow, and the brace at the end is none
    have inside : Scan.Inside mid := by
      rcases Scan.within_run (Or.inl ⟨by simp, by simp⟩) after with inside | done
      · exact inside
      · have last : '}' ∈ rest := by
          have ending := congrArg List.getLast? shape
          rw [List.getLast?_append_of_ne_nil _ cut, List.getLast?_concat] at ending
          exact List.mem_of_getLast? ending
        have blank := Scan.done_run done completed '}' last
        cases blank
    unfold loads
    exact bind_error.mpr (Or.inr ⟨mid, reached, Scan.inside_finish inside⟩)

/-- No value follows a value. -/
theorem loads_then_brace {text rest : List Char} {v : Value F} (read : loads floats text = .ok v) :
    loads floats (text ++ '{' :: rest) = .error .malformed := by
  obtain ⟨s, ran, read⟩ := bind_ok.mp read
  unfold loads
  refine bind_error.mpr (Or.inl ?_)
  rw [Scan.run_then ran, Scan.run_cons, Scan.finish_then_brace read]
  rfl

/- A text is one line. -/

theorem escape_line (c : Char) : '\n' ∉ escape c := by
  have digits : ∀ n < 16, hexDigit n ≠ '\n' := by decide
  unfold escape
  split
  case h_8 line _ _ _ _ =>
    split
    · rename_i low
      have first := digits (c.toNat / 16) (by omega)
      have second := digits (c.toNat % 16) (by omega)
      simp [first.symm, second.symm]
    · simpa using Ne.symm line
  all_goals decide

theorem quote_line (text : String) : '\n' ∉ quote text := by
  unfold quote
  simp [escape_line]

theorem after_line {p q : Phase} {text : List Char} (path : p.after text = some q) : '\n' ∉ text := by
  induction text generalizing p with
  | nil => simp
  | cons c rest ih =>
    unfold Phase.after at path
    rw [List.foldlM_cons] at path
    obtain ⟨mid, next, path⟩ := Option.bind_eq_some_iff.mp path
    intro mem
    rcases List.mem_cons.mp mem with rfl | mem
    · cases p <;> cases next
    · exact ih path mem

theorem start_line {q : Phase} {text : List Char} (path : Phase.start text = some q) :
    '\n' ∉ text := by
  unfold Phase.start at path
  split at path
  · have rest := after_line path
    simpa using rest
  · exact after_line path

theorem repr_line (x : F) : '\n' ∉ floats.repr x := by
  have lexeme := floats.lexeme x
  unfold isFloatText at lexeme
  rw [Bool.or_eq_true, decide_eq_true_eq, decide_eq_true_eq] at lexeme
  rcases lexeme with path | path
  · exact start_line path
  · exact start_line path

mutual
theorem dumps_line (v : Value F) : '\n' ∉ dumps floats v := by
  match v with
  | .null => simp [dumps]
  | .bool true => simp [dumps]
  | .bool false => simp [dumps]
  | .int z => exact start_line (Scan.intText_start z)
  | .float x => exact repr_line x
  | .str text => exact quote_line text
  | .arr [] => simp [dumps]
  | .arr (v :: rest) =>
    unfold dumps
    simp [dumps_line v, dumpsItems_line rest]
  | .obj [] => simp [dumps]
  | .obj ((key, v) :: rest) =>
    unfold dumps
    simp [quote_line, dumps_line v, dumpsMembers_line rest]

theorem dumpsItems_line (items : List (Value F)) : '\n' ∉ dumpsItems floats items := by
  match items with
  | [] => simp [dumpsItems]
  | v :: rest =>
    unfold dumpsItems
    simp [dumps_line v, dumpsItems_line rest]

theorem dumpsMembers_line (members : List (String × Value F)) :
    '\n' ∉ dumpsMembers floats members := by
  match members with
  | [] => simp [dumpsMembers]
  | (key, v) :: rest =>
    unfold dumpsMembers
    simp [quote_line, dumps_line v, dumpsMembers_line rest]
end

end

end JsonText
