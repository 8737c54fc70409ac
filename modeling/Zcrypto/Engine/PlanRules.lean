import Mathlib.Tactic.NormNum
import Zcrypto.Engine.PlanDocument
import Zcrypto.Fallible

/- What the parser accepts: the documents that say a plan every rule holds of, and no other. What else it
   raises than its own error, and for which values. -/
namespace ProbePlans
open Fallible

/-- How a field says an amount: null for none, else a number that is a double. -/
inductive Amounts : Doc → Option ℚ → Prop where
  | nothing : Amounts .null none
  | int (n : Int) (small : n.natAbs < floatLimit) : Amounts (.int n) (some n)
  | num (q : ℚ) : Amounts (.num q) (some q)

inductive Counts : Doc → Option Nat → Prop where
  | nothing : Counts .null none
  | int (n : Nat) : Counts (.int n) (some n)

/-- The document's fields, one by one, for the intent's. -/
structure IntentReads (fields : List (String × Doc)) (i : ProbeIntent) : Prop where
  keys : ∀ key ∈ fields.map Prod.fst, key ∈ intentKeys
  symbol : (valueAt fields "symbol").text? = some i.symbol.name
  side : (valueAt fields "side").text? = some i.side.text
  action : (valueAt fields "action").text? = some i.action.text
  mode : (valueAt fields "mode").text? = some i.mode.text
  notional : Amounts (valueAt fields "notional_eur") i.notionalEur
  qty : Amounts (valueAt fields "qty") i.qty
  leverage : Counts (valueAt fields "leverage") i.leverage
  offset : Amounts (valueAt fields "offset_pct") i.offsetPct
  hold : Counts (valueAt fields "hold_minutes") i.holdMinutes

/-- What each mode requires and forbids. -/
structure RestShape (mode : Mode) (action : Action) (offset : Option ℚ) (hold : Option Nat) : Prop where
  resting : mode = .restHold → action = .opening ∧ (∃ p, offset = some p ∧ 0 < p) ∧
    ∃ m : Nat, hold = some m ∧ (1 : Int) ≤ m ∧ m ≤ maxHoldMinutes
  other : mode ≠ .restHold → offset = none ∧ hold = none

structure IntentShape (i : ProbeIntent) : Prop where
  known : i.symbol ∈ basket
  notional : ∀ n, i.notionalEur = some n → 0 < n
  qty : ∀ q, i.qty = some q → 0 < q
  one : i.notionalEur.isSome ≠ i.qty.isSome
  leverage : ∀ n : Nat, i.leverage = some n → minLeverage ≤ n ∧ n ≤ maxLeverage
  rest : RestShape i.mode i.action i.offsetPct i.holdMinutes
  disposal : i.qty.isSome → i.action = .closing ∧ i.leverage = none

structure PlanReads (fields : List (String × Doc)) (items : List Doc) (plan : ProbePlan) : Prop where
  keys : ∀ key ∈ fields.map Prod.fst, key ∈ planKeys
  planId : (valueAt fields "plan_id").text? = some plan.planId
  createdAt : ∃ written, valueAt fields "created_at" = .stamp written plan.createdAt true
  intents : valueAt fields "intents" = .arr items
  each : List.Forall₂ (fun item i => ∃ fields, item = .obj fields ∧ IntentReads fields i) items
    plan.intents

structure PlanShape (plan : ProbePlan) : Prop where
  named : ∃ c ∈ plan.planId.toList, DecimalText.isSpace c = false
  some_intents : plan.intents ≠ []
  each : ∀ i ∈ plan.intents, IntentShape i

section
variable {v offset hold : Doc} {fields : List (String × Doc)} {keys : List String} {e : PlanError}

/- Field by field. -/

theorem checkKeys_ok : checkKeys fields keys = .ok () ↔ ∀ key ∈ fields.map Prod.fst, key ∈ keys := by
  unfold checkKeys
  split
  · rename_i none_unknown
    rw [List.filter_eq_nil_iff] at none_unknown
    simpa using none_unknown
  · rename_i unknown some_unknown
    constructor
    · intro read
      cases read
    · intro known
      have empty : (fields.map Prod.fst).filter (· ∉ keys) = [] := by
        rw [List.filter_eq_nil_iff]
        simpa using known
      exact absurd empty some_unknown

theorem basket_find (p : Pair) : basket.find? (·.name = p.name) = some p := by
  cases p <;> rfl

theorem parseSymbol_ok {p : Pair} : parseSymbol v = .ok p ↔ v.text? = some p.name := by
  unfold parseSymbol
  constructor
  · intro read
    split at read
    · rename_i pair found
      obtain ⟨s, text, hit⟩ := Option.bind_eq_some_iff.mp found
      have named := List.find?_some hit
      injection read with same
      rw [text, ← same]
      exact congrArg some (of_decide_eq_true named).symm
    · cases read
  · intro text
    rw [text, Option.bind_some, basket_find]

theorem parseWord_ok {α : Type} {name : String} {words : List α} {spelt : α → String} {word : α}
    (finds : ∀ w, words.find? (spelt · = spelt w) = some w) :
    parseWord name words spelt v = .ok word ↔ v.text? = some (spelt word) := by
  have word_read : (v.text?.bind fun s => words.find? (spelt · = s)).elim
      (.error (.field name "must be one of its words") : Except PlanError α) .ok = .ok word ↔
        v.text? = some (spelt word) := by
    constructor
    · intro read
      cases found : v.text?.bind fun s => words.find? (spelt · = s) with
      | some found_word =>
        obtain ⟨s, text, hit⟩ := Option.bind_eq_some_iff.mp found
        have named := List.find?_some hit
        rw [found] at read
        injection read with same
        rw [text, ← same]
        exact congrArg some (of_decide_eq_true named).symm
      | none =>
        rw [found] at read
        cases read
    · intro text
      rw [text, Option.bind_some, finds]
      rfl
  cases v with
  | arr items => exact ⟨fun read => (by cases read), fun text => (by cases text)⟩
  | obj members => exact ⟨fun read => (by cases read), fun text => (by cases text)⟩
  | _ =>
    rw [← word_read]
    simp only [parseWord]
    split
    · rename_i found
      rw [found]
      rfl
    · rename_i found
      rw [found]
      rfl

theorem parseSide_ok {s : Side} : parseSide v = .ok s ↔ v.text? = some s.text :=
  parseWord_ok fun w => by cases w <;> rfl

theorem parseAction_ok {a : Action} : parseAction v = .ok a ↔ v.text? = some a.text :=
  parseWord_ok fun w => by cases w <;> rfl

theorem parseMode_ok {m : Mode} : parseMode v = .ok m ↔ v.text? = some m.text :=
  parseWord_ok fun w => by cases w <;> rfl

theorem positive_ok {name : String} {q r : ℚ} : positive name q = .ok r ↔ q = r ∧ 0 < q := by
  unfold positive
  split
  · rename_i pos
    simp [pos]
  · rename_i pos
    simp [pos]

theorem parsePositiveNumber_ok {name : String} {q : ℚ} :
    parsePositiveNumber name v = .ok q ↔ Amounts v (some q) ∧ 0 < q := by
  constructor
  · intro read
    cases v with
    | int n =>
      simp only [parsePositiveNumber] at read
      split at read
      · cases read
      · rename_i small
        obtain ⟨same, pos⟩ := positive_ok.mp read
        rw [← same]
        exact ⟨.int n (not_le.mp small), pos⟩
    | num r =>
      obtain ⟨same, pos⟩ := positive_ok.mp read
      rw [← same]
      exact ⟨.num r, pos⟩
    | _ => cases read
  · rintro ⟨amounts, pos⟩
    cases amounts with
    | int n small =>
      simp only [parsePositiveNumber]
      rw [if_neg (not_le.mpr small)]
      exact positive_ok.mpr ⟨rfl, pos⟩
    | num => exact positive_ok.mpr ⟨rfl, pos⟩

theorem isNull_iff : v.isNull = true ↔ v = .null := by
  cases v <;> simp [Doc.isNull]

theorem Amounts.isNull {a : Option ℚ} (amounts : Amounts v a) : v.isNull = a.isNone := by
  cases amounts <;> rfl

theorem Counts.isNull {n : Option Nat} (counts : Counts v n) : v.isNull = n.isNone := by
  cases counts <;> rfl

theorem parseAmount_ok {name : String} {a : Option ℚ} :
    parseAmount name v = .ok a ↔ Amounts v a ∧ ∀ q, a = some q → 0 < q := by
  unfold parseAmount
  by_cases null : v.isNull = true
  · rw [if_pos null, isNull_iff.mp null]
    constructor
    · intro read
      injection read with same
      rw [← same]
      exact ⟨.nothing, fun q some_q => by cases some_q⟩
    · rintro ⟨amounts, _⟩
      cases amounts
      rfl
  · rw [if_neg null]
    constructor
    · intro read
      cases number : parsePositiveNumber name v with
      | error e =>
        rw [number] at read
        cases read
      | ok q =>
        rw [number] at read
        injection read with same
        obtain ⟨amounts, pos⟩ := parsePositiveNumber_ok.mp number
        rw [← same]
        refine ⟨amounts, ?_⟩
        intro r some_r
        injection some_r with same
        rw [← same]
        exact pos
    · rintro ⟨amounts, pos⟩
      cases a with
      | none =>
        rw [amounts.isNull] at null
        exact absurd rfl null
      | some q =>
        rw [parsePositiveNumber_ok.mpr ⟨amounts, pos q rfl⟩]
        rfl

/-- An integer in a band that starts above nothing is a count. -/
theorem band_counts {n low high : Int} (above : low ≤ n) (below : n ≤ high) (start : 0 ≤ low) :
    Counts (.int n) (some n.toNat) ∧ low ≤ (n.toNat : Int) ∧ (n.toNat : Int) ≤ high := by
  have same : (n.toNat : Int) = n := Int.toNat_of_nonneg (start.trans above)
  have counts := Counts.int n.toNat
  rw [same] at counts ⊢
  exact ⟨counts, above, below⟩

theorem parseLeverage_ok {l : Option Nat} : parseLeverage v = .ok l ↔
    Counts v l ∧ ∀ n : Nat, l = some n → minLeverage ≤ n ∧ n ≤ maxLeverage := by
  constructor
  · intro read
    cases v with
    | null =>
      injection read with same
      rw [← same]
      exact ⟨.nothing, fun n some_n => by cases some_n⟩
    | int n =>
      simp only [parseLeverage] at read
      split at read
      · rename_i band
        injection read with same
        obtain ⟨counts, low, high⟩ := band_counts band.1 band.2 (by decide)
        rw [← same]
        refine ⟨counts, ?_⟩
        intro m some_m
        injection some_m with same
        rw [← same]
        exact ⟨low, high⟩
      · cases read
    | _ => cases read
  · rintro ⟨counts, band⟩
    cases counts with
    | nothing => rfl
    | int n =>
      simp only [parseLeverage]
      rw [if_pos (band n rfl), Int.toNat_natCast]

theorem parseHoldMinutes_ok {n : Nat} : parseHoldMinutes v = .ok n ↔
    Counts v (some n) ∧ (1 : Int) ≤ n ∧ n ≤ maxHoldMinutes := by
  constructor
  · intro read
    cases v with
    | int m =>
      simp only [parseHoldMinutes] at read
      split at read
      · rename_i band
        injection read with same
        rw [← same]
        exact band_counts band.1 band.2 (by decide)
      · cases read
    | _ => cases read
  · rintro ⟨counts, band⟩
    cases counts with
    | int n =>
      simp only [parseHoldMinutes]
      rw [if_pos band, Int.toNat_natCast]

theorem parseRest_ok {mode : Mode} {action : Action} {o : Option ℚ} {h : Option Nat} :
    parseRest mode action offset hold = .ok (o, h) ↔
      Amounts offset o ∧ Counts hold h ∧ RestShape mode action o h := by
  unfold parseRest
  by_cases resting : mode = .restHold
  · rw [if_pos resting]
    constructor
    · intro read
      split at read
      · cases read
      split at read
      · cases read
      rename_i opening
      obtain ⟨p, offset_read, read⟩ := bind_ok.mp read
      obtain ⟨m, hold_read, read⟩ := bind_ok.mp read
      injection read with same
      injection same with same_offset same_hold
      obtain ⟨amounts, pos⟩ := parsePositiveNumber_ok.mp offset_read
      obtain ⟨counts, band⟩ := parseHoldMinutes_ok.mp hold_read
      rw [← same_offset, ← same_hold]
      refine ⟨amounts, counts, ?_, fun other => absurd resting other⟩
      exact fun _ => ⟨not_not.mp opening, ⟨p, rfl, pos⟩, m, rfl, band⟩
    · rintro ⟨amounts, counts, shape⟩
      obtain ⟨opening, ⟨p, some_p, pos⟩, m, some_m, band⟩ := shape.resting resting
      subst some_p
      subst some_m
      have present : ¬ (offset.isNull || hold.isNull) = true := by
        rw [amounts.isNull, counts.isNull]
        exact Bool.false_ne_true
      rw [if_neg present, if_neg (not_not.mpr opening), parsePositiveNumber_ok.mpr ⟨amounts, pos⟩,
        parseHoldMinutes_ok.mpr ⟨counts, band⟩]
      rfl
  · rw [if_neg resting]
    constructor
    · intro read
      split at read
      · cases read
      · rename_i nulls
        injection read with same
        injection same with same_offset same_hold
        have absent : offset.isNull = true ∧ hold.isNull = true := by simpa using nulls
        rw [← same_offset, ← same_hold, isNull_iff.mp absent.1, isNull_iff.mp absent.2]
        exact ⟨.nothing, .nothing, fun same => absurd same resting, fun _ => ⟨rfl, rfl⟩⟩
    · rintro ⟨amounts, counts, shape⟩
      obtain ⟨no_offset, no_hold⟩ := shape.other resting
      subst no_offset
      subst no_hold
      have absent : ¬ (!offset.isNull || !hold.isNull) = true := by
        rw [amounts.isNull, counts.isNull]
        exact Bool.false_ne_true
      rw [if_neg absent]

/- An intent. -/

theorem parseIntent_ok {i : ProbeIntent} :
    parseIntent (.obj fields) = .ok i ↔ IntentReads fields i ∧ IntentShape i := by
  constructor
  · intro read
    simp only [parseIntent] at read
    obtain ⟨keys_ok, read⟩ := then_ok.mp read
    obtain ⟨symbol, symbol_ok, read⟩ := bind_ok.mp read
    obtain ⟨side, side_ok, read⟩ := bind_ok.mp read
    obtain ⟨action, action_ok, read⟩ := bind_ok.mp read
    obtain ⟨mode, mode_ok, read⟩ := bind_ok.mp read
    split at read
    · cases read
    rename_i one
    obtain ⟨notional, notional_ok, read⟩ := bind_ok.mp read
    obtain ⟨qty, qty_ok, read⟩ := bind_ok.mp read
    obtain ⟨leverage, leverage_ok, read⟩ := bind_ok.mp read
    obtain ⟨rest, rest_ok, read⟩ := bind_ok.mp read
    split at read
    · cases read
    rename_i disposal
    injection read with same
    obtain ⟨notional_amount, notional_pos⟩ := parseAmount_ok.mp notional_ok
    obtain ⟨qty_amount, qty_pos⟩ := parseAmount_ok.mp qty_ok
    obtain ⟨leverage_count, leverage_band⟩ := parseLeverage_ok.mp leverage_ok
    obtain ⟨offset_amount, hold_count, rest_shape⟩ := parseRest_ok.mp rest_ok
    subst same
    constructor
    · exact ⟨checkKeys_ok.mp keys_ok, parseSymbol_ok.mp symbol_ok, parseSide_ok.mp side_ok,
        parseAction_ok.mp action_ok, parseMode_ok.mp mode_ok, notional_amount, qty_amount, leverage_count,
        offset_amount, hold_count⟩
    · refine ⟨?_, notional_pos, qty_pos, ?_, leverage_band, rest_shape, ?_⟩
      · exact List.mem_of_find?_eq_some (basket_find symbol)
      · intro same
        apply one
        rw [notional_amount.isNull, qty_amount.isNull, ← Option.not_isSome, ← Option.not_isSome]
        exact congrArg not same
      · intro some_qty
        by_contra other
        apply disposal
        refine ⟨some_qty, ?_⟩
        by_cases closing : action = .closing
        · right
          cases leverage with
          | none => exact absurd ⟨closing, rfl⟩ other
          | some n => rfl
        · exact Or.inl closing
  · rintro ⟨reads, shape⟩
    have one : ¬ (valueAt fields "notional_eur").isNull = (valueAt fields "qty").isNull := by
      rw [reads.notional.isNull, reads.qty.isNull, ← Option.not_isSome, ← Option.not_isSome]
      exact fun same => shape.one (Bool.not_inj same)
    have disposal : ¬ (i.qty.isSome ∧ (i.action ≠ .closing ∨ i.leverage.isSome)) := by
      rintro ⟨some_qty, other⟩
      obtain ⟨closing, spot⟩ := shape.disposal some_qty
      rcases other with open_ | margin
      · exact open_ closing
      · rw [spot] at margin
        cases margin
    simp only [parseIntent]
    rw [then_ok]
    refine ⟨checkKeys_ok.mpr reads.keys, ?_⟩
    rw [parseSymbol_ok.mpr reads.symbol, parseSide_ok.mpr reads.side, parseAction_ok.mpr reads.action,
      parseMode_ok.mpr reads.mode]
    show (if _ then _ else _) = _
    rw [if_neg one, parseAmount_ok.mpr ⟨reads.notional, shape.notional⟩,
      parseAmount_ok.mpr ⟨reads.qty, shape.qty⟩, parseLeverage_ok.mpr ⟨reads.leverage, shape.leverage⟩]
    show (parseRest i.mode i.action _ _ >>= _) = _
    rw [parseRest_ok.mpr ⟨reads.offset, reads.hold, shape.rest⟩]
    show (if _ then _ else _) = _
    rw [if_neg disposal]

theorem parseItem_ok {item : Doc} {i : ProbeIntent} : parseIntent item = .ok i ↔
    (∃ fields, item = .obj fields ∧ IntentReads fields i) ∧ IntentShape i := by
  cases item with
  | obj fields =>
    rw [parseIntent_ok]
    constructor
    · rintro ⟨reads, shape⟩
      exact ⟨⟨fields, rfl, reads⟩, shape⟩
    · rintro ⟨⟨others, same, reads⟩, shape⟩
      injection same with same
      exact ⟨same ▸ reads, shape⟩
  | _ =>
    constructor
    · intro read
      cases read
    · rintro ⟨⟨fields, same, _⟩, _⟩
      cases same

/- A plan. -/

theorem parsePlanId_ok {id : PlanId} : parsePlanId v = .ok id ↔
    v.text? = some id ∧ ∃ c ∈ id.toList, DecimalText.isSpace c = false := by
  unfold parsePlanId
  cases text : v.text? with
  | none => exact ⟨fun read => (by cases read), fun named => (by cases named.1)⟩
  | some s =>
    constructor
    · intro read
      simp only at read
      split at read
      · cases read
      · rename_i visible
        injection read with same
        rw [← same]
        exact ⟨rfl, by simpa using visible⟩
    · rintro ⟨same, c, mem, visible⟩
      injection same with same
      subst same
      have not_all : ¬ s.toList.all DecimalText.isSpace = true := by
        intro all
        rw [List.all_eq_true.mp all c mem] at visible
        cases visible
      simp only
      rw [if_neg not_all]

theorem parseCreatedAt_ok {t : Int} :
    parseCreatedAt v = .ok t ↔ ∃ written, v = .stamp written t true := by
  constructor
  · intro read
    cases v with
    | stamp written instant aware =>
      simp only [parseCreatedAt] at read
      split at read
      · rename_i is_aware
        injection read with same
        exact ⟨written, by rw [same, is_aware]⟩
      · cases read
    | _ => cases read
  · rintro ⟨written, same⟩
    rw [same]
    rfl

theorem parseIntents_ok {is : List ProbeIntent} : parseIntents v = .ok is ↔
    ∃ items, v = .arr items ∧ items ≠ [] ∧ items.mapM parseIntent = .ok is := by
  constructor
  · intro read
    cases v with
    | arr items =>
      cases items with
      | nil => cases read
      | cons item rest => exact ⟨_, rfl, List.cons_ne_nil _ _, read⟩
    | _ => cases read
  · rintro ⟨items, same, some_items, read⟩
    rw [same]
    cases items with
    | nil => exact absurd rfl some_items
    | cons item rest => exact read

theorem forall₂_and {α β : Type} {R : α → β → Prop} {P : β → Prop} {xs : List α} {ys : List β} :
    List.Forall₂ (fun x y => R x y ∧ P y) xs ys ↔ List.Forall₂ R xs ys ∧ ∀ y ∈ ys, P y := by
  constructor
  · intro pairs
    refine ⟨pairs.imp fun _ _ both => both.1, ?_⟩
    intro y mem
    obtain ⟨x, _, both⟩ := partner_of pairs mem
    exact both.2
  · rintro ⟨pairs, each⟩
    induction pairs with
    | nil => exact .nil
    | cons here _ ih =>
      exact .cons ⟨here, each _ List.mem_cons_self⟩ (ih fun y mem => each y (List.mem_cons_of_mem _ mem))

theorem parsePlan_ok {plan : ProbePlan} : parsePlan (some (.obj fields)) = .ok plan ↔
    (∃ items, PlanReads fields items plan) ∧ PlanShape plan := by
  have each : ∀ {items : List Doc} {is : List ProbeIntent}, items.mapM parseIntent = .ok is ↔
      List.Forall₂ (fun item i => ∃ fields, item = .obj fields ∧ IntentReads fields i) items is ∧
        ∀ i ∈ is, IntentShape i := by
    intro items is
    rw [mapM_ok, ← forall₂_and]
    simp only [parseItem_ok]
  constructor
  · intro read
    simp only [parsePlan] at read
    obtain ⟨keys_ok, read⟩ := then_ok.mp read
    obtain ⟨planId, id_ok, read⟩ := bind_ok.mp read
    obtain ⟨createdAt, created_ok, read⟩ := bind_ok.mp read
    obtain ⟨intents, intents_ok, read⟩ := bind_ok.mp read
    injection read with same
    obtain ⟨text, visible⟩ := parsePlanId_ok.mp id_ok
    obtain ⟨items, listed, some_items, pass⟩ := parseIntents_ok.mp intents_ok
    obtain ⟨pairs, shapes⟩ := each.mp pass
    subst same
    refine ⟨⟨items, checkKeys_ok.mp keys_ok, text, parseCreatedAt_ok.mp created_ok, listed, pairs⟩,
      visible, ?_, shapes⟩
    intro none_left
    have empty : intents = [] := none_left
    rw [empty, List.forall₂_nil_right_iff] at pairs
    exact some_items pairs
  · rintro ⟨⟨items, reads⟩, shape⟩
    have some_items : items ≠ [] := by
      intro none_left
      have pairs := reads.each
      rw [none_left, List.forall₂_nil_left_iff] at pairs
      exact shape.some_intents pairs
    simp only [parsePlan]
    rw [then_ok]
    refine ⟨checkKeys_ok.mpr reads.keys, ?_⟩
    rw [parsePlanId_ok.mpr ⟨reads.planId, shape.named⟩, parseCreatedAt_ok.mpr reads.createdAt,
      parseIntents_ok.mpr ⟨items, reads.intents, some_items, each.mpr ⟨reads.each, shape.each⟩⟩]
    rfl

/- What else is raised. -/

/-- The parser's own error. -/
def PlanError.Own (e : PlanError) : Prop := e ≠ .typeError ∧ e ≠ .overflowError ∧ e ≠ .valueError

/-- A list or an object, which has no hash. -/
def Doc.Unhashable : Doc → Prop
  | .arr _ => True
  | .obj _ => True
  | _ => False

/-- An integer that is no double. -/
def Doc.Huge : Doc → Prop
  | .int n => floatLimit ≤ n.natAbs
  | _ => False

/-- What an intent may raise past the parser's own error, and the field it is raised for. -/
def RaisesPast (fields : List (String × Doc)) (e : PlanError) : Prop :=
  (e = .typeError ∧ ∃ key ∈ ["side", "action", "mode"], (valueAt fields key).Unhashable) ∨
  (e = .overflowError ∧ ∃ key ∈ ["notional_eur", "qty", "offset_pct"], (valueAt fields key).Huge)

def Doc.items : Doc → List Doc
  | .arr items => items
  | _ => []

theorem own_field (name what : String) : (PlanError.field name what).Own := by
  refine ⟨?_, ?_, ?_⟩
  all_goals
    intro same
    cases same

theorem checkKeys_error (failed : checkKeys fields keys = .error e) : e.Own := by
  unfold checkKeys at failed
  split at failed
  · cases failed
  · injection failed with same
    rw [← same]
    refine ⟨?_, ?_, ?_⟩
    all_goals
      intro same
      cases same

theorem parseSymbol_error (failed : parseSymbol v = .error e) : e.Own := by
  unfold parseSymbol at failed
  split at failed
  · cases failed
  · injection failed with same
    rw [← same]
    exact own_field _ _

theorem parseWord_error {α : Type} {name : String} {words : List α} {spelt : α → String}
    (failed : parseWord name words spelt v = .error e) : e.Own ∨ (e = .typeError ∧ v.Unhashable) := by
  cases v with
  | arr items =>
    injection failed with same
    exact Or.inr ⟨same.symm, trivial⟩
  | obj members =>
    injection failed with same
    exact Or.inr ⟨same.symm, trivial⟩
  | _ =>
    left
    simp only [parseWord] at failed
    split at failed
    · cases failed
    · injection failed with same
      rw [← same]
      exact own_field _ _

theorem positive_error {name : String} {q : ℚ} (failed : positive name q = .error e) : e.Own := by
  unfold positive at failed
  split at failed
  · cases failed
  · injection failed with same
    rw [← same]
    exact own_field _ _

theorem parsePositiveNumber_error {name : String} (failed : parsePositiveNumber name v = .error e) :
    e.Own ∨ (e = .overflowError ∧ v.Huge) := by
  cases v with
  | int n =>
    simp only [parsePositiveNumber] at failed
    split at failed
    · rename_i huge
      injection failed with same
      exact Or.inr ⟨same.symm, huge⟩
    · exact Or.inl (positive_error failed)
  | num q => exact Or.inl (positive_error failed)
  | _ =>
    injection failed with same
    rw [← same]
    exact Or.inl (own_field _ _)

theorem parseAmount_error {name : String} (failed : parseAmount name v = .error e) :
    e.Own ∨ (e = .overflowError ∧ v.Huge) := by
  unfold parseAmount at failed
  split at failed
  · cases failed
  · cases number : parsePositiveNumber name v with
    | error e' =>
      rw [number] at failed
      injection failed with same
      rw [← same]
      exact parsePositiveNumber_error number
    | ok q =>
      rw [number] at failed
      cases failed

theorem parseLeverage_error (failed : parseLeverage v = .error e) : e.Own := by
  cases v with
  | null => cases failed
  | int n =>
    simp only [parseLeverage] at failed
    split at failed
    · cases failed
    · injection failed with same
      rw [← same]
      exact own_field _ _
  | _ =>
    injection failed with same
    rw [← same]
    exact own_field _ _

theorem parseHoldMinutes_error (failed : parseHoldMinutes v = .error e) : e.Own := by
  cases v with
  | int n =>
    simp only [parseHoldMinutes] at failed
    split at failed
    · cases failed
    · injection failed with same
      rw [← same]
      exact own_field _ _
  | _ =>
    injection failed with same
    rw [← same]
    exact own_field _ _

theorem parseRest_error {mode : Mode} {action : Action}
    (failed : parseRest mode action offset hold = .error e) :
    e.Own ∨ (e = .overflowError ∧ offset.Huge) := by
  have own : ∀ {name what : String} {α : Type},
      (.error (.field name what) : Except PlanError α) = .error e → e.Own := by
    intro name what α same
    injection same with same
    rw [← same]
    exact own_field _ _
  unfold parseRest at failed
  split at failed
  · split at failed
    · exact Or.inl (own failed)
    split at failed
    · exact Or.inl (own failed)
    rcases bind_error.mp failed with first | ⟨p, _, failed⟩
    · exact parsePositiveNumber_error first
    · rcases bind_error.mp failed with second | ⟨m, _, failed⟩
      · exact Or.inl (parseHoldMinutes_error second)
      · cases failed
  · split at failed
    · exact Or.inl (own failed)
    · cases failed

theorem parseIntent_error (failed : parseIntent (.obj fields) = .error e) :
    e.Own ∨ RaisesPast fields e := by
  have word : ∀ key ∈ ["side", "action", "mode"],
      e.Own ∨ (e = .typeError ∧ (valueAt fields key).Unhashable) → e.Own ∨ RaisesPast fields e := by
    intro key mem outcome
    rcases outcome with own | ⟨type, unhashable⟩
    · exact Or.inl own
    · exact Or.inr (Or.inl ⟨type, key, mem, unhashable⟩)
  have amount : ∀ key ∈ ["notional_eur", "qty", "offset_pct"],
      e.Own ∨ (e = .overflowError ∧ (valueAt fields key).Huge) → e.Own ∨ RaisesPast fields e := by
    intro key mem outcome
    rcases outcome with own | ⟨overflow, huge⟩
    · exact Or.inl own
    · exact Or.inr (Or.inr ⟨overflow, key, mem, huge⟩)
  simp only [parseIntent] at failed
  rcases bind_error.mp failed with keys_failed | ⟨_, _, failed⟩
  · exact Or.inl (checkKeys_error keys_failed)
  rcases bind_error.mp failed with symbol | ⟨_, _, failed⟩
  · exact Or.inl (parseSymbol_error symbol)
  rcases bind_error.mp failed with side | ⟨_, _, failed⟩
  · exact word "side" (by simp) (parseWord_error side)
  rcases bind_error.mp failed with action | ⟨_, _, failed⟩
  · exact word "action" (by simp) (parseWord_error action)
  rcases bind_error.mp failed with mode | ⟨_, _, failed⟩
  · exact word "mode" (by simp) (parseWord_error mode)
  split at failed
  · injection failed with same
    rw [← same]
    exact Or.inl (own_field _ _)
  rcases bind_error.mp failed with notional | ⟨_, _, failed⟩
  · exact amount "notional_eur" (by simp) (parseAmount_error notional)
  rcases bind_error.mp failed with qty | ⟨_, _, failed⟩
  · exact amount "qty" (by simp) (parseAmount_error qty)
  rcases bind_error.mp failed with leverage | ⟨_, _, failed⟩
  · exact Or.inl (parseLeverage_error leverage)
  rcases bind_error.mp failed with rest | ⟨_, _, failed⟩
  · exact amount "offset_pct" (by simp) (parseRest_error rest)
  split at failed
  · injection failed with same
    rw [← same]
    exact Or.inl (own_field _ _)
  · cases failed

theorem parsePlan_error (failed : parsePlan (some (.obj fields)) = .error e) : e.Own ∨
    ∃ members, .obj members ∈ (valueAt fields "intents").items ∧ RaisesPast members e := by
  simp only [parsePlan] at failed
  rcases bind_error.mp failed with keys_failed | ⟨_, _, failed⟩
  · exact Or.inl (checkKeys_error keys_failed)
  rcases bind_error.mp failed with planId | ⟨_, _, failed⟩
  · left
    unfold parsePlanId at planId
    split at planId
    · split at planId
      · injection planId with same
        rw [← same]
        exact own_field _ _
      · cases planId
    · injection planId with same
      rw [← same]
      exact own_field _ _
  rcases bind_error.mp failed with createdAt | ⟨_, _, failed⟩
  · left
    unfold parseCreatedAt at createdAt
    split at createdAt
    · split at createdAt
      · cases createdAt
      · injection createdAt with same
        rw [← same]
        exact own_field _ _
    all_goals
      injection createdAt with same
      rw [← same]
      exact own_field _ _
  rcases bind_error.mp failed with intents | ⟨_, _, failed⟩
  · unfold parseIntents at intents
    split at intents
    · rename_i item rest listed
      obtain ⟨raw, mem, item_failed⟩ := mapM_error intents
      cases raw with
      | obj members =>
        rcases parseIntent_error item_failed with own | past
        · exact Or.inl own
        · refine Or.inr ⟨members, ?_, past⟩
          rw [listed]
          exact mem
      | _ =>
        injection item_failed with same
        rw [← same]
        refine Or.inl ⟨?_, ?_, ?_⟩
        all_goals
          intro same
          cases same
    · injection intents with same
      rw [← same]
      exact Or.inl (own_field _ _)
  · cases failed

/-- A text is accepted just where it reads as an object that says a plan every rule holds of, and the answer
    is this plan. Refused, it is by the parser's own error, or by Python's for an integer of too many
    digits, a side, action or mode without a hash, or an amount that is an integer beyond the doubles. -/
theorem parseText_exact (loads : String → Except LoadFault Doc) (text : String) :
    (∀ plan, parseText loads text = .ok plan ↔ ∃ fields items,
      loads text = .ok (.obj fields) ∧ PlanReads fields items plan ∧ PlanShape plan) ∧
    (∀ e, parseText loads text = .error e → e.Own ∨
      (e = .valueError ∧ loads text = .error .tooManyDigits) ∨
      ∃ fields members, loads text = .ok (.obj fields) ∧
        .obj members ∈ (valueAt fields "intents").items ∧ RaisesPast members e) := by
  have not_own : ∀ e : PlanError, e = .notJson ∨ e = .notAnObject → e.Own := by
    intro e same
    rcases same with same | same
    all_goals
      rw [same]
      refine ⟨?_, ?_, ?_⟩
      all_goals
        intro other
        cases other
  unfold parseText
  cases read : loads text with
  | error fault =>
    cases fault with
    | notJson =>
      constructor
      · intro plan
        exact ⟨fun accepted => (by cases accepted), fun ⟨_, _, same, _⟩ => (by cases same)⟩
      · intro e failed
        injection failed with same
        exact Or.inl (not_own e (Or.inl same.symm))
    | tooManyDigits =>
      constructor
      · intro plan
        exact ⟨fun accepted => (by cases accepted), fun ⟨_, _, same, _⟩ => (by cases same)⟩
      · intro e failed
        injection failed with same
        exact Or.inr (Or.inl ⟨same.symm, rfl⟩)
  | ok doc =>
    cases doc with
    | obj fields =>
      constructor
      · intro plan
        rw [parsePlan_ok]
        constructor
        · rintro ⟨⟨items, reads⟩, shape⟩
          exact ⟨fields, items, rfl, reads, shape⟩
        · rintro ⟨others, items, same, reads, shape⟩
          injection same with same
          injection same with same
          exact ⟨⟨items, same ▸ reads⟩, shape⟩
      · intro e failed
        rcases parsePlan_error failed with own | ⟨members, mem, past⟩
        · exact Or.inl own
        · exact Or.inr (Or.inr ⟨fields, members, rfl, mem, past⟩)
    | _ =>
      constructor
      · intro plan
        exact ⟨fun accepted => (by cases accepted), fun ⟨_, _, same, _⟩ => (by cases same)⟩
      · intro e failed
        injection failed with same
        exact Or.inl (not_own e (Or.inr same.symm))

end

section

/-- A plan of one buy, its side and its notional as they are given. -/
def oneBuy (side notional : Doc) : Doc :=
  .obj [("plan_id", .text "p-1"), ("created_at", .stamp "2026-01-01T12:00:00+00:00" 1767268800000000 true),
    ("intents", .arr [.obj [("symbol", .text "BTC/EUR"), ("side", side), ("action", .text "open"),
      ("mode", .text "execute"), ("notional_eur", notional)]])]

/-- A side that is a list, a notional of a one and four hundred noughts, and a number of more digits than are
    read each leave the parser as an error of Python's own. -/
theorem oneBuy_raises :
    parseText (fun _ => .ok (oneBuy (.arr [.text "buy"]) (.int 20))) "" = .error .typeError ∧
      parseText (fun _ => .ok (oneBuy (.text "buy") (.int (10 ^ 400)))) "" = .error .overflowError ∧
      parseText (fun _ => .error .tooManyDigits) "" = .error .valueError := by
  refine ⟨by decide +kernel, by decide +kernel, rfl⟩

end

end ProbePlans
