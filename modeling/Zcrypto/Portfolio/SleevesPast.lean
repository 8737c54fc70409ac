import Zcrypto.Portfolio.Sleeves
import Zcrypto.Alpha.BooksPast
import Zcrypto.Engine.SoakNet

/- What a row of a sleeve is made of: the closes through its bar, and which are missing through the next. -/
namespace Portfolio
open Alpha Prefixes Fallible Risk
open Engine (held_bookOf)

variable {k : Nat} {xs ys : Series} {ps qs : Closes}

/- The market's series filled forward. -/

theorem ffillFrom_length (last : Option ℚ) (xs : Series) : (ffillFrom last xs).length = xs.length := by
  induction xs generalizing last with
  | nil => rfl
  | cons x rest ih => cases x <;> rw [ffillFrom, List.length_cons, List.length_cons, ih]

theorem ffillFrom_take (last : Option ℚ) (xs : Series) (n : Nat) :
    (ffillFrom last xs).take n = ffillFrom last (xs.take n) := by
  induction xs generalizing last n with
  | nil => simp [ffillFrom]
  | cons x rest ih =>
    cases n with
    | zero => rfl
    | succ n => cases x <;> rw [ffillFrom, List.take_succ_cons, List.take_succ_cons, ffillFrom, ih]

/-- What is missing after the fill is what has nothing before it. -/
theorem ffillFrom_missing {last last' : Option ℚ} (seen : last.isSome = last'.isSome)
    (missing : pattern xs = pattern ys) : pattern (ffillFrom last xs) = pattern (ffillFrom last' ys) := by
  induction xs generalizing last last' ys with
  | nil =>
    cases ys with
    | nil => rfl
    | cons y rest => cases missing
  | cons x rest ih =>
    cases ys with
    | nil => cases missing
    | cons y rest' =>
      obtain ⟨here, later⟩ := List.cons.inj missing
      cases x with
      | none =>
        cases y with
        | none =>
          unfold ffillFrom pattern
          rw [List.map_cons, List.map_cons, seen]
          exact congrArg (last'.isSome :: ·) (ih seen later)
        | some q => cases here
      | some p =>
        cases y with
        | none => cases here
        | some q =>
          unfold ffillFrom pattern
          rw [List.map_cons, List.map_cons]
          exact congrArg (true :: ·) (ih rfl later)

theorem pattern_take (xs : Series) (n : Nat) : (pattern xs).take n = pattern (xs.take n) := by
  unfold pattern
  rw [List.map_take]

theorem alike_ffill (alike : Alike k xs ys) : Alike k (ffillFrom none xs) (ffillFrom none ys) where
  closes := by
    unfold Agree
    rw [ffillFrom_take, ffillFrom_take, show xs.take (k + 1) = ys.take (k + 1) from alike.closes]
  missing := by
    have missing := alike.missing
    unfold Agree at missing ⊢
    rw [pattern_take, pattern_take] at missing
    rw [pattern_take, pattern_take, ffillFrom_take, ffillFrom_take]
    exact ffillFrom_missing rfl missing
  left := by rw [ffillFrom_length]; exact alike.left
  right := by rw [ffillFrom_length]; exact alike.right

theorem allAlike_ffill {g g' : Grid} (alike : AllAlike k g.prices g'.prices) :
    AllAlike k (ffillBtc g).prices (ffillBtc g').prices := by
  unfold AllAlike ffillBtc
  rw [List.forall₂_map_left_iff, List.forall₂_map_right_iff]
  apply alike.imp
  intro x y one
  by_cases market : x.1 = "BTC"
  · rw [if_pos market, if_pos (one.1.symm.trans market)]
    exact ⟨one.1, alike_ffill one.2⟩
  · rw [if_neg market, if_neg (fun same => market (one.1.trans same))]
    exact one

theorem ffillBtc_keys (g : Grid) : (ffillBtc g).prices.map Prod.fst = g.prices.map Prod.fst := by
  unfold ffillBtc
  rw [List.map_map]
  apply List.map_congr_left
  intro item _
  simp only [Function.comp]
  split <;> rfl

/- What is held. -/

theorem lookup_same {β : Type} {ds es : List (String × β)} {R : β → β → Prop} {a : String}
    (same : List.Forall₂ (fun x y => x.1 = y.1 ∧ R x.2 y.2) ds es) :
    (ds.lookup a = none ∧ es.lookup a = none) ∨ ∃ d e, ds.lookup a = some d ∧ es.lookup a = some e ∧ R d e := by
  induction same with
  | nil => exact .inl ⟨rfl, rfl⟩
  | @cons x y xs ys one _ ih =>
    by_cases here : a = x.1
    · refine .inr ⟨x.2, y.2, ?_, ?_, one.2⟩
      · rw [here, List.lookup_cons_self]
      · rw [here, one.1, List.lookup_cons_self]
    · rw [List.lookup_cons, beq_false_of_ne here, List.lookup_cons, ← one.1, beq_false_of_ne here]
      exact ih

theorem held_same {positions positions' : Positions} (same : SameAt k positions positions') (a : String) :
    held positions a k = held positions' a k := by
  unfold held
  rcases lookup_same (R := fun d e : List ℚ => d[k]? = e[k]?) (a := a) same with ⟨none_, none_'⟩ | ⟨d, e, one, two, at_k⟩
  · rw [none_, none_']
  · rw [one, two, Option.getD_some, Option.getD_some, List.getD_eq_getElem?_getD, List.getD_eq_getElem?_getD, at_k]

theorem sameAt_bar {book book' : Positions} (same : SameAt k book book') : barAt book k = barAt book' k := by
  unfold barAt
  apply map_same
  apply same.imp
  intro x y one
  rw [List.getD_eq_getElem?_getD, List.getD_eq_getElem?_getD, one.2]

theorem sameAt_rows {assets : List String} {f g : String → Nat → ℚ} {n m : Nat} (left : k < n) (right : k < m)
    (same : ∀ a ∈ assets, f a k = g a k) :
    SameAt k (assets.map fun a => (a, (List.range n).map (f a))) (assets.map fun a => (a, (List.range m).map (g a))) := by
  unfold SameAt
  rw [List.forall₂_map_left_iff, List.forall₂_map_right_iff, List.forall₂_same]
  intro a mem
  refine ⟨rfl, ?_⟩
  rw [List.getElem?_map, List.getElem?_map, List.getElem?_range left, List.getElem?_range right, Option.map_some,
    Option.map_some, same a mem]

/- The benchmark. -/

theorem closesOf_returns (prices : Closes) (a : String) : closesOf (returnsOf prices) a = assetReturns (closesOf prices a) := by
  unfold closesOf returnsOf
  induction prices with
  | nil => rfl
  | cons item rest ih =>
    rw [List.map_cons, List.lookup_cons, List.lookup_cons]
    by_cases here : a = item.1
    · rw [beq_iff_eq.mpr here]
      rfl
    · rw [beq_false_of_ne here]
      exact ih

theorem basket_run {sqrt : ℚ → ℚ} {prices : Closes} {lookback : Nat} {basket : List ℚ}
    (run : dynamicInverseVolBasket sqrt prices lookback = .ok basket) : prices ≠ [] ∧
      basket = (List.range ((prices.head?.map fun item => item.2.length).getD 0 - 1)).map
        (basketAt sqrt (returnsOf prices) lookback) := by
  unfold dynamicInverseVolBasket at run
  split at run
  · cases run
  split at run
  · cases run
  rename_i some_
  split at run
  · cases run
  split at run
  · cases run
  injection run with same
  exact ⟨some_, same.symm⟩

theorem basketAt_same (sqrt : ℚ → ℚ) (lookback : Nat) {t : Nat} (alike : AllAlike k ps qs) (before : t < k) :
    basketAt sqrt (returnsOf ps) lookback t = basketAt sqrt (returnsOf qs) lookback t := by
  unfold basketAt
  rw [weightsAt_same sqrt lookback (alike.sooner (Nat.le_of_lt before))]
  congr 1
  apply List.map_congr_left
  intro item _
  rcases lookup_same (R := Alike k) (a := item.1) alike with ⟨none_, none_'⟩ | ⟨d, e, one, two, found⟩
  · rw [closesOf_returns, closesOf_returns, closesOf, closesOf, none_, none_']
  · rw [closesOf_returns, closesOf_returns, closesOf, closesOf, one, two, Option.getD_some, Option.getD_some,
      found.returns.getD before]

/-- The level of the benchmark at a bar is of the closes through it. -/
theorem benchmarkLevels_same {sqrt : ℚ → ℚ} {c : CombinedSystemConfig} {basket basket' l3 l3' : List ℚ}
    (run : benchmarkLevels sqrt c ps = .ok (basket, l3)) (run' : benchmarkLevels sqrt c qs = .ok (basket', l3'))
    (alike : AllAlike k ps qs) : ps ≠ [] ∧ l3.getD k 0 = l3'.getD k 0 := by
  obtain ⟨b, made, run⟩ := bind_ok.mp run
  obtain ⟨gate, gated, run⟩ := bind_ok.mp run
  obtain ⟨vt, targeted, run⟩ := bind_ok.mp run
  obtain ⟨b', made', run'⟩ := bind_ok.mp run'
  obtain ⟨gate', gated', run'⟩ := bind_ok.mp run'
  obtain ⟨vt', targeted', run'⟩ := bind_ok.mp run'
  injection run with run
  injection run' with run'
  obtain ⟨rfl, rfl⟩ := Prod.mk.inj run
  obtain ⟨rfl, rfl⟩ := Prod.mk.inj run'
  obtain ⟨some_, rows⟩ := basket_run made
  obtain ⟨_, rows'⟩ := basket_run made'
  obtain ⟨left, right⟩ := alike.head some_
  have based : Agree k b b' := by
    rw [rows, rows']
    apply agree_rows
    · intro t before
      exact basketAt_same sqrt _ alike before
    · omega
    · omega
  have lengths : b.length = (ps.head?.map fun item => item.2.length).getD 0 - 1 ∧
      b'.length = (qs.head?.map fun item => item.2.length).getD 0 - 1 := by
    rw [rows, rows', List.length_map, List.length_map, List.length_range, List.length_range]
    exact ⟨rfl, rfl⟩
  have equity : Agree (k + 1) (equityOf b) (equityOf b') := by
    unfold Agree equityOf
    rw [List.take_scanl, List.take_scanl, show b.take k = b'.take k from based]
  have gates : gate[k]? = gate'[k]? := by
    apply smaGate_same gated gated' equity
    · unfold equityOf
      rw [List.length_scanl]
      omega
    · unfold equityOf
      rw [List.length_scanl]
      omega
  have levels : vt[k]? = vt'[k]? := by
    rw [volTarget_run targeted, volTarget_run targeted', List.getElem?_map, List.getElem?_map,
      List.getElem?_range (by omega), List.getElem?_range (by omega), Option.map_some, Option.map_some,
      volTargetAt_same sqrt _ _ _ based]
  refine ⟨some_, ?_⟩
  rw [List.getD_eq_getElem?_getD, List.getD_eq_getElem?_getD, List.getElem?_zipWith, List.getElem?_zipWith, gates, levels]

theorem sleeveB_same {sqrt : ℚ → ℚ} {cost : ℚ} {assets : List String} {n m : Nat} {b b' : Positions}
    (run : sleeveB sqrt cost ps assets n = .ok b) (run' : sleeveB sqrt cost qs assets m = .ok b')
    (alike : AllAlike k ps qs) (left : k < n) (right : k < m) : SameAt k b b' := by
  obtain ⟨⟨basket, l3⟩, made, run⟩ := bind_ok.mp run
  obtain ⟨_, _, run⟩ := bind_ok.mp run
  obtain ⟨⟨basket', l3'⟩, made', run'⟩ := bind_ok.mp run'
  obtain ⟨_, _, run'⟩ := bind_ok.mp run'
  split at run
  · cases run
  split at run'
  · cases run'
  injection run with run
  injection run' with run'
  obtain ⟨some_, levels⟩ := benchmarkLevels_same made made' alike
  rw [← run, ← run']
  apply sameAt_rows left right
  intro a _
  rw [(weights_agree sqrt 30 alike some_).getD (Nat.lt_succ_self k), levels]

/- The books. -/

theorem blockStart_le (k offset : Nat) : blockStart k offset ≤ k := by
  unfold blockStart a1Cadence
  split <;> omega

theorem sleeveA1_same {sqrt : ℚ → ℚ} {assets : List String} {n m : Nat} {b b' : Positions}
    (run : sleeveA1 sqrt ps assets n = .ok b) (run' : sleeveA1 sqrt qs assets m = .ok b') (alike : AllAlike k ps qs)
    (keys : (ps.map Prod.fst).Nodup) (left : k < n) (right : k < m) : SameAt k b b' := by
  obtain ⟨book, made, run⟩ := bind_ok.mp run
  obtain ⟨book', made', run'⟩ := bind_ok.mp run'
  injection run with run
  injection run' with run'
  rw [← run, ← run']
  apply sameAt_rows left right
  intro a _
  congr 1
  apply List.map_congr_left
  intro o _
  exact held_same (a1_same made made' (alike.sooner (blockStart_le k o)) keys) a

theorem sleeveA2_same {sqrt : ℚ → ℚ} {arms : List (List Int × ℚ)} {assets : List String} {n m : Nat} {b b' : Positions}
    (run : sleeveA2 sqrt arms ps assets n = .ok b) (run' : sleeveA2 sqrt arms qs assets m = .ok b')
    (alike : AllAlike k ps qs) (left : k < n) (right : k < m) : SameAt k b b' := by
  obtain ⟨books, made, run⟩ := bind_ok.mp run
  obtain ⟨books', made', run'⟩ := bind_ok.mp run'
  injection run with run
  injection run' with run'
  rw [← run, ← run']
  apply sameAt_rows left right
  intro a _
  have each : List.Forall₂ (fun x y : BookResult => held x.assetPositions a k = held y.assetPositions a k) books books' := by
    apply forall₂_runs made made'
    intro arm _ x y one two
    exact held_same (a2_same one two alike) a
  rw [map_same each]

/- Days on the four-hour calendar. -/

section
variable {ts : List Int} {e : Int}

/-- How many stamps lie before an end. -/
def closedBy (ts : List Int) (e : Int) : Nat := (ts.takeWhile (· < e)).length

theorem closedBy_iff (order : ts.Pairwise (· < ·)) {i : Nat} (inside : i < ts.length) :
    ts.getD i 0 < e ↔ i < closedBy ts e := by
  unfold closedBy
  induction ts generalizing i with
  | nil => cases inside
  | cons t rest ih =>
    obtain ⟨before, order⟩ := List.pairwise_cons.mp order
    by_cases here : t < e
    · rw [List.takeWhile_cons_of_pos (by simpa using here), List.length_cons]
      cases i with
      | zero => simp [here]
      | succ i =>
        rw [List.getD_cons_succ, ih order (by simpa using inside)]
        omega
    · rw [List.takeWhile_cons_of_neg (by simpa using here)]
      cases i with
      | zero => simpa using here
      | succ i =>
        rw [List.getD_cons_succ]
        have inside : i < rest.length := by simpa using inside
        have later := before _ (List.getElem_mem inside)
        rw [List.getD_eq_getElem?_getD, List.getElem?_eq_getElem inside, Option.getD_some]
        simp only [List.length_nil]
        omega

theorem closedBy_le (ts : List Int) (e : Int) : closedBy ts e ≤ ts.length :=
  (List.takeWhile_prefix _).length_le

theorem closedBy_mono (order : ts.Pairwise (· < ·)) {e' : Int} (le : e ≤ e') : closedBy ts e ≤ closedBy ts e' := by
  by_cases none_ : closedBy ts e = 0
  · omega
  · have bound := closedBy_le ts e
    have last := (closedBy_iff order (e := e) (i := closedBy ts e - 1) (by omega)).mpr (by omega)
    have there := (closedBy_iff order (e := e') (i := closedBy ts e - 1) (by omega)).mp (by omega)
    omega

theorem takeWhile_range' (k n c : Nat) : ((List.range' k n).takeWhile fun i => i + 1 < c).length = min n (c - 1 - k) := by
  induction n generalizing k with
  | zero => rw [List.range'_zero]; simp
  | succ n ih =>
    rw [List.range'_succ]
    by_cases here : k + 1 < c
    · rw [List.takeWhile_cons_of_pos (by simpa using here), List.length_cons, ih]
      omega
    · rw [List.takeWhile_cons_of_neg (by simpa using here), List.length_nil]
      omega

/-- The search ends at the last row whose stamp lies before the end. -/
theorem advance_eq (order : ts.Pairwise (· < ·)) {days k : Nat} (long : ts.length = days + 1) (within : k ≤ days) :
    advance ts days k e = max k (min days (closedBy ts e - 1)) := by
  have same : (List.range' k (days - k)).takeWhile (fun i => ts.getD (i + 1) 0 < e) =
      (List.range' k (days - k)).takeWhile fun i => i + 1 < closedBy ts e := by
    have each : ∀ i ∈ List.range' k (days - k), decide (ts.getD (i + 1) 0 < e) = decide (i + 1 < closedBy ts e) := by
      intro i mem
      have range := List.mem_range'_1.mp mem
      exact decide_eq_decide.mpr (closedBy_iff order (by omega))
    generalize List.range' k (days - k) = is at each
    induction is with
    | nil => rfl
    | cons i rest ih =>
      rw [List.takeWhile_cons, List.takeWhile_cons, each i List.mem_cons_self,
        ih fun j mem => each j (List.mem_cons_of_mem _ mem)]
  unfold advance
  rw [same, takeWhile_range']
  omega

/-- The daily row of an interval's end. -/
def rowOf (ts : List Int) (days : Nat) (e : Int) : Option Nat :=
  if closedBy ts e = 0 ∨ days ≤ closedBy ts e - 1 then none else some (closedBy ts e - 1)

theorem sweep_rows (order : ts.Pairwise (· < ·)) {days : Nat} (long : ts.length = days + 1) {ends : List Int}
    (ordered : ends.Pairwise (· < ·)) {k : Nat} (behind : ∀ e ∈ ends, k ≤ min days (closedBy ts e - 1)) :
    sweep (fun k end_ =>
      let row := advance ts days k end_
      (row, if days ≤ row ∨ end_ ≤ ts.getD row 0 then none else some row)) k ends = ends.map (rowOf ts days) := by
  induction ends generalizing k with
  | nil => rfl
  | cons e rest ih =>
    obtain ⟨before, ordered⟩ := List.pairwise_cons.mp ordered
    have here := behind e List.mem_cons_self
    have row : advance ts days k e = min days (closedBy ts e - 1) := by
      rw [advance_eq order long (by omega)]
      omega
    rw [sweep, List.map_cons]
    simp only [row]
    congr 1
    · have bound := closedBy_le ts e
      unfold rowOf
      by_cases outside : days ≤ closedBy ts e - 1
      · rw [if_pos (.inl (by omega)), if_pos (.inr outside)]
      · rw [Nat.min_eq_right (by omega)]
        have stamp := closedBy_iff order (e := e) (i := closedBy ts e - 1) (by omega)
        by_cases none_ : closedBy ts e = 0
        · rw [if_pos (.inr (by omega)), if_pos (.inl none_)]
        · rw [if_neg (by omega), if_neg (by omega)]
    · apply ih ordered
      intro e' mem
      have later := closedBy_mono order (Int.le_of_lt (before e' mem))
      omega

theorem dailyRows_eq (order : ts.Pairwise (· < ·)) {days : Nat} (long : ts.length = days + 1) {intraday : List Int}
    (ordered : intraday.Pairwise (· < ·)) : dailyRows ts intraday days = intraday.tail.map (rowOf ts days) := by
  unfold dailyRows
  apply sweep_rows order long (ordered.sublist (List.tail_sublist _))
  intro e _
  omega

end

end Portfolio
