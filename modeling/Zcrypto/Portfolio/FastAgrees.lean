import Zcrypto.Portfolio.FastFigures
import Zcrypto.Portfolio.SleevesPast

/- The fast path agrees with the verified one: where the verified sleeves are made, the fast ones are the same. -/
namespace Portfolio
open Alpha Prefixes Risk Fallible

theorem named {ds : Closes} {item : String × Series} (distinct : (ds.map Prod.fst).Nodup) (mem : item ∈ ds) :
    closesOf ds item.1 = item.2 := by
  unfold closesOf
  rw [lookup_unique distinct mem]
  rfl

/-- Closes of the assets that are traded, in their order and of one length. -/
structure Laid (prices : Closes) (assets : List String) (n : Nat) : Prop where
  keys : prices.map Prod.fst = assets
  distinct : assets.Nodup
  whole : ∀ item ∈ prices, item.2.length = n
  some_ : prices ≠ []

variable {sqrt : ℚ → ℚ} {prices : Closes} {assets : List String} {n k lookback : Nat}

theorem Laid.closes (laid : Laid prices assets n) {item : String × Series} (mem : item ∈ prices) :
    closesOf prices item.1 = item.2 :=
  named (laid.keys ▸ laid.distinct) mem

theorem Laid.returns (laid : Laid prices assets n) : returnsFor prices assets = returnsOf prices := by
  unfold returnsFor returnsOf
  rw [← laid.keys, List.map_map]
  apply List.map_congr_left
  intro item mem
  rw [Function.comp_apply, laid.closes mem]

theorem Laid.head (laid : Laid prices assets n) : ((returnsOf prices).head?.map fun item => item.2.length).getD 0 = n - 1 := by
  obtain ⟨item, rest, same⟩ := List.exists_cons_of_ne_nil laid.some_
  have long := laid.whole item (same ▸ List.mem_cons_self)
  rw [same]
  unfold returnsOf
  simp only [List.map_cons, List.head?_cons, Option.map_some, Option.getD_some]
  rw [assetReturns_length, long]

/- The weights. -/

theorem sum_filterMap {α β : Type} (g : α → Option β) (h : β → ℚ) (xs : List α) :
    ((xs.filterMap g).map h).sum = (xs.map fun x => match g x with
      | some y => h y
      | none => 0).sum := by
  induction xs with
  | nil => rfl
  | cons x rest ih =>
    cases here : g x with
    | none => rw [List.filterMap_cons_none here, ih, List.map_cons, List.sum_cons, here, zero_add]
    | some y => rw [List.filterMap_cons_some here, List.map_cons, List.sum_cons, ih, List.map_cons, List.sum_cons, here]

theorem inverseVolAt_pos {t : Nat} {returns : Series} {inv : ℚ} (some_ : inverseVolAt sqrt lookback t returns = some inv) :
    0 < inv := by
  unfold inverseVolAt at some_
  simp only at some_
  split at some_
  · cases some_
  split at some_
  · rename_i positive
    injection some_ with same
    rw [← same]
    positivity
  · cases some_

/-- The array's inverse volatility is the plain one, nothing where there is none. -/
theorem inverse_eq (returns : Series) (two : 2 ≤ lookback) {t : Nat} (inside : t < returns.length) :
    inverseOf (returns.getD t none) ((trailingStdevs sqrt returns lookback).getD t none) =
      (inverseVolAt sqrt lookback t returns).getD 0 := by
  rw [trailingStdevs_eq sqrt returns two, getD_rows inside]
  unfold inverseOf stdevAt inverseVolAt Trailing.window
  cases here : returns.getD t none with
  | none => simp
  | some r =>
    by_cases early : t < lookback
    · rw [if_neg (by omega), if_pos (.inl early)]
      rfl
    · by_cases missing : (slice returns (t - lookback) t).any (·.isNone)
      · rw [if_neg (by simp [missing]), if_pos (.inr (.inr missing))]
        rfl
      · rw [if_pos ⟨by omega, missing⟩, if_neg (by simp [early, missing])]
        simp only
        split
        · rfl
        · rfl

/-- The total of the inverse volatilities of a period. -/
def inverseTotal (sqrt : ℚ → ℚ) (returns : Closes) (lookback t : Nat) : ℚ :=
  ((returns.filterMap fun item => (inverseVolAt sqrt lookback t item.2).map fun inv => (item.1, inv)).map Prod.snd).sum

theorem inverseTotal_eq (returns : Closes) (t : Nat) :
    inverseTotal sqrt returns lookback t = (returns.map fun item => (inverseVolAt sqrt lookback t item.2).getD 0).sum := by
  unfold inverseTotal
  rw [sum_filterMap]
  congr 1
  apply List.map_congr_left
  intro item _
  cases inverseVolAt sqrt lookback t item.2 <;> rfl

theorem inverseTotal_pos {returns : Closes} {item : String × Series} {t : Nat} {inv : ℚ} (mem : item ∈ returns)
    (some_ : inverseVolAt sqrt lookback t item.2 = some inv) : 0 < inverseTotal sqrt returns lookback t := by
  have terms : ∀ item : String × Series, 0 ≤ (inverseVolAt sqrt lookback t item.2).getD 0 := by
    intro item
    cases here : inverseVolAt sqrt lookback t item.2 with
    | none => exact le_refl 0
    | some inv => exact le_of_lt (inverseVolAt_pos here)
  rw [inverseTotal_eq]
  have one := List.single_le_sum (l := returns.map fun item => (inverseVolAt sqrt lookback t item.2).getD 0)
    (by
      intro x there
      obtain ⟨item, _, rfl⟩ := List.mem_map.mp there
      exact terms item) _ (List.mem_map_of_mem mem)
  rw [some_] at one
  exact lt_of_lt_of_le (inverseVolAt_pos some_) one

/-- An asset's weight at a period: its share of the inverse volatilities, nothing where it has none. -/
def shareAt (sqrt : ℚ → ℚ) (returns : Closes) (lookback t : Nat) (series : Series) : ℚ :=
  match inverseVolAt sqrt lookback t series with
  | some inv => inv / inverseTotal sqrt returns lookback t
  | none => 0

theorem shareAt_nonneg {returns : Closes} {item : String × Series} {t : Nat} (mem : item ∈ returns) :
    0 ≤ shareAt sqrt returns lookback t item.2 := by
  unfold shareAt
  cases here : inverseVolAt sqrt lookback t item.2 with
  | none => exact le_refl 0
  | some inv => exact div_nonneg (le_of_lt (inverseVolAt_pos here)) (le_of_lt (inverseTotal_pos mem here))

theorem weightOf_weightsAt {returns : Closes} {item : String × Series} {t : Nat} (keys : (returns.map Prod.fst).Nodup)
    (mem : item ∈ returns) : weightOf (weightsAt sqrt returns lookback t) item.1 = shareAt sqrt returns lookback t item.2 := by
  unfold weightOf weightsAt shareAt
  simp only
  rw [show ((returns.filterMap fun item => (inverseVolAt sqrt lookback t item.2).map fun inv => (item.1, inv)).map Prod.snd).sum =
    inverseTotal sqrt returns lookback t from rfl]
  generalize inverseTotal sqrt returns lookback t = total
  induction returns with
  | nil => cases mem
  | cons first rest ih =>
    obtain ⟨fresh, keys⟩ := List.nodup_cons.mp keys
    have absent : ∀ x ∈ rest, x.1 ≠ first.1 := by
      intro x there same
      exact fresh (same ▸ List.mem_map_of_mem there)
    rcases List.mem_cons.mp mem with rfl | later
    · cases here : inverseVolAt sqrt lookback t item.2 with
      | some inv =>
        rw [List.filterMap_cons_some (by rw [here]; rfl), List.map_cons, List.lookup_cons_self]
        rfl
      | none =>
        rw [List.filterMap_cons_none (by rw [here]; rfl)]
        have none_ : ((rest.filterMap fun item => (inverseVolAt sqrt lookback t item.2).map fun inv => (item.1, inv)).map
            fun x => (x.1, x.2 / total)).lookup item.1 = none := by
          rw [List.lookup_eq_none_iff]
          intro pair there
          obtain ⟨x, among, rfl⟩ := List.mem_map.mp there
          obtain ⟨y, below, made⟩ := List.mem_filterMap.mp among
          obtain ⟨inv, _, rfl⟩ := Option.map_eq_some_iff.mp made
          have apart := absent y below
          simpa using fun same => apart same.symm
        rw [none_]
        rfl
    · have apart := absent item later
      cases here : inverseVolAt sqrt lookback t first.2 with
      | some inv =>
        rw [List.filterMap_cons_some (by rw [here]; rfl), List.map_cons, List.lookup_cons, beq_false_of_ne apart]
        exact ih keys later
      | none =>
        rw [List.filterMap_cons_none (by rw [here]; rfl)]
        exact ih keys later

theorem lookup_rows {β γ : Type} {items : List (String × β)} {item : String × β} {f : String × β → γ}
    (keys : (items.map Prod.fst).Nodup) (mem : item ∈ items) :
    (items.map fun x => (x.1, f x)).lookup item.1 = some (f item) :=
  lookup_unique (by rw [List.map_map]; exact keys)
    (List.mem_map_of_mem (f := fun x => (x.1, f x)) mem)

/-- What the arrays weigh an asset at is its share. -/
theorem weight_eq {returns : Closes} {item : String × Series} {m t : Nat} (keys : (returns.map Prod.fst).Nodup)
    (mem : item ∈ returns) (two : 2 ≤ lookback) (whole : ∀ item ∈ returns, item.2.length = m) (inside : t < m) :
    (inverseVolWeightArrays sqrt returns lookback).weight item.1 t = shareAt sqrt returns lookback t item.2 := by
  have length : (returns.head?.map fun item => item.2.length).getD 0 = m := by
    obtain ⟨first, rest, same⟩ := List.exists_cons_of_ne_nil (List.ne_nil_of_mem mem)
    rw [same]
    exact whole first (same ▸ List.mem_cons_self)
  have inverse : ∀ x ∈ returns, ((List.range m).map fun t =>
      inverseOf (x.2.getD t none) ((trailingStdevs sqrt x.2 lookback).getD t none)).getD t 0 =
        (inverseVolAt sqrt lookback t x.2).getD 0 := by
    intro x there
    rw [getD_rows inside]
    exact inverse_eq x.2 two (whole x there ▸ inside)
  have total : (returns.map fun x => ((List.range m).map fun t =>
      inverseOf (x.2.getD t none) ((trailingStdevs sqrt x.2 lookback).getD t none)).getD t 0).sum =
        inverseTotal sqrt returns lookback t := by
    rw [inverseTotal_eq]
    congr 1
    apply List.map_congr_left
    intro x there
    exact inverse x there
  unfold WeightArrays.weight held inverseVolWeightArrays
  simp only [length]
  simp only [List.map_map, Function.comp_def]
  rw [lookup_rows keys mem, Option.getD_some]
  rw [getD_rows inside, inverse item mem, getD_rows inside, total]
  unfold shareAt
  cases here : inverseVolAt sqrt lookback t item.2 with
  | none => exact if_neg (lt_irrefl 0)
  | some inv =>
    rw [Option.getD_some, if_pos (inverseVolAt_pos here), if_pos (inverseTotal_pos mem here)]

theorem Laid.share (laid : Laid prices assets n) {item : String × Series} (mem : item ∈ prices) (two : 2 ≤ lookback)
    (inside : k < n - 1) : (inverseVolWeightArrays sqrt (returnsFor prices assets) lookback).weight item.1 k =
      shareAt sqrt (returnsOf prices) lookback k (assetReturns item.2) ∧
    0 ≤ (inverseVolWeightArrays sqrt (returnsFor prices assets) lookback).weight item.1 k := by
  have keys : ((returnsOf prices).map Prod.fst).Nodup := by
    unfold returnsOf
    rw [List.map_map]
    exact laid.keys ▸ laid.distinct
  have row : (item.1, assetReturns item.2) ∈ returnsOf prices :=
    List.mem_map_of_mem (f := fun item : String × Series => (item.1, assetReturns item.2)) mem
  have whole : ∀ item ∈ returnsOf prices, item.2.length = n - 1 := by
    intro x among
    obtain ⟨source, below, rfl⟩ := List.mem_map.mp among
    rw [assetReturns_length, laid.whole source below]
  rw [laid.returns, weight_eq keys row two whole inside]
  exact ⟨rfl, shareAt_nonneg row⟩

/-- Arrays and plain weights are the same weights. -/
theorem Laid.weights (laid : Laid prices assets n) {a : String} (there : a ∈ assets) (two : 2 ≤ lookback) (inside : k < n - 1) :
    (inverseVolWeightArrays sqrt (returnsFor prices assets) lookback).weight a k =
      weightOf ((inverseVolWeights sqrt prices lookback).getD k []) a := by
  rw [← laid.keys] at there
  obtain ⟨item, mem, rfl⟩ := List.mem_map.mp there
  have keys : ((returnsOf prices).map Prod.fst).Nodup := by
    unfold returnsOf
    rw [List.map_map]
    exact laid.keys ▸ laid.distinct
  have row : (item.1, assetReturns item.2) ∈ returnsOf prices :=
    List.mem_map_of_mem (f := fun item : String × Series => (item.1, assetReturns item.2)) mem
  have rows : ((prices.head?.map fun item => item.2.length).getD 0) - 1 = n - 1 := by
    obtain ⟨first, rest, same⟩ := List.exists_cons_of_ne_nil laid.some_
    have long := laid.whole first (same ▸ List.mem_cons_self)
    rw [same]
    simp only [List.head?_cons, Option.map_some, Option.getD_some, long]
  rw [(laid.share mem two inside).1]
  unfold inverseVolWeights
  rw [rows, getD_rows inside, weightOf_weightsAt keys row]

theorem Laid.ret (laid : Laid prices assets n) (a : String) (k : Nat) :
    (inverseVolWeightArrays sqrt (returnsFor prices assets) lookback).ret a k =
      ((closesOf (returnsOf prices) a)).getD k none := by
  unfold WeightArrays.ret inverseVolWeightArrays
  rw [laid.returns]

/- The volatility target. -/

theorem volTargetPositions_eq {returns positions : List ℚ} {targetVol maxLeverage : ℚ} (two : 2 ≤ lookback)
    (run : volTarget sqrt returns targetVol lookback maxLeverage = .ok positions) :
    volTargetPositions (trailingStdevs sqrt (returns.map some) lookback) targetVol maxLeverage = positions := by
  rw [volTarget_run run]
  unfold volTargetPositions
  rw [trailingStdevs_eq sqrt _ two, List.map_map, List.length_map]
  apply List.map_congr_left
  intro t _
  have whole : ¬ (Trailing.window (returns.map some) lookback t).any (·.isNone) := by
    unfold Trailing.window
    rw [Trailing.slice_map, List.any_eq_true]
    intro ⟨v, mem, missing⟩
    obtain ⟨x, _, rfl⟩ := List.mem_map.mp mem
    cases missing
  have values : (Trailing.window (returns.map some) lookback t).filterMap id = slice returns (t - lookback) t := by
    unfold Trailing.window
    rw [Trailing.slice_map, List.filterMap_map]
    exact List.filterMap_some
  unfold stdevAt volTargetAt
  rw [Function.comp_apply, values]
  by_cases early : t < lookback
  · rw [if_neg (by omega), if_pos early]
  · rw [if_pos ⟨by omega, whole⟩, if_neg early]

/- The benchmark's sleeve. -/

theorem basketAt_shares (returns : Closes) (t : Nat) : basketAt sqrt returns lookback t =
    (returns.map fun item => shareAt sqrt returns lookback t item.2 * ((closesOf returns item.1).getD t none).getD 0).sum := by
  unfold basketAt weightsAt
  simp only
  rw [List.map_map, sum_filterMap]
  congr 1
  apply List.map_congr_left
  intro item _
  unfold shareAt
  cases inverseVolAt sqrt lookback t item.2 with
  | none => exact (zero_mul _).symm
  | some inv => rfl

/-- The basket from the arrays is the basket. -/
theorem Laid.basket (laid : Laid prices assets n) (two : 2 ≤ lookback) (inside : k < n - 1) :
    (assets.map fun a => if 0 < (inverseVolWeightArrays sqrt (returnsFor prices assets) lookback).weight a k
      then (inverseVolWeightArrays sqrt (returnsFor prices assets) lookback).weight a k *
        ((inverseVolWeightArrays sqrt (returnsFor prices assets) lookback).ret a k).getD 0 else 0).sum =
      basketAt sqrt (returnsOf prices) lookback k := by
  rw [basketAt_shares]
  conv_lhs => rw [← laid.keys, List.map_map]
  conv_rhs => rw [show returnsOf prices = prices.map fun item => (item.1, assetReturns item.2) from rfl, List.map_map]
  congr 1
  apply List.map_congr_left
  intro item mem
  obtain ⟨weight, nonneg⟩ := laid.share mem two inside
  simp only [Function.comp, laid.keys]
  rw [laid.ret, weight] at *
  rcases lt_or_eq_of_le nonneg with positive | zero
  · rw [if_pos positive]
    rfl
  · rw [if_neg (by rw [← zero]; exact lt_irrefl 0)]
    have gone := zero.symm
    unfold returnsOf at gone
    rw [gone, zero_mul]

/-- The benchmark's sleeve from the arrays is the verified one. -/
theorem bDailyFast_eq (laid : Laid prices assets n) {cost : ℚ} {daily : Positions}
    (run : sleeveB sqrt cost prices assets (n - 1) = .ok daily) : bDailyFast sqrt prices assets = daily := by
  obtain ⟨⟨basket, l3⟩, leveled, run⟩ := bind_ok.mp run
  obtain ⟨bench, _, run⟩ := bind_ok.mp run
  split at run
  · cases run
  injection run with finished
  obtain ⟨b, made, leveled⟩ := bind_ok.mp leveled
  obtain ⟨gate, gated, leveled⟩ := bind_ok.mp leveled
  obtain ⟨vt, targeted, leveled⟩ := bind_ok.mp leveled
  injection leveled with same
  obtain ⟨rfl, rfl⟩ := Prod.mk.inj same
  have rows : ((returnsFor prices assets).head?.map fun item => item.2.length).getD 0 = n - 1 := by
    rw [laid.returns, laid.head]
  have length : ((prices.head?.map fun item => item.2.length).getD 0) - 1 = n - 1 := by
    obtain ⟨first, rest, same⟩ := List.exists_cons_of_ne_nil laid.some_
    rw [same]
    simp only [List.head?_cons, Option.map_some, Option.getD_some, laid.whole first (same ▸ List.mem_cons_self)]
  have basket : ((List.range (n - 1)).map fun k => (assets.map fun a =>
      if 0 < (inverseVolWeightArrays sqrt (returnsFor prices assets) 30).weight a k
        then (inverseVolWeightArrays sqrt (returnsFor prices assets) 30).weight a k *
          ((inverseVolWeightArrays sqrt (returnsFor prices assets) 30).ret a k).getD 0 else 0).sum) = b := by
    rw [(basket_run made).2, length]
    apply List.map_congr_left
    intro k mem
    exact laid.basket (by omega) (List.mem_range.mp mem)
  have levels : volTargetPositions (trailingStdevs sqrt (b.map some) 30) (1 / 10 / sqrt 365) 1 = vt := by
    apply volTargetPositions_eq (by omega)
    exact_mod_cast targeted
  have gates : gateFast (equityOf b) 200 = gate := gateFast_eq gated
  unfold bDailyFast
  simp only [rows]
  rw [basket, gates, levels, ← finished]
  unfold sharesOf
  apply List.map_congr_left
  intro a there
  apply congrArg
  apply List.map_congr_left
  intro k mem
  rw [laid.weights there (by omega) (List.mem_range.mp mem)]

/- A book. -/

/-- Series by asset are what is found under each of their names. -/
theorem by_name {ds : Closes} (keys : ds.map Prod.fst = assets) (distinct : assets.Nodup) :
    ds = assets.map fun a => (a, closesOf ds a) := by
  rw [← keys, List.map_map]
  conv_lhs => rw [← List.map_id ds]
  apply List.map_congr_left
  intro item mem
  rw [Function.comp_apply, named (keys ▸ distinct) mem]
  rfl

theorem Laid.returns_keys (laid : Laid prices assets n) : (returnsOf prices).map Prod.fst = assets := by
  unfold returnsOf
  rw [List.map_map]
  exact laid.keys

/-- What the arrays' book earns is what the book earns. -/
theorem Laid.book (laid : Laid prices assets n) (two : 2 ≤ lookback) {ds : Closes} (keys : ds.map Prod.fst = assets) :
    bookFast (inverseVolWeightArrays sqrt (returnsFor prices assets) lookback) ds assets (n - 1) =
      (List.range (n - 1)).map (baseReturnAt (inverseVolWeights sqrt prices lookback) ds (returnsOf prices)) := by
  unfold bookFast
  apply List.map_congr_left
  intro k mem
  unfold baseReturnAt
  rw [by_name keys laid.distinct, by_name laid.returns_keys laid.distinct, List.zipWith_map_left, List.zipWith_map_right,
    List.zipWith_self, ← by_name keys laid.distinct]
  congr 1
  apply List.map_congr_left
  intro a there
  rw [laid.ret, laid.weights there two (List.mem_range.mp mem)]
  cases (closesOf (returnsOf prices) a).getD k none with
  | none => rfl
  | some r =>
    cases (closesOf ds a).getD k none with
    | none => simp
    | some d => rfl

/-- A book's positions from the arrays are its positions. -/
theorem Laid.positions (laid : Laid prices assets n) (two : 2 ≤ lookback) {volLookback ppy : Nat} (two' : 2 ≤ volLookback)
    {targetVol maxLeverage : ℚ} {ds : Closes} {b : BookResult} (keys : ds.map Prod.fst = assets)
    (missing : ∀ a ∈ assets, ∀ k < n - 1, (closesOf (returnsOf prices) a).getD k none = none → (closesOf ds a).getD k none = none)
    (run : bookOf sqrt targetVol volLookback maxLeverage ppy (inverseVolWeights sqrt prices lookback) ds (returnsOf prices)
      (n - 1) = .ok b) :
    positionsFast (inverseVolWeightArrays sqrt (returnsFor prices assets) lookback) ds
      (volTargetPositions (trailingStdevs sqrt ((bookFast (inverseVolWeightArrays sqrt (returnsFor prices assets) lookback) ds
        assets (n - 1)).map some) volLookback) (targetVol / sqrt ppy) maxLeverage) assets (n - 1) = b.assetPositions := by
  obtain ⟨positions, targeted, run⟩ := bind_ok.mp run
  obtain ⟨net, _, run⟩ := bind_ok.mp run
  injection run with made
  rw [laid.book two keys, volTargetPositions_eq two' targeted, ← made]
  unfold positionsFast
  conv_rhs => rw [by_name keys laid.distinct, List.map_map]
  apply List.map_congr_left
  intro a there
  rw [Function.comp_apply]
  apply congrArg
  apply List.map_congr_left
  intro k mem
  have inside := List.mem_range.mp mem
  rw [laid.ret, laid.weights there two inside]
  cases here : (closesOf (returnsOf prices) a).getD k none with
  | some r => rfl
  | none =>
    rw [missing a there k inside here]
    rfl

/- The first book. -/

theorem momentumFast_eq (own : List ℚ) {lookback k : Nat} (inside : k < own.length - 1) :
    momentumFast own lookback k = momentumAt own lookback k := by
  unfold momentumFast momentumAt
  by_cases warm : lookback ≤ k
  · rw [if_pos ⟨by omega, warm⟩, if_pos warm]
  · rw [if_neg (fun both => warm both.2), if_neg warm]

theorem momentum_run {own m : List ℚ} {lookback : Nat} (run : momentum own lookback = .ok m) :
    m = (List.range (own.length - 1)).map (momentumAt own lookback) := by
  obtain ⟨_, run⟩ := then_ok.mp run
  obtain ⟨_, run⟩ := then_ok.mp run
  injection run with same
  exact same.symm

/-- The trends' agreement from the arrays. -/
theorem agreementFast_eq {series : Series} {trend : List ℚ}
    (run : trendAgreement (ownPrices series) [20, 60, 120] = .ok trend) :
    agreementFast series = .ok (mapToUnionIndex (ownTs series) trend (List.range series.length)) := by
  obtain ⟨valid, run⟩ := then_ok.mp run
  rw [if_neg (by simp)] at run
  obtain ⟨_, run⟩ := then_ok.mp run
  obtain ⟨momenta, made, run⟩ := bind_ok.mp run
  injection run with same
  have some_ : ownPrices series ≠ [] := by
    intro none_
    rw [none_] at valid
    cases valid
  have each : momenta = [20, 60, 120].map fun lookback =>
      (List.range ((ownPrices series).length - 1)).map (momentumAt (ownPrices series) lookback) := by
    rw [← List.forall₂_eq_eq_eq, List.forall₂_map_right_iff]
    exact (mapM_ok.mp made).flip.imp fun _ _ one => momentum_run one
  unfold agreementFast
  simp only
  rw [if_neg some_, ← mapOwnToUnion_eq, ← same]
  apply congrArg
  congr 1
  apply List.map_congr_left
  intro k mem
  have inside := List.mem_range.mp mem
  rw [each, List.map_map]
  unfold mean
  simp only [List.map_cons, List.map_nil, Function.comp, getD_rows inside, momentumFast_eq _ inside, List.length_cons,
    List.length_nil]
  norm_num

theorem Laid.accepted (laid : Laid prices assets n) (ok : Accepted prices (closesOf prices "BTC").length) :
    (closesOf prices "BTC").length = n ∧ ¬ (closesOf prices "BTC").any (·.isNone) ∧
      ∀ item ∈ prices, item.1 = "BTC" → ownTs item.2 = List.range n := by
  obtain ⟨first, there⟩ := List.exists_mem_of_ne_nil _ laid.some_
  have long : (closesOf prices "BTC").length = n := by rw [← ok.whole first there, laid.whole first there]
  refine ⟨long, ?_, ?_⟩
  · rw [List.any_eq_true]
    intro ⟨p, mem, missing⟩
    have present := ok.full p mem
    rw [← Option.not_isSome, present] at missing
    cases missing
  · intro item mem market
    have series := laid.closes mem
    rw [market] at series
    rw [← laid.whole item mem, ownTs_full]
    rw [← series]
    exact ok.full

/-- A direction of the first book from the arrays. -/
theorem directionFast_eq {c : A1Config} (ensemble : c.regime = .ensemble) (off : c.short = .off) {series gate bear trend : Series}
    {level : ℚ} (inside : k + 1 < series.length) (gated : (gate.getD k none).getD 0 = level) :
    (((assetReturns series).getD k none).map fun _ => if level = 1 ∧ (trend.getD k none).any (0 < ·) then (1 : ℚ) else 0) =
      directionAt c gate bear trend series k := by
  rw [assetReturns_getD inside]
  unfold directionAt
  cases series.getD k none with
  | none => rfl
  | some p =>
    cases series.getD (k + 1) none with
    | none => rfl
    | some q =>
      have up : ((trend.getD k none).any (0 < ·) : Bool) = true ↔ 0 < (trend.getD k none).getD 0 := by
        cases trend.getD k none with
        | none => simp
        | some t => simp
      simp only [Option.isNone_some, Bool.false_eq_true, or_self, if_false, Option.map_some, gated, ensemble, off, up,
        reduceCtorEq, false_or, false_and]
      split <;> rfl

/-- The first book from the arrays is the verified one. -/
theorem a1Fast_eq (laid : Laid prices assets n) {book : BookResult}
    (run : a1BookReturns sqrt (.of .equalRiskBasket .ensemble .off (12 / 100)) prices (closesOf prices "BTC") = .ok book) :
    a1PositionsFast sqrt prices assets = .ok book.assetPositions := by
  obtain ⟨_, run⟩ := then_ok.mp run
  obtain ⟨valid, run⟩ := then_ok.mp run
  obtain ⟨_, run⟩ := then_ok.mp run
  obtain ⟨ds, directed, booked⟩ := bind_ok.mp run
  obtain ⟨long, whole, full⟩ := laid.accepted (accepted valid)
  obtain ⟨gate, gated, each⟩ := bind_ok.mp directed
  have keys : ds.map Prod.fst = assets := by
    have same : prices.map Prod.fst = ds.map Prod.fst := by
      apply map_same
      apply (mapM_ok.mp each).imp
      intro x y one
      obtain ⟨own, _, one⟩ := bind_ok.mp one
      injection one with one
      rw [← one]
    rw [← same, laid.keys]
  have directions : (assets.mapM fun a => do
      let ta ← agreementFast (closesOf prices a)
      .ok (a, (List.range (n - 1)).map fun k =>
        ((inverseVolWeightArrays sqrt (returnsFor prices assets) 30).ret a k).map fun _ =>
          if gate.getD k 0 = 1 ∧ (ta.getD k none).any (0 < ·) then (1 : ℚ) else 0)) = .ok ds := by
    conv_lhs => rw [← laid.keys, List.mapM_map]
    rw [← List.map_id ds]
    apply mapM_through each
    intro item mem y one
    obtain ⟨own, trended, one⟩ := bind_ok.mp one
    injection one with made
    have series := laid.whole item mem
    rw [Function.comp_apply, laid.closes mem]
    refine bind_ok.mpr ⟨_, agreementFast_eq trended, ?_⟩
    rw [id, ← made]
    apply congrArg
    apply congrArg
    rw [List.length_range, long]
    apply List.map_congr_left
    intro k there
    have inside := List.mem_range.mp there
    rw [laid.keys, laid.ret, closesOf_returns, laid.closes mem, series]
    have own_bars : (if item.1 = "BTC" then List.range n else ownTs item.2) = ownTs item.2 := by
      split
      · rename_i market
        exact (full item mem market).symm
      · rfl
    rw [own_bars]
    apply directionFast_eq rfl rfl (by omega)
    rw [mapped_range (by omega), List.getD_eq_getElem?_getD]
  have rows : ∀ a ∈ assets, ∀ k < n - 1, (closesOf (returnsOf prices) a).getD k none = none →
      (closesOf ds a).getD k none = none := by
    intro a there k inside missing
    obtain ⟨y, mem, made⟩ := mapM_ok_each directions there
    obtain ⟨ta, _, made⟩ := bind_ok.mp made
    injection made with made
    have series := named (keys ▸ laid.distinct) mem
    rw [← made] at series
    rw [series, getD_rows inside, laid.ret, missing]
    rfl
  have booked : bookOf sqrt (12 / 100) 30 1 365 (inverseVolWeights sqrt prices 30) ds (returnsOf prices) (n - 1) = .ok book := by
    rw [← long]
    exact booked
  have positions := laid.positions (by omega) (by omega) keys rows booked
  unfold a1PositionsFast
  simp only
  have gates : gateFast (ownPrices (closesOf prices "BTC")) 200 = gate := gateFast_eq gated
  rw [if_neg whole, long, gates]
  refine bind_ok.mpr ⟨ds, directions, ?_⟩
  apply congrArg
  rw [← positions]
  norm_num

/- The second book. -/

theorem signals_added (rest : List Series) (k : Nat) (start : Option ℚ) :
    rest.foldl (fun ens signal => ens.bind fun e => (signal.getD k none).map fun s => e + s) start =
      if (rest.map fun m => m.getD k none).any (·.isNone) then none
      else start.map fun e => e + ((rest.map fun m => m.getD k none).filterMap id).sum := by
  induction rest generalizing start with
  | nil => cases start <;> simp
  | cons signal rest ih =>
    rw [List.foldl_cons, ih, List.map_cons, List.any_cons]
    cases here : signal.getD k none with
    | none => cases start <;> simp
    | some s =>
      rw [List.filterMap_cons_some (f := id) rfl, List.sum_cons]
      cases start with
      | none => simp
      | some e => simp [add_assoc]

/-- The sum of the signals is there where each is. -/
theorem signalSum_eq {signals : List Series} (some_ : signals ≠ []) (k : Nat) :
    signalSum signals k = if (signals.map fun m => m.getD k none).any (·.isNone) then none
      else some ((signals.map fun m => m.getD k none).filterMap id).sum := by
  obtain ⟨first, rest, rfl⟩ := List.exists_cons_of_ne_nil some_
  unfold signalSum
  simp only
  rw [signals_added, List.map_cons, List.any_cons]
  cases here : first.getD k none with
  | none => simp
  | some s =>
    rw [List.filterMap_cons_some (f := id) rfl, List.sum_cons]
    simp

theorem all_there {vs : Series} (none_ : ¬ vs.any (·.isNone)) : (vs.filterMap id).length = vs.length := by
  induction vs with
  | nil => rfl
  | cons v rest ih =>
    cases v with
    | none => exact absurd rfl none_
    | some x => rw [List.filterMap_cons_some (f := id) rfl, List.length_cons, List.length_cons, ih (by simpa using none_)]

theorem ensembleFast_eq {c : A2Config} (off : c.short = .off) {signals : List Series} (some_ : signals ≠ []) (k : Nat) :
    (signalSum signals k).map (fun e : ℚ => max (e / signals.length) 0) = ensembleAt c signals k := by
  rw [signalSum_eq some_]
  unfold ensembleAt
  simp only [off]
  split
  · rfl
  · rename_i none_
    unfold mean
    rw [all_there none_, List.length_map]
    rfl

/-- The second book's directions from the arrays. -/
theorem a2Directions_eq (laid : Laid prices assets n) {c : A2Config} (off : c.short = .off) (band : c.band = 1)
    (some_ : c.lookbacks ≠ []) {ds : Closes} (run : assetDirectionsA2 c prices (List.range n) = .ok ds) :
    a2DirectionsFast prices assets c.lookbacks (n - 1) = .ok ds := by
  unfold a2DirectionsFast
  conv_lhs => rw [← laid.keys, List.mapM_map]
  rw [← List.map_id ds]
  apply mapM_through run
  intro item mem y one
  obtain ⟨signals, made, one⟩ := bind_ok.mp one
  injection one with same
  have series := laid.whole item mem
  have walked : (c.lookbacks.mapM fun w => donchianHeld (ownPrices item.2) w 1) = .ok signals := by
    rw [← List.map_id signals]
    apply mapM_through made
    intro w _ signal ran
    rw [band] at ran
    exact donchianHeld_eq ran
  have long : signals.length = c.lookbacks.length := (mapM_ok.mp made).length_eq.symm
  rw [Function.comp_apply, laid.closes mem]
  refine bind_ok.mpr ⟨_, walked, ?_⟩
  have mapped : (signals.map fun signal => mapOwnToUnion signal (item.2.map (·.isSome))) =
      signals.map fun signal => mapToUnionIndex (ownTs item.2) signal (List.range n) := by
    apply List.map_congr_left
    intro signal _
    rw [mapOwnToUnion_eq, series]
  rw [id, ← same, mapped]
  apply congrArg
  apply congrArg
  rw [List.length_range]
  apply List.map_congr_left
  intro k _
  rw [← ensembleFast_eq off, List.length_map, long]
  intro none_
  apply some_
  rw [← List.length_eq_zero_iff, ← long, ← List.length_map (f := fun signal => mapToUnionIndex (ownTs item.2) signal (List.range n)),
    none_]
  rfl

/-- What is shared among arms is made once for each of their lookbacks, and as it would be for each arm. -/
theorem shares_made {w : WeightArrays} {m : Nat} {all : List (List Nat)} {made : List (List Nat × Shared)}
    (each : ∀ lookbacks ∈ all, ∃ share, sharedFor sqrt prices assets w m lookbacks = .ok share)
    (right : ∀ x ∈ made, sharedFor sqrt prices assets w m x.1 = .ok x.2) :
    ∃ out, shareByLookbacks sqrt prices assets w m made all = .ok out ∧
      (∀ x ∈ out, sharedFor sqrt prices assets w m x.1 = .ok x.2) ∧
      (∀ key ∈ made.map Prod.fst, key ∈ out.map Prod.fst) ∧ ∀ key ∈ all, key ∈ out.map Prod.fst := by
  induction all generalizing made with
  | nil =>
    refine ⟨made, rfl, right, fun _ mem => mem, ?_⟩
    intro key mem
    cases mem
  | cons lookbacks rest ih =>
    have later : ∀ key ∈ rest, ∃ share, sharedFor sqrt prices assets w m key = .ok share :=
      fun key mem => each key (List.mem_cons_of_mem _ mem)
    unfold shareByLookbacks
    by_cases there : lookbacks ∈ made.map Prod.fst
    · obtain ⟨out, run, valid, kept, found⟩ := ih later right
      rw [if_pos there]
      refine ⟨out, run, valid, kept, ?_⟩
      intro key mem
      rcases List.mem_cons.mp mem with rfl | mem
      · exact kept key there
      · exact found key mem
    · obtain ⟨share, one⟩ := each lookbacks List.mem_cons_self
      have more : ∀ x ∈ made ++ [(lookbacks, share)], sharedFor sqrt prices assets w m x.1 = .ok x.2 := by
        intro x mem
        rcases List.mem_append.mp mem with mem | mem
        · exact right x mem
        · rw [List.mem_singleton.mp mem]
          exact one
      obtain ⟨out, run, valid, kept, found⟩ := ih later more
      rw [if_neg there]
      refine ⟨out, bind_ok.mpr ⟨share, one, run⟩, valid, ?_, ?_⟩
      · intro key mem
        apply kept
        rw [List.map_append]
        exact List.mem_append_left _ mem
      · intro key mem
        rcases List.mem_cons.mp mem with rfl | mem
        · apply kept
          rw [List.map_append]
          exact List.mem_append_right _ List.mem_cons_self
        · exact found key mem

theorem lookup_found {α β : Type} [BEq α] [LawfulBEq α] {items : List (α × β)} {key : α} (there : key ∈ items.map Prod.fst) :
    ∃ value, items.lookup key = some value ∧ (key, value) ∈ items := by
  cases found : items.lookup key with
  | none =>
    rw [List.lookup_eq_none_iff] at found
    obtain ⟨item, mem, rfl⟩ := List.mem_map.mp there
    have apart := found item mem
    simp at apart
  | some value =>
    refine ⟨value, rfl, ?_⟩
    obtain ⟨before, after, rfl, _⟩ := List.lookup_eq_some_iff.mp found
    exact List.mem_append_right _ List.mem_cons_self

/-- An arm of the second book from the arrays. -/
theorem a2Arm_eq (laid : Laid prices assets n) {c : A2Config} (off : c.short = .off) (band : c.band = 1)
    (basket : c.basketLookback = 180) (vol : c.volLookback = 180) (leverage : c.maxLeverage = 1) {book : BookResult}
    (run : a2BookReturns sqrt c prices = .ok book) :
    ∃ share, sharedFor sqrt prices assets (inverseVolWeightArrays sqrt (returnsFor prices assets) 180) (n - 1) c.lookbacks =
        .ok share ∧
      positionsFast (inverseVolWeightArrays sqrt (returnsFor prices assets) 180) share.directions
        (volTargetPositions share.rv (c.targetVol / sqrt c.periodsPerYear) 1) assets (n - 1) = book.assetPositions := by
  obtain ⟨configured, run⟩ := then_ok.mp run
  obtain ⟨valid, run⟩ := then_ok.mp run
  obtain ⟨ds, directed, booked⟩ := bind_ok.mp run
  obtain ⟨long, _, _⟩ := laid.accepted (accepted valid)
  rw [long] at directed booked
  have some_ : c.lookbacks ≠ [] := by
    unfold A2Config.validate at configured
    split at configured
    · cases configured
    · assumption
  have keys : ds.map Prod.fst = assets := by
    have same : prices.map Prod.fst = ds.map Prod.fst := by
      apply map_same
      apply (mapM_ok.mp directed).imp
      intro x y one
      obtain ⟨signals, _, one⟩ := bind_ok.mp one
      injection one with one
      rw [← one]
    rw [← same, laid.keys]
  have rows : ∀ a ∈ assets, ∀ k < n - 1, (closesOf (returnsOf prices) a).getD k none = none →
      (closesOf ds a).getD k none = none := by
    intro a there k inside missing
    rw [← laid.keys] at there
    obtain ⟨item, mem, rfl⟩ := List.mem_map.mp there
    obtain ⟨y, among, made⟩ := partner (mapM_ok.mp directed) mem
    obtain ⟨signals, walked, made⟩ := bind_ok.mp made
    injection made with made
    have series := named (keys ▸ laid.distinct) among
    rw [← made] at series
    have whole := laid.whole item mem
    rw [series, List.length_range, getD_rows inside]
    rw [closesOf_returns, laid.closes mem] at missing
    have apart := congrArg Option.isSome missing
    rw [isSome_return (by omega), Option.isSome_none, Bool.and_eq_false_iff] at apart
    obtain ⟨first, others, same⟩ := List.exists_cons_of_ne_nil some_
    have long := (mapM_ok.mp walked).length_eq
    rw [same] at long
    cases signals with
    | nil => cases long
    | cons signal rest =>
      have none_ : (mapToUnionIndex (ownTs item.2) signal (List.range n)).getD k none = none := by
        rw [mapped_at (by omega) whole.symm, if_neg]
        rintro ⟨here, next⟩
        rcases apart with gone | gone
        · rw [here] at gone
          cases gone
        · rw [next] at gone
          cases gone
      unfold ensembleAt
      simp only [List.map_cons, List.any_cons, none_, Option.isNone_none, Bool.true_or, if_true]
  rw [vol, leverage, basket] at booked
  refine ⟨_, bind_ok.mpr ⟨ds, a2Directions_eq laid off band some_ directed, rfl⟩, ?_⟩
  exact laid.positions (by omega) (by omega) keys rows booked

/-- The second book's arms from the arrays are the verified ones. -/
theorem a2Fast_eq (laid : Laid prices assets n) {arms : List (List Int × ℚ)} {books : List BookResult}
    (run : (arms.mapM fun arm => a2BookReturns sqrt (armConfig arm) prices) = .ok books) :
    a2ArmPositionsFast sqrt prices assets arms = .ok (books.map (·.assetPositions)) := by
  have length : ((returnsFor prices assets).head?.map fun item => item.2.length).getD 0 = n - 1 := by
    rw [laid.returns, laid.head]
  have each : ∀ key ∈ arms.map (fun arm => arm.1.map Int.toNat), ∃ share, sharedFor sqrt prices assets
      (inverseVolWeightArrays sqrt (returnsFor prices assets) 180) (n - 1) key = .ok share := by
    intro key mem
    obtain ⟨arm, there, rfl⟩ := List.mem_map.mp mem
    obtain ⟨book, _, one⟩ := mapM_ok_each run there
    obtain ⟨share, made, _⟩ := a2Arm_eq laid (c := armConfig arm) rfl rfl rfl rfl rfl one
    exact ⟨share, made⟩
  obtain ⟨shares, made, valid, _, found⟩ := shares_made each fun x (mem : x ∈ []) => by
    cases mem
  unfold a2ArmPositionsFast
  simp only [length]
  refine bind_ok.mpr ⟨shares, made, ?_⟩
  apply mapM_through run
  intro arm mem book one
  obtain ⟨share, there, among⟩ := lookup_found (found _ (List.mem_map_of_mem mem))
  obtain ⟨own, shared, positions⟩ := a2Arm_eq laid (c := armConfig arm) rfl rfl rfl rfl rfl one
  have same : share = own := Except.ok.inj ((valid _ among).symm.trans shared)
  have year : ((armConfig arm).periodsPerYear : ℚ) = 2190 := by norm_num [armConfig]
  have target : (armConfig arm).targetVol = arm.2 := rfl
  rw [year, target] at positions
  rw [there, same, ← positions]

/- The sleeves. -/

theorem Laid.filled {g : Grid} (laid : Laid g.prices assets n) : Laid (ffillBtc g).prices assets n where
  keys := (ffillBtc_keys g).trans laid.keys
  distinct := laid.distinct
  whole := by
    intro item mem
    obtain ⟨source, there, rfl⟩ := List.mem_map.mp mem
    split
    · rw [ffillFrom_length]
      exact laid.whole source there
    · exact laid.whole source there
  some_ := by
    intro none_
    exact laid.some_ (List.map_eq_nil_iff.mp none_)

/-- The fast sleeves are the verified ones wherever those are made. -/
theorem fastSleeves_eq {c : CrossfreqSystemConfig} {d h : Grid} {s : Sleeves} (daily : Laid d.prices c.assets d.ts.length)
    (intraday : Laid h.prices c.assets h.ts.length) (run : verifiedSleeves sqrt c d h = .ok s) :
    fastSleeves sqrt c d h = .ok s := by
  obtain ⟨bDaily, benchmark, run⟩ := bind_ok.mp run
  obtain ⟨a1Daily, first, run⟩ := bind_ok.mp run
  obtain ⟨a2, second, run⟩ := bind_ok.mp run
  obtain ⟨book, made, first⟩ := bind_ok.mp first
  injection first with weekly
  obtain ⟨books, arms, second⟩ := bind_ok.mp second
  injection second with meaned
  have a1 := a1Fast_eq daily.filled made
  have a2_arms := a2Fast_eq intraday.filled arms
  unfold fastSleeves
  simp only
  rw [bDailyFast_eq daily benchmark]
  refine bind_ok.mpr ⟨_, a1, bind_ok.mpr ⟨_, a2_arms, ?_⟩⟩
  simp only [exactMean_eq, List.map_map, Function.comp_def, weekly, meaned]
  exact run

/-- A grid that is valid, with the bar that is forming, is laid out. -/
theorem laid_extended {name : String} {g : Grid} (valid : validateGrid name g assets = .ok ()) (distinct : assets.Nodup)
    (some_ : assets ≠ []) (step : Int) :
    Laid (g.extended assets step).prices assets (g.extended assets step).ts.length where
  keys := by
    unfold Grid.extended
    rw [List.map_map]
    exact List.map_id assets
  distinct := distinct
  whole := by
    unfold validateGrid at valid
    split at valid
    · cases valid
    split at valid
    · cases valid
    split at valid
    · cases valid
    split at valid
    · cases valid
    split at valid
    · cases valid
    rename_i lengths
    intro item mem
    obtain ⟨a, there, rfl⟩ := List.mem_map.mp mem
    have long : (g.closes a).length = g.ts.length := by
      by_contra odd
      exact lengths (List.any_eq_true.mpr ⟨a, there, decide_eq_true odd⟩)
    unfold Grid.extended
    simp only [List.length_append, List.length_singleton]
    rw [long]
  some_ := by
    intro none_
    exact some_ (List.map_eq_nil_iff.mp none_)

end Portfolio
