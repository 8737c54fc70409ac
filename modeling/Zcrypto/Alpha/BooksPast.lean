import Zcrypto.Alpha.Books

/- A position of either book is made of the closes through its bar, and of which closes are missing through the next. -/
namespace Alpha
open Fallible Prefixes
open Portfolio (assetReturns)

def pattern (prices : Series) : List Bool := prices.map Option.isSome

/-- Two series with the bars of a move, with the same closes through its first and missing the same through its second. -/
structure Alike (k : Nat) (xs ys : Series) : Prop where
  closes : Agree (k + 1) xs ys
  missing : Agree (k + 2) (pattern xs) (pattern ys)
  left : k + 1 < xs.length
  right : k + 1 < ys.length

variable {k : Nat} {xs ys : Series}

theorem Alike.sooner (alike : Alike k xs ys) {j : Nat} (sooner : j ≤ k) : Alike j xs ys where
  closes := alike.closes.sooner (by omega)
  missing := alike.missing.sooner (by omega)
  left := by have := alike.left; omega
  right := by have := alike.right; omega

theorem getD_pattern (prices : Series) (i : Nat) : (pattern prices).getD i false = (prices.getD i none).isSome := by
  unfold pattern
  rw [List.getD_eq_getElem?_getD, List.getD_eq_getElem?_getD, List.getElem?_map]
  cases prices[i]? <;> rfl

theorem Alike.present (alike : Alike k xs ys) {i : Nat} (inside : i ≤ k + 1) :
    (xs.getD i none).isSome = (ys.getD i none).isSome := by
  rw [← getD_pattern, ← getD_pattern]
  exact alike.missing.getD (by omega) false

/- An asset's own bars. -/

/-- How many closes an asset has before a bar. -/
def rank (prices : Series) (k : Nat) : Nat := (ownPrices (prices.take k)).length

theorem ownPrices_take_succ (prices : Series) (k : Nat) :
    ownPrices (prices.take (k + 1)) = ownPrices (prices.take k) ++ (prices.getD k none).toList := by
  unfold ownPrices
  rw [List.take_add_one, List.filterMap_append, List.getD_eq_getElem?_getD]
  cases prices[k]? with
  | none => rfl
  | some p => cases p <;> rfl

theorem rank_succ (prices : Series) (k : Nat) : rank prices (k + 1) = rank prices k + (prices.getD k none).toList.length := by
  unfold rank
  rw [ownPrices_take_succ, List.length_append]

theorem rank_eq (prices : Series) (k : Nat) :
    ((List.range k).filter fun i => (prices.getD i none).isSome).length = rank prices k := by
  induction k with
  | zero => rfl
  | succ k ih =>
    rw [List.range_succ, List.filter_append, List.length_append, ih, rank_succ]
    congr 1
    cases here : prices.getD k none with
    | none =>
      rw [List.filter_cons_of_neg (by rw [here]; decide)]
      rfl
    | some p =>
      rw [List.filter_cons_of_pos (by rw [here]; rfl)]
      rfl

theorem idxOf?_ownTs {prices : Series} {k : Nat} (inside : k < prices.length) :
    (ownTs prices).idxOf? k = if (prices.getD k none).isSome then some (rank prices k) else none := by
  unfold ownTs
  by_cases present : (prices.getD k none).isSome
  · rw [if_pos present, place_of inside present, rank_eq]
  · rw [if_neg present, place_of_none (by simpa using present)]

/-- What a move between two closes of an asset's own maps to. -/
theorem mapped_at {β : Type} {prices : Series} {values : List β} {n : Nat} (inside : k + 1 < prices.length)
    (whole : n = prices.length) :
    (mapToUnionIndex (ownTs prices) values (List.range n)).getD k none =
      if (prices.getD k none).isSome ∧ (prices.getD (k + 1) none).isSome then values[rank prices k]? else none := by
  unfold mapToUnionIndex
  rw [List.length_range, getD_rows (by omega), List.getD_eq_getElem?_getD, List.getElem?_range (by omega),
    List.getD_eq_getElem?_getD, List.getElem?_range (by omega)]
  simp only [Option.getD_some]
  rw [idxOf?_ownTs (by omega), idxOf?_ownTs inside]
  cases here : prices.getD k none with
  | none => simp
  | some p =>
    have next : rank prices (k + 1) = rank prices k + 1 := by
      rw [rank_succ, here]
      rfl
    cases (prices.getD (k + 1) none) with
    | none => simp
    | some q => simp [next]

theorem ownPrices_take (prices : Series) (n : Nat) :
    (ownPrices prices).take (rank prices n) = ownPrices (prices.take n) := by
  have parted : ownPrices prices = ownPrices (prices.take n) ++ ownPrices (prices.drop n) := by
    unfold ownPrices
    rw [← List.filterMap_append, List.take_append_drop]
  unfold rank
  rw [parted, List.take_left]

theorem rank_le (prices : Series) (n : Nat) : rank prices n ≤ (ownPrices prices).length := by
  have taken := congrArg List.length (ownPrices_take prices n)
  rw [List.length_take] at taken
  unfold rank at taken ⊢
  omega

theorem Alike.rank (alike : Alike k xs ys) : rank xs k = rank ys k := by
  unfold Alpha.rank
  rw [alike.closes.sooner (Nat.le_succ k)]

/-- An asset's own closes agree through its close at the bar. -/
theorem Alike.own (alike : Alike k xs ys) (present : (xs.getD k none).isSome) :
    Agree (Alpha.rank xs k + 1) (ownPrices xs) (ownPrices ys) := by
  have present' : (ys.getD k none).isSome := by rw [← alike.present (Nat.le_succ k)]; exact present
  have next : ∀ zs : Series, (zs.getD k none).isSome → Alpha.rank zs (k + 1) = Alpha.rank zs k + 1 := by
    intro zs here
    obtain ⟨p, at_k⟩ := Option.isSome_iff_exists.mp here
    rw [rank_succ, at_k]
    rfl
  have one := ownPrices_take xs (k + 1)
  have two := ownPrices_take ys (k + 1)
  rw [next xs present] at one
  rw [next ys present', ← alike.rank, ← show xs.take (k + 1) = ys.take (k + 1) from alike.closes] at two
  exact one.trans two.symm

theorem own_long {prices : Series} (here : (prices.getD k none).isSome) (there : (prices.getD (k + 1) none).isSome) :
    rank prices k + 1 < (ownPrices prices).length := by
  obtain ⟨p, at_k⟩ := Option.isSome_iff_exists.mp here
  obtain ⟨q, at_next⟩ := Option.isSome_iff_exists.mp there
  have two := rank_le prices (k + 2)
  rw [rank_succ, rank_succ, at_k, at_next] at two
  simp only [Option.toList_some, List.length_singleton] at two
  omega

/-- A value of a move is the same where, both of its closes there, the values of the bar it is from are. -/
theorem mapped_both {β : Type} {vs vs' : List β} {n m : Nat} (alike : Alike k xs ys) (whole : n = xs.length)
    (whole' : m = ys.length)
    (same : (xs.getD k none).isSome → (xs.getD (k + 1) none).isSome → vs[rank xs k]? = vs'[rank xs k]?) :
    (mapToUnionIndex (ownTs xs) vs (List.range n)).getD k none =
      (mapToUnionIndex (ownTs ys) vs' (List.range m)).getD k none := by
  rw [mapped_at alike.left whole, mapped_at alike.right whole', ← alike.present (Nat.le_succ k),
    ← alike.present (Nat.le_refl _), ← alike.rank]
  by_cases both : (xs.getD k none).isSome ∧ (xs.getD (k + 1) none).isSome
  · rw [if_pos both, if_pos both]
    exact same both.1 both.2
  · rw [if_neg both, if_neg both]

/-- Where both closes of a move are there, an asset's own closes go past the bar in both series. -/
theorem Alike.long (alike : Alike k xs ys) (here : (xs.getD k none).isSome) (there : (xs.getD (k + 1) none).isSome) :
    Alpha.rank xs k + 1 < (ownPrices xs).length ∧ Alpha.rank xs k + 1 < (ownPrices ys).length := by
  refine ⟨own_long here there, ?_⟩
  rw [alike.rank]
  refine own_long ?_ ?_
  · rw [← alike.present (Nat.le_succ k)]
    exact here
  · rw [← alike.present (Nat.le_refl _)]
    exact there

/-- A value of a move is the same where the values on an asset's own bars are. -/
theorem mapped_same {β : Type} {vs vs' : List β} {n m : Nat} (alike : Alike k xs ys) (whole : n = xs.length)
    (whole' : m = ys.length)
    (same : Agree (rank xs k + 1) (ownPrices xs) (ownPrices ys) → rank xs k + 1 < (ownPrices xs).length →
      rank xs k + 1 < (ownPrices ys).length → vs[rank xs k]? = vs'[rank xs k]?) :
    (mapToUnionIndex (ownTs xs) vs (List.range n)).getD k none =
      (mapToUnionIndex (ownTs ys) vs' (List.range m)).getD k none := by
  apply mapped_both alike whole whole'
  intro here there
  obtain ⟨left, right⟩ := alike.long here there
  exact same (alike.own here) left right

/- Returns and weights. -/

theorem assetReturns_length (prices : Series) : (assetReturns prices).length = prices.length - 1 := by
  induction prices with
  | nil => rfl
  | cons p rest ih =>
    cases rest with
    | nil => cases p <;> rfl
    | cons q rest =>
      have step : (assetReturns (p :: q :: rest)).length = (assetReturns (q :: rest)).length + 1 := by
        cases p <;> cases q <;> rfl
      rw [step, ih]
      rfl

theorem assetReturns_at {prices : Series} {i : Nat} (inside : i + 1 < prices.length) :
    (assetReturns prices)[i]? = some (match prices.getD i none, prices.getD (i + 1) none with
      | some p, some q => some (q / p - 1)
      | _, _ => none) := by
  induction prices generalizing i with
  | nil => simp at inside
  | cons p rest ih =>
    cases rest with
    | nil => simp at inside
    | cons q rest =>
      cases i with
      | zero => cases p <;> cases q <;> rfl
      | succ i =>
        have step : (assetReturns (p :: q :: rest))[i + 1]? = (assetReturns (q :: rest))[i]? := by
          cases p <;> cases q <;> rfl
        rw [step, ih (by simpa using inside)]
        rfl

theorem assetReturns_getD {prices : Series} {i : Nat} (inside : i + 1 < prices.length) :
    (assetReturns prices).getD i none = match prices.getD i none, prices.getD (i + 1) none with
      | some p, some q => some (q / p - 1)
      | _, _ => none := by
  rw [List.getD_eq_getElem?_getD, assetReturns_at inside]
  rfl

/-- Returns agree before the bar, and the bar's is there for both or for neither. -/
theorem Alike.returns (alike : Alike k xs ys) : Agree k (assetReturns xs) (assetReturns ys) := by
  apply agree_of_each
  intro i before
  have left := alike.left
  have right := alike.right
  rw [assetReturns_at (by omega), assetReturns_at (by omega), alike.closes.getD (by omega), alike.closes.getD (by omega)]

theorem isSome_return {prices : Series} {i : Nat} (inside : i + 1 < prices.length) :
    ((assetReturns prices).getD i none).isSome = ((prices.getD i none).isSome && (prices.getD (i + 1) none).isSome) := by
  rw [assetReturns_getD inside]
  cases prices.getD i none <;> cases prices.getD (i + 1) none <;> rfl

theorem Alike.earned (alike : Alike k xs ys) :
    ((assetReturns xs).getD k none).isNone = ((assetReturns ys).getD k none).isNone := by
  have same : ((assetReturns xs).getD k none).isSome = ((assetReturns ys).getD k none).isSome := by
    rw [isSome_return alike.left, isSome_return alike.right, alike.present (Nat.le_succ k),
      alike.present (Nat.le_refl _)]
  rw [← Option.not_isSome, ← Option.not_isSome, same]

/-- The same assets, each with a series that is alike. -/
def AllAlike (k : Nat) (ps qs : Closes) : Prop := List.Forall₂ (fun x y => x.1 = y.1 ∧ Alike k x.2 y.2) ps qs

variable {ps qs : Closes}

theorem AllAlike.sooner (alike : AllAlike k ps qs) {j : Nat} (sooner : j ≤ k) : AllAlike j ps qs :=
  alike.imp fun _ _ one => ⟨one.1, one.2.sooner sooner⟩

theorem inverseVolAt_same (sqrt : ℚ → ℚ) (lookback : Nat) (alike : Alike k xs ys) :
    inverseVolAt sqrt lookback k (assetReturns xs) = inverseVolAt sqrt lookback k (assetReturns ys) := by
  unfold inverseVolAt
  rw [alike.returns.slice (Nat.le_refl k), alike.earned]

theorem weightsAt_same (sqrt : ℚ → ℚ) (lookback : Nat) (alike : AllAlike k ps qs) :
    weightsAt sqrt (returnsOf ps) lookback k = weightsAt sqrt (returnsOf qs) lookback k := by
  have each : (returnsOf ps).filterMap (fun item => (inverseVolAt sqrt lookback k item.2).map fun inv => (item.1, inv)) =
      (returnsOf qs).filterMap fun item => (inverseVolAt sqrt lookback k item.2).map fun inv => (item.1, inv) := by
    unfold returnsOf
    rw [List.filterMap_map, List.filterMap_map]
    induction alike with
    | nil => rfl
    | cons one _ ih =>
      rw [List.filterMap_cons, List.filterMap_cons, ih]
      simp only [Function.comp]
      rw [one.1, inverseVolAt_same sqrt lookback one.2]
  unfold weightsAt
  rw [each]

theorem AllAlike.head (alike : AllAlike k ps qs) (some_ : ps ≠ []) :
    k + 1 < (ps.head?.map fun item => item.2.length).getD 0 ∧ k + 1 < (qs.head?.map fun item => item.2.length).getD 0 := by
  cases alike with
  | nil => exact absurd rfl some_
  | cons one _ => exact ⟨one.2.left, one.2.right⟩

/-- Weights agree through the bar. -/
theorem weights_agree (sqrt : ℚ → ℚ) (lookback : Nat) (alike : AllAlike k ps qs) (some_ : ps ≠ []) :
    Agree (k + 1) (inverseVolWeights sqrt ps lookback) (inverseVolWeights sqrt qs lookback) := by
  obtain ⟨left, right⟩ := alike.head some_
  apply agree_rows
  · intro i inside
    exact weightsAt_same sqrt lookback (alike.sooner (by omega))
  · omega
  · omega

/- Directions. -/

theorem donchianSignal_same {window : Nat} {band : ℚ} {own own' signal signal' : List ℚ} {r : Nat}
    (run : donchianSignal own window band = .ok signal) (run' : donchianSignal own' window band = .ok signal')
    (agree : Agree (r + 1) own own') (long : r + 1 < own.length) (long' : r + 1 < own'.length) :
    signal[r]? = signal'[r]? := by
  obtain ⟨cp, made, done⟩ := bind_ok.mp run
  obtain ⟨cp', made', done'⟩ := bind_ok.mp run'
  injection done with done
  injection done' with done'
  obtain ⟨_, _, rfl⟩ := channelPosition_run made
  obtain ⟨_, _, rfl⟩ := channelPosition_run made'
  rw [← done, ← done']
  refine (Agree.sweep ?_).at_ (Nat.lt_succ_self r)
  apply agree_rows
  · intro i inside
    exact channelAt_same window (agree.sooner (by omega))
  · omega
  · omega

/-- The same assets, each with a series of values that is the same at a place. -/
def SameAt {β : Type} (k : Nat) (ds es : List (String × List β)) : Prop :=
  List.Forall₂ (fun x y => x.1 = y.1 ∧ x.2[k]? = y.2[k]?) ds es

theorem map_same {α β γ : Type} {f : α → β} {g : γ → β} {as : List α} {bs : List γ} (same : List.Forall₂ (fun a b => f a = g b) as bs) :
    as.map f = bs.map g := by
  induction same with
  | nil => rfl
  | cons one _ ih => rw [List.map_cons, List.map_cons, one, ih]

theorem ensembleAt_same (c : A2Config) {ms ms' : List Series} {k : Nat}
    (same : List.Forall₂ (fun m m' : Series => m.getD k none = m'.getD k none) ms ms') :
    ensembleAt c ms k = ensembleAt c ms' k := by
  unfold ensembleAt
  rw [map_same same]

/-- Two passes of one list that answer one by one: what they answer of each item is in the same place. -/
theorem forall₂_runs {α β ε : Type} {f g : α → Except ε β} {R : β → β → Prop} {as : List α} {bs bs' : List β}
    (run : as.mapM f = .ok bs) (run' : as.mapM g = .ok bs')
    (each : ∀ a ∈ as, ∀ b b', f a = .ok b → g a = .ok b' → R b b') : List.Forall₂ R bs bs' := by
  have one := mapM_ok.mp run
  have two := mapM_ok.mp run'
  clear run run'
  induction one generalizing bs' with
  | nil =>
    cases two
    exact .nil
  | cons first _ ih =>
    cases two with
    | cons first' rest' =>
      refine .cons (each _ List.mem_cons_self _ _ first first') (ih ?_ rest')
      intro a mem
      exact each a (List.mem_cons_of_mem _ mem)

theorem directionsA2_same {c : A2Config} {ds es : Closes} {n m : Nat} (alike : AllAlike k ps qs)
    (run : assetDirectionsA2 c ps (List.range n) = .ok ds) (run' : assetDirectionsA2 c qs (List.range m) = .ok es)
    (whole : ∀ item ∈ ps, item.2.length = n) (whole' : ∀ item ∈ qs, item.2.length = m) : SameAt k ds es := by
  have one := mapM_ok.mp run
  have two := mapM_ok.mp run'
  clear run run'
  induction alike generalizing ds es with
  | nil =>
    cases one
    cases two
    exact .nil
  | @cons x y xs ys pair _ ih =>
    cases one with
    | cons first rest =>
      cases two with
      | cons first' rest' =>
        refine .cons ?_ (ih (fun i mem => whole i (List.mem_cons_of_mem _ mem))
          (fun i mem => whole' i (List.mem_cons_of_mem _ mem)) rest rest')
        obtain ⟨signals, made, done⟩ := bind_ok.mp first
        obtain ⟨signals', made', done'⟩ := bind_ok.mp first'
        injection done with done
        injection done' with done'
        rw [← done, ← done']
        refine ⟨pair.1, ?_⟩
        have here := whole x List.mem_cons_self
        have here' := whole' y List.mem_cons_self
        have left := pair.2.left
        have right := pair.2.right
        simp only [List.length_range]
        rw [List.getElem?_map, List.getElem?_map, List.getElem?_range (by omega), List.getElem?_range (by omega)]
        apply congrArg some
        apply ensembleAt_same
        rw [List.forall₂_map_left_iff, List.forall₂_map_right_iff]
        apply forall₂_runs made made'
        intro w _ signal signal' ran ran'
        apply mapped_same pair.2 here.symm here'.symm
        exact donchianSignal_same ran ran'

/- The books. -/

theorem SameAt.getD {ds es : Closes} (same : SameAt k ds es) :
    List.Forall₂ (fun x y => x.1 = y.1 ∧ x.2.getD k none = y.2.getD k none) ds es :=
  same.imp fun _ _ one => ⟨one.1, by rw [List.getD_eq_getElem?_getD, List.getD_eq_getElem?_getD, one.2]⟩

theorem baseReturnAt_same {weights weights' : List (List (String × ℚ))} {ds es rs rs' : Closes}
    (weighted : weights.getD k [] = weights'.getD k []) (directed : SameAt k ds es) (earned : SameAt k rs rs') :
    baseReturnAt weights ds rs k = baseReturnAt weights' es rs' k := by
  unfold baseReturnAt
  rw [weighted]
  congr 1
  replace directed := directed.getD
  replace earned := earned.getD
  induction directed generalizing rs rs' with
  | nil => rfl
  | cons one _ ih =>
    cases earned with
    | nil => rfl
    | cons r more =>
      rw [List.zipWith_cons_cons, List.zipWith_cons_cons, ih more, one.1, one.2, r.2]

theorem volTarget_run {sqrt : ℚ → ℚ} {returns positions : List ℚ} {targetVol maxLeverage : ℚ} {lookback : Nat}
    (run : volTarget sqrt returns targetVol lookback maxLeverage = .ok positions) :
    positions = (List.range returns.length).map (volTargetAt sqrt returns targetVol lookback maxLeverage) := by
  unfold volTarget at run
  split at run
  · cases run
  split at run
  · cases run
  split at run
  · cases run
  split at run
  · cases run
  injection run with same
  exact same.symm

/-- A book's volatility scalar at the bar is of its weights, directions and returns before it. -/
theorem bookOf_levels {sqrt : ℚ → ℚ} {targetVol maxLeverage : ℚ} {volLookback ppy n m : Nat}
    {weights weights' : List (List (String × ℚ))} {ds es rs rs' : Closes} {b b' : BookResult}
    (run : bookOf sqrt targetVol volLookback maxLeverage ppy weights ds rs n = .ok b)
    (run' : bookOf sqrt targetVol volLookback maxLeverage ppy weights' es rs' m = .ok b') (left : k < n) (right : k < m)
    (weighted : Agree k weights weights') (directed : ∀ j < k, SameAt j ds es) (earned : ∀ j < k, SameAt j rs rs') :
    b.volTargetPositions.getD k 0 = b'.volTargetPositions.getD k 0 := by
  obtain ⟨positions, targeted, run⟩ := bind_ok.mp run
  obtain ⟨positions', targeted', run'⟩ := bind_ok.mp run'
  obtain ⟨net, _, run⟩ := bind_ok.mp run
  obtain ⟨net', _, run'⟩ := bind_ok.mp run'
  injection run with run
  injection run' with run'
  have based : Agree k ((List.range n).map (baseReturnAt weights ds rs)) ((List.range m).map (baseReturnAt weights' es rs')) := by
    apply agree_rows
    · intro j before
      exact baseReturnAt_same (weighted.getD before _) (directed j before) (earned j before)
    · omega
    · omega
  rw [← run, ← run', volTarget_run targeted, volTarget_run targeted', List.length_map, List.length_map, List.length_range,
    List.length_range, getD_rows left, getD_rows right]
  exact volTargetAt_same sqrt _ volLookback maxLeverage based

/-- What a book holds at the bar is the same where its weights and directions are through it and its returns before it. -/
theorem bookOf_same {sqrt : ℚ → ℚ} {targetVol maxLeverage : ℚ} {volLookback ppy n m : Nat}
    {weights weights' : List (List (String × ℚ))} {ds es rs rs' : Closes} {b b' : BookResult}
    (run : bookOf sqrt targetVol volLookback maxLeverage ppy weights ds rs n = .ok b)
    (run' : bookOf sqrt targetVol volLookback maxLeverage ppy weights' es rs' m = .ok b') (left : k < n) (right : k < m)
    (weighted : Agree (k + 1) weights weights') (directed : ∀ j ≤ k, SameAt j ds es) (earned : ∀ j < k, SameAt j rs rs') :
    SameAt k b.assetPositions b'.assetPositions := by
  have levels := bookOf_levels run run' left right (weighted.sooner (Nat.le_succ k))
    (fun j before => directed j (Nat.le_of_lt before)) earned
  obtain ⟨positions, targeted, run⟩ := bind_ok.mp run
  obtain ⟨positions', targeted', run'⟩ := bind_ok.mp run'
  obtain ⟨net, _, run⟩ := bind_ok.mp run
  obtain ⟨net', _, run'⟩ := bind_ok.mp run'
  injection run with run
  injection run' with run'
  rw [← run, ← run'] at levels ⊢
  simp only at levels
  unfold SameAt
  rw [List.forall₂_map_left_iff, List.forall₂_map_right_iff]
  apply (directed k (Nat.le_refl k)).getD.imp
  intro x y one
  refine ⟨one.1, ?_⟩
  rw [List.getElem?_map, List.getElem?_map, List.getElem?_range left, List.getElem?_range right, Option.map_some,
    Option.map_some, levels, weighted.getD (Nat.lt_succ_self k), one.1, one.2]

theorem AllAlike.earned (alike : AllAlike k ps qs) {j : Nat} (before : j < k) : SameAt j (returnsOf ps) (returnsOf qs) := by
  unfold SameAt returnsOf
  rw [List.forall₂_map_left_iff, List.forall₂_map_right_iff]
  exact alike.imp fun _ _ one => ⟨one.1, one.2.returns.at_ before⟩

/-- Closes that are accepted are of one length, and the market's is all there. -/
structure Accepted (prices : Closes) (n : Nat) : Prop where
  some_ : prices ≠ []
  market : "BTC" ∈ prices.map Prod.fst
  whole : ∀ item ∈ prices, item.2.length = n
  full : ∀ p ∈ closesOf prices "BTC", p.isSome
  length : (closesOf prices "BTC").length = n

theorem lookup_mem {β : Type} {items : List (String × β)} {key : String} (there : key ∈ items.map Prod.fst) :
    ∃ value, items.lookup key = some value ∧ (key, value) ∈ items := by
  induction items with
  | nil => cases there
  | cons item rest ih =>
    by_cases here : key = item.1
    · refine ⟨item.2, ?_, ?_⟩
      · rw [here, List.lookup_cons_self]
      · rw [here]
        exact List.mem_cons_self
    · have later : key ∈ rest.map Prod.fst := by
        rcases List.mem_cons.mp there with same | later
        · exact absurd same here
        · exact later
      obtain ⟨value, found, mem⟩ := ih later
      refine ⟨value, ?_, List.mem_cons_of_mem _ mem⟩
      rw [List.lookup_cons, beq_false_of_ne here, found]

theorem accepted {prices : Closes} (valid : validatePricesByAsset prices = .ok ()) :
    Accepted prices (closesOf prices "BTC").length := by
  unfold validatePricesByAsset at valid
  split at valid
  · cases valid
  rename_i some_
  split at valid
  · cases valid
  rename_i market
  split at valid
  · cases valid
  split at valid
  · cases valid
  rename_i one_length
  split at valid
  · cases valid
  rename_i full
  have market := Decidable.not_not.mp market
  obtain ⟨series, found, mem⟩ := lookup_mem market
  have btc : closesOf prices "BTC" = series := by
    unfold closesOf
    rw [found]
    rfl
  refine ⟨some_, market, ?_, ?_, rfl⟩
  · intro item there
    obtain ⟨n, only⟩ := List.length_eq_one_iff.mp (Decidable.not_not.mp one_length)
    have each : ∀ x ∈ prices, x.2.length = n := by
      intro x here
      have among : x.2.length ∈ (prices.map fun item => item.2.length).dedup :=
        List.mem_dedup.mpr (List.mem_map_of_mem here)
      rw [only] at among
      exact List.mem_singleton.mp among
    rw [each item there, btc, ← each _ mem]
  · intro p there
    simp only [List.any_eq_true, not_exists, not_and] at full
    have present := full p there
    cases p with
    | none => exact absurd rfl present
    | some close => rfl

theorem AllAlike.inside (alike : AllAlike k ps qs) {n m : Nat} (left : Accepted ps n) (right : Accepted qs m) :
    k + 1 < n ∧ k + 1 < m := by
  obtain ⟨item, rest, same⟩ := List.exists_cons_of_ne_nil left.some_
  have some_' := right.some_
  subst same
  cases alike with
  | cons one _ =>
    rw [← left.whole item List.mem_cons_self, ← right.whole _ List.mem_cons_self]
    exact ⟨one.2.left, one.2.right⟩

/-- A position of the second book at a bar is made of the closes through it. -/
theorem a2_same {sqrt : ℚ → ℚ} {c : A2Config} {b b' : BookResult} (run : a2BookReturns sqrt c ps = .ok b)
    (run' : a2BookReturns sqrt c qs = .ok b') (alike : AllAlike k ps qs) : SameAt k b.assetPositions b'.assetPositions := by
  obtain ⟨_, run⟩ := then_ok.mp run
  obtain ⟨valid, run⟩ := then_ok.mp run
  obtain ⟨ds, directed, run⟩ := bind_ok.mp run
  obtain ⟨_, run'⟩ := then_ok.mp run'
  obtain ⟨valid', run'⟩ := then_ok.mp run'
  obtain ⟨es, directed', run'⟩ := bind_ok.mp run'
  have left := accepted valid
  have right := accepted valid'
  obtain ⟨inside, inside'⟩ := alike.inside left right
  apply bookOf_same run run' (by omega) (by omega) (weights_agree sqrt _ alike left.some_)
  · intro j before
    exact directionsA2_same (alike.sooner before) directed directed' left.whole right.whole
  · intro j before
    exact alike.earned before

/- The first book's gate and trends. -/

theorem AllAlike.closesOf (alike : AllAlike k ps qs) {asset : String} (there : asset ∈ ps.map Prod.fst) :
    Alike k (closesOf ps asset) (closesOf qs asset) := by
  unfold Alpha.closesOf
  induction alike with
  | nil => cases there
  | @cons x y xs ys one _ ih =>
    by_cases here : asset = x.1
    · rw [here, List.lookup_cons_self, one.1, List.lookup_cons_self]
      exact one.2
    · have later : asset ∈ xs.map Prod.fst := by
        rcases List.mem_cons.mp there with same | later
        · exact absurd same here
        · exact later
      rw [List.lookup_cons, beq_false_of_ne here, List.lookup_cons, ← one.1, beq_false_of_ne here]
      exact ih later

theorem rank_full {prices : Series} (full : ∀ p ∈ prices, p.isSome) {k : Nat} (inside : k ≤ prices.length) :
    rank prices k = k := by
  induction k with
  | zero => rfl
  | succ k ih =>
    have here := List.getElem?_eq_getElem (show k < prices.length by omega)
    obtain ⟨p, at_k⟩ := Option.isSome_iff_exists.mp (full _ (List.getElem_mem (show k < prices.length by omega)))
    rw [rank_succ, ih (by omega), List.getD_eq_getElem?_getD, here, at_k]
    rfl

theorem ownTs_full {prices : Series} (full : ∀ p ∈ prices, p.isSome) : ownTs prices = List.range prices.length := by
  unfold ownTs
  rw [List.filter_eq_self]
  intro i mem
  have inside := List.mem_range.mp mem
  rw [List.getD_eq_getElem?_getD, List.getElem?_eq_getElem inside]
  exact full _ (List.getElem_mem inside)

/-- On the union calendar itself, a value of a move is that of its place. -/
theorem mapped_range {β : Type} {values : List β} {n k : Nat} (inside : k + 1 < n) :
    (mapToUnionIndex (List.range n) values (List.range n)).getD k none = values[k]? := by
  have full : ∀ p ∈ List.replicate n (some (1 : ℚ)), p.isSome := by
    intro p mem
    rw [List.eq_of_mem_replicate mem]
    rfl
  have whole := List.length_replicate (n := n) (a := some (1 : ℚ))
  have present : ∀ i < n, ((List.replicate n (some (1 : ℚ))).getD i none).isSome := by
    intro i there
    rw [List.getD_eq_getElem?_getD, List.getElem?_replicate, if_pos there]
    rfl
  have long : k + 1 < (List.replicate n (some (1 : ℚ))).length := by rw [whole]; exact inside
  have mapped : (mapToUnionIndex (ownTs (List.replicate n (some (1 : ℚ)))) values (List.range n)).getD k none = _ :=
    mapped_at long whole.symm
  rw [ownTs_full full, whole, if_pos ⟨present k (by omega), present (k + 1) inside⟩,
    rank_full full (by rw [whole]; omega)] at mapped
  exact mapped

theorem Alike.own_full (alike : Alike k xs ys) (full : ∀ p ∈ xs, p.isSome) (full' : ∀ p ∈ ys, p.isSome) :
    Agree (k + 1) (ownPrices xs) (ownPrices ys) ∧ k + 1 < (ownPrices xs).length ∧ k + 1 < (ownPrices ys).length := by
  have left := alike.left
  have right := alike.right
  have present : ∀ (zs : Series), (∀ p ∈ zs, p.isSome) → ∀ i < zs.length, (zs.getD i none).isSome := by
    intro zs all i there
    rw [List.getD_eq_getElem?_getD, List.getElem?_eq_getElem there]
    exact all _ (List.getElem_mem there)
  have agree := alike.own (present xs full k (by omega))
  have long := own_long (present xs full k (by omega)) (present xs full (k + 1) left)
  have long' := own_long (present ys full' k (by omega)) (present ys full' (k + 1) right)
  rw [rank_full full (by omega)] at agree long
  rw [rank_full full' (by omega)] at long'
  exact ⟨agree, long, long'⟩

theorem smaGate_same {own own' gate gate' : List ℚ} {window r : Nat} (run : smaGate own window = .ok gate)
    (run' : smaGate own' window = .ok gate') (agree : Agree (r + 1) own own') (long : r + 1 < own.length)
    (long' : r + 1 < own'.length) : gate[r]? = gate'[r]? := by
  obtain ⟨_, run⟩ := then_ok.mp run
  obtain ⟨_, run⟩ := then_ok.mp run
  obtain ⟨_, run'⟩ := then_ok.mp run'
  obtain ⟨_, run'⟩ := then_ok.mp run'
  injection run with run
  injection run' with run'
  rw [← run, ← run']
  exact rows_same (fun i le => smaAt_same window (agree.sooner (by omega))) (by omega) (by omega)

theorem bear_same {own own' : List ℚ} {window r : Nat} (band : ℚ) (agree : Agree (r + 1) own own')
    (long : r + 1 < own.length) (long' : r + 1 < own'.length) :
    (btcMarketBear own window band)[r]? = (btcMarketBear own' window band)[r]? := by
  refine rows_same (fun i le => ?_) (by omega) (by omega)
  unfold bearAt
  rw [agree.slice (by omega), agree.getD (by omega)]

theorem trendAgreement_same {own own' trend trend' : List ℚ} {lookbacks : List Nat} {r : Nat}
    (run : trendAgreement own lookbacks = .ok trend) (run' : trendAgreement own' lookbacks = .ok trend')
    (agree : Agree (r + 1) own own') (long : r + 1 < own.length) (long' : r + 1 < own'.length) :
    trend[r]? = trend'[r]? := by
  obtain ⟨_, run⟩ := then_ok.mp run
  obtain ⟨_, run'⟩ := then_ok.mp run'
  split at run
  · cases run
  split at run'
  · cases run'
  obtain ⟨_, run⟩ := then_ok.mp run
  obtain ⟨momenta, made, run⟩ := bind_ok.mp run
  obtain ⟨_, run'⟩ := then_ok.mp run'
  obtain ⟨momenta', made', run'⟩ := bind_ok.mp run'
  injection run with run
  injection run' with run'
  rw [← run, ← run']
  refine rows_same (fun i le => ?_) (by omega) (by omega)
  have each : List.Forall₂ (fun m m' : List ℚ => m.getD i 0 = m'.getD i 0) momenta momenta' := by
    apply forall₂_runs made made'
    intro lookback _ m m' ran ran'
    obtain ⟨_, ran⟩ := then_ok.mp ran
    obtain ⟨_, ran⟩ := then_ok.mp ran
    obtain ⟨_, ran'⟩ := then_ok.mp ran'
    obtain ⟨_, ran'⟩ := then_ok.mp ran'
    injection ran with ran
    injection ran' with ran'
    rw [← ran, ← ran', getD_rows (by omega), getD_rows (by omega)]
    exact momentumAt_same lookback (agree.sooner (by omega))
  have signs : momenta.map (fun m => sign (m.getD i 0)) = momenta'.map fun m => sign (m.getD i 0) :=
    map_same (each.imp fun m m' one => congrArg sign one)
  rw [signs]

theorem directionAt_same (c : A1Config) {gate gate' bear bear' trend trend' : Series} (alike : Alike k xs ys)
    (gated : gate.getD k none = gate'.getD k none) (down : bear.getD k none = bear'.getD k none)
    (trending : trend.getD k none = trend'.getD k none) :
    directionAt c gate bear trend xs k = directionAt c gate' bear' trend' ys k := by
  have here : (xs.getD k none).isNone = (ys.getD k none).isNone := by
    rw [← Option.not_isSome, ← Option.not_isSome, alike.present (Nat.le_succ k)]
  have next : (xs.getD (k + 1) none).isNone = (ys.getD (k + 1) none).isNone := by
    rw [← Option.not_isSome, ← Option.not_isSome, alike.present (Nat.le_refl _)]
  unfold directionAt
  rw [gated, down, trending, here, next]

/-- Where a series goes by the name of the market's, it is all there. -/
def MarketFull (prices : Closes) : Prop := ∀ item ∈ prices, item.1 = "BTC" → ∀ p ∈ item.2, p.isSome

theorem agreement_same {vs vs' : List ℚ} {n m : Nat} {asset : String} (alike : Alike k xs ys) (whole : xs.length = n)
    (whole' : ys.length = m) (full : asset = "BTC" → ∀ p ∈ xs, p.isSome) (full' : asset = "BTC" → ∀ p ∈ ys, p.isSome)
    (same : ∀ r, Agree (r + 1) (ownPrices xs) (ownPrices ys) → r + 1 < (ownPrices xs).length →
      r + 1 < (ownPrices ys).length → vs[r]? = vs'[r]?) :
    (mapToUnionIndex (if asset = "BTC" then List.range n else ownTs xs) vs (List.range n)).getD k none =
      (mapToUnionIndex (if asset = "BTC" then List.range m else ownTs ys) vs' (List.range m)).getD k none := by
  by_cases market : asset = "BTC"
  · have left := alike.left
    have right := alike.right
    obtain ⟨agree, long, long'⟩ := alike.own_full (full market) (full' market)
    rw [if_pos market, if_pos market, mapped_range (by omega), mapped_range (by omega)]
    exact same k agree long long'
  · rw [if_neg market, if_neg market]
    exact mapped_same alike whole.symm whole'.symm (same _)

theorem directionsA1_same {c : A1Config} {ds es : Closes} {n m : Nat} {btc btc' : List ℚ} (alike : AllAlike k ps qs)
    (run : assetDirections c ps btc (List.range n) = .ok ds) (run' : assetDirections c qs btc' (List.range m) = .ok es)
    (whole : ∀ item ∈ ps, item.2.length = n) (whole' : ∀ item ∈ qs, item.2.length = m) (full : MarketFull ps)
    (full' : MarketFull qs) (agree : Agree (k + 1) btc btc') (long : btc.length = n) (long' : btc'.length = m)
    (inside : k + 1 < n) (inside' : k + 1 < m) : SameAt k ds es := by
  obtain ⟨gate, gated, each⟩ := bind_ok.mp run
  obtain ⟨gate', gated', each'⟩ := bind_ok.mp run'
  have one := mapM_ok.mp each
  have two := mapM_ok.mp each'
  clear run run' each each'
  induction alike generalizing ds es with
  | nil =>
    cases one
    cases two
    exact .nil
  | @cons x y xs ys pair _ ih =>
    cases one with
    | cons first rest =>
      cases two with
      | cons first' rest' =>
        refine .cons ?_ (ih (fun i mem => whole i (List.mem_cons_of_mem _ mem))
          (fun i mem => whole' i (List.mem_cons_of_mem _ mem)) (fun i mem => full i (List.mem_cons_of_mem _ mem))
          (fun i mem => full' i (List.mem_cons_of_mem _ mem)) rest rest')
        obtain ⟨trend, made, done⟩ := bind_ok.mp first
        obtain ⟨trend', made', done'⟩ := bind_ok.mp first'
        injection done with done
        injection done' with done'
        rw [← done, ← done']
        refine ⟨pair.1, ?_⟩
        simp only [List.length_range]
        rw [List.getElem?_map, List.getElem?_map, List.getElem?_range (by omega), List.getElem?_range (by omega)]
        apply congrArg some
        apply directionAt_same c pair.2
        · rw [mapped_range inside, mapped_range inside']
          exact smaGate_same gated gated' agree (by omega) (by omega)
        · rw [mapped_range inside, mapped_range inside']
          exact bear_same _ agree (by omega) (by omega)
        · rw [← pair.1]
          apply agreement_same pair.2 (whole x List.mem_cons_self) (whole' y List.mem_cons_self)
            (full x List.mem_cons_self) (fun market => full' y List.mem_cons_self (pair.1.symm.trans market))
          intro r own long long'
          exact trendAgreement_same made made' own long long'

theorem lookup_unique {β : Type} {items : List (String × β)} {item : String × β} (keys : (items.map Prod.fst).Nodup)
    (mem : item ∈ items) : items.lookup item.1 = some item.2 := by
  induction items with
  | nil => cases mem
  | cons first rest ih =>
    obtain ⟨fresh, keys⟩ := List.nodup_cons.mp keys
    rcases List.mem_cons.mp mem with rfl | later
    · exact List.lookup_cons_self
    · have apart : item.1 ≠ first.1 := by
        intro same
        exact fresh (same ▸ List.mem_map_of_mem later)
      rw [List.lookup_cons, beq_false_of_ne apart]
      exact ih keys later

theorem Accepted.marketFull {prices : Closes} {n : Nat} (ok : Accepted prices n) (keys : (prices.map Prod.fst).Nodup) :
    MarketFull prices := by
  intro item mem market
  have found := lookup_unique keys mem
  have full := ok.full
  unfold closesOf at full
  rw [← market, found] at full
  exact full

theorem AllAlike.keys (alike : AllAlike k ps qs) : ps.map Prod.fst = qs.map Prod.fst :=
  map_same (alike.imp fun _ _ one => one.1)

theorem validateBtc_ok {btc : Series} {prices : Closes} (valid : validateBtcPrices btc prices = .ok ()) :
    btc = closesOf prices "BTC" := by
  unfold validateBtcPrices at valid
  split at valid
  · cases valid
  split at valid
  · cases valid
  split at valid
  · cases valid
  rename_i same
  exact Decidable.not_not.mp same

/-- The weights of a book of the market alone. -/
theorem marketWeights_agree (alike : Alike k xs ys) :
    Agree (k + 1) ((assetReturns xs).map fun r => if r.isSome then [("BTC", (1 : ℚ))] else [])
      ((assetReturns ys).map fun r => if r.isSome then [("BTC", (1 : ℚ))] else []) := by
  apply agree_of_each
  intro i inside
  have sooner := alike.sooner (show i ≤ k by omega)
  have earned : ((assetReturns xs).getD i none).isSome = ((assetReturns ys).getD i none).isSome := by
    rw [isSome_return sooner.left, isSome_return sooner.right, sooner.present (Nat.le_succ i),
      sooner.present (Nat.le_refl _)]
  rw [List.getD_eq_getElem?_getD, List.getD_eq_getElem?_getD, assetReturns_at sooner.left,
    assetReturns_at sooner.right] at earned
  rw [List.getElem?_map, List.getElem?_map, assetReturns_at sooner.left, assetReturns_at sooner.right]
  simp only [Option.getD_some] at earned
  simp only [Option.map_some, earned]

/-- A position of the first book at a bar is made of the closes through it. -/
theorem a1_same {sqrt : ℚ → ℚ} {c : A1Config} {btc btc' : Series} {b b' : BookResult}
    (run : a1BookReturns sqrt c ps btc = .ok b) (run' : a1BookReturns sqrt c qs btc' = .ok b') (alike : AllAlike k ps qs)
    (keys : (ps.map Prod.fst).Nodup) : SameAt k b.assetPositions b'.assetPositions := by
  obtain ⟨_, run⟩ := then_ok.mp run
  obtain ⟨valid, run⟩ := then_ok.mp run
  obtain ⟨series, run⟩ := then_ok.mp run
  obtain ⟨ds, directed, run⟩ := bind_ok.mp run
  obtain ⟨_, run'⟩ := then_ok.mp run'
  obtain ⟨valid', run'⟩ := then_ok.mp run'
  obtain ⟨series', run'⟩ := then_ok.mp run'
  obtain ⟨es, directed', run'⟩ := bind_ok.mp run'
  have left := accepted valid
  have right := accepted valid'
  have keys' : (qs.map Prod.fst).Nodup := by rw [← alike.keys]; exact keys
  obtain ⟨inside, inside'⟩ := alike.inside left right
  have market := alike.closesOf left.market
  obtain ⟨own, long, long'⟩ := market.own_full left.full right.full
  rw [validateBtc_ok series] at directed
  rw [validateBtc_ok series'] at directed'
  have whole_own : ∀ zs : Series, (∀ p ∈ zs, p.isSome) → (ownPrices zs).length = zs.length := by
    intro zs full
    have all := rank_full full (Nat.le_refl zs.length)
    unfold rank at all
    rwa [List.take_length] at all
  have alone : AllAlike k [("BTC", closesOf ps "BTC")] [("BTC", closesOf qs "BTC")] := .cons ⟨rfl, market⟩ .nil
  have only : ∀ zs : Closes, (∀ p ∈ closesOf zs "BTC", p.isSome) → MarketFull [("BTC", closesOf zs "BTC")] := by
    intro zs full item mem _
    rw [List.mem_singleton.mp mem]
    exact full
  have lengths : ∀ zs : Closes, ∀ item ∈ [("BTC", closesOf zs "BTC")], item.2.length = (closesOf zs "BTC").length := by
    intro zs item mem
    rw [List.mem_singleton.mp mem]
  cases base : c.base with
  | btcOnly =>
    rw [base] at directed directed' run run'
    apply bookOf_same run run' (by omega) (by omega) (marketWeights_agree market)
    · intro j before
      exact directionsA1_same (alone.sooner before) directed directed' (lengths ps) (lengths qs) (only ps left.full)
        (only qs right.full) (own.sooner (by omega)) (whole_own _ left.full) (whole_own _ right.full) (by omega) (by omega)
    · intro j before
      exact alone.earned before
  | equalRiskBasket =>
    rw [base] at directed directed' run run'
    apply bookOf_same run run' (by omega) (by omega) (weights_agree sqrt _ alike left.some_)
    · intro j before
      exact directionsA1_same (alike.sooner before) directed directed' left.whole right.whole (left.marketFull keys)
        (right.marketFull keys') (own.sooner (by omega)) (whole_own _ left.full) (whole_own _ right.full) (by omega)
        (by omega)
    · intro j before
      exact alike.earned before

end Alpha
