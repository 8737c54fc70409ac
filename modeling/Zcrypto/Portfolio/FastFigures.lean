import Zcrypto.Portfolio.Fast
import Zcrypto.Alpha.BooksPast
import Mathlib.Tactic.Ring
import Mathlib.Tactic.FieldSimp
import Mathlib.Tactic.Linarith

/- The fast path's figures are the plain ones: deviations and averages of windows, channels, breakouts, and what an asset's own
   bars map to. -/
namespace Portfolio
open Alpha Prefixes Risk

/- Whole numbers at a common denominator. -/

theorem foldl_lcm (values : List ℚ) (den : Nat) :
    den ∣ values.foldl (fun den v => Nat.lcm den v.den) den ∧
      ∀ v ∈ values, v.den ∣ values.foldl (fun den v => Nat.lcm den v.den) den := by
  induction values generalizing den with
  | nil =>
    refine ⟨Nat.dvd_refl den, ?_⟩
    intro v mem
    cases mem
  | cons v rest ih =>
    obtain ⟨kept, later⟩ := ih (Nat.lcm den v.den)
    rw [List.foldl_cons]
    refine ⟨Nat.dvd_trans (Nat.dvd_lcm_left den v.den) kept, ?_⟩
    intro x mem
    rcases List.mem_cons.mp mem with rfl | mem
    · exact Nat.dvd_trans (Nat.dvd_lcm_right den x.den) kept
    · exact later x mem

theorem den_dvd {values : List ℚ} {v : ℚ} (mem : v ∈ values) : v.den ∣ commonDen values := (foldl_lcm values 1).2 v mem

theorem commonDen_pos (values : List ℚ) : 0 < commonDen values := by
  have from_ : ∀ den, 0 < den → 0 < values.foldl (fun den v => Nat.lcm den v.den) den := by
    induction values with
    | nil => exact fun den positive => positive
    | cons v rest ih => exact fun den positive => ih _ (Nat.lcm_pos positive v.den_pos)
  exact from_ 1 Nat.one_pos

/-- A scaled number is the number times the denominator. -/
theorem scaled_eq {den : Nat} {v : ℚ} (positive : 0 < den) (divides : v.den ∣ den) : (scaled den v : ℚ) = v * den := by
  obtain ⟨k, rfl⟩ := divides
  unfold scaled
  rw [Nat.mul_div_cancel_left k v.den_pos]
  push_cast
  rw [← mul_assoc, Rat.mul_den_eq_num]

theorem scaled_sum {den : Nat} {values : List ℚ} (positive : 0 < den) (divides : ∀ v ∈ values, v.den ∣ den) :
    (((values.map (scaled den)).sum : Int) : ℚ) = values.sum * den := by
  induction values with
  | nil => simp
  | cons v rest ih =>
    rw [List.map_cons, List.sum_cons, List.sum_cons, Int.cast_add, scaled_eq positive (divides v List.mem_cons_self),
      ih fun x mem => divides x (List.mem_cons_of_mem v mem)]
    ring

theorem scaled_squares {den : Nat} {values : List ℚ} (positive : 0 < den) (divides : ∀ v ∈ values, v.den ∣ den) :
    ((((values.map (scaled den)).map fun x => x * x).sum : Int) : ℚ) = (values.map fun x => x * x).sum * (den * den) := by
  induction values with
  | nil => simp
  | cons v rest ih =>
    rw [List.map_cons, List.map_cons, List.map_cons, List.sum_cons, List.sum_cons, Int.cast_add, Int.cast_mul,
      scaled_eq positive (divides v List.mem_cons_self), ih fun x mem => divides x (List.mem_cons_of_mem v mem)]
    ring

theorem exactMean_eq (values : List ℚ) : exactMean values = mean values := by
  have positive := commonDen_pos values
  unfold exactMean mean
  simp only
  rw [scaled_sum positive fun v mem => den_dvd mem]
  have apart : (commonDen values : ℚ) ≠ 0 := by exact_mod_cast positive.ne'
  rw [mul_div_mul_right _ _ apart]

/- Deviations. -/

theorem squares_from (xs : List ℚ) (m : ℚ) :
    (xs.map fun x => (x - m) ^ 2).sum = (xs.map fun x => x * x).sum - 2 * m * xs.sum + xs.length * m ^ 2 := by
  induction xs with
  | nil => simp
  | cons x rest ih =>
    rw [List.map_cons, List.map_cons, List.sum_cons, List.sum_cons, List.sum_cons, ih, List.length_cons]
    push_cast
    ring

/-- The squares about the mean from the sum and the sum of squares. -/
theorem squares_about_mean {xs : List ℚ} (some_ : xs ≠ []) :
    (xs.map fun x => (x - mean xs) ^ 2).sum = (xs.length * (xs.map fun x => x * x).sum - xs.sum * xs.sum) / xs.length := by
  have long : (xs.length : ℚ) ≠ 0 := by
    have := List.length_pos_of_ne_nil some_
    exact_mod_cast this.ne'
  rw [squares_from]
  unfold mean
  field_simp
  ring

/-- A deviation from whole sums. -/
theorem stdev_scaled (sqrt : ℚ → ℚ) {xs : List ℚ} {den : Nat} (two : 2 ≤ xs.length) (positive : 0 < den)
    (divides : ∀ v ∈ xs, v.den ∣ den) :
    sqrt (((xs.length : Nat) * ((xs.map (scaled den)).map fun x => x * x).sum -
        (xs.map (scaled den)).sum * (xs.map (scaled den)).sum : Int) /
      ((xs.length : ℚ) * ((xs.length : ℚ) - 1) * den * den)) = stdev sqrt xs := by
  have some_ : xs ≠ [] := by
    intro none_
    rw [none_] at two
    cases two
  unfold stdev
  congr 1
  rw [squares_about_mean some_]
  push_cast [scaled_sum positive divides, scaled_squares positive divides]
  have long : (xs.length : ℚ) ≠ 0 := by
    have := List.length_pos_of_ne_nil some_
    exact_mod_cast this.ne'
  have more : (xs.length : ℚ) - 1 ≠ 0 := by
    have : (2 : ℚ) ≤ xs.length := by exact_mod_cast two
    linarith
  have apart : (den : ℚ) ≠ 0 := by exact_mod_cast positive.ne'
  field_simp

/-- The sums of a window follow it. -/
def windowSums : Trailing.Figure (Option Int) Sums where
  total w := ⟨(w.filterMap id).sum, ((w.filterMap id).map fun x => x * x).sum, w.countP (·.isNone)⟩
  add := Sums.add
  drop := Sums.drop
  add_total := by
    intro w x
    cases x with
    | none => simp [Sums.add]
    | some x => simp [Sums.add]
  drop_total := by
    intro w x
    cases x with
    | none => simp [Sums.drop]
    | some x => simp [Sums.drop]

/-- The plain deviation of the window before a place. -/
def stdevAt (sqrt : ℚ → ℚ) (values : Series) (lookback t : Nat) : Option ℚ :=
  if lookback ≤ t ∧ ¬ (Trailing.window values lookback t).any (·.isNone) then
    some (stdev sqrt ((Trailing.window values lookback t).filterMap id))
  else none

theorem window_scaled (den : Nat) (values : Series) (lookback t : Nat) :
    ((Trailing.window (values.map (Option.map (scaled den))) lookback t).filterMap id) =
      ((Trailing.window values lookback t).filterMap id).map (scaled den) := by
  unfold Trailing.window
  rw [Trailing.slice_map, List.filterMap_map, List.map_filterMap]
  congr 1

theorem window_nones (den : Nat) (values : Series) (lookback t : Nat) :
    (windowSums.total (Trailing.window (values.map (Option.map (scaled den))) lookback t)).nones = 0 ↔
      ¬ (Trailing.window values lookback t).any (·.isNone) := by
  unfold windowSums Trailing.window
  simp only
  rw [Trailing.slice_map, List.countP_map, Int.natCast_eq_zero, List.countP_eq_zero, List.any_eq_true, not_exists]
  constructor
  · intro none_ v both
    have := none_ v both.1
    simp only [Function.comp, Option.isNone_map] at this
    exact this both.2
  · intro none_ v mem missing
    simp only [Function.comp, Option.isNone_map] at missing
    exact none_ v ⟨mem, missing⟩

theorem whole_window {values : Series} {lookback t : Nat} (inside : t ≤ values.length) (whole : lookback ≤ t)
    (none_ : ¬ (Trailing.window values lookback t).any (·.isNone)) :
    ((Trailing.window values lookback t).filterMap id).length = lookback := by
  have long := Trailing.window_length inside whole
  generalize Trailing.window values lookback t = w at long none_
  rw [← long]
  clear long
  induction w with
  | nil => rfl
  | cons v rest ih =>
    cases v with
    | none => exact absurd rfl none_
    | some x =>
      rw [List.filterMap_cons_some (f := id) rfl, List.length_cons, List.length_cons, ih (by simpa using none_)]

/-- The rolling deviations are those of the windows. -/
theorem trailingStdevs_eq (sqrt : ℚ → ℚ) (values : Series) {lookback : Nat} (two : 2 ≤ lookback) :
    trailingStdevs sqrt values lookback = (List.range values.length).map (stdevAt sqrt values lookback) := by
  unfold trailingStdevs
  simp only
  split
  · rename_i missing
    symm
    rw [List.eq_replicate_iff]
    refine ⟨by rw [List.length_map, List.length_range], ?_⟩
    intro answer mem
    obtain ⟨t, there, rfl⟩ := List.mem_map.mp mem
    unfold stdevAt
    rw [if_neg]
    rintro ⟨whole, none_⟩
    have long := Trailing.window_length (Nat.le_of_lt (List.mem_range.mp there)) whole
    obtain ⟨first, first_mem⟩ := List.exists_mem_of_length_pos (show 0 < (Trailing.window values lookback t).length by omega)
    have among := List.mem_of_mem_take (List.mem_of_mem_drop first_mem)
    exact none_ (List.any_eq_true.mpr ⟨first, first_mem, List.all_eq_true.mp missing first among⟩)
  · have positive := commonDen_pos (values.filterMap id)
    generalize dens : commonDen (values.filterMap id) = den at positive
    have walked := Trailing.sweep_places (f := fun (s : Sums) t =>
      ((if lookback ≤ t then s.drop ((values.map (Option.map (scaled den))).getD (t - lookback) none) else s).add
        ((values.map (Option.map (scaled den))).getD t none),
        if lookback ≤ t ∧ s.nones = 0 then
          some (sqrt ((lookback * s.squares - s.sum * s.sum : Int) / (lookback * (lookback - 1) * den * den)))
        else none))
     
      (n := values.length) (by
        intro t inside
        exact Trailing.drop_add windowSums none (by omega) (by rwa [List.length_map]))
    rw [Trailing.window_zero] at walked
    refine Eq.trans ?_ (walked.trans ?_)
    · rfl
    · apply List.map_congr_left
      intro t mem
      have inside := List.mem_range.mp mem
      unfold stdevAt
      simp only [window_nones]
      split
      · rename_i both
        obtain ⟨whole, none_⟩ := both
        have long := whole_window (Nat.le_of_lt inside) whole none_
        have divides : ∀ v ∈ (Trailing.window values lookback t).filterMap id, v.den ∣ den := by
          intro v there
          rw [← dens]
          apply den_dvd
          obtain ⟨item, mem, same⟩ := List.mem_filterMap.mp there
          exact List.mem_filterMap.mpr ⟨item, List.mem_of_mem_take (List.mem_of_mem_drop mem), same⟩
        rw [← stdev_scaled sqrt (by rw [long]; exact two) positive divides, long]
        unfold windowSums
        simp only [window_scaled]
      · rfl

/- Averages. -/

def windowSum : Trailing.Figure Int Int where
  total w := w.sum
  add s x := s + x
  drop s x := s - x
  add_total := by
    intro w x
    rw [List.sum_append, List.sum_singleton]
  drop_total := by
    intro w x
    rw [List.sum_cons]
    omega

/-- The plain average of the window through a place. -/
def averageAt (prices : List ℚ) (window k : Nat) : Option ℚ :=
  if window ≤ k + 1 then some (mean (slice prices (k + 1 - window) (k + 1))) else none

theorem rollingSma_eq (prices : List ℚ) {window : Nat} (some_ : 0 < window) :
    rollingSma prices window = (List.range (prices.length - 1)).map (averageAt prices window) := by
  unfold rollingSma
  simp only
  have positive := commonDen_pos prices
  generalize dens : commonDen prices = den at positive
  have next : ∀ k < prices.length - 1,
      (if window ≤ k then windowSum.total (Trailing.window (prices.map (scaled den)) window k) +
          (prices.map (scaled den)).getD k 0 - (prices.map (scaled den)).getD (k - window) 0
        else windowSum.total (Trailing.window (prices.map (scaled den)) window k) + (prices.map (scaled den)).getD k 0) =
        windowSum.total (Trailing.window (prices.map (scaled den)) window (k + 1)) := by
    intro k inside
    exact Trailing.add_drop windowSum 0 some_ (by rw [List.length_map]; omega)
  have walked := Trailing.sweep_places (f := fun (sum : Int) k =>
      ((if window ≤ k then sum + (prices.map (scaled den)).getD k 0 - (prices.map (scaled den)).getD (k - window) 0
        else sum + (prices.map (scaled den)).getD k 0),
        if window ≤ k + 1 then
          some (((if window ≤ k then sum + (prices.map (scaled den)).getD k 0 - (prices.map (scaled den)).getD (k - window) 0
            else sum + (prices.map (scaled den)).getD k 0 : Int) : ℚ) / (window * den))
        else none))
    next
  rw [Trailing.window_zero] at walked
  refine Eq.trans ?_ (walked.trans ?_)
  · rfl
  · apply List.map_congr_left
    intro k mem
    have inside := List.mem_range.mp mem
    unfold averageAt
    simp only [next k inside]
    split
    · rename_i whole
      apply congrArg some
      have divides : ∀ v ∈ slice prices (k + 1 - window) (k + 1), v.den ∣ den := by
        intro v there
        rw [← dens]
        exact den_dvd (List.mem_of_mem_take (List.mem_of_mem_drop there))
      have long : (slice prices (k + 1 - window) (k + 1)).length = window :=
        Trailing.window_length (show k + 1 ≤ prices.length by omega) whole
      have apart : (den : ℚ) ≠ 0 := by exact_mod_cast positive.ne'
      unfold windowSum Trailing.window mean
      simp only
      rw [Trailing.slice_map, scaled_sum positive divides, long, mul_div_mul_right _ _ apart]
    · rfl

theorem smaGate_run {prices gate : List ℚ} {window : Nat} (run : smaGate prices window = .ok gate) :
    2 ≤ window ∧ gate = (List.range (prices.length - 1)).map (smaAt prices window) := by
  obtain ⟨_, run⟩ := Fallible.then_ok.mp run
  obtain ⟨windowed, run⟩ := Fallible.then_ok.mp run
  injection run with same
  refine ⟨?_, same.symm⟩
  unfold validateWindow at windowed
  split at windowed
  · cases windowed
  · omega

/-- The gate from rolling averages is the plain one. -/
theorem gateFast_eq {prices gate : List ℚ} {window : Nat} (run : smaGate prices window = .ok gate) :
    gateFast prices window = gate := by
  obtain ⟨windowed, made⟩ := smaGate_run run
  rw [made]
  unfold gateFast
  apply List.map_congr_left
  intro k mem
  rw [rollingSma_eq prices (by omega), getD_rows (List.mem_range.mp mem)]
  unfold averageAt smaAt
  by_cases whole : window ≤ k + 1
  · rw [if_pos whole, if_neg (by omega)]
  · rw [if_neg whole, if_pos (by omega)]

/- Channels and breakouts. -/

theorem channelFast_eq (own : List ℚ) {window k : Nat} (some_ : 0 < window) (inside : k < own.length - 1) :
    channelFast own window k = channelAt own window k := by
  unfold channelFast channelAt
  by_cases early : k + 1 < window
  · rw [if_pos (.inr (by omega)), if_pos early]
  · rw [if_neg (by omega), if_neg early, show k - (window - 1) + window = k + 1 by omega,
      show k - (window - 1) = k + 1 - window by omega]

/-- What the place of the last breakout says is held. -/
def heldAt (triggers : List ℚ) (last : Int) : ℚ := if 0 ≤ last then triggers.getD (max last 0).toNat 0 else 0

/-- The last breakout carried forward is the state that is held. -/
theorem lastTriggers_held {own : List ℚ} {window : Nat} {band : ℚ} (some_ : 0 < window) {n : Nat} :
    ∀ a, a + n = own.length - 1 → ∀ last : Int, last < a → ∀ held,
      held = heldAt ((List.range (own.length - 1)).map fun k => trigger band (channelFast own window k)) last →
      (sweep (fun (last : Int) k =>
        let now := max last (if ((List.range (own.length - 1)).map fun k => trigger band (channelFast own window k)).getD k 0 ≠ 0
          then (k : Int) else -1)
        (now, now)) last (List.range' a n)).map
          (heldAt ((List.range (own.length - 1)).map fun k => trigger band (channelFast own window k))) =
      sweep (fun held k => (donchianStep band held (channelAt own window k), donchianStep band held (channelAt own window k)))
        held (List.range' a n) := by
  induction n with
  | zero =>
    intro a _ last _ held _
    rfl
  | succ n ih =>
    intro a whole last before held same
    have inside : a < own.length - 1 := by omega
    rw [List.range'_succ, sweep, sweep, List.map_cons]
    have here : ((List.range (own.length - 1)).map fun k => trigger band (channelFast own window k)).getD a 0 =
        trigger band (channelAt own window a) := by
      rw [getD_rows inside, channelFast_eq own some_ inside]
    have now : heldAt ((List.range (own.length - 1)).map fun k => trigger band (channelFast own window k))
        (max last (if ((List.range (own.length - 1)).map fun k => trigger band (channelFast own window k)).getD a 0 ≠ 0
          then (a : Int) else -1)) = donchianStep band held (channelAt own window a) := by
      rw [here]
      unfold donchianStep
      by_cases up : band ≤ channelAt own window a
      · have fires : trigger band (channelAt own window a) = 1 := if_pos up
        rw [fires, if_pos one_ne_zero, max_eq_right (by omega), if_pos up]
        unfold heldAt
        rw [if_pos (by omega), max_eq_left (by omega), Int.toNat_natCast, here, fires]
      · by_cases down : channelAt own window a ≤ -band
        · have fires : trigger band (channelAt own window a) = -1 := by
            unfold trigger
            rw [if_neg up, if_pos down]
          rw [fires, if_pos (by norm_num), max_eq_right (by omega), if_neg up, if_pos down]
          unfold heldAt
          rw [if_pos (by omega), max_eq_left (by omega), Int.toNat_natCast, here, fires]
        · have quiet : trigger band (channelAt own window a) = 0 := by
            unfold trigger
            rw [if_neg up, if_neg down]
          rw [quiet, if_neg (by simp), if_neg up, if_neg down, same]
          unfold heldAt
          by_cases fired : 0 ≤ last
          · rw [max_eq_left (show (-1 : Int) ≤ last by omega)]
          · rw [if_neg fired, if_neg (by omega)]
    simp only
    rw [now]
    apply congrArg
    apply ih (a + 1) (by omega) _ _ _ now.symm
    have fresh : (if ((List.range (own.length - 1)).map fun k => trigger band (channelFast own window k)).getD a 0 ≠ 0
        then (a : Int) else -1) ≤ a := by
      split <;> omega
    push_cast
    omega

/-- The array's signal is the one that is carried. -/
theorem donchianHeld_eq {own signal : List ℚ} {window : Nat} {band : ℚ}
    (run : donchianSignal own window band = .ok signal) : donchianHeld own window band = .ok signal := by
  obtain ⟨cp, made, run⟩ := Fallible.bind_ok.mp run
  obtain ⟨long, two, rfl⟩ := channelPosition_run made
  injection run with run
  have some_ : own ≠ [] := by
    intro none_
    rw [none_] at long
    cases long
  unfold donchianHeld
  rw [if_neg some_]
  apply congrArg
  rw [← run, sweep_map]
  have carried := @lastTriggers_held own window band (by omega) (own.length - 1) 0 (by omega) (-1)
    (by omega) 0 rfl
  rw [← List.range_eq_range'] at carried
  unfold lastTriggers
  rw [List.length_map, List.length_range]
  exact carried

/- An asset's own bars. -/

theorem present_count (prices : Series) (k : Nat) : ((prices.map (·.isSome)).take k).count true = rank prices k := by
  unfold rank ownPrices
  rw [← List.map_take]
  generalize prices.take k = ps
  induction ps with
  | nil => rfl
  | cons p rest ih =>
    cases p with
    | none => simpa using ih
    | some x => simpa using ih

/-- What an asset's own bars map to is found in the arrays. -/
theorem mapOwnToUnion_eq (values : List ℚ) (prices : Series) :
    mapOwnToUnion values (prices.map (·.isSome)) = mapToUnionIndex (ownTs prices) values (List.range prices.length) := by
  have rows : mapToUnionIndex (ownTs prices) values (List.range prices.length) =
      (List.range (prices.length - 1)).map fun k => (mapToUnionIndex (ownTs prices) values (List.range prices.length)).getD k none := by
    have long : (mapToUnionIndex (ownTs prices) values (List.range prices.length)).length = prices.length - 1 := by
      unfold mapToUnionIndex
      rw [List.length_map, List.length_range, List.length_range]
    apply List.ext_getElem?
    intro k
    rw [List.getElem?_map]
    by_cases inside : k < prices.length - 1
    · rw [List.getElem?_range inside, Option.map_some, List.getD_eq_getElem?_getD,
        List.getElem?_eq_getElem (by rw [long]; exact inside)]
      rfl
    · rw [List.getElem?_eq_none (by omega), List.getElem?_eq_none (by rw [List.length_range]; omega)]
      rfl
  rw [rows]
  unfold mapOwnToUnion
  rw [List.length_map]
  apply List.map_congr_left
  intro k mem
  have inside := List.mem_range.mp mem
  have getD_present : ∀ i, (prices.map (·.isSome)).getD i false = (prices.getD i none).isSome := by
    intro i
    rw [List.getD_eq_getElem?_getD, List.getD_eq_getElem?_getD, List.getElem?_map]
    cases prices[i]? <;> rfl
  rw [mapped_at (by omega) rfl, getD_present, getD_present, present_count]
  simp only [Bool.and_eq_true]
  by_cases both : (prices.getD k none).isSome ∧ (prices.getD (k + 1) none).isSome
  · rw [if_pos both, if_pos both, rank_succ]
    obtain ⟨p, here⟩ := Option.isSome_iff_exists.mp both.1
    rw [here]
    rfl
  · rw [if_neg both, if_neg both]

end Portfolio
