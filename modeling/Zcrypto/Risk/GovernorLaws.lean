import Mathlib.Data.List.GetD
import Mathlib.Data.List.MinMax
import Zcrypto.Risk.Standing

/- The governor over a whole history: its stand-downs, each from a bar that breached the ladder, and the
   multiplier of every bar outside them; and the same multipliers for the bars of a day. -/
namespace Risk

section
variable (config : GovernorConfig) (g : Nat → ℚ) (entries : List Nat)

/-- Whether a bar is in the stand-down that one of the entries began. -/
def Down (t : Nat) : Prop := ∃ e ∈ entries, e ≤ t ∧ ∀ bars ∈ config.restartAfter, t < e + bars

/-- The bar after the last stand-down that has ended, or the first bar. -/
def baseAt (t : Nat) : Nat :=
  (((entries.filterMap fun e => config.restartAfter.map (e + ·)).filter (· ≤ t)).max?).getD 0

def drawdownAt (t : Nat) : ℚ :=
  1 - equityAt g t / highFrom g (baseAt config entries t) (t - baseAt config entries t)

/-- The multiplier of the deepest rung that a drawdown reaches. -/
def reached (ladder : List (ℚ × ℚ)) (drawdown : ℚ) : ℚ :=
  ((ladder.filter fun rung => rung.1 ≤ drawdown).getLast?.map Prod.snd).getD 1

def rungAt (t : Nat) : ℚ := reached config.ladder (drawdownAt config g entries t)

/-- Whether a loss since the base is no more than the cool-down ago. -/
def Cooling (t : Nat) : Prop :=
  ∃ loss, baseAt config entries t ≤ loss ∧ loss < t ∧ t ≤ loss + config.dailyLossCooldown ∧ Loss config g loss

/-- What a result says of its bars, for the bars that began a stand-down. -/
structure Governs (returns : List ℚ) (res : GovernorResult) (m : Nat → ℚ) : Prop where
  length : res.multipliers.length = returns.length ∧ res.governedReturns.length = returns.length
  governed : ∀ t < returns.length, g t = m t * returns.getD t 0
  counted : res.breaches = entries.length
  apart : entries.Pairwise fun a b => a < b ∧ ∃ bars, config.restartAfter = some bars ∧ a + bars ≤ b
  entered : ∀ e ∈ entries, e < returns.length ∧ rungAt config g entries e = 0
  down : ∀ t < returns.length, Down config entries t → m t = 0 ∧ equityAt g (t + 1) = equityAt g t
  fresh : ∀ e ∈ entries, ∀ bars, config.restartAfter = some bars → e + bars < returns.length →
    baseAt config entries (e + bars) = e + bars ∧ ¬ Down config entries (e + bars) ∧
      ¬ Cooling config g entries (e + bars) ∧ drawdownAt config g entries (e + bars) = 0 ∧ m (e + bars) = 1
  outside : ∀ t < returns.length, ¬ Down config entries t → rungAt config g entries t ≠ 0 ∧
    (Cooling config g entries t → m t = min (rungAt config g entries t) config.dailyLossMultiplier) ∧
    (¬ Cooling config g entries t → m t = rungAt config g entries t)
  rungs : (res.rungBars.map Prod.snd).sum = returns.length

end

section
variable {config : GovernorConfig} {r : Nat → ℚ} {t e bars base n : Nat}

/- What is accepted. -/

theorem validateLadder_ok {previous : ℚ} {ladder : List (ℚ × ℚ)} (ok : validateLadder previous ladder = .ok ()) :
    (∀ rung ∈ ladder, previous < rung.1 ∧ 0 ≤ rung.2 ∧ rung.2 ≤ 1) ∧ ladder.Pairwise fun a b => a.1 < b.1 := by
  induction ladder generalizing previous with
  | nil => exact ⟨fun rung mem => absurd mem List.not_mem_nil, .nil⟩
  | cons rung rest ih =>
    obtain ⟨threshold, multiplier⟩ := rung
    unfold validateLadder at ok
    split at ok
    · cases ok
    · rename_i above
      split at ok
      · cases ok
      · rename_i bounds
        rw [not_or, not_lt, not_lt] at bounds
        obtain ⟨each, ascending⟩ := ih ok
        constructor
        · intro rung mem
          rcases List.mem_cons.mp mem with rfl | later
          · exact ⟨not_le.mp above, bounds⟩
          · exact ⟨(not_le.mp above).trans (each rung later).1, (each rung later).2⟩
        · exact List.pairwise_cons.mpr ⟨fun rung mem => (each rung mem).1, ascending⟩

theorem validate_ok {returns : List ℚ} (ok : validate returns config = .ok ()) :
    returns ≠ [] ∧ (∀ x ∈ returns, -1 < x) ∧ Sane config := by
  unfold validate at ok
  split at ok
  · cases ok
  rename_i some_
  split at ok
  · cases ok
  rename_i above
  split at ok
  · cases ok
  rename_i limit
  split at ok
  · cases ok
  rename_i multiplier
  split at ok
  · cases ok
  split at ok
  · cases ok
  obtain ⟨ladder, ok⟩ := Fallible.then_ok.mp ok
  split at ok
  · cases ok
  rename_i restart
  obtain ⟨each, ascending⟩ := validateLadder_ok ladder
  rw [not_or, not_lt, not_lt] at multiplier
  refine ⟨some_, by simpa using above, ?_⟩
  exact ⟨not_le.mp limit, multiplier, fun rung mem => (each rung mem).1, ascending,
    fun rung mem => (each rung mem).2, restart⟩

/- The ladder. -/

/-- The last rung that is reached is the deepest, as each has a threshold above the one before. -/
theorem ladderMult_reached (ladder : List (ℚ × ℚ)) (drawdown : ℚ) :
    ladderMult ladder drawdown = reached ladder drawdown := by
  have from_ : ∀ start : ℚ, ladder.foldl (fun mult rung => if drawdown ≥ rung.1 then rung.2 else mult) start =
      ((ladder.filter fun rung => rung.1 ≤ drawdown).getLast?.map Prod.snd).getD start := by
    induction ladder with
    | nil => exact fun start => rfl
    | cons rung rest ih =>
      intro start
      rw [List.foldl_cons, ih]
      by_cases deep : rung.1 ≤ drawdown
      · rw [if_pos deep, List.filter_cons_of_pos (by simpa using deep), List.getLast?_cons]
        cases (rest.filter fun rung => rung.1 ≤ drawdown).getLast? with
        | none => rfl
        | some last => rfl
      · rw [if_neg deep, List.filter_cons_of_neg (by simpa using deep)]
  exact from_ 1

theorem reached_none (sane : Sane config) : reached config.ladder 0 = 1 := by
  have none : (config.ladder.filter fun rung => rung.1 ≤ 0) = [] := by
    rw [List.filter_eq_nil_iff]
    intro rung mem
    simpa using sane.thresholds rung mem
  rw [reached, none]
  rfl

theorem reached_bounds (sane : Sane config) (drawdown : ℚ) :
    0 ≤ reached config.ladder drawdown ∧ reached config.ladder drawdown ≤ 1 := by
  unfold reached
  cases last : (config.ladder.filter fun rung => rung.1 ≤ drawdown).getLast? with
  | none => exact ⟨zero_le_one, le_rfl⟩
  | some rung => exact sane.rungs rung (List.mem_filter.mp (List.mem_of_getLast? last)).1

/- What each bar is governed by. -/

theorem multAt_bounds (sane : Sane config) (r : Nat → ℚ) (t : Nat) :
    0 ≤ multAt config r t ∧ multAt config r t ≤ 1 := by
  unfold multAt Governor.judge
  split
  · exact ⟨le_rfl, zero_le_one⟩
  · split
    · exact ⟨le_rfl, zero_le_one⟩
    · obtain ⟨low, high⟩ := reached_bounds sane (1 - (stateAt config r t).equity / (stateAt config r t).hwm)
      rw [← ladderMult_reached] at low high
      refine ⟨le_min low ?_, (min_le_left _ _).trans high⟩
      split
      · exact sane.multiplier.1
      · exact zero_le_one

theorem equityAt_pos (sane : Sane config) (above : ∀ t, -1 < r t) (t : Nat) :
    0 < equityAt (governedAt config r) t := by
  induction t with
  | zero => exact zero_lt_one
  | succ t ih =>
    obtain ⟨low, high⟩ := multAt_bounds sane r t
    have held : -1 < multAt config r t * r t := by
      have up := above t
      rcases le_total 0 (r t) with gain | loss
      · have := mul_nonneg low gain
        linarith
      · have := mul_le_mul_of_nonpos_right high loss
        linarith
    exact mul_pos ih (by unfold governedAt; linarith)

/-- What is kept before a bar is of the bars before it. -/
theorem stateAt_congr {r' : Nat → ℚ} (same : ∀ s < t, r s = r' s) : stateAt config r t = stateAt config r' t := by
  induction t with
  | zero => rfl
  | succ t ih =>
    rw [stateAt, stateAt, ih fun s less => same s (Nat.lt_succ_of_lt less), same t (Nat.lt_succ_self t)]

theorem bars_stateAt (config : GovernorConfig) (r : Nat → ℚ) (rest : List ℚ) (k : Nat)
    (same : ∀ i < rest.length, rest.getD i 0 = r (k + i)) :
    Governor.bars config (stateAt config r k) rest =
      ((List.range rest.length).map fun i => multAt config r (k + i), stateAt config r (k + rest.length)) := by
  induction rest generalizing k with
  | nil => rfl
  | cons x rest ih =>
    have head : x = r k := same 0 (Nat.succ_pos _)
    have next : (stateAt config r k).step config x = stateAt config r (k + 1) := by rw [head]; rfl
    have later := ih (k + 1) fun i less => by
      have there := same (i + 1) (Nat.succ_lt_succ less)
      rw [List.getD_cons_succ] at there
      rw [there]
      congr 1
      omega
    rw [Governor.bars, next, later, List.length_cons, List.range_succ_eq_map, List.map_cons, List.map_map]
    refine Prod.ext ?_ ?_
    · refine congrArg (_ :: ·) (List.map_congr_left fun i _ => ?_)
      show multAt config r (k + 1 + i) = multAt config r (k + (i + 1))
      congr 1
      omega
    · show stateAt config r (k + 1 + rest.length) = stateAt config r (k + (rest.length + 1))
      congr 1
      omega

theorem countRung_sum (mult : ℚ) (counts : List (ℚ × Nat)) :
    ((countRung mult counts).map Prod.snd).sum = (counts.map Prod.snd).sum + 1 := by
  induction counts with
  | nil => rfl
  | cons item rest ih =>
    unfold countRung
    split
    · rw [List.map_cons, List.map_cons, List.sum_cons, List.sum_cons]
      omega
    · rw [List.map_cons, List.map_cons, List.sum_cons, List.sum_cons, ih]
      omega

theorem rungBars_sum (multipliers : List ℚ) (counts : List (ℚ × Nat)) :
    ((multipliers.foldl (fun counts mult => countRung mult counts) counts).map Prod.snd).sum =
      (counts.map Prod.snd).sum + multipliers.length := by
  induction multipliers generalizing counts with
  | nil => rfl
  | cons mult rest ih =>
    rw [List.foldl_cons, ih, countRung_sum, List.length_cons]
    omega

/- Where a bar stands among the stand-downs. -/

theorem mem_entriesBefore : e ∈ entriesBefore config r n ↔ e < n ∧ Enters config r e := by
  unfold entriesBefore
  rw [List.mem_filter, List.mem_range, decide_eq_true_iff]

theorem Sane.bars_pos (sane : Sane config) (restart : config.restartAfter = some bars) : 0 < bars := by
  rcases Nat.eq_zero_or_pos bars with rfl | some_
  · exact absurd restart sane.restart
  · exact some_

/-- A bar that enters is judged, so the stand-downs before it have ended. -/
theorem Enters.judged (sane : Sane config) (enters : Enters config r t) : ∃ base, Open config r t base := by
  obtain ⟨running, flat, -⟩ := enters
  rcases (standing sane r t).mode with o | ⟨e, bars, rest⟩ | ⟨e, halted⟩
  · exact o
  · have left := rest.left
    omega
  · cases running.symm.trans halted.forever

theorem Open.baseAt (sane : Sane config) (o : Open config r t base) (within : t ≤ n) :
    baseAt config (entriesBefore config r n) t = base := by
  have ends : ∀ x, x ∈ (((entriesBefore config r n).filterMap fun e => config.restartAfter.map (e + ·)).filter
      (· ≤ t)) ↔ ∃ e bars, Enters config r e ∧ e < n ∧ config.restartAfter = some bars ∧ e + bars = x ∧ x ≤ t := by
    intro x
    rw [List.mem_filter, List.mem_filterMap, decide_eq_true_iff]
    constructor
    · rintro ⟨⟨e, mem, ended⟩, le⟩
      obtain ⟨bars, restart, same⟩ := Option.map_eq_some_iff.mp ended
      obtain ⟨less, enters⟩ := mem_entriesBefore.mp mem
      exact ⟨e, bars, enters, less, restart, same, le⟩
    · rintro ⟨e, bars, enters, less, restart, same, le⟩
      exact ⟨⟨e, mem_entriesBefore.mpr ⟨less, enters⟩, Option.map_eq_some_iff.mpr ⟨bars, restart, same⟩⟩, le⟩
  have below : ∀ x ∈ (((entriesBefore config r n).filterMap fun e => config.restartAfter.map (e + ·)).filter
      (· ≤ t)), x ≤ base := by
    intro x mem
    obtain ⟨e, bars, enters, -, restart, rfl, le⟩ := (ends x).mp mem
    have pos := sane.bars_pos restart
    obtain ⟨bars', same, before⟩ := o.before e (by omega) enters
    obtain rfl := Option.some.inj (restart.symm.trans same)
    exact before
  unfold Risk.baseAt
  rcases o.ended with rfl | ⟨e, bars, enters, restart, rfl⟩
  · cases greatest : (((entriesBefore config r n).filterMap fun e => config.restartAfter.map (e + ·)).filter
      (· ≤ t)).max? with
    | none => rfl
    | some x => exact Nat.le_zero.mp (below x (List.max?_mem greatest))
  · have pos := sane.bars_pos restart
    have le := o.le
    rw [List.max?_eq_some_iff.mpr ⟨(ends _).mpr ⟨e, bars, enters, by omega, restart, rfl, le⟩, below⟩]
    rfl

/-- Before a bar that is judged, what the result's history says is what the loop keeps. -/
theorem Open.rungAt (sane : Sane config) (o : Open config r t base) (within : t ≤ n) :
    rungAt config (governedAt config r) (entriesBefore config r n) t = (stateAt config r t).ladder config := by
  unfold Risk.rungAt drawdownAt Governor.ladder
  rw [o.baseAt sane within, ladderMult_reached, o.hwm, (standing sane r t).equity]

theorem Open.cooling_iff (sane : Sane config) (o : Open config r t base) (within : t ≤ n) :
    Cooling config (governedAt config r) (entriesBefore config r n) t ↔ 0 < (stateAt config r t).cooldownLeft := by
  unfold Cooling
  rw [o.baseAt sane within]
  constructor
  · rintro ⟨loss, since, less, recent, lost⟩
    have cooling := o.cooling loss since less lost
    omega
  · intro left
    obtain ⟨loss, since, less, lost, ends⟩ := o.cooled left
    exact ⟨loss, since, less, by omega, lost⟩

theorem Open.down_iff (sane : Sane config) (o : Open config r t base) (within : t < n) :
    Down config (entriesBefore config r n) t ↔ Enters config r t := by
  constructor
  · rintro ⟨e, mem, le, during⟩
    obtain ⟨-, enters⟩ := mem_entriesBefore.mp mem
    rcases Nat.lt_or_eq_of_le le with earlier | rfl
    · obtain ⟨bars, restart, ended⟩ := o.before e earlier enters
      have during := during bars restart
      have le := o.le
      omega
    · exact enters
  · intro enters
    refine ⟨t, mem_entriesBefore.mpr ⟨within, enters⟩, le_rfl, fun bars restart => ?_⟩
    have pos := sane.bars_pos restart
    omega

/-- A bar of a stand-down stands aside, whether it began it or not. -/
theorem multAt_down (sane : Sane config) (within : t < n) (down : Down config (entriesBefore config r n) t) :
    multAt config r t = 0 := by
  unfold multAt
  rcases (standing sane r t).mode with ⟨base, o⟩ | ⟨e, bars, rest⟩ | ⟨e, halted⟩
  · rw [judge_enters ((o.down_iff sane within).mp down)]
  · rw [judge_flat config (.inr rest.left)]
  · rw [judge_flat config (.inl halted.forever)]

theorem open_outside (sane : Sane config) (within : t < n) (outside : ¬ Down config (entriesBefore config r n) t) :
    ∃ base, Open config r t base ∧ ¬ Enters config r t := by
  rcases (standing sane r t).mode with ⟨base, o⟩ | ⟨e, bars, rest⟩ | ⟨e, halted⟩
  · exact ⟨base, o, fun enters => outside ((o.down_iff sane within).mpr enters)⟩
  · refine absurd ⟨e, mem_entriesBefore.mpr ⟨rest.later.trans within, rest.enters⟩, rest.later.le, ?_⟩ outside
    intro bars' restart
    obtain rfl := Option.some.inj (rest.restart.symm.trans restart)
    have ends := rest.ends
    have left := rest.left
    omega
  · refine absurd ⟨e, mem_entriesBefore.mpr ⟨halted.later.trans within, halted.enters⟩, halted.later.le, ?_⟩ outside
    intro bars restart
    cases halted.restart.symm.trans restart

theorem multAt_outside (sane : Sane config) (within : t < n)
    (outside : ¬ Down config (entriesBefore config r n) t) :
    rungAt config (governedAt config r) (entriesBefore config r n) t ≠ 0 ∧
      (Cooling config (governedAt config r) (entriesBefore config r n) t → multAt config r t =
        min (rungAt config (governedAt config r) (entriesBefore config r n) t) config.dailyLossMultiplier) ∧
      (¬ Cooling config (governedAt config r) (entriesBefore config r n) t → multAt config r t =
        rungAt config (governedAt config r) (entriesBefore config r n) t) := by
  obtain ⟨base, o, stays⟩ := open_outside sane within outside
  have judged : multAt config r t = _ := congrArg Prod.fst (judge_open o.running o.flat stays)
  rw [o.cooling_iff sane within.le, o.rungAt sane within.le, judged]
  refine ⟨fun breached => stays ⟨o.running, o.flat, breached⟩, ?_, ?_⟩
  · intro left
    rw [if_pos left]
  · intro none
    rw [if_neg none]
    refine min_eq_left ?_
    rw [Governor.ladder, ladderMult_reached]
    exact (reached_bounds sane _).2

/-- The bar after a stand-down is judged, from a mark at its own equity. -/
theorem Enters.fresh (sane : Sane config) (enters : Enters config r e) (restart : config.restartAfter = some bars) :
    Open config r (e + bars) (e + bars) := by
  have pos := sane.bars_pos restart
  rcases (standing sane r (e + bars)).mode with ⟨base, o⟩ | ⟨e', bars', rest⟩ | ⟨e', halted⟩
  · obtain ⟨bars', same, ended⟩ := o.before e (by omega) enters
    obtain rfl := Option.some.inj (restart.symm.trans same)
    have le := o.le
    obtain rfl : base = e + bars := by omega
    exact o
  · obtain rfl := Option.some.inj (restart.symm.trans rest.restart)
    have ends := rest.ends
    have left := rest.left
    have later := rest.later
    rcases rest.before e (by omega) enters with rfl | ended
    · omega
    · omega
  · cases restart.symm.trans halted.restart

theorem governs_fresh (sane : Sane config) (above : ∀ t, -1 < r t) (enters : Enters config r e)
    (restart : config.restartAfter = some bars) (within : e + bars < n) :
    baseAt config (entriesBefore config r n) (e + bars) = e + bars ∧
      ¬ Down config (entriesBefore config r n) (e + bars) ∧
      ¬ Cooling config (governedAt config r) (entriesBefore config r n) (e + bars) ∧
      drawdownAt config (governedAt config r) (entriesBefore config r n) (e + bars) = 0 ∧
      multAt config r (e + bars) = 1 := by
  have o := enters.fresh sane restart
  have base := o.baseAt sane within.le
  have level : drawdownAt config (governedAt config r) (entriesBefore config r n) (e + bars) = 0 := by
    unfold drawdownAt
    rw [base, Nat.sub_self, highFrom, div_self (equityAt_pos sane above _).ne', sub_self]
  have top : rungAt config (governedAt config r) (entriesBefore config r n) (e + bars) = 1 := by
    rw [Risk.rungAt, level, reached_none sane]
  have outside : ¬ Down config (entriesBefore config r n) (e + bars) := by
    intro down
    obtain ⟨-, -, breached⟩ := (o.down_iff sane within).mp down
    rw [← o.rungAt sane within.le, top] at breached
    exact one_ne_zero breached
  have cold : ¬ Cooling config (governedAt config r) (entriesBefore config r n) (e + bars) := by
    rintro ⟨loss, since, less, -⟩
    omega
  exact ⟨base, outside, cold, level, ((multAt_outside sane within outside).2.2 cold).trans top⟩

theorem entriesBefore_apart (sane : Sane config) (r : Nat → ℚ) (n : Nat) :
    (entriesBefore config r n).Pairwise fun a b => a < b ∧ ∃ bars, config.restartAfter = some bars ∧ a + bars ≤ b := by
  have ordered : (entriesBefore config r n).Pairwise (· < ·) := List.Pairwise.filter _ List.pairwise_lt_range
  refine ordered.imp_of_mem fun {a b} memA memB less => ⟨less, ?_⟩
  obtain ⟨base, o⟩ := (mem_entriesBefore.mp memB).2.judged sane
  obtain ⟨bars, restart, ended⟩ := o.before a less (mem_entriesBefore.mp memA).2
  exact ⟨bars, restart, ended.trans o.le⟩

/- A result. -/

/-- The returns after the first check bear on nothing else that is checked. -/
theorem validate_other {returns others : List ℚ} (ok : validate returns config = .ok ()) (some_ : others ≠ [])
    (above : ∀ x ∈ others, -1 < x) : validate others config = .ok () := by
  obtain ⟨nonempty, fine, -⟩ := validate_ok ok
  have none : ¬ (others.any fun x => x ≤ -1) = true := by simpa using above
  have none' : ¬ (returns.any fun x => x ≤ -1) = true := by simpa using fine
  rw [← ok]
  unfold validate
  rw [if_neg some_, if_neg none, if_neg nonempty, if_neg none']

theorem drawdownGovernor_ok {returns : List ℚ} (ok : validate returns config = .ok ()) :
    drawdownGovernor config returns = .ok ⟨(Governor.bars config .start returns).1,
      ((Governor.bars config .start returns).1.zip returns).map fun bar => bar.1 * bar.2,
      (Governor.bars config .start returns).2.dailyLossTriggers,
      (Governor.bars config .start returns).1.foldl (fun counts mult => countRung mult counts) [],
      (Governor.bars config .start returns).2.breaches, transitions (Governor.bars config .start returns).1⟩ := by
  unfold drawdownGovernor
  rw [ok]
  rfl

/-- The bars' returns, and none after the last. -/
def padded (returns : List ℚ) (t : Nat) : ℚ := returns.getD t 0

theorem bars_padded (config : GovernorConfig) (returns : List ℚ) :
    Governor.bars config .start returns = ((List.range returns.length).map (multAt config (padded returns)),
      stateAt config (padded returns) returns.length) := by
  have all := bars_stateAt config (padded returns) returns 0 fun i less => by rw [padded, Nat.zero_add]
  simp only [Nat.zero_add] at all
  exact all

theorem padded_above {returns : List ℚ} (above : ∀ x ∈ returns, -1 < x) (t : Nat) : -1 < padded returns t := by
  unfold padded
  by_cases less : t < returns.length
  · rw [List.getD_eq_getElem _ _ less]
    exact above _ (List.getElem_mem less)
  · rw [List.getD_eq_default _ _ (not_lt.mp less)]
    norm_num

theorem getD_mults (config : GovernorConfig) (r : Nat → ℚ) (within : t < n) :
    ((List.range n).map (multAt config r)).getD t 0 = multAt config r t := by
  rw [List.getD_eq_getElem _ _ (by simpa using within), List.getElem_map, List.getElem_range]

theorem getD_governed (config : GovernorConfig) (returns : List ℚ) :
    (fun t => ((((List.range returns.length).map (multAt config (padded returns))).zip returns).map
      fun bar => bar.1 * bar.2).getD t 0) = governedAt config (padded returns) := by
  funext t
  unfold governedAt
  by_cases less : t < returns.length
  · rw [List.getD_eq_getElem _ _ (by simpa using less), List.getElem_map, List.getElem_zip, List.getElem_map,
      List.getElem_range, padded, List.getD_eq_getElem _ _ less]
  · rw [List.getD_eq_default _ _ (by simpa using less), padded, List.getD_eq_default _ _ (not_lt.mp less), mul_zero]

theorem governs {returns : List ℚ} {res : GovernorResult} (ok : drawdownGovernor config returns = .ok res) :
    ∃ entries, Governs config (fun t => res.governedReturns.getD t 0) entries returns res
      fun t => res.multipliers.getD t 0 := by
  have valid := (Fallible.then_ok.mp ok).1
  obtain ⟨some_, above, sane⟩ := validate_ok valid
  obtain rfl := Except.ok.inj ((drawdownGovernor_ok valid).symm.trans ok)
  refine ⟨entriesBefore config (padded returns) returns.length, ?_⟩
  rw [bars_padded]
  dsimp only
  rw [getD_governed]
  have mult : ∀ t < returns.length, ((List.range returns.length).map (multAt config (padded returns))).getD t 0 =
      multAt config (padded returns) t := fun t => getD_mults config (padded returns)
  constructor
  · simp
  · intro t less
    rw [mult t less]
    rfl
  · exact (standing sane _ _).breaches
  · exact entriesBefore_apart sane _ _
  · intro e mem
    obtain ⟨less, enters⟩ := mem_entriesBefore.mp mem
    obtain ⟨base, o⟩ := enters.judged sane
    exact ⟨less, (o.rungAt sane less.le).trans enters.2.2⟩
  · intro t less down
    have aside := multAt_down sane less down
    refine ⟨(mult t less).trans aside, ?_⟩
    rw [equityAt, governedAt, aside, zero_mul, add_zero, mul_one]
  · intro e mem bars restart less
    have fresh := governs_fresh sane (padded_above above) (mem_entriesBefore.mp mem).2 restart less
    rw [mult _ less]
    exact fresh
  · intro t less outside
    rw [mult t less]
    exact multAt_outside sane less outside
  · rw [rungBars_sum]
    simp

/-- Runs whose returns agree before a bar have one multiplier there. -/
theorem multipliers_congr {returns others : List ℚ} {res res' : GovernorResult}
    (ok : drawdownGovernor config returns = .ok res) (ok' : drawdownGovernor config others = .ok res')
    (less : t < returns.length) (less' : t < others.length) (same : returns.take t = others.take t) :
    res.multipliers[t]? = res'.multipliers[t]? := by
  obtain rfl := Except.ok.inj ((drawdownGovernor_ok (Fallible.then_ok.mp ok).1).symm.trans ok)
  obtain rfl := Except.ok.inj ((drawdownGovernor_ok (Fallible.then_ok.mp ok').1).symm.trans ok')
  have before : ∀ s < t, padded returns s = padded others s := by
    intro s earlier
    have there := congrArg (·.getD s 0) same
    simpa [padded, List.getD_eq_getElem?_getD, List.getElem?_take, earlier] using there
  have state : stateAt config (padded returns) t = stateAt config (padded others) t := stateAt_congr before
  dsimp only
  rw [bars_padded, bars_padded]
  simp only [List.getElem?_map, List.getElem?_range less, List.getElem?_range less', Option.map_some, multAt, state]

end

end Risk
