import Mathlib.Tactic.Linarith
import Zcrypto.Fallible
import Zcrypto.Risk.Governor

/- What the governor's timers and its high-water mark stand for: the stand-downs entered so far, the
   equity since the last of them, and the losses that still cool. -/
namespace Risk

/- A history of governed returns. -/

def equityAt (g : Nat → ℚ) : Nat → ℚ
  | 0 => 1
  | t + 1 => equityAt g t * (1 + g t)

/-- The highest equity from a bar on, over so many bars. -/
def highFrom (g : Nat → ℚ) (base : Nat) : Nat → ℚ
  | 0 => equityAt g base
  | k + 1 => max (highFrom g base k) (equityAt g (base + k + 1))

/-- A governed loss of at least the limit. -/
def Loss (config : GovernorConfig) (g : Nat → ℚ) (t : Nat) : Prop := g t ≤ -config.dailyLossLimit

/-- A configuration that is accepted. -/
structure Sane (config : GovernorConfig) : Prop where
  limit : 0 < config.dailyLossLimit
  multiplier : 0 ≤ config.dailyLossMultiplier ∧ config.dailyLossMultiplier ≤ 1
  thresholds : ∀ rung ∈ config.ladder, 0 < rung.1
  ascending : config.ladder.Pairwise fun a b => a.1 < b.1
  rungs : ∀ rung ∈ config.ladder, 0 ≤ rung.2 ∧ rung.2 ≤ 1
  restart : config.restartAfter ≠ some 0

section
variable (config : GovernorConfig) (r : Nat → ℚ)

/-- What is kept before a bar. -/
def stateAt : Nat → Governor
  | 0 => .start
  | t + 1 => (stateAt t).step config (r t)

def multAt (t : Nat) : ℚ := ((stateAt config r t).judge config).1

def governedAt (t : Nat) : ℚ := multAt config r t * r t

/-- A bar that begins a stand-down. -/
def Enters (t : Nat) : Prop :=
  (stateAt config r t).flatForever = false ∧ (stateAt config r t).flatLeft = 0 ∧
    (stateAt config r t).ladder config = 0

instance (t : Nat) : Decidable (Enters config r t) := inferInstanceAs (Decidable (_ ∧ _))

/-- The bars before one that begin a stand-down. -/
def entriesBefore (t : Nat) : List Nat := (List.range t).filter fun e => Enters config r e

/-- Before a bar that is judged: the mark is the highest equity since a base, where the last stand-down
    ended, and the cool-down is of the last loss since. -/
structure Open (t base : Nat) : Prop where
  le : base ≤ t
  flat : (stateAt config r t).flatLeft = 0
  running : (stateAt config r t).flatForever = false
  ended : base = 0 ∨ ∃ e bars, Enters config r e ∧ config.restartAfter = some bars ∧ e + bars = base
  before : ∀ e < t, Enters config r e → ∃ bars, config.restartAfter = some bars ∧ e + bars ≤ base
  hwm : (stateAt config r t).hwm = highFrom (governedAt config r) base (t - base)
  cooling : ∀ loss, base ≤ loss → loss < t → Loss config (governedAt config r) loss →
    loss + 1 + config.dailyLossCooldown ≤ t + (stateAt config r t).cooldownLeft
  cooled : 0 < (stateAt config r t).cooldownLeft → ∃ loss, base ≤ loss ∧ loss < t ∧
    Loss config (governedAt config r) loss ∧
      loss + 1 + config.dailyLossCooldown = t + (stateAt config r t).cooldownLeft

/-- Before a bar of a stand-down that ends. -/
structure Resting (t e bars : Nat) : Prop where
  restart : config.restartAfter = some bars
  enters : Enters config r e
  later : e < t
  left : 0 < (stateAt config r t).flatLeft
  ends : e + bars = t + (stateAt config r t).flatLeft
  running : (stateAt config r t).flatForever = false
  before : ∀ e' < t, Enters config r e' → e' = e ∨ e' + bars ≤ e

/-- Before a bar of a stand-down that does not end. -/
structure Over (t e : Nat) : Prop where
  restart : config.restartAfter = none
  enters : Enters config r e
  later : e < t
  forever : (stateAt config r t).flatForever = true
  flat : (stateAt config r t).flatLeft = 0
  only : ∀ e' < t, Enters config r e' → e' = e

structure Standing (t : Nat) : Prop where
  equity : (stateAt config r t).equity = equityAt (governedAt config r) t
  breaches : (stateAt config r t).breaches = (entriesBefore config r t).length
  mode : (∃ base, Open config r t base) ∨ (∃ e bars, Resting config r t e bars) ∨ ∃ e, Over config r t e

end

section
variable {config : GovernorConfig} {r : Nat → ℚ} {t e bars base : Nat}

/- What a bar does, by whether it is judged and what it is judged to be. -/

theorem judge_flat (config : GovernorConfig) {s : Governor} (flat : s.flatForever = true ∨ s.flatLeft > 0) : s.judge config = (0, s) :=
  if_pos flat

theorem judge_enters (enters : Enters config r t) : (stateAt config r t).judge config =
    (0, match config.restartAfter with
      | none => { stateAt config r t with
          breaches := (stateAt config r t).breaches + 1
          flatForever := true }
      | some bars => { stateAt config r t with
          breaches := (stateAt config r t).breaches + 1
          flatLeft := bars }) := by
  obtain ⟨running, flat, breached⟩ := enters
  have working : ¬ ((stateAt config r t).flatForever = true ∨ (stateAt config r t).flatLeft > 0) := by
    simp [running, flat]
  exact (if_neg working).trans (if_pos breached)

theorem judge_open (running : (stateAt config r t).flatForever = false)
    (flat : (stateAt config r t).flatLeft = 0) (stays : ¬ Enters config r t) :
    (stateAt config r t).judge config = (min ((stateAt config r t).ladder config)
      (if (stateAt config r t).cooldownLeft > 0 then config.dailyLossMultiplier else 1), stateAt config r t) := by
  unfold Governor.judge
  rw [if_neg (by simp [running, flat]), if_neg fun breached => stays ⟨running, flat, breached⟩]

theorem stateAt_next (config : GovernorConfig) (r : Nat → ℚ) (t : Nat) : stateAt config r (t + 1) =
    ((stateAt config r t).judge config).2.book config (governedAt config r t) := rfl

theorem entriesBefore_next (config : GovernorConfig) (r : Nat → ℚ) (t : Nat) :
    (entriesBefore config r (t + 1)).length =
      (entriesBefore config r t).length + if Enters config r t then 1 else 0 := by
  unfold entriesBefore
  rw [List.range_succ, List.filter_append, List.length_append]
  congr 1
  by_cases enters : Enters config r t
  · simp [enters]
  · simp [enters]

theorem highFrom_next (g : Nat → ℚ) (le : base ≤ t) :
    highFrom g base (t + 1 - base) = max (highFrom g base (t - base)) (equityAt g (t + 1)) := by
  have next : t + 1 - base = (t - base) + 1 := by omega
  have there : base + (t - base) + 1 = t + 1 := by omega
  rw [next, highFrom, there]

theorem standing_start (config : GovernorConfig) (r : Nat → ℚ) : Standing config r 0 where
  equity := rfl
  breaches := rfl
  mode := .inl ⟨0, {
    le := le_rfl
    flat := rfl
    running := rfl
    ended := .inl rfl
    before := fun e less => absurd less (Nat.not_lt_zero e)
    hwm := rfl
    cooling := fun loss _ less => absurd less (Nat.not_lt_zero loss)
    cooled := fun left => absurd left (Nat.lt_irrefl 0) }⟩

/- What booking a bar's return changes. -/

section
variable {s : Governor} (g : ℚ)

theorem book_equity (config : GovernorConfig) (s : Governor) (g : ℚ) :
    (s.book config g).equity = s.equity * (1 + g) ∧ (s.book config g).breaches = s.breaches ∧
      (s.book config g).flatForever = s.flatForever := by
  unfold Governor.book
  dsimp only
  repeat' split
  all_goals exact ⟨rfl, rfl, rfl⟩

theorem book_flat (config : GovernorConfig) (flat : 0 < s.flatLeft) :
    (s.book config g).flatLeft = s.flatLeft - 1 ∧
      (s.flatLeft = 1 → (s.book config g).hwm = s.equity * (1 + g) ∧ (s.book config g).cooldownLeft = 0) := by
  unfold Governor.book
  dsimp only
  rw [if_pos flat]
  split
  · rename_i last
    exact ⟨last.symm, fun _ => ⟨rfl, rfl⟩⟩
  · rename_i more
    exact ⟨rfl, fun last => absurd (by rw [last]) more⟩

theorem book_running (config : GovernorConfig) (flat : s.flatLeft = 0) (running : s.flatForever = false) :
    (s.book config g).flatLeft = 0 ∧ (s.book config g).hwm = max s.hwm (s.equity * (1 + g)) ∧
      (s.book config g).cooldownLeft =
        if g ≤ -config.dailyLossLimit then config.dailyLossCooldown else s.cooldownLeft - 1 := by
  unfold Governor.book
  dsimp only
  rw [if_neg (by omega), running, if_pos (by decide)]
  by_cases lost : g ≤ -config.dailyLossLimit
  · simp only [if_pos lost, flat, and_self]
  · simp only [if_neg lost, flat, and_self]

theorem book_forever (config : GovernorConfig) (flat : s.flatLeft = 0) (forever : s.flatForever = true) :
    (s.book config g).flatLeft = 0 := by
  unfold Governor.book
  dsimp only
  rw [if_neg (by omega), forever, if_neg (by decide)]
  exact flat

end

/- One bar. -/

theorem open_next (o : Open config r t base) (stays : ¬ Enters config r t)
    (equity : (stateAt config r t).equity = equityAt (governedAt config r) t) :
    Open config r (t + 1) base := by
  have judged := judge_open o.running o.flat stays
  have next : stateAt config r (t + 1) = (stateAt config r t).book config (governedAt config r t) := by
    rw [stateAt_next, judged]
  obtain ⟨flat, hwm, cooldown⟩ := book_running (governedAt config r t) config o.flat o.running
  have le := o.le
  constructor
  · omega
  · rw [next, flat]
  · rw [next, (book_equity _ _ _).2.2, o.running]
  · exact o.ended
  · intro e less enters
    rcases Nat.lt_or_eq_of_le (Nat.lt_succ_iff.mp less) with earlier | rfl
    · exact o.before e earlier enters
    · exact absurd enters stays
  · rw [next, hwm, highFrom_next _ o.le, o.hwm, equity]
    rfl
  · intro loss since less lost
    rw [next, cooldown]
    rcases Nat.lt_or_eq_of_le (Nat.lt_succ_iff.mp less) with earlier | rfl
    · have cooling := o.cooling loss since earlier lost
      split
      · omega
      · omega
    · have deep : governedAt config r loss ≤ -config.dailyLossLimit := lost
      rw [if_pos deep]
  · intro left
    rw [next, cooldown] at left ⊢
    split at left
    · rename_i lost
      refine ⟨t, o.le, Nat.lt_succ_self t, lost, ?_⟩
      rw [if_pos lost]
    · rename_i none
      obtain ⟨loss, since, less, lost, ends⟩ := o.cooled (by omega)
      refine ⟨loss, since, by omega, lost, ?_⟩
      rw [if_neg none]
      omega

/-- The bar after a stand-down is open from itself on. -/
theorem open_fresh (restart : config.restartAfter = some bars) (enters : Enters config r e)
    (ends : e + bars = t + 1) (flat : (stateAt config r (t + 1)).flatLeft = 0)
    (running : (stateAt config r (t + 1)).flatForever = false)
    (before : ∀ e' < t + 1, Enters config r e' → e' + bars ≤ t + 1)
    (hwm : (stateAt config r (t + 1)).hwm = equityAt (governedAt config r) (t + 1))
    (cold : (stateAt config r (t + 1)).cooldownLeft = 0) : Open config r (t + 1) (t + 1) := by
  constructor
  · exact le_rfl
  · exact flat
  · exact running
  · exact .inr ⟨e, bars, enters, restart, ends⟩
  · exact fun e' less enters' => ⟨bars, restart, before e' less enters'⟩
  · rw [hwm, Nat.sub_self]
    rfl
  · intro loss since less
    omega
  · intro left
    omega

theorem enters_next (sane : Sane config) (o : Open config r t base) (enters : Enters config r t)
    (equity : (stateAt config r t).equity = equityAt (governedAt config r) t) :
    (∃ base, Open config r (t + 1) base) ∨ (∃ e bars, Resting config r (t + 1) e bars) ∨
      ∃ e, Over config r (t + 1) e := by
  have judged := judge_enters enters
  have le := o.le
  cases restart : config.restartAfter with
  | none =>
    right
    right
    rw [restart] at judged
    have next : stateAt config r (t + 1) = Governor.book config { stateAt config r t with
        breaches := (stateAt config r t).breaches + 1
        flatForever := true } (governedAt config r t) := by
      rw [stateAt_next, judged]
    refine ⟨t, restart, enters, Nat.lt_succ_self t, ?_, ?_, ?_⟩
    · rw [next, (book_equity _ _ _).2.2]
    · rw [next]
      exact book_forever _ config o.flat rfl
    · intro e' less enters'
      rcases Nat.lt_or_eq_of_le (Nat.lt_succ_iff.mp less) with earlier | rfl
      · obtain ⟨bars, some_, -⟩ := o.before e' earlier enters'
        cases restart.symm.trans some_
      · rfl
  | some bars =>
    rw [restart] at judged
    have next : stateAt config r (t + 1) = Governor.book config { stateAt config r t with
        breaches := (stateAt config r t).breaches + 1
        flatLeft := bars } (governedAt config r t) := by
      rw [stateAt_next, judged]
    have some_ : 0 < bars := by
      rcases Nat.eq_zero_or_pos bars with rfl | some_
      · exact absurd restart sane.restart
      · exact some_
    obtain ⟨flat, fresh⟩ := book_flat (governedAt config r t) config (s := { stateAt config r t with
      breaches := (stateAt config r t).breaches + 1
      flatLeft := bars }) some_
    have running : (stateAt config r (t + 1)).flatForever = false := by
      rw [next, (book_equity _ _ _).2.2]
      exact o.running
    have before : ∀ e' < t + 1, Enters config r e' → e' = t ∨ e' + bars ≤ t := by
      intro e' less enters'
      rcases Nat.lt_or_eq_of_le (Nat.lt_succ_iff.mp less) with earlier | rfl
      · obtain ⟨bars', same, ends⟩ := o.before e' earlier enters'
        obtain rfl := Option.some.inj (restart.symm.trans same)
        exact .inr (ends.trans o.le)
      · exact .inl rfl
    by_cases last : bars = 1
    · left
      obtain ⟨hwm, cold⟩ := fresh last
      refine ⟨t + 1, open_fresh restart enters (by omega) ?_ running ?_ ?_ ?_⟩
      · rw [next, flat]
        show bars - 1 = 0
        omega
      · intro e' less enters'
        rcases before e' less enters' with rfl | earlier
        · omega
        · omega
      · rw [next, hwm, equity]
        rfl
      · rw [next, cold]
    · right
      left
      refine ⟨t, bars, restart, enters, Nat.lt_succ_self t, ?_, ?_, running, before⟩
      · rw [next, flat]
        show 0 < bars - 1
        omega
      · rw [next, flat]
        show t + bars = t + 1 + (bars - 1)
        omega

theorem resting_next (s : Resting config r t e bars)
    (equity : (stateAt config r t).equity = equityAt (governedAt config r) t) :
    (∃ base, Open config r (t + 1) base) ∨ ∃ e bars, Resting config r (t + 1) e bars := by
  have judged := judge_flat config (.inr s.left)
  have next : stateAt config r (t + 1) = (stateAt config r t).book config (governedAt config r t) := by
    rw [stateAt_next, judged]
  obtain ⟨flat, fresh⟩ := book_flat (governedAt config r t) config s.left
  have running : (stateAt config r (t + 1)).flatForever = false := by
    rw [next, (book_equity _ _ _).2.2, s.running]
  have stays : ¬ Enters config r t := by
    rintro ⟨-, none, -⟩
    have left := s.left
    omega
  have before : ∀ e' < t + 1, Enters config r e' → e' = e ∨ e' + bars ≤ e := by
    intro e' less enters
    rcases Nat.lt_or_eq_of_le (Nat.lt_succ_iff.mp less) with earlier | rfl
    · exact s.before e' earlier enters
    · exact absurd enters stays
  have ends := s.ends
  by_cases last : (stateAt config r t).flatLeft = 1
  · left
    obtain ⟨hwm, cold⟩ := fresh last
    refine ⟨t + 1, open_fresh s.restart s.enters (by omega) (by rw [next, flat, last]) running ?_ ?_ ?_⟩
    · intro e' less enters
      rcases before e' less enters with rfl | earlier
      · omega
      · omega
    · rw [next, hwm, equity]
      rfl
    · rw [next, cold]
  · right
    have left := s.left
    refine ⟨e, bars, s.restart, s.enters, by have := s.later; omega, ?_, ?_, running, before⟩
    · rw [next, flat]
      omega
    · rw [next, flat]
      omega

theorem over_next (s : Over config r t e) : Over config r (t + 1) e := by
  have judged := judge_flat config (.inl s.forever)
  have next : stateAt config r (t + 1) = (stateAt config r t).book config (governedAt config r t) := by
    rw [stateAt_next, judged]
  have later := s.later
  constructor
  · exact s.restart
  · exact s.enters
  · omega
  · rw [next, (book_equity _ _ _).2.2, s.forever]
  · rw [next, book_forever _ config s.flat s.forever]
  · intro e' less enters
    rcases Nat.lt_or_eq_of_le (Nat.lt_succ_iff.mp less) with earlier | rfl
    · exact s.only e' earlier enters
    · cases s.forever.symm.trans enters.1

theorem standing_next (sane : Sane config) (s : Standing config r t) : Standing config r (t + 1) := by
  have equity : (stateAt config r (t + 1)).equity = equityAt (governedAt config r) (t + 1) := by
    have kept : ((stateAt config r t).judge config).2.equity = (stateAt config r t).equity := by
      unfold Governor.judge
      split
      · rfl
      · split
        · cases config.restartAfter <;> rfl
        · rfl
    rw [stateAt_next, (book_equity _ _ _).1, kept, s.equity]
    rfl
  refine ⟨equity, ?_, ?_⟩
  · rw [entriesBefore_next, ← s.breaches, stateAt_next, (book_equity _ _ _).2.1]
    by_cases enters : Enters config r t
    · rw [if_pos enters, judge_enters enters]
      cases config.restartAfter <;> rfl
    · rw [if_neg enters, add_zero]
      rcases s.mode with ⟨base, o⟩ | ⟨e, bars, rest⟩ | ⟨e, ended⟩
      · rw [judge_open o.running o.flat enters]
      · rw [judge_flat config (.inr rest.left)]
      · rw [judge_flat config (.inl ended.forever)]
  · rcases s.mode with ⟨base, o⟩ | ⟨e, bars, rest⟩ | ⟨e, ended⟩
    · by_cases enters : Enters config r t
      · exact enters_next sane o enters s.equity
      · exact .inl ⟨base, open_next o enters s.equity⟩
    · rcases resting_next rest s.equity with o | rest
      · exact .inl o
      · exact .inr (.inl rest)
    · exact .inr (.inr ⟨e, over_next ended⟩)

/-- What is kept before a bar is what the bars before it make of it. -/
theorem standing (sane : Sane config) (r : Nat → ℚ) (t : Nat) : Standing config r t := by
  induction t with
  | zero => exact standing_start config r
  | succ t ih => exact standing_next sane ih

end

end Risk
