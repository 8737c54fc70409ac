import Mathlib.Algebra.Order.Field.Rat
import Mathlib.Order.Monotone.Basic
import Mathlib.Tactic.GCongr
import Mathlib.Tactic.NormNum
import Zcrypto.Archive.Book
import Mathlib.Order.ConditionallyCompleteLattice.Basic
import Mathlib.Data.Int.ConditionallyCompleteOrder

/- The spliced hour: every primary row and every secondary row of a witnessed gap, once and in order,
   no message parted, and no gap left that the secondary would witness. -/
namespace Archive
open Fallible

section
variable {α κ τ : Type}

/-- In an ascending list, rows of one kind that all come before those of another. -/
theorem filter_before {l : List α} {f : α → Int} (sorted : l.Pairwise fun a b => f a ≤ f b)
    {p q : α → Bool} (before : ∀ a ∈ l, ∀ b ∈ l, p a = true → q b = true → f a < f b) :
    (l.filter fun a => p a || q a) = l.filter p ++ l.filter q := by
  induction l with
  | nil => rfl
  | cons a l ih =>
    obtain ⟨first, rest⟩ := List.pairwise_cons.mp sorted
    have tail := ih rest fun x mem y there =>
      before x (List.mem_cons_of_mem _ mem) y (List.mem_cons_of_mem _ there)
    by_cases early : p a
    · have late : q a = false := by
        by_contra both
        have less := before a List.mem_cons_self a List.mem_cons_self early (by simpa using both)
        omega
      simp [early, late, tail]
    · by_cases late : q a
      · -- nothing early is left behind a late row
        have none_left : l.filter p = [] := by
          rw [List.filter_eq_nil_iff]
          intro x mem is_early
          have less := before x (List.mem_cons_of_mem _ mem) a List.mem_cons_self is_early late
          have ascends := first x mem
          omega
        simp [early, late, tail, none_left]
      · simp [early, late, tail]

/- Gaps in their order. -/

/-- A gap between neighbouring boundaries, whose flags say which of them are messages. -/
structure Bounded (message : Int → Prop) (gap : Gap τ) : Prop where
  ordered : gap.start < gap.stop
  apart : ∀ t, message t → ¬ (gap.start < t ∧ t < gap.stop)
  start : gap.startIsPrimaryMessage = true ↔ message gap.start
  stop : gap.endIsPrimaryMessage = true ↔ message gap.stop

/-- Gaps one after another, from the end of the one before. -/
def Placed (message : Int → Prop) : Option Int → List (Gap τ) → Prop
  | _, [] => True
  | cursor, gap :: rest =>
    (∀ c, cursor = some c → c ≤ gap.start ∧ gap.startIsPrimaryMessage = true) ∧
      Bounded message gap ∧ Placed message (some gap.stop) rest

variable {message : Int → Prop} {gap : Gap τ} {gaps : List (Gap τ)} {cursor : Option Int} {t : Int}

theorem placed_weaken {c d : Int} (placed : Placed message (some d) gaps) (le : c ≤ d) :
    Placed message (some c) gaps := by
  cases gaps with
  | nil => trivial
  | cons gap rest =>
    obtain ⟨after, bounded, later⟩ := placed
    refine ⟨?_, bounded, later⟩
    intro e same
    injection same with same
    obtain ⟨reached, flag⟩ := after d rfl
    exact ⟨by omega, flag⟩

theorem placed_none {d : Int} (placed : Placed message (some d) gaps) :
    Placed message none gaps := by
  cases gaps with
  | nil => trivial
  | cons gap rest =>
    obtain ⟨_, bounded, later⟩ := placed
    exact ⟨by simp, bounded, later⟩

theorem placed_skip (placed : Placed message cursor (gap :: gaps)) : Placed message cursor gaps := by
  obtain ⟨after, bounded, later⟩ := placed
  cases cursor with
  | none => exact placed_none later
  | some c =>
    have reached := (after c rfl).1
    have ordered := bounded.ordered
    exact placed_weaken later (by omega)

theorem placed_filter (placed : Placed message cursor gaps) (keep : Gap τ → Bool) :
    Placed message cursor (gaps.filter keep) := by
  induction gaps generalizing cursor with
  | nil => trivial
  | cons gap rest ih =>
    by_cases kept : keep gap
    · obtain ⟨after, bounded, later⟩ := placed
      rw [List.filter_cons_of_pos kept]
      exact ⟨after, bounded, ih later⟩
    · rw [List.filter_cons_of_neg kept]
      exact ih (placed_skip placed)

theorem placed_mem {c : Int} (placed : Placed message (some c) gaps) (mem : gap ∈ gaps) :
    c ≤ gap.start ∧ gap.startIsPrimaryMessage = true ∧ Bounded message gap := by
  induction gaps generalizing c with
  | nil => cases mem
  | cons first rest ih =>
    obtain ⟨after, bounded, later⟩ := placed
    obtain ⟨reached, flag⟩ := after c rfl
    rcases List.mem_cons.mp mem with rfl | mem
    · exact ⟨reached, flag, bounded⟩
    · obtain ⟨past, later_flag, later_bounded⟩ := ih later mem
      have ordered := bounded.ordered
      exact ⟨by omega, later_flag, later_bounded⟩

theorem placed_bounded (placed : Placed message cursor gaps) (mem : gap ∈ gaps) :
    Bounded message gap := by
  cases gaps with
  | nil => cases mem
  | cons first rest =>
    obtain ⟨_, bounded, later⟩ := placed
    rcases List.mem_cons.mp mem with rfl | mem
    · exact bounded
    · exact (placed_mem later mem).2.2

theorem inside_iff : inside gap t = true ↔
    (if gap.startIsPrimaryMessage then gap.start < t else gap.start ≤ t) ∧
      (if gap.endIsPrimaryMessage then t < gap.stop else t ≤ gap.stop) := by
  unfold inside
  rw [Bool.and_eq_true]
  cases gap.startIsPrimaryMessage <;> cases gap.endIsPrimaryMessage <;> simp

/-- Nothing inside a gap has a primary message's stamp. -/
theorem inside_apart (bounded : Bounded message gap) (within : inside gap t = true) :
    gap.start ≤ t ∧ t ≤ gap.stop ∧ ¬ message t := by
  obtain ⟨low, high⟩ := inside_iff.mp within
  have after : gap.start ≤ t := by
    split at low
    · omega
    · exact low
  have before : t ≤ gap.stop := by
    split at high
    · omega
    · exact high
  refine ⟨after, before, ?_⟩
  intro is_message
  by_cases at_start : t = gap.start
  · rw [at_start] at is_message low
    rw [if_pos (bounded.start.mpr is_message)] at low
    omega
  · by_cases at_stop : t = gap.stop
    · rw [at_stop] at is_message high
      rw [if_pos (bounded.stop.mpr is_message)] at high
      omega
    · exact bounded.apart t is_message ⟨by omega, by omega⟩

/-- A stamp between a gap's boundaries that no primary message has is inside it. -/
theorem inside_of_apart (bounded : Bounded message gap) (after : gap.start ≤ t) (before : t ≤ gap.stop)
    (other : ¬ message t) : inside gap t = true := by
  refine inside_iff.mpr ⟨?_, ?_⟩
  · split
    · rename_i flag
      have differ : t ≠ gap.start := by
        rintro rfl
        exact other (bounded.start.mp flag)
      omega
    · exact after
  · split
    · rename_i flag
      have differ : t ≠ gap.stop := by
        rintro rfl
        exact other (bounded.stop.mp flag)
      omega
    · exact before

/-- The primary's rows stand before a gap or after it. -/
theorem headOf_iff (bounded : Bounded message gap) (is_message : message t) :
    headOf gap t = true ↔ t < gap.stop := by
  have ordered := bounded.ordered
  have apart := bounded.apart t is_message
  unfold headOf
  split
  · rw [decide_eq_true_eq]
    omega
  · rename_i flag
    have differ : t ≠ gap.start := by
      rintro rfl
      exact flag (bounded.start.mpr is_message)
    rw [decide_eq_true_eq]
    omega

/- What the splice is made of. -/

/-- The rows that one side gave. -/
def rowsFrom (side : Side) (blocks : List (Block κ)) : List (Row κ) :=
  rowsOf (blocks.filter fun b => b.source = side)

theorem rowsOf_blocksOf (side : Side) (frame : List (Row κ)) : rowsOf (blocksOf side frame) = frame := by
  unfold blocksOf rowsOf
  split
  · rename_i nothing
    rw [nothing]
    rfl
  · simp [block]

theorem rowsFrom_blocksOf (side other : Side) (frame : List (Row κ)) :
    rowsFrom side (blocksOf other frame) = if other = side then frame else [] := by
  unfold blocksOf rowsFrom rowsOf
  split
  · rename_i nothing
    rw [nothing]
    split <;> rfl
  · by_cases same : other = side
    · simp [block, same]
    · simp [block, same]

theorem rowsOf_append (a b : List (Block κ)) : rowsOf (a ++ b) = rowsOf a ++ rowsOf b :=
  List.flatMap_append

theorem rowsFrom_append (side : Side) (a b : List (Block κ)) :
    rowsFrom side (a ++ b) = rowsFrom side a ++ rowsFrom side b := by
  unfold rowsFrom
  rw [List.filter_append, rowsOf_append]

variable {primary secondary : List (Row κ)}

def Ascending (rows : List (Row κ)) : Prop := rows.Pairwise fun a b => a.ts ≤ b.ts

/-- The stamps of the primary's messages. -/
def MessageOf (rows : List (Row κ)) (t : Int) : Prop := ∃ r ∈ rows, r.ts = t

theorem messageOf_mem {r : Row κ} (mem : r ∈ primary) : MessageOf primary r.ts := ⟨r, mem, rfl⟩

theorem splice_primary (sorted : Ascending primary) (placed : Placed (MessageOf primary) cursor gaps) :
    rowsFrom .primary (spliceFrom primary secondary cursor gaps) =
      primary.filter fun r => pastCursor cursor r.ts := by
  induction gaps generalizing cursor with
  | nil =>
    unfold spliceFrom
    rw [rowsFrom_blocksOf, if_pos rfl]
  | cons gap rest ih =>
    obtain ⟨after, bounded, later⟩ := placed
    have ordered := bounded.ordered
    unfold spliceFrom
    rw [rowsFrom_append, rowsFrom_append, rowsFrom_blocksOf, rowsFrom_blocksOf, if_pos rfl, if_neg nofun,
      List.append_nil, ih later, ← filter_before (f := Row.ts) sorted]
    · apply List.filter_congr
      intro r mem
      have head := headOf_iff bounded (messageOf_mem mem)
      rw [Bool.eq_iff_iff, Bool.or_eq_true, Bool.and_eq_true, head]
      cases cursor with
      | none => simp [pastCursor, lt_or_ge]
      | some c =>
        have reached := (after c rfl).1
        simp only [pastCursor, decide_eq_true_eq]
        omega
    · intro a mem b _ early late
      have head := headOf_iff bounded (messageOf_mem mem)
      rw [Bool.and_eq_true, head] at early
      simp only [pastCursor, decide_eq_true_eq] at late
      omega

theorem splice_secondary (sorted : Ascending secondary)
    (placed : Placed (MessageOf primary) cursor gaps) :
    rowsFrom .secondary (spliceFrom primary secondary cursor gaps) =
      secondary.filter fun r => gaps.any fun gap => inside gap r.ts := by
  induction gaps generalizing cursor with
  | nil =>
    unfold spliceFrom
    rw [rowsFrom_blocksOf, if_neg nofun]
    simp
  | cons gap rest ih =>
    obtain ⟨_, bounded, later⟩ := placed
    unfold spliceFrom
    rw [rowsFrom_append, rowsFrom_append, rowsFrom_blocksOf, rowsFrom_blocksOf, if_neg nofun, if_pos rfl,
      List.nil_append, ih later, ← filter_before (f := Row.ts) sorted]
    · rfl
    · intro a _ b _ early late
      obtain ⟨_, before, _⟩ := inside_apart bounded early
      obtain ⟨next, mem, within⟩ := List.any_eq_true.mp late
      obtain ⟨past, flag, next_bounded⟩ := placed_mem later mem
      obtain ⟨low, _⟩ := inside_iff.mp within
      rw [if_pos flag] at low
      omega

theorem splice_sorted (primary_sorted : Ascending primary) (secondary_sorted : Ascending secondary)
    (placed : Placed (MessageOf primary) cursor gaps) :
    Ascending (rowsOf (spliceFrom primary secondary cursor gaps)) ∧
      ∀ c, cursor = some c → ∀ r ∈ rowsOf (spliceFrom primary secondary cursor gaps), c ≤ r.ts := by
  induction gaps generalizing cursor with
  | nil =>
    unfold spliceFrom
    rw [rowsOf_blocksOf]
    refine ⟨primary_sorted.filter _, ?_⟩
    rintro c rfl r mem
    simpa [pastCursor] using (List.mem_filter.mp mem).2
  | cons gap rest ih =>
    obtain ⟨after, bounded, later⟩ := placed
    obtain ⟨rest_sorted, rest_after⟩ := ih later
    have ordered := bounded.ordered
    have head_at : ∀ r ∈ primary.filter (fun r => headOf gap r.ts && pastCursor cursor r.ts),
        r.ts ≤ gap.start := by
      intro r mem
      obtain ⟨mem, early⟩ := List.mem_filter.mp mem
      rw [Bool.and_eq_true, headOf_iff bounded (messageOf_mem mem)] at early
      have before := early.1
      have apart := bounded.apart r.ts (messageOf_mem mem)
      omega
    have middle_at : ∀ r ∈ secondary.filter (fun r => inside gap r.ts),
        gap.start ≤ r.ts ∧ r.ts ≤ gap.stop := by
      intro r mem
      obtain ⟨low, high, _⟩ := inside_apart bounded (List.mem_filter.mp mem).2
      exact ⟨low, high⟩
    unfold spliceFrom
    rw [rowsOf_append, rowsOf_append, rowsOf_blocksOf, rowsOf_blocksOf]
    constructor
    · refine List.pairwise_append.mpr ⟨List.pairwise_append.mpr
        ⟨primary_sorted.filter _, secondary_sorted.filter _, ?_⟩, rest_sorted, ?_⟩
      · intro a a_mem b b_mem
        have first := head_at a a_mem
        have second := middle_at b b_mem
        omega
      · intro a a_mem b b_mem
        have second := rest_after gap.stop rfl b b_mem
        rcases List.mem_append.mp a_mem with a_mem | a_mem
        · have first := head_at a a_mem
          omega
        · have first := middle_at a a_mem
          omega
    · rintro c rfl r mem
      have reached := (after c rfl).1
      rcases List.mem_append.mp mem with mem | mem
      · rcases List.mem_append.mp mem with mem | mem
        · have past := (List.mem_filter.mp mem).2
          rw [Bool.and_eq_true] at past
          simpa [pastCursor] using past.2
        · have low := (middle_at r mem).1
          omega
      · have low := rest_after gap.stop rfl r mem
        omega

/-- The rows of one primary message stay together, in a block of the primary's. -/
theorem splice_message {b : Block κ} {r : Row κ}
    (placed : Placed (MessageOf primary) cursor gaps)
    (mem : b ∈ spliceFrom primary secondary cursor gaps) (row : r ∈ b.frame)
    (is_message : MessageOf primary r.ts) :
    b.source = .primary ∧
      (b.frame.filter fun x => x.ts = r.ts) = primary.filter fun x => x.ts = r.ts := by
  have of_primary : ∀ (keep : Int → Bool), b ∈ blocksOf .primary (primary.filter fun x => keep x.ts) →
      b.source = .primary ∧
        (b.frame.filter fun x => x.ts = r.ts) = primary.filter fun x => x.ts = r.ts := by
    intro keep mem
    unfold blocksOf at mem
    split at mem
    · cases mem
    · rw [List.mem_singleton] at mem
      subst mem
      have kept : keep r.ts = true := (List.mem_filter.mp row).2
      refine ⟨rfl, ?_⟩
      simp only [block, List.filter_filter]
      apply List.filter_congr
      intro x _
      by_cases same : x.ts = r.ts
      · simp [same, kept]
      · simp [same]
  induction gaps generalizing cursor with
  | nil => exact of_primary (pastCursor cursor) mem
  | cons gap rest ih =>
    obtain ⟨_, bounded, later⟩ := placed
    unfold spliceFrom at mem
    rcases List.mem_append.mp mem with mem | mem
    · rcases List.mem_append.mp mem with mem | mem
      · exact of_primary (fun t => headOf gap t && pastCursor cursor t) mem
      · exfalso
        unfold blocksOf at mem
        split at mem
        · cases mem
        · rw [List.mem_singleton] at mem
          subst mem
          exact (inside_apart bounded (List.mem_filter.mp row).2).2.2 is_message
    · exact ih later mem

/- The windows of the primary's silence. -/

theorem firstDrop_none {ts : List Int} (sorted : ts.Pairwise (· ≤ ·)) : firstDrop ts = none := by
  induction ts with
  | nil => rfl
  | cons t rest ih =>
    obtain ⟨first, later⟩ := List.pairwise_cons.mp sorted
    cases rest with
    | nil => rfl
    | cons next rest =>
      have ascends := first next List.mem_cons_self
      unfold firstDrop
      rw [if_neg (by omega), ih later]

theorem mem_neighbours (ts : List Int) (t : Int) : t ∈ neighbours ts ↔ t ∈ ts := by
  induction ts with
  | nil => rfl
  | cons first rest ih =>
    cases rest with
    | nil => rfl
    | cons next rest =>
      unfold neighbours
      split
      · rename_i same
        rw [ih, same]
        simp
      · rw [List.mem_cons, List.mem_cons, ih]

theorem neighbours_ascend {ts : List Int} (sorted : ts.Pairwise (· ≤ ·)) :
    (neighbours ts).Pairwise (· < ·) := by
  induction ts with
  | nil => exact List.Pairwise.nil
  | cons first rest ih =>
    obtain ⟨least, later⟩ := List.pairwise_cons.mp sorted
    cases rest with
    | nil => exact List.pairwise_singleton _ _
    | cons next rest =>
      unfold neighbours
      split
      · exact ih later
      · rename_i differ
        refine List.pairwise_cons.mpr ⟨?_, ih later⟩
        intro t mem
        rw [mem_neighbours] at mem
        have ascends := least next List.mem_cons_self
        rcases List.mem_cons.mp mem with rfl | mem
        · omega
        · have above := (List.pairwise_cons.mp later).1 t mem
          omega

variable [LinearOrder τ] [Zero τ] {seconds : Int → τ} {minGapSeconds : τ}

/-- How a width in microseconds becomes one in seconds. -/
structure Conversion (seconds : Int → τ) : Prop where
  mono : Monotone seconds
  zero : seconds 0 = 0

theorem wide_ordered (conversion : Conversion seconds) (nonneg : 0 ≤ minGapSeconds) {width : Int}
    (is_wide : minGapSeconds < seconds width) : 0 < width := by
  by_contra narrow
  have le := conversion.mono (not_lt.mp narrow)
  rw [conversion.zero] at le
  exact absurd (lt_of_le_of_lt nonneg is_wide) (not_lt.mpr le)

omit [Zero τ] in
theorem mem_wide {start stop : Int} {a b : Bool} :
    gap ∈ wide seconds minGapSeconds start stop a b ↔
      minGapSeconds < seconds (stop - start) ∧ gap = ⟨start, stop, seconds (stop - start), a, b⟩ := by
  unfold wide
  split
  · rename_i is_wide
    simp [is_wide]
  · rename_i narrow
    simp [narrow]

/-- What is known of the messages from a boundary on. -/
structure Onward (message : Int → Prop) (stop start : Int) (flag : Bool) (ms : List Int) : Prop where
  ascend : ms.Pairwise (· < ·)
  within : start < stop
  range : ∀ m ∈ ms, start ≤ m ∧ m < stop
  past : flag = true → ∀ m ∈ ms, start < m
  known : ∀ t, start ≤ t → (message t ↔ t ∈ ms ∨ (flag = true ∧ t = start))

variable {stop start : Int} {flag : Bool} {m : Int} {ms : List Int}

theorem onward_next (onward : Onward message stop start flag (m :: ms)) :
    Onward message stop m true ms := by
  obtain ⟨least, ascend⟩ := List.pairwise_cons.mp onward.ascend
  obtain ⟨reached, within⟩ := onward.range m List.mem_cons_self
  refine ⟨ascend, within, ?_, fun _ => least, ?_⟩
  · intro x mem
    have ascends := least x mem
    have high := (onward.range x (List.mem_cons_of_mem _ mem)).2
    omega
  · intro t after
    rw [onward.known t (by omega)]
    constructor
    · rintro (mem | ⟨is_flag, same⟩)
      · rcases List.mem_cons.mp mem with rfl | mem
        · exact Or.inr ⟨rfl, rfl⟩
        · exact Or.inl mem
      · have past := onward.past is_flag m List.mem_cons_self
        omega
    · rintro (mem | ⟨_, same⟩)
      · exact Or.inl (List.mem_cons_of_mem _ mem)
      · exact Or.inl (by rw [same]; exact List.mem_cons_self)

omit [LinearOrder τ] [Zero τ] in
/-- A wide window from a boundary to the next message is bounded by what its flags say. -/
theorem bounded_next (onward : Onward message stop start flag (m :: ms)) (ordered : start < m)
    (width : τ) : Bounded message (⟨start, m, width, flag, true⟩ : Gap τ) := by
  obtain ⟨least, _⟩ := List.pairwise_cons.mp onward.ascend
  refine ⟨ordered, ?_, ?_, ?_⟩
  · rintro t is_message ⟨after, before⟩
    simp only at after before
    rcases (onward.known t (by omega)).mp is_message with mem | ⟨_, same⟩
    · rcases List.mem_cons.mp mem with rfl | mem
      · omega
      · have ascends := least t mem
        omega
    · omega
  · rw [onward.known start (le_refl _)]
    constructor
    · intro is_flag
      exact Or.inr ⟨is_flag, rfl⟩
    · rintro (mem | ⟨is_flag, _⟩)
      · rcases List.mem_cons.mp mem with rfl | mem
        · omega
        · have ascends := least start mem
          omega
      · exact is_flag
  · exact ⟨fun _ => (onward.known m (by omega)).mpr (Or.inl List.mem_cons_self), fun _ => rfl⟩

omit [LinearOrder τ] [Zero τ] in
theorem bounded_last (onward : Onward message stop start flag []) (width : τ) :
    Bounded message (⟨start, stop, width, flag, false⟩ : Gap τ) := by
  have within := onward.within
  refine ⟨within, ?_, ?_, ?_⟩
  · rintro t is_message ⟨after, _⟩
    simp only at after
    rcases (onward.known t (by omega)).mp is_message with mem | ⟨_, same⟩
    · cases mem
    · omega
  · rw [onward.known start (le_refl _)]
    simp
  · rw [onward.known stop (by omega)]
    constructor
    · intro never
      cases never
    · rintro (mem | ⟨_, same⟩)
      · cases mem
      · omega

theorem windows_placed (conversion : Conversion seconds) (nonneg : 0 ≤ minGapSeconds)
    (onward : Onward message stop start flag ms) :
    Placed message (if flag then some start else none)
      (windowsFrom seconds minGapSeconds stop start flag ms) := by
  have entered : ∀ c, (if flag then some start else none) = some c → c ≤ start ∧ flag = true := by
    intro c same
    split at same
    · rename_i is_flag
      injection same with same
      exact ⟨by omega, is_flag⟩
    · cases same
  induction ms generalizing start flag with
  | nil =>
    unfold windowsFrom wide
    by_cases is_wide : minGapSeconds < seconds (stop - start)
    · rw [if_pos is_wide]
      exact ⟨entered, bounded_last onward _, trivial⟩
    · rw [if_neg is_wide]
      trivial
  | cons m rest ih =>
    have later := ih (onward_next onward) (by simp)
    rw [if_pos rfl] at later
    unfold windowsFrom wide
    by_cases is_wide : minGapSeconds < seconds (m - start)
    · have ordered := wide_ordered conversion nonneg is_wide
      rw [if_pos is_wide]
      exact ⟨entered, bounded_next onward (by omega) _, later⟩
    · have reached := (onward.range m List.mem_cons_self).1
      rw [if_neg is_wide, List.nil_append]
      cases flag with
      | true => exact placed_weaken later reached
      | false => exact placed_none later

/-- A window between two neighbouring boundaries, wider than the threshold: an hour's edge or a message
    on either side, and no message between. -/
structure SilenceWindow (seconds : Int → τ) (minGapSeconds : τ) (message : Int → Prop)
    (hourStart hourEnd : Int) (gap : Gap τ) : Prop where
  bounded : Bounded message gap
  start : gap.start = hourStart ∨ message gap.start
  stop : gap.stop = hourEnd ∨ message gap.stop
  seconds : gap.seconds = seconds (gap.stop - gap.start)
  wide : minGapSeconds < gap.seconds

theorem windows_silent (conversion : Conversion seconds) (nonneg : 0 ≤ minGapSeconds)
    (onward : Onward message stop start flag ms)
    (mem : gap ∈ windowsFrom seconds minGapSeconds stop start flag ms) :
    SilenceWindow seconds minGapSeconds message start stop gap := by
  induction ms generalizing start flag with
  | nil =>
    obtain ⟨is_wide, same⟩ := mem_wide.mp mem
    subst same
    exact ⟨bounded_last onward _, Or.inl rfl, Or.inl rfl, rfl, is_wide⟩
  | cons m rest ih =>
    have next := onward_next onward
    have reached := (onward.range m List.mem_cons_self).1
    have is_message : message m := (onward.known m reached).mpr (Or.inl List.mem_cons_self)
    rcases List.mem_append.mp mem with mem | mem
    · obtain ⟨is_wide, same⟩ := mem_wide.mp mem
      subst same
      have ordered := wide_ordered conversion nonneg is_wide
      exact ⟨bounded_next onward (by omega) _, Or.inl rfl, Or.inr is_message, rfl, is_wide⟩
    · obtain ⟨bounded, at_start, at_stop, width, is_wide⟩ := ih next mem
      refine ⟨bounded, ?_, at_stop, width, is_wide⟩
      rcases at_start with same | at_start
      · exact Or.inr (by rw [same]; exact is_message)
      · exact Or.inr at_start

omit [LinearOrder τ] [Zero τ] in
/-- The boundaries and the width say what a bounded gap is. -/
theorem bounded_unique {a b : Gap τ} (one : Bounded message a) (two : Bounded message b)
    (start : a.start = b.start) (stop : a.stop = b.stop) (width : a.seconds = b.seconds) : a = b := by
  have start_flag : a.startIsPrimaryMessage = b.startIsPrimaryMessage := by
    rw [Bool.eq_iff_iff, one.start, two.start, start]
  have end_flag : a.endIsPrimaryMessage = b.endIsPrimaryMessage := by
    rw [Bool.eq_iff_iff, one.stop, two.stop, stop]
  cases a
  cases b
  simp_all

omit [Zero τ] in
theorem windows_complete (onward : Onward message stop start flag ms)
    (window : SilenceWindow seconds minGapSeconds message start stop gap) (after : start ≤ gap.start) :
    gap ∈ windowsFrom seconds minGapSeconds stop start flag ms := by
  obtain ⟨bounded, at_start, at_stop, width, is_wide⟩ := window
  have ordered := bounded.ordered
  induction ms generalizing start flag with
  | nil =>
    have same_start : gap.start = start := by
      rcases at_start with same | is_message
      · exact same
      · rcases (onward.known gap.start after).mp is_message with mem | ⟨_, same⟩
        · cases mem
        · exact same
    have same_stop : gap.stop = stop := by
      rcases at_stop with same | is_message
      · exact same
      · rcases (onward.known gap.stop (by omega)).mp is_message with mem | ⟨_, same⟩
        · cases mem
        · omega
    rw [same_start, same_stop] at width
    rw [width] at is_wide
    exact mem_wide.mpr ⟨is_wide, bounded_unique bounded (bounded_last onward _) same_start same_stop width⟩
  | cons m rest ih =>
    obtain ⟨least, _⟩ := List.pairwise_cons.mp onward.ascend
    obtain ⟨reached, within⟩ := onward.range m List.mem_cons_self
    have is_m : message m := (onward.known m reached).mpr (Or.inl List.mem_cons_self)
    by_cases first : gap.start < m
    · -- the window before the next message
      have same_start : gap.start = start := by
        rcases at_start with same | is_message
        · exact same
        · rcases (onward.known gap.start after).mp is_message with mem | ⟨_, same⟩
          · rcases List.mem_cons.mp mem with same | mem
            · omega
            · have ascends := least gap.start mem
              omega
          · exact same
      have apart := bounded.apart m is_m
      have same_stop : gap.stop = m := by
        rcases at_stop with same | is_message
        · omega
        · rcases (onward.known gap.stop (by omega)).mp is_message with mem | ⟨_, same⟩
          · rcases List.mem_cons.mp mem with same | mem
            · exact same
            · have ascends := least gap.stop mem
              omega
          · omega
      rw [same_start, same_stop] at width
      rw [width] at is_wide
      apply List.mem_append_left
      exact mem_wide.mpr ⟨is_wide,
        bounded_unique bounded (bounded_next onward (by omega) _) same_start same_stop width⟩
    · apply List.mem_append_right
      refine ih (onward_next onward) (by omega) ?_
      rcases at_start with same | is_message
      · exact Or.inl (by omega)
      · exact Or.inr is_message

/- One hour of two hosts. -/

/-- Stamps of the hour, in the order of their arrival. -/
structure InHour (hourStart : Int) (rows : List (Row κ)) : Prop where
  sorted : Ascending rows
  within : ∀ r ∈ rows, hourStart ≤ r.ts ∧ r.ts < hourStart + hourMicros

variable {hourStart : Int} {rows : List (Row κ)}

theorem validateRows_ok (hour : InHour hourStart rows) (name : Side) :
    validateRowsWithinHour rows name hourStart (hourStart + hourMicros) = .ok () := by
  have none_outside : rows.find? (fun r => r.ts < hourStart ∨ hourStart + hourMicros ≤ r.ts) = none := by
    rw [List.find?_eq_none]
    intro r mem
    have within := hour.within r mem
    rw [decide_eq_true_eq]
    omega
  unfold validateRowsWithinHour
  rw [none_outside]

theorem messageTs_ok (hour : InHour hourStart rows) :
    messageTs rows = .ok (neighbours (stamps rows)) := by
  have sorted : (stamps rows).Pairwise (· ≤ ·) := List.pairwise_map.mpr hour.sorted
  unfold messageTs
  rw [firstDrop_none sorted]

theorem validateBounds_ok (aligned : hourStart % hourMicros = 0) :
    validateHourBounds hourStart (hourStart + hourMicros) = .ok () := by
  unfold validateHourBounds
  rw [if_neg (not_not.mpr aligned), if_neg (not_not.mpr rfl)]

theorem mem_messages (rows : List (Row κ)) (t : Int) :
    t ∈ neighbours (stamps rows) ↔ MessageOf rows t := by
  rw [mem_neighbours]
  exact List.mem_map

theorem onward_hour (hour : InHour hourStart rows) :
    Onward (MessageOf rows) (hourStart + hourMicros) hourStart false (neighbours (stamps rows)) := by
  refine ⟨neighbours_ascend (List.pairwise_map.mpr hour.sorted), ?_, ?_, nofun, ?_⟩
  · unfold hourMicros
    omega
  · intro m mem
    obtain ⟨r, row, same⟩ := (mem_messages rows m).mp mem
    rw [← same]
    exact hour.within r row
  · intro t _
    rw [mem_messages]
    simp

/-- The whole hour, both of whose edges are nobody's. -/
def wholeHour (seconds : Int → τ) (hourStart : Int) : Gap τ :=
  ⟨hourStart, hourStart + hourMicros, seconds (hourStart + hourMicros - hourStart), false, false⟩

/-- What a primary's silences are. -/
structure Silences (seconds : Int → τ) (minGapSeconds : τ) (hourStart : Int)
    (primary : List (Row κ)) (gaps : List (Gap τ)) : Prop where
  placed : Placed (MessageOf primary) none gaps
  windows : primary ≠ [] → ∀ gap, gap ∈ gaps ↔
    SilenceWindow seconds minGapSeconds (MessageOf primary) hourStart (hourStart + hourMicros) gap
  absent : primary = [] → gaps = [wholeHour seconds hourStart]

omit [LinearOrder τ] [Zero τ] in
theorem whole_bounded (seconds : Int → τ) (hourStart : Int) (empty : primary = []) :
    Bounded (MessageOf primary) (wholeHour seconds hourStart) := by
  have none_there : ∀ t, ¬ MessageOf primary t := by
    rintro t ⟨r, mem, _⟩
    rw [empty] at mem
    cases mem
  refine ⟨?_, fun t is_message => absurd is_message (none_there t), ?_, ?_⟩
  · simp only [wholeHour, hourMicros]
    omega
  · simp [wholeHour, none_there]
  · simp [wholeHour, none_there]

theorem primarySilence_ok (conversion : Conversion seconds) (nonneg : 0 ≤ minGapSeconds)
    (aligned : hourStart % hourMicros = 0) (hour : InHour hourStart primary) :
    ∃ gaps, primarySilence seconds minGapSeconds primary hourStart (hourStart + hourMicros) = .ok gaps ∧
      Silences seconds minGapSeconds hourStart primary gaps := by
  unfold primarySilence
  rw [validateBounds_ok aligned, validateRows_ok hour, messageTs_ok hour]
  by_cases empty : primary = []
  · subst empty
    exact ⟨[wholeHour seconds hourStart], rfl,
      ⟨nofun, whole_bounded seconds hourStart rfl, trivial⟩, fun some_row => absurd rfl some_row,
      fun _ => rfl⟩
  · have some_message : neighbours (stamps primary) ≠ [] := by
      obtain ⟨r, rest, same⟩ := List.exists_cons_of_ne_nil empty
      intro nothing
      have mem := (mem_messages primary r.ts).mpr (messageOf_mem (by rw [same]; exact List.mem_cons_self))
      rw [nothing] at mem
      cases mem
    have onward := onward_hour hour
    refine ⟨_, if_neg some_message, windows_placed conversion nonneg onward, fun _ gap => ⟨?_, ?_⟩,
      fun nothing => absurd nothing empty⟩
    · exact windows_silent conversion nonneg onward
    · intro window
      refine windows_complete onward window ?_
      rcases window.start with same | ⟨r, mem, same⟩
      · omega
      · have low := (hour.within r mem).1
        omega

theorem partitionGaps_ok (conversion : Conversion seconds) (nonneg : 0 ≤ minGapSeconds)
    (aligned : hourStart % hourMicros = 0) (primary_hour : InHour hourStart primary)
    (secondary_hour : InHour hourStart secondary) :
    ∃ gaps, Silences seconds minGapSeconds hourStart primary gaps ∧
      partitionGaps seconds minGapSeconds primary secondary hourStart (hourStart + hourMicros) =
        .ok (gaps.filter (secondaryCovers secondary),
          gaps.filter fun gap => !secondaryCovers secondary gap) := by
  obtain ⟨gaps, silence, silences⟩ := primarySilence_ok conversion nonneg aligned primary_hour
  refine ⟨gaps, silences, ?_⟩
  unfold partitionGaps
  rw [validateBounds_ok aligned, validateRows_ok secondary_hour, messageTs_ok secondary_hour, silence]
  simp only [bind, Except.bind, List.partition_eq_filter_filter]
  rfl

omit [LinearOrder τ] [Zero τ] in
theorem spliceBook_from (primary secondary : List (Row κ)) (gaps : List (Gap τ)) :
    spliceBook primary secondary gaps = spliceFrom primary secondary none gaps := by
  cases gaps with
  | nil => simp [spliceBook, spliceFrom, pastCursor]
  | cons gap rest => simp [spliceBook]

omit [LinearOrder τ] [Zero τ] in
theorem mem_splice (primary_sorted : Ascending primary) (secondary_sorted : Ascending secondary)
    (placed : Placed (MessageOf primary) none gaps) (r : Row κ) :
    r ∈ rowsOf (spliceBook primary secondary gaps) ↔
      r ∈ primary ∨ (r ∈ secondary ∧ ∃ gap ∈ gaps, inside gap r.ts = true) := by
  have first : rowsFrom .primary (spliceFrom primary secondary none gaps) =
      primary.filter fun r => pastCursor none r.ts := splice_primary primary_sorted placed
  have second := splice_secondary secondary_sorted placed
  have from_side : ∀ side, r ∈ rowsFrom side (spliceFrom primary secondary none gaps) ↔
      ∃ b ∈ spliceFrom primary secondary none gaps, b.source = side ∧ r ∈ b.frame := by
    intro side
    simp only [rowsFrom, rowsOf, List.mem_flatMap, List.mem_filter, decide_eq_true_eq, and_assoc]
  rw [spliceBook_from]
  constructor
  · intro mem
    obtain ⟨b, block_mem, row⟩ := List.mem_flatMap.mp mem
    cases side : b.source with
    | primary =>
      have there := (from_side .primary).mpr ⟨b, block_mem, side, row⟩
      rw [first] at there
      exact Or.inl (List.mem_filter.mp there).1
    | secondary =>
      have there := (from_side .secondary).mpr ⟨b, block_mem, side, row⟩
      rw [second] at there
      obtain ⟨of_secondary, within⟩ := List.mem_filter.mp there
      exact Or.inr ⟨of_secondary, List.any_eq_true.mp within⟩
  · rintro (mem | ⟨mem, within⟩)
    · have there : r ∈ rowsFrom .primary (spliceFrom primary secondary none gaps) := by
        rw [first]
        exact List.mem_filter.mpr ⟨mem, rfl⟩
      obtain ⟨b, block_mem, _, row⟩ := (from_side .primary).mp there
      exact List.mem_flatMap.mpr ⟨b, block_mem, row⟩
    · have there : r ∈ rowsFrom .secondary (spliceFrom primary secondary none gaps) := by
        rw [second]
        exact List.mem_filter.mpr ⟨mem, List.any_eq_true.mpr within⟩
      obtain ⟨b, block_mem, _, row⟩ := (from_side .secondary).mp there
      exact List.mem_flatMap.mpr ⟨b, block_mem, row⟩

/-- The nearest boundary at or before an instant. -/
theorem boundary_before (rows : List (Row κ)) {edge t : Int} (low : edge ≤ t) :
    ∃ a, (a = edge ∨ MessageOf rows a) ∧ a ≤ t ∧ edge ≤ a ∧
      ∀ m, MessageOf rows m → m ≤ t → m ≤ a := by
  induction rows with
  | nil => exact ⟨edge, Or.inl rfl, low, le_refl _, fun m ⟨_, mem, _⟩ => nomatch mem⟩
  | cons r rest ih =>
    obtain ⟨a, is_boundary, before, after, latest⟩ := ih
    by_cases later : r.ts ≤ t ∧ a < r.ts
    · refine ⟨r.ts, Or.inr ⟨r, List.mem_cons_self, rfl⟩, later.1, by omega, ?_⟩
      rintro m ⟨x, mem, rfl⟩ reached
      rcases List.mem_cons.mp mem with rfl | mem
      · exact le_refl _
      · have le := latest x.ts ⟨x, mem, rfl⟩ reached
        omega
    · refine ⟨a, ?_, before, after, ?_⟩
      · rcases is_boundary with same | ⟨x, mem, same⟩
        · exact Or.inl same
        · exact Or.inr ⟨x, List.mem_cons_of_mem _ mem, same⟩
      · rintro m ⟨x, mem, rfl⟩ reached
        rcases List.mem_cons.mp mem with rfl | mem
        · omega
        · exact latest x.ts ⟨x, mem, rfl⟩ reached

theorem boundary_after (rows : List (Row κ)) {edge t : Int} (high : t ≤ edge) :
    ∃ b, (b = edge ∨ MessageOf rows b) ∧ t ≤ b ∧ b ≤ edge ∧
      ∀ m, MessageOf rows m → t ≤ m → b ≤ m := by
  induction rows with
  | nil => exact ⟨edge, Or.inl rfl, high, le_refl _, fun m ⟨_, mem, _⟩ => nomatch mem⟩
  | cons r rest ih =>
    obtain ⟨b, is_boundary, after, before, earliest⟩ := ih
    by_cases sooner : t ≤ r.ts ∧ r.ts < b
    · refine ⟨r.ts, Or.inr ⟨r, List.mem_cons_self, rfl⟩, sooner.1, by omega, ?_⟩
      rintro m ⟨x, mem, rfl⟩ reached
      rcases List.mem_cons.mp mem with rfl | mem
      · exact le_refl _
      · have le := earliest x.ts ⟨x, mem, rfl⟩ reached
        omega
    · refine ⟨b, ?_, after, before, ?_⟩
      · rcases is_boundary with same | ⟨x, mem, same⟩
        · exact Or.inl same
        · exact Or.inr ⟨x, List.mem_cons_of_mem _ mem, same⟩
      · rintro m ⟨x, mem, rfl⟩ reached
        rcases List.mem_cons.mp mem with rfl | mem
        · omega
        · exact earliest x.ts ⟨x, mem, rfl⟩ reached

instance (rows : List (Row κ)) (t : Int) : Decidable (MessageOf rows t) :=
  inferInstanceAs (Decidable (∃ r ∈ rows, r.ts = t))

/-- A stamp that no primary message has, in a stretch without one that is wide enough, lies in one of the
    primary's silences. -/
theorem silence_around (conversion : Conversion seconds) (nonneg : 0 ≤ minGapSeconds)
    (silences : Silences seconds minGapSeconds hourStart primary gaps) {low high : Int}
    (after : low ≤ t) (before : t ≤ high) (from_start : hourStart ≤ low)
    (to_end : high ≤ hourStart + hourMicros) (other : ¬ MessageOf primary t)
    (apart : ∀ m, MessageOf primary m → ¬ (low < m ∧ m < high))
    (is_wide : minGapSeconds < seconds (high - low)) :
    ∃ gap ∈ gaps, inside gap t = true := by
  by_cases empty : primary = []
  · refine ⟨wholeHour seconds hourStart, by rw [silences.absent empty]; exact List.mem_cons_self, ?_⟩
    apply inside_of_apart (whole_bounded seconds hourStart empty) _ _ other
    · simp only [wholeHour]
      omega
    · simp only [wholeHour]
      omega
  · obtain ⟨a, a_boundary, a_before, _, latest⟩ :=
      boundary_before primary (show hourStart ≤ t by omega)
    obtain ⟨b, b_boundary, b_after, _, earliest⟩ :=
      boundary_after primary (show t ≤ hourStart + hourMicros by omega)
    -- the neighbouring boundaries lie outside the stretch
    have a_low : a ≤ low := by
      by_contra inner
      rcases a_boundary with same | is_message
      · omega
      · have not_inside := apart a is_message
        have same : a = t := by omega
        exact other (same ▸ is_message)
    have b_high : high ≤ b := by
      by_contra inner
      rcases b_boundary with same | is_message
      · omega
      · have not_inside := apart b is_message
        have same : b = t := by omega
        exact other (same ▸ is_message)
    have wider : seconds (high - low) ≤ seconds (b - a) := conversion.mono (by omega)
    have wide_window := lt_of_lt_of_le is_wide wider
    have ordered := wide_ordered conversion nonneg wide_window
    let gap : Gap τ := ⟨a, b, seconds (b - a), decide (MessageOf primary a), decide (MessageOf primary b)⟩
    have bounded : Bounded (MessageOf primary) gap := by
      refine ⟨?_, ?_, decide_eq_true_iff, decide_eq_true_iff⟩
      · simp only [gap]
        omega
      · rintro m is_message ⟨past, short⟩
        simp only [gap] at past short
        by_cases le : m ≤ t
        · have most := latest m is_message le
          omega
        · have least := earliest m is_message (by omega)
          omega
    refine ⟨gap, (silences.windows empty gap).mpr ⟨bounded, a_boundary, b_boundary, rfl, wide_window⟩,
      inside_of_apart bounded a_before b_after other⟩

omit [LinearOrder τ] [Zero τ] in
theorem splice_inHour (primary_hour : InHour hourStart primary)
    (secondary_hour : InHour hourStart secondary) (placed : Placed (MessageOf primary) none gaps) :
    InHour hourStart (rowsOf (spliceBook primary secondary gaps)) := by
  constructor
  · rw [spliceBook_from]
    exact (splice_sorted primary_hour.sorted secondary_hour.sorted placed).1
  · intro r mem
    rcases (mem_splice primary_hour.sorted secondary_hour.sorted placed r).mp mem with mem | ⟨mem, _⟩
    · exact primary_hour.within r mem
    · exact secondary_hour.within r mem

/-- The secondary witnesses nothing in the silences of the spliced hour. -/
theorem splice_unwitnessed (conversion : Conversion seconds) (nonneg : 0 ≤ minGapSeconds)
    (primary_hour : InHour hourStart primary) (secondary_hour : InHour hourStart secondary)
    (silences : Silences seconds minGapSeconds hourStart primary gaps) {left : List (Gap τ)}
    (spliced : Silences seconds minGapSeconds hourStart
      (rowsOf (spliceBook primary secondary (gaps.filter (secondaryCovers secondary)))) left)
    (mem : gap ∈ left) : secondaryCovers secondary gap = false := by
  have placed := placed_filter silences.placed (secondaryCovers secondary)
  have rows_are := mem_splice primary_hour.sorted secondary_hour.sorted placed
  have bounded := placed_bounded spliced.placed mem
  by_contra covered
  rw [Bool.not_eq_false] at covered
  obtain ⟨r, row, witness⟩ := List.any_eq_true.mp covered
  obtain ⟨within, update⟩ := Bool.and_eq_true_iff.mp witness
  obtain ⟨after, before, other⟩ := inside_apart bounded within
  have not_primary : ¬ MessageOf primary r.ts := by
    rintro ⟨x, x_mem, same⟩
    exact other ⟨x, (rows_are x).mpr (Or.inl x_mem), same⟩
  have apart : ∀ m, MessageOf primary m → ¬ (gap.start < m ∧ m < gap.stop) := by
    rintro m ⟨x, x_mem, same⟩
    exact bounded.apart m ⟨x, (rows_are x).mpr (Or.inl x_mem), same⟩
  -- a wide silence around the row, which then witnesses it, so that the splice took the row
  have taken : ∀ silent ∈ gaps, inside silent r.ts = true → False := by
    intro silent silent_mem within_silent
    have covers : secondaryCovers secondary silent = true :=
      List.any_eq_true.mpr ⟨r, row, Bool.and_eq_true_iff.mpr ⟨within_silent, update⟩⟩
    have kept := List.mem_filter.mpr ⟨silent_mem, covers⟩
    exact other ⟨r, (rows_are r).mpr (Or.inr ⟨row, silent, kept, within_silent⟩), rfl⟩
  have in_hour := secondary_hour.within r row
  by_cases empty : primary = []
  · have around : inside (wholeHour seconds hourStart) r.ts = true := by
      apply inside_of_apart (whole_bounded seconds hourStart empty) _ _ not_primary
      · exact in_hour.1
      · simp only [wholeHour]
        omega
    exact taken _ (by rw [silences.absent empty]; exact List.mem_cons_self) around
  · have some_row : rowsOf (spliceBook primary secondary
        (gaps.filter (secondaryCovers secondary))) ≠ [] := by
      obtain ⟨x, rest, same⟩ := List.exists_cons_of_ne_nil empty
      exact List.ne_nil_of_mem ((rows_are x).mpr (Or.inl (by rw [same]; exact List.mem_cons_self)))
    have window := (spliced.windows some_row gap).mp mem
    have spliced_hour := splice_inHour primary_hour secondary_hour placed
    have from_start : hourStart ≤ gap.start := by
      rcases window.start with same | ⟨x, x_mem, same⟩
      · omega
      · have low := (spliced_hour.within x x_mem).1
        omega
    have to_end : gap.stop ≤ hourStart + hourMicros := by
      rcases window.stop with same | ⟨x, x_mem, same⟩
      · omega
      · have high := (spliced_hour.within x x_mem).2
        omega
    have is_wide := window.wide
    rw [window.seconds] at is_wide
    obtain ⟨silent, silent_mem, within_silent⟩ := silence_around conversion nonneg silences after before
      from_start to_end not_primary apart is_wide
    exact taken silent silent_mem within_silent

theorem findBookGaps_splice (conversion : Conversion seconds) (nonneg : 0 ≤ minGapSeconds)
    (aligned : hourStart % hourMicros = 0) (primary_hour : InHour hourStart primary)
    (secondary_hour : InHour hourStart secondary)
    (silences : Silences seconds minGapSeconds hourStart primary gaps) :
    findBookGaps seconds minGapSeconds
        (rowsOf (spliceBook primary secondary (gaps.filter (secondaryCovers secondary)))) secondary
        hourStart (hourStart + hourMicros) = .ok [] := by
  have placed := placed_filter silences.placed (secondaryCovers secondary)
  have spliced_hour := splice_inHour primary_hour secondary_hour placed
  obtain ⟨left, spliced, parted⟩ := partitionGaps_ok conversion nonneg aligned spliced_hour secondary_hour
  have none_left : left.filter (secondaryCovers secondary) = [] := by
    rw [List.filter_eq_nil_iff]
    intro gap mem
    rw [splice_unwitnessed conversion nonneg primary_hour secondary_hour silences spliced mem]
    exact nofun
  unfold findBookGaps
  rw [parted, none_left]
  rfl

omit [LinearOrder τ] [Zero τ] in
theorem placed_nodup (placed : Placed message cursor gaps) : gaps.Nodup := by
  induction gaps generalizing cursor with
  | nil => exact List.nodup_nil
  | cons gap rest ih =>
    obtain ⟨_, bounded, later⟩ := placed
    refine List.nodup_cons.mpr ⟨?_, ih later⟩
    intro again
    have past := (placed_mem later again).1
    have ordered := bounded.ordered
    omega

/-- The splice of one hour is exact, and the primary's silences are parted between those the secondary
    witnessed and those it did not: the windows wider than the threshold, or the whole hour where the
    primary has no message. -/
theorem splice_exact (conversion : Conversion seconds) (nonneg : 0 ≤ minGapSeconds)
    (aligned : hourStart % hourMicros = 0) (primary_hour : InHour hourStart primary)
    (secondary_hour : InHour hourStart secondary) :
    ∃ witnessed blind,
      partitionGaps seconds minGapSeconds primary secondary hourStart (hourStart + hourMicros) =
        .ok (witnessed, blind) ∧
      rowsFrom .primary (spliceBook primary secondary witnessed) = primary ∧
      rowsFrom .secondary (spliceBook primary secondary witnessed) =
        (secondary.filter fun r => witnessed.any fun gap => inside gap r.ts) ∧
      (∀ b ∈ spliceBook primary secondary witnessed, ∀ r ∈ b.frame, MessageOf primary r.ts →
        b.source = .primary ∧
          (b.frame.filter fun x => x.ts = r.ts) = primary.filter fun x => x.ts = r.ts) ∧
      Ascending (rowsOf (spliceBook primary secondary witnessed)) ∧
      findBookGaps seconds minGapSeconds (rowsOf (spliceBook primary secondary witnessed)) secondary
        hourStart (hourStart + hourMicros) = .ok [] ∧
      (witnessed ++ blind).Nodup ∧
      (primary ≠ [] → ∀ gap, gap ∈ witnessed ++ blind ↔ SilenceWindow seconds minGapSeconds
        (MessageOf primary) hourStart (hourStart + hourMicros) gap) ∧
      (primary = [] → witnessed ++ blind = [wholeHour seconds hourStart]) := by
  obtain ⟨gaps, silences, parted⟩ := partitionGaps_ok conversion nonneg aligned primary_hour secondary_hour
  have placed := placed_filter silences.placed (secondaryCovers secondary)
  have halves := List.filter_append_perm (secondaryCovers secondary) gaps
  refine ⟨_, _, parted, ?_, ?_, ?_, ?_, ?_, ?_, ?_, ?_⟩
  · rw [spliceBook_from, splice_primary primary_hour.sorted placed]
    simp [pastCursor]
  · rw [spliceBook_from, splice_secondary secondary_hour.sorted placed]
  · intro b mem r row is_message
    rw [spliceBook_from] at mem
    exact splice_message placed mem row is_message
  · rw [spliceBook_from]
    exact (splice_sorted primary_hour.sorted secondary_hour.sorted placed).1
  · exact findBookGaps_splice conversion nonneg aligned primary_hour secondary_hour silences
  · exact halves.nodup_iff.mpr (placed_nodup silences.placed)
  · intro some_row gap
    rw [halves.mem_iff]
    exact silences.windows some_row gap
  · intro empty
    rw [silences.absent empty] at halves ⊢
    exact List.perm_singleton.mp halves

end

/- Two hosts, an hour after the epoch. -/

def exactSeconds (micros : Int) : ℚ := micros / 1000000

theorem exact_conversion : Conversion exactSeconds := by
  constructor
  · intro a b le
    unfold exactSeconds
    gcongr
  · simp [exactSeconds]

def loneUpdate : List (Row Unit) := [⟨1800000000, "update", ()⟩]

def hourEdges : List (Row Unit) := [⟨0, "snapshot", ()⟩, ⟨3599000000, "update", ()⟩]

theorem hourEdges_splice_exact :
    ∃ witnessed blind,
      partitionGaps exactSeconds 30 hourEdges loneUpdate 0 (0 + hourMicros) = .ok (witnessed, blind) ∧
      rowsFrom .primary (spliceBook hourEdges loneUpdate witnessed) = hourEdges ∧
      rowsFrom .secondary (spliceBook hourEdges loneUpdate witnessed) =
        (loneUpdate.filter fun r => witnessed.any fun gap => inside gap r.ts) ∧
      (∀ b ∈ spliceBook hourEdges loneUpdate witnessed, ∀ r ∈ b.frame, MessageOf hourEdges r.ts →
        b.source = .primary ∧
          (b.frame.filter fun x => x.ts = r.ts) = hourEdges.filter fun x => x.ts = r.ts) ∧
      Ascending (rowsOf (spliceBook hourEdges loneUpdate witnessed)) ∧
      findBookGaps exactSeconds 30 (rowsOf (spliceBook hourEdges loneUpdate witnessed)) loneUpdate
        0 (0 + hourMicros) = .ok [] ∧
      (witnessed ++ blind).Nodup ∧
      (hourEdges ≠ [] → ∀ gap, gap ∈ witnessed ++ blind ↔ SilenceWindow exactSeconds 30
        (MessageOf hourEdges) 0 (0 + hourMicros) gap) ∧
      (hourEdges = [] → witnessed ++ blind = [wholeHour exactSeconds 0]) := by
  have edges_hour : InHour 0 hourEdges := ⟨by simp [Ascending, hourEdges], by decide⟩
  have update_hour : InHour 0 loneUpdate := ⟨by simp [Ascending, loneUpdate], by decide⟩
  exact splice_exact exact_conversion (by norm_num) (by decide) edges_hour update_hour

/-- A primary without a message is a gap even where the whole hour is no wider than the threshold. -/
theorem absent_primary_not_wide :
    partitionGaps exactSeconds 3600 [] loneUpdate 0 hourMicros =
        .ok ([wholeHour exactSeconds 0], []) ∧
      ¬ (3600 : ℚ) < (wholeHour exactSeconds 0).seconds := by
  decide +kernel

end Archive
