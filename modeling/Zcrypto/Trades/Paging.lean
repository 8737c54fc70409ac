import Zcrypto.Trades.Accounting

/- The paging of one fetch against an endpoint that holds a tape: a cursor is answered with the first rows at
   or after it, and the next cursor is the page's last instant. The endpoint's times are in nanoseconds, a
   row's stamp is cut to microseconds, and the first cursor is a whole second. -/
namespace Trades
open Keyed

/-- A trade as the endpoint holds it. -/
structure Printed where
  tradeId : Int
  time : Int
  cells : String
  deriving DecidableEq, Repr

def Printed.row (t : Printed) : Trade := ⟨t.tradeId, t.time / 1000, t.cells⟩

/-- Ids ascend, times do not fall, and they count from the epoch. -/
structure Tape where
  trades : List Printed
  ids : trades.Pairwise fun a b => a.tradeId < b.tradeId
  times : trades.Pairwise fun a b => a.time ≤ b.time
  epoch : ∀ t ∈ trades, 0 ≤ t.time

def firstCursor (since : Int) : Int := since.tdiv 1000000 * 1000000000

/-- The rows that a cursor is answered with. -/
def endpoint (trades : List Printed) (cursor : Int) : List Printed :=
  (trades.filter fun t => cursor ≤ t.time).take pageRows

/-- The answers to so many requests, each made at the last instant of the page before. -/
def requests (trades : List Printed) : Nat → Int → List Answer
  | 0, _ => []
  | n + 1, cursor => .page ((endpoint trades cursor).map Printed.row) ::
    match (endpoint trades cursor).getLast? with
    | some final => requests trades n final.time
    | none => []

/-- A time between the bounds, both inclusive. -/
def InRange (since : Int) (till : Option Int) (t : Printed) : Prop :=
  since * 1000 ≤ t.time ∧ ∀ u ∈ till, t.time ≤ u * 1000

/-- The place of the first that is not before an instant. -/
def placeOf (l : List Printed) (time : Int) : Nat := l.findIdx fun t => time ≤ t.time

/-- Page after page: from a page's place to that of its last row's instant. -/
inductive Leads (l : List Printed) : Nat → Nat → Prop where
  | here (i : Nat) : Leads l i i
  | next {i j : Nat} {t : Printed} : l[i + (pageRows - 1)]? = some t → Leads l (placeOf l t.time) j → Leads l i j

/-- A whole page that ends at or past the bound, or that lies in one instant. -/
def Stops (till : Option Int) (l : List Printed) (i : Nat) : Prop :=
  ∃ t, l[i + (pageRows - 1)]? = some t ∧
    ((∃ u ∈ till, u ≤ t.time / 1000) ∨ ∃ first, l[i]? = some first ∧ first.time = t.time)

/-- The tape from the first cursor on. -/
def fromCursor (trades : List Printed) (since : Int) : List Printed :=
  trades.filter fun t => firstCursor since ≤ t.time

/-- No page that stops the paging has a trade in range behind it. -/
def Covered (trades : List Printed) (since : Int) (till : Option Int) : Prop :=
  ∀ i, Leads (fromCursor trades since) 0 i → Stops till (fromCursor trades since) i →
    ∀ t ∈ (fromCursor trades since).drop (i + pageRows), ¬ InRange since till t

section
variable {l : List Printed} {till : Option Int} {i j k : Nat} {c c' : Int} {t u : Printed}

/- Places. -/

theorem filter_drop (ordered : l.Pairwise fun a b => a.time ≤ b.time) (c : Int) :
    (l.filter fun t => c ≤ t.time) = l.drop (placeOf l c) := by
  induction l with
  | nil => rfl
  | cons t rest ih =>
    obtain ⟨least, ordered⟩ := List.pairwise_cons.mp ordered
    unfold placeOf
    rw [List.findIdx_cons]
    by_cases reached : c ≤ t.time
    · have all : ∀ u ∈ t :: rest, c ≤ u.time := by
        intro u mem
        rcases List.mem_cons.mp mem with rfl | later
        · exact reached
        · exact reached.trans (least u later)
      rw [decide_eq_true reached, cond_true, List.drop_zero]
      exact List.filter_eq_self.mpr fun u mem => decide_eq_true (all u mem)
    · rw [decide_eq_false reached, cond_false, List.drop_succ_cons,
        List.filter_cons_of_neg (by simpa using reached), ih ordered]
      rfl

theorem placeOf_le (reached : l[i]? = some t) (le : c ≤ t.time) : placeOf l c ≤ i := by
  obtain ⟨less, rfl⟩ := List.getElem?_eq_some_iff.mp reached
  by_contra beyond
  have out := List.not_of_lt_findIdx (not_le.mp beyond)
  rw [decide_eq_true le] at out
  cases out

theorem placeOf_mono (le : c ≤ c') : placeOf l c ≤ placeOf l c' :=
  List.findIdx_le_findIdx fun _ _ reached => decide_eq_true (le.trans (of_decide_eq_true reached))

theorem placeOf_reached (less : placeOf l c < l.length) : c ≤ l[placeOf l c].time :=
  of_decide_eq_true (List.findIdx_getElem (w := less))

theorem time_mono (ordered : l.Pairwise fun a b => a.time ≤ b.time) (at_ : l[i]? = some t) (at' : l[j]? = some u)
    (le : i ≤ j) : t.time ≤ u.time := by
  obtain ⟨less, rfl⟩ := List.getElem?_eq_some_iff.mp at_
  obtain ⟨less', rfl⟩ := List.getElem?_eq_some_iff.mp at'
  rcases Nat.lt_or_eq_of_le le with before | rfl
  · exact List.pairwise_iff_getElem.mp ordered i j less less' before
  · exact le_rfl

/-- A page's last row is not before the cursor that asked for it. -/
theorem cursor_le (ordered : l.Pairwise fun a b => a.time ≤ b.time)
    (last : l[placeOf l c + k]? = some t) : c ≤ t.time := by
  have less : placeOf l c < l.length := by
    have within := (List.getElem?_eq_some_iff.mp last).1
    omega
  exact (placeOf_reached less).trans
    (time_mono ordered (List.getElem?_eq_getElem less) last (Nat.le_add_right _ _))

theorem Leads.le (ordered : l.Pairwise fun a b => a.time ≤ b.time) (leads : Leads l i j) (place : placeOf l c = i) :
    i ≤ j := by
  induction leads generalizing c with
  | here i => exact le_rfl
  | next last _ ih =>
    subst place
    exact (placeOf_mono (cursor_le ordered last)).trans (ih rfl)

/- Rows. -/

theorem mem_fetched {frames : List Trade}
    (rows : ∀ row, row ∈ frames ↔ ∃ t ∈ l.take k, t.row = row) (ids : l.Pairwise fun a b => a.tradeId < b.tradeId) :
    fetched frames = (l.take k).map Printed.row := by
  have taken : (l.take k).Pairwise fun a b => a.tradeId < b.tradeId := ids.sublist (List.take_sublist _ _)
  have alone : ∀ x ∈ frames, ∀ y ∈ frames, x.tradeId = y.tradeId → x = y := by
    intro x memX y memY same
    obtain ⟨t, inT, rfl⟩ := (rows x).mp memX
    obtain ⟨u, inU, rfl⟩ := (rows y).mp memY
    have distinct : ((l.take k).map Printed.tradeId).Nodup :=
      List.pairwise_map.mpr (taken.imp fun less => ne_of_lt less)
    rw [List.inj_on_of_nodup_map distinct inT inU same]
  have member : ∀ x, x ∈ fetched frames ↔ x ∈ (l.take k).map Printed.row := by
    intro x
    unfold fetched
    rw [mem_arrange, List.mem_map, ← rows]
    constructor
    · exact fun mem => firsts_sublist.subset mem
    · intro mem
      obtain ⟨y, first, same⟩ := mem_ids.mp (ids_firsts.mpr (mem_ids.mpr ⟨x, mem, rfl⟩))
      rw [← alone y (firsts_sublist.subset first) x mem same]
      exact first
  have up : (fetched frames).Pairwise fun a b => a.tradeId < b.tradeId := distinct_firsts.ascending
  have up' : ((l.take k).map Printed.row).Pairwise fun a b => a.tradeId < b.tradeId := List.pairwise_map.mpr taken
  have nodup : ∀ {xs : List Trade}, (xs.Pairwise fun a b => a.tradeId < b.tradeId) → xs.Nodup := fun up =>
    up.imp fun {a b} less same => by rw [same] at less; exact lt_irrefl _ less
  refine List.Perm.eq_of_pairwise ?_ up up'
    ((List.perm_ext_iff_of_nodup (nodup up) (nodup up')).mpr member)
  exact fun a b _ _ less more => absurd less (lt_asymm more)

/-- Of rows whose figure does not fall the last has the highest. -/
theorem max_last {f : Printed → Int} {page : List Printed} (ordered : page.Pairwise fun a b => f a ≤ f b)
    (last : page.getLast? = some t) : (page.map f).max? = some (f t) := by
  obtain ⟨before, rfl⟩ := List.getLast?_eq_some_iff.mp last
  refine List.max?_eq_some_iff.mpr ⟨by simp, fun x mem => ?_⟩
  obtain ⟨u, there, rfl⟩ := List.mem_map.mp mem
  rcases List.mem_append.mp there with earlier | same
  · exact (List.pairwise_append.mp ordered).2.2 u earlier t (List.mem_singleton.mpr rfl)
  · rw [List.mem_singleton.mp same]

/- Where the paging ends. -/

/-- So many rows are read: all, or those up to a page that stops the paging, and never more. -/
structure Ends (till : Option Int) (l : List Printed) (i K : Nat) : Prop where
  stop : K = l.length ∨ ∃ j, Leads l i j ∧ Stops till l j ∧ K = j + pageRows
  least : ∀ j, Leads l i j → Stops till l j → K ≤ j + pageRows

theorem Stops.within (stops : Stops till l i) : i + pageRows ≤ l.length := by
  obtain ⟨t, last, -⟩ := stops
  have less := (List.getElem?_eq_some_iff.mp last).1
  unfold pageRows at *
  omega

/-- The page of a place. -/
def pageAt (l : List Printed) (i : Nat) : List Printed := (l.drop i).take pageRows

theorem pageAt_last (within : i < l.length) :
    (pageAt l i).length = min pageRows (l.length - i) ∧
      (pageAt l i).getLast? = l[min (i + pageRows) l.length - 1]? := by
  have length : (pageAt l i).length = min pageRows (l.length - i) := by
    unfold pageAt
    rw [List.length_take, List.length_drop]
  refine ⟨length, ?_⟩
  have rows : 0 < pageRows := by decide
  rw [List.getLast?_eq_getElem?, length]
  unfold pageAt
  rw [List.getElem?_take_of_lt (by omega), List.getElem?_drop]
  congr 1
  omega

theorem take_page (le : k ≤ i + pageRows) (from_ : i ≤ k) :
    ∀ t, t ∈ l.take k ∨ t ∈ pageAt l i ↔ t ∈ l.take (i + pageRows) := by
  intro t
  have split : l.take (i + pageRows) = l.take i ++ pageAt l i := List.take_add
  rw [split, List.mem_append]
  constructor
  · rintro (old | new)
    · have inside : t ∈ l.take (i + pageRows) := (List.take_subset_take_left l le) old
      rw [split] at inside
      exact List.mem_append.mp inside
    · exact .inr new
  · rintro (old | new)
    · exact .inl ((List.take_subset_take_left l from_) old)
    · exact .inr new

/-- What is known before a request: the rows so far, the cursor at the last one's instant, and the page it asks
    for not all behind them. -/
structure Paging (l : List Printed) (c : Int) (k : Nat) (seen : Option Int) (frames : List Trade) : Prop where
  rows : ∀ row, row ∈ frames ↔ ∃ t ∈ l.take k, t.row = row
  fresh : k = 0 → seen = none ∧ placeOf l c = 0
  known : 0 < k → ∃ t, l[k - 1]? = some t ∧ seen = some t.tradeId ∧ t.time = c
  ahead : k ≤ placeOf l c + pageRows ∧ placeOf l c ≤ k

theorem any_iff {o : Option Int} {p : Int → Prop} [DecidablePred p] : o.any (fun x => p x) = true ↔ ∃ x ∈ o, p x := by
  cases o with
  | none => simp
  | some x => simp

theorem fetch_page {frames rows : List Trade} {rest : List Answer} {seen : Option Int} {pageMax newest : Int}
    (highest : (ids rows).max? = some pageMax) (latest : (rows.map Trade.ts).max? = some newest) :
    fetchTrades till seen frames (.page rows :: rest) =
      if seen.any (pageMax ≤ ·) then some (fetched frames)
      else if till.any (· ≤ newest) then some (fetched (frames ++ rows))
      else if rows.length < pageRows then some (fetched (frames ++ rows))
      else fetchTrades till (some pageMax) (frames ++ rows) rest := by
  rw [fetchTrades, highest, latest]

section
variable {final : Printed} {frames : List Trade} {seen : Option Int} {e K : Nat}

theorem id_lt (ids_ : l.Pairwise fun a b => a.tradeId < b.tradeId) (at_ : l[i]? = some t) (at' : l[j]? = some u)
    (less : i < j) : t.tradeId < u.tradeId := by
  obtain ⟨h, rfl⟩ := List.getElem?_eq_some_iff.mp at_
  obtain ⟨h', rfl⟩ := List.getElem?_eq_some_iff.mp at'
  exact List.pairwise_iff_getElem.mp ids_ i j h h' less

/-- A page that brings nothing new is the tape's end or lies in the instant of the cursor. -/
theorem Paging.stuck (ordered : l.Pairwise fun a b => a.time ≤ b.time)
    (ids_ : l.Pairwise fun a b => a.tradeId < b.tradeId) (paging : Paging l c k seen frames)
    (within : placeOf l c < l.length) (is_e : e = min (placeOf l c + pageRows) l.length - 1)
    (is_final : l[e]? = some final) (stuck : ∃ s ∈ seen, final.tradeId ≤ s) : Ends till l (placeOf l c) k := by
  obtain ⟨s, is_seen, under⟩ := stuck
  obtain ⟨ahead, -⟩ := paging.ahead
  have pos : 0 < k := by
    rcases Nat.eq_zero_or_pos k with zero | pos
    · rw [(paging.fresh zero).1] at is_seen
      cases is_seen
    · exact pos
  obtain ⟨t, at_, seen_t, time⟩ := paging.known pos
  obtain rfl := Option.some.inj (is_seen.symm.trans seen_t)
  have in_l := (List.getElem?_eq_some_iff.mp at_).1
  have old : e ≤ k - 1 := by
    by_contra beyond
    have less := id_lt ids_ at_ is_final (not_le.mp beyond)
    omega
  refine ⟨?_, fun j leads _ => by have := leads.le ordered rfl; omega⟩
  by_cases whole : placeOf l c + pageRows ≤ l.length
  · right
    have rows : 0 < pageRows := by decide
    have full : k = placeOf l c + pageRows := by omega
    have first := placeOf_reached within
    have after := time_mono ordered (List.getElem?_eq_getElem within) at_ (by omega)
    refine ⟨_, .here _, ⟨t, ?_, .inr ⟨_, List.getElem?_eq_getElem within, by omega⟩⟩, full⟩
    rw [← at_]
    congr 1
    omega
  · left
    omega

/-- A page that is the last, or that stops the paging, ends it. -/
theorem Ends.last (ordered : l.Pairwise fun a b => a.time ≤ b.time)
    (stops : placeOf l c + pageRows ≤ l.length → Stops till l (placeOf l c)) :
    Ends till l (placeOf l c) (min (placeOf l c + pageRows) l.length) := by
  refine ⟨?_, fun j leads _ => by have := leads.le ordered rfl; omega⟩
  by_cases whole : placeOf l c + pageRows ≤ l.length
  · exact .inr ⟨_, .here _, stops whole, Nat.min_eq_left whole⟩
  · exact .inl (Nat.min_eq_right (by omega))

/-- A whole page before the bound leaves the end to the next page. -/
theorem Ends.next (ordered : l.Pairwise fun a b => a.time ≤ b.time)
    (page_last : l[placeOf l c + (pageRows - 1)]? = some final) (before : ¬ ∃ u ∈ till, u ≤ final.time / 1000)
    (ends : Ends till l (placeOf l final.time) K) : Ends till l (placeOf l c) K := by
  constructor
  · rcases ends.stop with all | ⟨j, leads, stops, at_⟩
    · exact .inl all
    · exact .inr ⟨j, .next page_last leads, stops, at_⟩
  · intro j leads stops
    cases leads with
    | here =>
      obtain ⟨t, at_, why⟩ := id stops
      obtain rfl := Option.some.inj (page_last.symm.trans at_)
      rcases why with reaches | ⟨first, is_first, same⟩
      · exact absurd reaches before
      · -- the next page is this one again
        have again : placeOf l final.time = placeOf l c :=
          le_antisymm (placeOf_le is_first same.ge) (placeOf_mono (cursor_le ordered page_last))
        rw [again] at ends
        exact ends.least _ (.here _) stops
    | next at_ leads =>
      obtain rfl := Option.some.inj (page_last.symm.trans at_)
      exact ends.least j leads stops

/-- The rows with a page more. -/
theorem Paging.rows_page (paging : Paging l c k seen frames) (row : Trade) :
    row ∈ frames ++ (pageAt l (placeOf l c)).map Printed.row ↔
      ∃ t ∈ l.take (placeOf l c + pageRows), t.row = row := by
  obtain ⟨ahead, behind⟩ := paging.ahead
  rw [List.mem_append, paging.rows, List.mem_map]
  simp only [← take_page ahead behind, or_and_right, exists_or]

theorem Paging.next (ordered : l.Pairwise fun a b => a.time ≤ b.time) (paging : Paging l c k seen frames)
    (page_last : l[placeOf l c + (pageRows - 1)]? = some final) :
    Paging l final.time (placeOf l c + pageRows) (some final.tradeId)
      (frames ++ (pageAt l (placeOf l c)).map Printed.row) := by
  have rows : 0 < pageRows := by decide
  have place_mono := placeOf_mono (l := l) (cursor_le ordered page_last)
  have place_le := placeOf_le page_last le_rfl
  refine ⟨paging.rows_page, fun zero => by omega, fun _ => ⟨final, ?_, rfl, rfl⟩, by omega, by omega⟩
  rw [← page_last]
  congr 1

theorem pages_end {tape : List Printed} (ordered : l.Pairwise fun a b => a.time ≤ b.time)
    (ids_ : l.Pairwise fun a b => a.tradeId < b.tradeId)
    (served : ∀ c', c ≤ c' → (tape.filter fun t => c' ≤ t.time) = l.filter fun t => c' ≤ t.time)
    (paging : Paging l c k seen frames) :
    ∃ K, Ends till l (placeOf l c) K ∧ ∀ n, l.length - k < n →
      fetchTrades till seen frames (requests tape n c) = some ((l.take K).map Printed.row) := by
  obtain ⟨left, same⟩ : ∃ left, left = l.length - k := ⟨_, rfl⟩
  -- each request that is followed by another brings rows that are new
  induction left using Nat.strong_induction_on generalizing c k seen frames with
  | _ left ih =>
    have rows : 0 < pageRows := by decide
    have answer : endpoint tape c = pageAt l (placeOf l c) := by
      unfold endpoint pageAt
      rw [served c le_rfl, filter_drop ordered]
    have request : ∀ n, 0 < n → requests tape n c = .page ((pageAt l (placeOf l c)).map Printed.row) ::
        match (pageAt l (placeOf l c)).getLast? with
        | some final => requests tape (n - 1) final.time
        | none => [] := by
      intro n pos
      obtain ⟨m, rfl⟩ := Nat.exists_eq_succ_of_ne_zero pos.ne'
      rw [requests, answer]
      rfl
    by_cases within : placeOf l c < l.length
    · obtain ⟨length, last⟩ := pageAt_last within
      obtain ⟨e, is_e⟩ : ∃ e, e = min (placeOf l c + pageRows) l.length - 1 := ⟨_, rfl⟩
      rw [← is_e] at last
      obtain ⟨final, is_final⟩ : ∃ final, l[e]? = some final :=
        ⟨_, List.getElem?_eq_getElem (show e < l.length by omega)⟩
      rw [is_final] at last
      have page_sub : (pageAt l (placeOf l c)).Sublist l := (List.take_sublist _ _).trans (List.drop_sublist _ _)
      have highest : (ids ((pageAt l (placeOf l c)).map Printed.row)).max? = some final.tradeId := by
        have all := max_last (f := Printed.tradeId) ((ids_.sublist page_sub).imp fun less => le_of_lt less) last
        unfold ids
        rw [List.map_map]
        exact all
      have latest : (((pageAt l (placeOf l c)).map Printed.row).map Trade.ts).max? = some (final.time / 1000) := by
        have all := max_last (f := fun t => t.time / 1000)
          ((ordered.sublist page_sub).imp fun le => Int.ediv_le_ediv (by decide) le) last
        rw [List.map_map]
        exact all
      have step : ∀ n, 0 < n → fetchTrades till seen frames (requests tape n c) =
          if seen.any (final.tradeId ≤ ·) then some (fetched frames)
          else if till.any (· ≤ final.time / 1000) then
            some (fetched (frames ++ (pageAt l (placeOf l c)).map Printed.row))
          else if ((pageAt l (placeOf l c)).map Printed.row).length < pageRows then
            some (fetched (frames ++ (pageAt l (placeOf l c)).map Printed.row))
          else fetchTrades till (some final.tradeId) (frames ++ (pageAt l (placeOf l c)).map Printed.row)
            (requests tape (n - 1) final.time) := by
        intro n pos
        rw [request n pos, last]
        exact fetch_page highest latest
      have page_last : placeOf l c + pageRows ≤ l.length → l[placeOf l c + (pageRows - 1)]? = some final := by
        intro whole
        rw [← is_final]
        congr 1
        omega
      by_cases stuck : seen.any (final.tradeId ≤ ·) = true
      · refine ⟨k, paging.stuck ordered ids_ within is_e is_final (any_iff.mp stuck), fun n more => ?_⟩
        rw [step n (by omega), if_pos stuck, mem_fetched paging.rows ids_]
      have new : k ≤ e := by
        rcases Nat.eq_zero_or_pos k with zero | pos
        · omega
        · obtain ⟨t, at_, seen_t, -⟩ := paging.known pos
          by_contra old
          refine stuck (any_iff.mpr ⟨_, seen_t, ?_⟩)
          rcases Nat.lt_or_eq_of_le (show e ≤ k - 1 by omega) with before | here
          · exact (id_lt ids_ is_final at_ before).le
          · rw [here, at_] at is_final
            exact (congrArg Printed.tradeId (Option.some.inj is_final)).ge
      by_cases reaches : till.any (· ≤ final.time / 1000) = true
      · refine ⟨_, .last ordered fun whole => ⟨final, page_last whole, .inl (any_iff.mp reaches)⟩, fun n more => ?_⟩
        rw [step n (by omega), if_neg stuck, if_pos reaches, mem_fetched paging.rows_page ids_,
          ← List.take_eq_take_min]
      by_cases short : (pageAt l (placeOf l c)).length < pageRows
      · refine ⟨_, .last ordered fun whole => by omega, fun n more => ?_⟩
        rw [step n (by omega), if_neg stuck, if_neg reaches, List.length_map, if_pos short,
          mem_fetched paging.rows_page ids_, ← List.take_eq_take_min]
      have whole := page_last (by omega)
      obtain ⟨K, ends, done⟩ := ih (l.length - (placeOf l c + pageRows)) (by omega)
        (fun c' le => served c' ((cursor_le ordered whole).trans le)) (paging.next ordered whole) rfl
      refine ⟨K, .next ordered whole (fun beyond => reaches (any_iff.mpr beyond)) ends, fun n more => ?_⟩
      rw [step n (by omega), if_neg stuck, if_neg reaches, List.length_map, if_neg short]
      exact done (n - 1) (by omega)
    · -- nothing is there, and nothing was
      have none : pageAt l (placeOf l c) = [] := by
        unfold pageAt
        rw [List.drop_eq_nil_of_le (not_lt.mp within), List.take_nil]
      have empty : l.length = 0 := by
        rcases Nat.eq_zero_or_pos k with zero | pos
        · have start := (paging.fresh zero).2
          omega
        · obtain ⟨t, at_, -, time⟩ := paging.known pos
          have inside := placeOf_le at_ time.ge
          have less := (List.getElem?_eq_some_iff.mp at_).1
          omega
      refine ⟨l.length, ⟨.inl rfl, fun j _ stops => by have := stops.within; omega⟩, fun n pos => ?_⟩
      have all := mem_fetched paging.rows ids_
      have nil : l = [] := List.length_eq_zero_iff.mp empty
      rw [request n (by omega), none]
      subst nil
      simp only [List.take_nil, List.map_nil] at all ⊢
      simp [fetchTrades, all, ids]

end

/-- A fetch ends with the rows of the tape from its cursor up to where the paging ends. -/
theorem fetch_pages (tape : Tape) (since : Int) (till : Option Int) :
    ∃ K, Ends till (fromCursor tape.trades since) 0 K ∧ ∀ n, (fromCursor tape.trades since).length < n →
      fetchTrades till none [] (requests tape.trades n (firstCursor since)) =
        some (((fromCursor tape.trades since).take K).map Printed.row) := by
  have ordered : (fromCursor tape.trades since).Pairwise fun a b => a.time ≤ b.time := tape.times.filter _
  have start : placeOf (fromCursor tape.trades since) (firstCursor since) = 0 := by
    have kept := filter_drop ordered (firstCursor since)
    unfold fromCursor at kept ⊢
    rw [List.filter_filter] at kept
    simp only [Bool.and_self] at kept
    have length := congrArg List.length kept
    rw [List.length_drop] at length
    cases first : tape.trades.filter fun t => firstCursor since ≤ t.time with
    | nil => rfl
    | cons t rest =>
      have mem : t ∈ tape.trades.filter fun t => firstCursor since ≤ t.time := by rw [first]; exact List.mem_cons_self
      exact Nat.le_zero.mp (placeOf_le (by rfl) (of_decide_eq_true (List.mem_filter.mp mem).2))
  have served : ∀ c', firstCursor since ≤ c' → (tape.trades.filter fun t => c' ≤ t.time) =
      (fromCursor tape.trades since).filter fun t => c' ≤ t.time := by
    intro c' le
    unfold fromCursor
    rw [List.filter_filter]
    refine List.filter_congr fun t _ => ?_
    by_cases reached : c' ≤ t.time
    · simp [reached, le.trans reached]
    · simp [reached]
  have begun : Paging (fromCursor tape.trades since) (firstCursor since) 0 none [] :=
    Paging.mk (by simp) (fun _ => ⟨rfl, start⟩) (fun pos => absurd pos (lt_irrefl 0)) ⟨Nat.zero_le _, start.le⟩
  obtain ⟨K, ends, done⟩ := pages_end ordered (tape.ids.filter _) served begun
  rw [start] at ends
  exact ⟨K, ends, fun n more => done n (by omega)⟩

/-- The first cursor is not past the lower bound. -/
theorem firstCursor_le (tape : Tape) {since : Int} (mem : t ∈ tape.trades) (from_ : since * 1000 ≤ t.time) :
    firstCursor since ≤ t.time := by
  have epoch := tape.epoch t mem
  unfold firstCursor
  rcases le_total 0 since with up | down
  · rw [Int.tdiv_eq_ediv_of_nonneg up]
    omega
  · have low : 0 ≤ (-since).tdiv 1000000 := Int.tdiv_nonneg (Int.neg_nonneg_of_nonpos down) (by decide)
    rw [Int.neg_tdiv] at low
    omega

/-- A trade behind where the paging ends is not among the rows. -/
theorem behind_lost {l : List Printed} {K : Nat} (ids_ : l.Pairwise fun a b => a.tradeId < b.tradeId)
    (mem : t ∈ l.drop K) : t.row ∉ (l.take K).map Printed.row := by
  intro there
  obtain ⟨u, first, same⟩ := List.mem_map.mp there
  rw [← List.take_append_drop K l] at ids_
  have less := (List.pairwise_append.mp ids_).2.2 u first t mem
  have same := congrArg Trade.tradeId same
  change u.tradeId = t.tradeId at same
  omega

end

/-- So many trades of one instant. -/
def burst (count : Nat) : Tape where
  trades := (List.range count).map fun (i : Nat) => ⟨i, 0, ""⟩
  ids := List.pairwise_map.mpr (List.pairwise_lt_range.imp fun less => Int.ofNat_lt.mpr less)
  times := List.pairwise_map.mpr (List.pairwise_lt_range.imp fun _ => le_rfl)
  epoch := by simp

theorem burst_from (count : Nat) : fromCursor (burst count).trades 0 = (burst count).trades := by
  refine List.filter_eq_self.mpr fun t there => ?_
  obtain ⟨i, -, rfl⟩ := List.mem_map.mp there
  rfl

theorem burst_at {count i : Nat} (less : i < count) : (burst count).trades[i]? = some ⟨i, 0, ""⟩ := by
  unfold burst
  rw [List.getElem?_map, List.getElem?_range less]
  rfl

/-- A fetch from the first instant on ends without a trade of the burst that is in range. -/
def BurstLoses (till : Option Int) : Prop := ∃ enough rows,
  (∀ n ≥ enough, fetchTrades till none [] (requests (burst 1001).trades n (firstCursor 0)) = some rows) ∧
  ∃ t ∈ (burst 1001).trades, InRange 0 till t ∧ t.row ∉ rows

theorem burst_behind {till : Option Int} (late : ∀ u ∈ till, 0 ≤ u * 1000) : BurstLoses till := by
  obtain ⟨K, ends, done⟩ := fetch_pages (burst 1001) 0 till
  have stops : Stops till (burst 1001).trades 0 :=
    ⟨_, burst_at (by omega : 999 < 1001), .inr ⟨_, burst_at (by omega : 0 < 1001), rfl⟩⟩
  rw [burst_from] at ends done
  have least := ends.least 0 (.here 0) stops
  have last : (⟨1000, 0, ""⟩ : Printed) ∈ (burst 1001).trades.drop K := by
    refine List.mem_iff_getElem?.mpr ⟨1000 - K, ?_⟩
    unfold pageRows at least
    have place : K + (1000 - K) = 1000 := by omega
    rw [List.getElem?_drop, place]
    exact burst_at (by omega : 1000 < 1001)
  exact ⟨_, _, fun n more => done n more, _, List.mem_of_mem_drop last, ⟨le_rfl, late⟩, behind_lost (burst 1001).ids last⟩

end Trades
