import Zcrypto.Panel.FillHour
import Zcrypto.Panel.FillRun

/- What a run makes of the orders it posts: each is carried or has its one row, filed under the day it was
   posted on, until its day is landed. -/
namespace Panel
open OrderBook (Decimal)

/- Numbers one after another. -/

section
variable {start : Int} {n : Nat}

theorem mem_upFrom {d : Int} : d ∈ upFrom start n ↔ start ≤ d ∧ d < start + n := by
  induction n generalizing start with
  | zero => simp [upFrom]
  | succ n ih =>
    rw [upFrom, List.mem_cons, ih]
    omega

theorem upFrom_succ (start : Int) (n : Nat) : upFrom start (n + 1) = upFrom start n ++ [start + n] := by
  induction n generalizing start with
  | zero => simp [upFrom]
  | succ n ih =>
    rw [upFrom, ih, upFrom, List.cons_append]
    have same : start + 1 + (n : Int) = start + (n + 1 : Nat) := by omega
    rw [same]

theorem upFrom_pairwise (start : Int) (n : Nat) : (upFrom start n).Pairwise (· < ·) := by
  induction n generalizing start with
  | zero => exact List.Pairwise.nil
  | succ n ih =>
    refine List.Pairwise.cons ?_ (ih (start + 1))
    intro d mem
    have := (mem_upFrom.mp mem).1
    omega

theorem length_upFrom (start : Int) (n : Nat) : (upFrom start n).length = n := by
  induction n generalizing start with
  | zero => rfl
  | succ n ih => rw [upFrom, List.length_cons, ih]

/-- The days that the hours from a start reach into. -/
def daysIn (start : Int) (n : Nat) : Nat :=
  if n = 0 then 0 else (dayOf (start + n - 1) - dayOf start).toNat + 1

theorem mem_days {d : Int} (positive : 0 < n) :
    d ∈ upFrom (dayOf start) (daysIn start n) ↔ dayOf start ≤ d ∧ d ≤ dayOf (start + n - 1) := by
  rw [mem_upFrom]
  unfold daysIn dayOf
  rw [if_neg (by omega)]
  omega

/-- The hours of a day among those from a start. -/
theorem count_hours (start : Int) (n : Nat) (day : Int) : (upFrom start n).countP (dayOf · = day) =
    (min (start + n) (midnight day + 24) - max start (midnight day)).toNat := by
  induction n with
  | zero =>
    unfold upFrom midnight
    simp only [List.countP_nil]
    omega
  | succ n ih =>
    rw [upFrom_succ, List.countP_append, ih, List.countP_singleton]
    unfold dayOf midnight
    by_cases here : (start + n) / 24 = day
    · rw [if_pos (by simpa using here)]
      omega
    · rw [if_neg (by simpa using here)]
      omega

theorem dayAt_boundary {hour : Int} {k : Nat} (inside : k < secondsPerHour) : dayAt (boundaryOf hour k) = dayOf hour := by
  unfold secondsPerHour at inside
  unfold dayAt boundaryOf startOf dayOf
  omega

end

/- Rows by day. -/

section
variable {F : Type}

theorem file_eq (held : Int → List (FillRow F)) (rows : List (FillRow F)) (day : Int) :
    file held rows day = held day ++ rows.filter (dayOfRow · = day) := by
  induction rows generalizing held with
  | nil => simp [file]
  | cons r rows ih =>
    have step : file held (r :: rows) =
        file (Function.update held (dayOfRow r) (held (dayOfRow r) ++ [r])) rows := rfl
    rw [step, ih]
    by_cases here : dayOfRow r = day
    · subst here
      simp
    · have other : day ≠ dayOfRow r := fun same => here same.symm
      simp [Function.update_of_ne other, here]

theorem rowsFrame_perm (rows : List (FillRow F)) : (rowsFrame rows).Perm rows := List.perm_insertionSort _ rows

/- One hour's posts. -/

variable [Zero F] [NatCast F] [Add F] [Sub F] [Mul F] [Div F] [Max F] [Min F] [LE F] [DecidableLE F]
  [DecidableEq F] {float : Decimal → F} {pair : String}

/-- The orders that an hour has beyond those it was given. -/
def hourPosts (float : Decimal → F) (messages : List Message) (trades : List (Print F)) (book : Book) (hour : Int)
    (pair : String) (carried : List (Order F)) (lastMsgTs : Option Int) : List (Post F) :=
  match runHour float messages trades book hour pair carried lastMsgTs with
  | .ok h => (h.orders.drop carried.length).map Order.toPost
  | .error _ => []

/-- An hour's posts and what has become of them and of the orders it was given. -/
structure Conserves (out : Simulated F) (carried : List (Order F)) (posts : List (Post F)) (hour : Int) : Prop where
  dated : ∀ p ∈ posts, dayAt p.ts = dayOf hour
  kept : (out.rows.map FillRow.post ++ out.carried.map Order.toPost).Perm (carried.map Order.toPost ++ posts)
  still : ∀ o ∈ out.carried, o.isCarried = true
  counted : out.counts.posts = posts.length
  total : out.counts.total = postsPerHour

theorem grid_of_hour : ordersPerPost * gridSeconds (List.range secondsPerHour) = postsPerHour := by
  decide +kernel

theorem simulateHour_conserves {messages : List Message} {trades : List (Print F)} {book : Book} {hour : Int}
    {carried : List (Order F)} {lastMsgTs : Option Int} {out : Simulated F}
    (still : ∀ o ∈ carried, o.isCarried = true)
    (simulated : simulateHour float messages trades book hour pair carried lastMsgTs = .ok out) :
    Conserves out carried (hourPosts float messages trades book hour pair carried lastMsgTs) hour := by
  obtain ⟨next, ran, same⟩ := Fallible.bind_ok.mp simulated
  injection same with same
  subst same
  have posts_of : hourPosts float messages trades book hour pair carried lastMsgTs =
      (next.orders.drop carried.length).map Order.toPost := by
    unfold hourPosts
    rw [ran]
  have grid_count := grid_of_hour
  have inside : ∀ k ∈ List.range secondsPerHour, k < secondsPerHour := fun k mem => List.mem_range.mp mem
  unfold runHour at ran
  generalize List.range secondsPerHour = grid at ran grid_count inside
  obtain ⟨⟨ended, left, lefts⟩, seconds, rest⟩ := Fallible.bind_ok.mp ran
  obtain ⟨⟨posts, went, stamped⟩, _⟩ := seconds_went (P := fun _ => True) (fun _ _ => trivial) (fun _ _ => trivial)
    (start_sound book lastMsgTs carried) seconds
  obtain ⟨filed, counts⟩ := rest_filed (P := fun _ => True) (fun _ _ => trivial) rest
  have both := went.filed.trans filed
  rw [List.append_nil] at both
  have all_carried : (Hour.start book lastMsgTs carried).carried = carried := List.filter_eq_self.mpr still
  have same_posts : hourPosts float messages trades book hour pair carried lastMsgTs = posts := by
    have posted : next.orders.map Order.toPost = carried.map Order.toPost ++ posts := both.posted
    rw [posts_of, List.map_drop, posted]
    simp
  rw [same_posts]
  obtain ⟨given, rows, onward⟩ := both.given
  refine ⟨?_, ?_, ?_, ?_, ?_⟩
  · intro p mem
    obtain ⟨k, of_grid, same⟩ := stamped p mem
    rw [same]
    exact dayAt_boundary (inside k of_grid)
  · have keys := Members.keys since_key onward
    rw [all_carried, List.map_append] at keys
    have shown : next.rows.map FillRow.post = given.map Order.toPost := by
      rw [rows, List.map_append, List.map_map]
      rfl
    rw [shown]
    exact keys
  · intro o mem
    exact (List.mem_filter.mp mem).2
  · rw [counts, went.counted]
    exact Nat.zero_add _
  · unfold Counts.total at *
    have total := went.total
    unfold Counts.total at total
    rw [counts, total, grid_count]
    exact Nat.zero_add _

end

/- What a run holds between its hours. -/

/-- An entry of so many hours and posts. -/
structure Entry.Balanced (e : Entry) (hours posts : Nat) : Prop where
  posted : e.counts.posts = posts
  total : e.counts.total = postsPerHour * e.hours
  hours : e.hours + e.hoursUnanchored.length + e.hoursAbsent.length = hours

section
variable {F : Type}

def onDay (day : Int) (posts : List (Post F)) : List (Post F) := posts.filter (dayAt ·.ts = day)

theorem onDay_append (day : Int) (posts more : List (Post F)) :
    onDay day (posts ++ more) = onDay day posts ++ onDay day more := List.filter_append posts more

theorem onDay_rows (day : Int) (rows : List (FillRow F)) :
    (rows.filter (dayOfRow · = day)).map FillRow.post = onDay day (rows.map FillRow.post) := by
  unfold onDay
  rw [List.filter_map]
  rfl

/-- After so many hours from a start: the posts so far, the days landed by the writes so far and the rows
    that each day has been given. -/
structure Kept (start : Int) (m : Nat) (posts : List (Post F)) (writes : List (DayWrite F)) (landed : List Int)
    (shown : Int → List (FillRow F)) (p : Progress F) : Prop where
  days : landed ++ p.pending = upFrom (dayOf start) (daysIn start m)
  keys : ∀ d, d ∈ p.entries ↔ d ∈ landed ++ p.pending
  past : ∀ d ∈ landed, midnight d + 24 < start + m
  rows : ∀ d, p.rowsByDay d = if d ∈ landed then [] else shown d
  still : ∀ o ∈ p.carried, o.isCarried = true
  open_ : ∀ o ∈ p.carried, dayAt o.ts ∉ landed
  kept : ∀ d, ((shown d).map FillRow.post ++ onDay d (p.carried.map Order.toPost)).Perm (onDay d posts)
  posted : ∀ q ∈ posts, dayAt q.ts ∈ upFrom (dayOf start) (daysIn start m)
  entries : ∀ d, (p.entry d).Balanced ((upFrom start m).countP (dayOf · = d)) (onDay d posts).length
  writes : writes = landed.flatMap fun d => writeDay d (rowsFrame (shown d)) (p.entry d)

variable {start : Int} {m : Nat} {posts more : List (Post F)} {writes : List (DayWrite F)} {landed : List Int}
  {shown : Int → List (FillRow F)} {p q : Progress F}

theorem kept_start (start : Int) : Kept start 0 [] [] [] (fun _ => []) (Progress.start F) where
  days := by simp [Progress.start, daysIn, upFrom]
  keys := by simp [Progress.start]
  past := by simp
  rows := by simp [Progress.start]
  still := by simp [Progress.start]
  open_ := by simp [Progress.start]
  kept := by simp [Progress.start, onDay]
  posted := by simp
  entries := fun _ => ⟨rfl, rfl, rfl⟩
  writes := rfl

/-- The day of the next hour is the last day or the one after it. -/
theorem daysIn_next (start : Int) (m : Nat) :
    (dayOf (start + m) ∈ upFrom (dayOf start) (daysIn start m) ∧ daysIn start (m + 1) = daysIn start m) ∨
      (dayOf (start + m) ∉ upFrom (dayOf start) (daysIn start m) ∧
        upFrom (dayOf start) (daysIn start (m + 1)) = upFrom (dayOf start) (daysIn start m) ++ [dayOf (start + m)]) := by
  by_cases seen : dayOf (start + m) ∈ upFrom (dayOf start) (daysIn start m)
  · refine Or.inl ⟨seen, ?_⟩
    rw [mem_upFrom] at seen
    unfold daysIn dayOf at seen ⊢
    split at seen <;> split <;> omega
  · refine Or.inr ⟨seen, ?_⟩
    have counted : daysIn start (m + 1) = daysIn start m + 1 := by
      rw [mem_upFrom] at seen
      unfold daysIn dayOf at seen ⊢
      split at seen <;> split <;> omega
    have last : dayOf start + (daysIn start m : Int) = dayOf (start + m) := by
      rw [mem_upFrom] at seen
      unfold daysIn dayOf at seen ⊢
      split at seen <;> split <;> omega
    rw [counted, upFrom_succ, last]

theorem openDay_entry (p : Progress F) (day d : Int) : (p.openDay day).entry d = p.entry d := by
  unfold Progress.openDay Progress.entry
  split
  · rfl
  · rename_i absent
    by_cases same : d = day
    · subst same
      rw [AList.lookup_insert, AList.lookup_eq_none.mpr absent]
      rfl
    · rw [AList.lookup_insert_ne same]

theorem openDay_others (p : Progress F) (day : Int) :
    (p.openDay day).rowsByDay = p.rowsByDay ∧ (p.openDay day).carried = p.carried ∧
      (p.openDay day).book = p.book ∧ (p.openDay day).lastMsgTs = p.lastMsgTs ∧
      (p.openDay day).threaded = p.threaded := by
  unfold Progress.openDay
  split <;> exact ⟨rfl, rfl, rfl, rfl, rfl⟩

/-- The hour's day is open, and every day that is has its entry. -/
theorem openDay_days (kept : Kept start m posts writes landed shown p) :
    landed ++ (p.openDay (dayOf (start + m))).pending = upFrom (dayOf start) (daysIn start (m + 1)) ∧
      (∀ d, d ∈ (p.openDay (dayOf (start + m))).entries ↔
        d ∈ landed ++ (p.openDay (dayOf (start + m))).pending) ∧
      dayOf (start + m) ∈ (p.openDay (dayOf (start + m))).entries := by
  have keys := kept.keys
  unfold Progress.openDay
  rcases daysIn_next start m with ⟨seen, same⟩ | ⟨unseen, next⟩
  · have there : dayOf (start + m) ∈ p.entries := (keys _).mpr (by rw [kept.days]; exact seen)
    rw [if_pos there]
    exact ⟨by rw [kept.days, same], keys, there⟩
  · have absent : dayOf (start + m) ∉ p.entries := fun there => unseen (by rw [← kept.days]; exact (keys _).mp there)
    rw [if_neg absent]
    refine ⟨by rw [← List.append_assoc, kept.days, next], ?_, by simp⟩
    intro d
    rw [AList.mem_insert, keys, ← List.append_assoc, List.mem_append (s := landed ++ p.pending), List.mem_singleton,
      or_comm]

/-- What one hour does: it files rows, carries orders on, posts on its own day and closes its entry. -/
structure Stepped (p : Progress F) (hour : Int) (more : List (Post F)) (rows : List (FillRow F)) (e : Entry)
    (q : Progress F) : Prop where
  pending : q.pending = (p.openDay (dayOf hour)).pending
  entries : q.entries = (p.openDay (dayOf hour)).entries.insert (dayOf hour) e
  filed : q.rowsByDay = file p.rowsByDay rows
  dated : ∀ r ∈ more, dayAt r.ts = dayOf hour
  kept : (rows.map FillRow.post ++ q.carried.map Order.toPost).Perm (p.carried.map Order.toPost ++ more)
  still : ∀ o ∈ q.carried, o.isCarried = true
  balanced : ∀ hours posts, (p.entry (dayOf hour)).Balanced hours posts →
    e.Balanced (hours + 1) (posts + more.length)

variable {rows : List (FillRow F)} {e : Entry}

theorem Stepped.entry {hour : Int} (stepped : Stepped p hour more rows e q) (d : Int) :
    q.entry d = if d = dayOf hour then e else p.entry d := by
  rw [← openDay_entry p (dayOf hour)]
  unfold Progress.entry
  rw [stepped.entries]
  split
  · rename_i same
    rw [same, AList.lookup_insert]
    rfl
  · rename_i other
    rw [AList.lookup_insert_ne other]

/-- The day of a later hour has not been landed. -/
theorem Kept.unlanded (kept : Kept start m posts writes landed shown p) : dayOf (start + m) ∉ landed := by
  intro mem
  have := kept.past _ mem
  unfold midnight dayOf at this
  omega

/-- What is filed or carried after the hour is of no day that was landed. -/
theorem Stepped.unlanded (stepped : Stepped p (start + m) more rows e q)
    (kept : Kept start m posts writes landed shown p) :
    ∀ r ∈ rows.map FillRow.post ++ q.carried.map Order.toPost, dayAt r.ts ∉ landed := by
  intro r mem
  rcases List.mem_append.mp (stepped.kept.mem_iff.mp mem) with before | new
  · obtain ⟨o, carried, rfl⟩ := List.mem_map.mp before
    exact kept.open_ o carried
  · rw [stepped.dated r new]
    exact kept.unlanded

theorem onDay_dated {day : Int} (dated : ∀ r ∈ more, dayAt r.ts = day) (d : Int) :
    onDay d more = if d = day then more else [] := by
  unfold onDay
  split
  · rename_i same
    exact List.filter_eq_self.mpr fun r mem => by simpa [same] using dated r mem
  · rename_i other
    refine List.filter_eq_nil_iff.mpr fun r mem => ?_
    have := dated r mem
    simp only [decide_eq_true_eq]
    omega

/-- The run goes on by an hour. -/
theorem Kept.step (kept : Kept start m posts writes landed shown p) (stepped : Stepped p (start + m) more rows e q) :
    Kept start (m + 1) (posts ++ more) writes landed
      (fun d => shown d ++ rows.filter (dayOfRow · = d)) q := by
  obtain ⟨days, keys, there⟩ := openDay_days kept
  have unlanded := stepped.unlanded kept
  have none_landed : ∀ d ∈ landed, rows.filter (dayOfRow · = d) = [] := by
    intro d of_landed
    refine List.filter_eq_nil_iff.mpr fun r mem => ?_
    have := unlanded r.post (List.mem_append_left _ (List.mem_map_of_mem mem))
    simp only [decide_eq_true_eq]
    intro same
    have at_ : dayAt r.post.ts = d := same
    exact this (at_ ▸ of_landed)
  refine ⟨?_, ?_, ?_, ?_, stepped.still, ?_, ?_, ?_, ?_, ?_⟩
  · rw [stepped.pending]
    exact days
  · intro d
    rw [stepped.entries, stepped.pending, AList.mem_insert, ← keys]
    exact ⟨fun either => either.elim (fun same => same ▸ there) id, Or.inr⟩
  · intro d mem
    have := kept.past d mem
    omega
  · intro d
    rw [stepped.filed, file_eq, kept.rows]
    split
    · rename_i of_landed
      rw [none_landed d of_landed]
      rfl
    · rfl
  · intro o mem
    exact unlanded o.toPost (List.mem_append_right _ (List.mem_map_of_mem mem))
  · intro d
    have now : (onDay d (rows.map FillRow.post) ++ onDay d (q.carried.map Order.toPost)).Perm
        (onDay d (p.carried.map Order.toPost) ++ onDay d more) := by
      rw [← onDay_append, ← onDay_append]
      exact stepped.kept.filter _
    rw [List.map_append, onDay_rows, onDay_append, List.append_assoc]
    refine (now.append_left _).trans ?_
    rw [← List.append_assoc]
    exact (kept.kept d).append_right _
  · intro r mem
    rw [← days]
    rcases List.mem_append.mp mem with old | new
    · have seen := kept.posted r old
      rw [← kept.days] at seen
      rw [← keys]
      have := (kept.keys _).mpr seen
      unfold Progress.openDay
      split
      · exact this
      · exact (AList.mem_insert _).mpr (Or.inr this)
    · rw [stepped.dated r new, ← keys]
      exact there
  · intro d
    rw [stepped.entry, upFrom_succ, List.countP_append, List.countP_singleton, onDay_append, List.length_append,
      onDay_dated stepped.dated]
    by_cases here : d = dayOf (start + m)
    · subst here
      simp only [if_true, decide_true]
      exact stepped.balanced _ _ (kept.entries _)
    · have other : ¬ dayOf (start + m) = d := fun same => here same.symm
      simp only [here, other, if_false, decide_false, Bool.false_eq_true, Nat.add_zero, List.length_nil]
      exact kept.entries d
  · rw [kept.writes]
    refine List.flatMap_congr fun d mem => ?_
    have other : d ≠ dayOf (start + m) := fun same => kept.unlanded (same ▸ mem)
    rw [none_landed d mem, List.append_nil, stepped.entry, if_neg other]

/- The days that are landed. -/

theorem ready_iff {hour day : Int} : p.ready hour day = true ↔
    midnight day + 24 ≤ hour ∧ ∀ o ∈ p.carried, dayAt o.ts ≠ day := by
  simp [Progress.ready]

/-- A day that is ready is landed. -/
theorem Kept.land {day : Int} {rest : List Int} (kept : Kept start m posts writes landed shown { p with pending := day :: rest })
    (closed : midnight day + 24 < start + m) (none_carried : ∀ o ∈ p.carried, dayAt o.ts ≠ day) :
    Kept start m posts (writes ++ (p.land day).2) (landed ++ [day]) shown
      { (p.land day).1 with pending := rest } := by
  have days : landed ++ day :: rest = upFrom (dayOf start) (daysIn start m) := kept.days
  have apart : day ∉ landed := by
    intro mem
    have distinct := (upFrom_pairwise (dayOf start) (daysIn start m)).imp ne_of_lt
    rw [← days, List.pairwise_append] at distinct
    exact distinct.2.2 day mem day List.mem_cons_self rfl
  have held : p.rowsByDay day = shown day := by
    have := kept.rows day
    rwa [if_neg apart] at this
  refine ⟨?_, ?_, ?_, ?_, kept.still, ?_, kept.kept, kept.posted, kept.entries, ?_⟩
  · rw [List.append_assoc]
    exact days
  · intro d
    have := kept.keys d
    rw [List.append_assoc]
    exact this
  · intro d mem
    rcases List.mem_append.mp mem with old | new
    · exact kept.past d old
    · rw [List.mem_singleton.mp new]
      exact closed
  · intro d
    have before : p.rowsByDay d = if d ∈ landed then [] else shown d := kept.rows d
    simp only [Progress.land]
    by_cases same : d = day
    · subst same
      simp
    · rw [Function.update_of_ne same, before]
      simp [same]
  · intro o mem in_landed
    rcases List.mem_append.mp in_landed with old | new
    · exact kept.open_ o mem old
    · exact none_carried o mem (List.mem_singleton.mp new)
  · have old : writes = landed.flatMap fun d => writeDay d (rowsFrame (shown d)) (p.entry d) := kept.writes
    rw [List.flatMap_append, old]
    simp only [Progress.land, List.flatMap_singleton, held]
    rfl

theorem Kept.landReady {hour : Int} (soon : hour < start + m) (pending : List Int)
    (kept : Kept start m posts writes landed shown { p with pending }) :
    ∃ landed', Kept start m posts (writes ++ (p.landReady hour pending).2) landed' shown
      (p.landReady hour pending).1 := by
  induction pending generalizing p writes landed with
  | nil => exact ⟨landed, by simpa [Progress.landReady] using kept⟩
  | cons day rest ih =>
    unfold Progress.landReady
    by_cases ready : p.ready hour day = true
    · obtain ⟨closed, none_carried⟩ := ready_iff.mp ready
      rw [if_pos ready]
      obtain ⟨landed', after⟩ := ih (kept.land (by omega) none_carried)
      rw [List.append_assoc] at after
      exact ⟨landed', after⟩
    · rw [if_neg ready]
      exact ⟨landed, by simpa using kept⟩

end

/- What is left where the data ends. -/

section
variable {F : Type} {float : Decimal → F} {start : Int} {m : Nat} {posts : List (Post F)} {writes : List (DayWrite F)}
  {landed : List Int} {shown : Int → List (FillRow F)} {p : Progress F}

/-- The days that are left are landed in their order, each with the rows it has been given. -/
theorem landAll_eq {pending : List Int} (distinct : pending.Nodup) (p : Progress F) :
    p.landAll pending = pending.flatMap fun d => writeDay d (rowsFrame (p.rowsByDay d)) (p.entry d) := by
  induction pending generalizing p with
  | nil => rfl
  | cons day rest ih =>
    obtain ⟨apart, others⟩ := List.nodup_cons.mp distinct
    have step : p.landAll (day :: rest) = (p.land day).2 ++ (p.land day).1.landAll rest := rfl
    rw [step, ih others, List.flatMap_cons]
    congr 1
    refine List.flatMap_congr fun d mem => ?_
    have other : d ≠ day := fun same => apart (same ▸ mem)
    simp only [Progress.land, Function.update_of_ne other]
    rfl

/-- Where the data ends every day has its rows, which are those of the orders posted on it. -/
theorem Kept.finish (kept : Kept start m posts writes landed shown p) :
    ∃ shown' : Int → List (FillRow F), writes ++ p.finish float =
        (upFrom (dayOf start) (daysIn start m)).flatMap
          (fun d => writeDay d (rowsFrame (shown' d)) (p.entry d)) ∧
      ∀ d, ((shown' d).map FillRow.post).Perm (onDay d posts) := by
  have distinct : (landed ++ p.pending).Nodup := by
    rw [kept.days]
    exact (upFrom_pairwise _ _).imp ne_of_lt
  obtain ⟨_, pending_distinct, apart⟩ := List.nodup_append.mp distinct
  have none_landed : ∀ d ∈ landed, (flush float p.carried).filter (dayOfRow · = d) = [] := by
    intro d of_landed
    refine List.filter_eq_nil_iff.mpr fun r mem => ?_
    obtain ⟨o, carried, rfl⟩ := List.mem_map.mp mem
    simp only [decide_eq_true_eq]
    intro same
    have at_ : dayAt o.ts = d := same
    exact kept.open_ o carried (at_ ▸ of_landed)
  refine ⟨fun d => shown d ++ (flush float p.carried).filter (dayOfRow · = d), ?_, ?_⟩
  · unfold Progress.finish
    rw [landAll_eq pending_distinct, kept.writes, ← kept.days, List.flatMap_append]
    congr 1
    · refine List.flatMap_congr fun d mem => ?_
      simp only [none_landed d mem, List.append_nil]
    · refine List.flatMap_congr fun d mem => ?_
      have unlanded : d ∉ landed := fun there => apart d there d mem rfl
      simp only [file_eq, kept.rows, if_neg unlanded]
      rfl
  · intro d
    have carried : (flush float p.carried).map FillRow.post = p.carried.map Order.toPost := by
      unfold flush
      rw [List.map_map]
      rfl
    rw [List.map_append, onDay_rows, carried]
    exact kept.kept d

end

/- The entry of an hour. -/

section
variable {F Bytes : Type} {source : Source F Bytes} {hour : Int} {e : Entry} {hours posts : Nat}

/-- What the listing adds to an entry counts only where the book is absent. -/
theorem listed_counts (e : Entry) : (e.listed source hour).hours = e.hours ∧ (e.listed source hour).counts = e.counts ∧
    (e.listed source hour).hoursUnanchored = e.hoursUnanchored ∧
    (e.listed source hour).hoursAbsent.length =
      e.hoursAbsent.length + if (source.book hour).isNone then 1 else 0 := by
  unfold Entry.listed
  cases source.trades hour with
  | none =>
    cases source.book hour with
    | none => simp
    | some segment => by_cases healed : segment.healed = true <;> simp [healed]
  | some trades =>
    by_cases healed_trades : trades.healed = true
    · cases source.book hour with
      | none => simp [healed_trades]
      | some segment => by_cases healed : segment.healed = true <;> simp [healed, healed_trades]
    · cases source.book hour with
      | none => simp [healed_trades]
      | some segment => by_cases healed : segment.healed = true <;> simp [healed, healed_trades]

theorem Entry.Balanced.absent (balanced : e.Balanced hours posts) (absent : (source.book hour).isNone = true) :
    (e.listed source hour).Balanced (hours + 1) posts := by
  obtain ⟨posted, total, sum⟩ := balanced
  obtain ⟨same_hours, same_counts, same_unanchored, more⟩ := listed_counts e
  rw [if_pos absent] at more
  exact ⟨by rw [same_counts, posted], by rw [same_counts, same_hours, total],
    by rw [same_hours, same_unanchored, more]; omega⟩

theorem Entry.Balanced.unanchored (balanced : e.Balanced hours posts) (there : (source.book hour).isNone = false) :
    Entry.Balanced { e.listed source hour with
      hoursUnanchored := (e.listed source hour).hoursUnanchored ++ [hour] } (hours + 1) posts := by
  obtain ⟨posted, total, sum⟩ := balanced
  obtain ⟨same_hours, same_counts, same_unanchored, more⟩ := listed_counts e
  rw [there] at more
  refine ⟨by simp only [same_counts, posted], by simp only [same_counts, same_hours, total], ?_⟩
  simp only [same_hours, same_unanchored, more, List.length_append, List.length_singleton]
  simp only [Bool.false_eq_true, if_false]
  omega

theorem Entry.Balanced.posted_hour {counts : Counts} {new : Nat} (balanced : e.Balanced hours posts)
    (there : (source.book hour).isNone = false) (counted : counts.posts = new) (all : counts.total = postsPerHour) :
    ((e.listed source hour).posted counts).Balanced (hours + 1) (posts + new) := by
  obtain ⟨posted, total, sum⟩ := balanced
  obtain ⟨same_hours, same_counts, same_unanchored, more⟩ := listed_counts e
  rw [there] at more
  refine ⟨by simp only [Entry.posted, same_counts, posted, counted], ?_, ?_⟩
  · unfold Counts.total at total all ⊢
    simp only [Entry.posted, same_counts, same_hours]
    rw [Nat.mul_add, ← total, ← all]
    omega
  · simp only [Entry.posted, same_hours, same_unanchored, more]
    simp only [Bool.false_eq_true, if_false]
    omega

end

/- An hour of a run. -/

section
variable {F Sample Bytes : Type} {sampler : Sampler Sample Bytes} {source : Source F Bytes} {p : Progress F} {hour : Int}

theorem opening_same (p : Progress F) (hour : Int) :
    opening sampler source (p.openDay (dayOf hour)) hour = opening sampler source p hour := by
  obtain ⟨_, _, book, last, threaded⟩ := openDay_others p (dayOf hour)
  unfold opening bookFor
  rw [book, last, threaded]

theorem opening_book {opened : Opening F} (read : opening sampler source p hour = .ok opened) :
    (source.book hour).isNone = true ↔ opened = .absent := by
  unfold opening at read
  cases there : source.book hour with
  | none =>
    rw [there] at read
    injection read with same
    simp [← same]
  | some segment =>
    rw [there] at read
    obtain ⟨⟨book, last⟩, _, read⟩ := Fallible.bind_ok.mp read
    simp only at read
    split at read
    · injection read with same
      simp [← same]
    · injection read with same
      simp [← same]

end

section
variable {F Sample Bytes : Type} {sampler : Sampler Sample Bytes} [Zero F] [NatCast F] [Add F] [Sub F] [Mul F] [Div F]
  [Max F] [Min F] [LE F] [DecidableLE F] [DecidableEq F] {float : Decimal → F} {source : Source F Bytes}
  {pair : String} {p q : Progress F} {hour : Int}

/-- The orders that an hour of a run posts. -/
def Progress.postsOf (sampler : Sampler Sample Bytes) (float : Decimal → F) (source : Source F Bytes) (pair : String)
    (p : Progress F) (hour : Int) : List (Post F) :=
  match opening sampler source p hour with
  | .ok (.anchored messages trades book lastMsgTs) =>
    hourPosts float messages trades book hour pair p.carried lastMsgTs
  | _ => []

/-- Every hour files, carries and posts as it should. -/
theorem hour_stepped (still : ∀ o ∈ p.carried, o.isCarried = true)
    (ran : p.hour sampler float source pair hour = .ok q) :
    ∃ rows e, Stepped p hour (p.postsOf sampler float source pair hour) rows e q := by
  unfold Progress.hour at ran
  obtain ⟨rows_same, carried_same, _⟩ := openDay_others p (dayOf hour)
  obtain ⟨opened, read, ran⟩ := Fallible.bind_ok.mp ran
  rw [opening_same] at read
  have absent := opening_book read
  unfold Progress.postsOf
  rw [read]
  cases opened with
  | absent =>
    injection ran with same
    subst same
    refine ⟨flush float p.carried, _, rfl, rfl, ?_, by simp, ?_, by simp, ?_⟩
    · simp only [rows_same, carried_same]
    · simp only [flush, List.map_map, List.map_nil, List.append_nil]
      exact List.Perm.refl _
    · intro hours posts balanced
      rw [openDay_entry]
      exact balanced.absent (absent.mpr rfl)
  | unanchored =>
    injection ran with same
    subst same
    have there : (source.book hour).isNone = false := by
      rw [Bool.eq_false_iff]
      exact fun none_ => by cases absent.mp none_
    refine ⟨[], _, rfl, rfl, ?_, by simp, ?_, ?_, ?_⟩
    · simp only [rows_same]
      rfl
    · simp [carried_same]
    · simp only [carried_same]
      exact still
    · intro hours posts balanced
      rw [openDay_entry]
      exact balanced.unanchored there
  | anchored messages trades book lastMsgTs =>
    obtain ⟨out, simulated, ran⟩ := Fallible.bind_ok.mp ran
    injection ran with same
    subst same
    rw [carried_same] at simulated
    have conserves := simulateHour_conserves still simulated
    have there : (source.book hour).isNone = false := by
      rw [Bool.eq_false_iff]
      exact fun none_ => by cases absent.mp none_
    refine ⟨out.rows, _, rfl, rfl, ?_, conserves.dated, conserves.kept, conserves.still, ?_⟩
    · simp only [rows_same]
    · intro hours posts balanced
      rw [openDay_entry]
      exact balanced.posted_hour there conserves.counted conserves.total

/- A whole run. -/

/-- The orders that a run's hours post, up to one that fails. -/
def Progress.postsOver (sampler : Sampler Sample Bytes) (float : Decimal → F) (source : Source F Bytes)
    (pair : String) : List Int → Progress F → List (Post F)
  | [], _ => []
  | hour :: later, p =>
    match p.hour sampler float source pair hour with
    | .error _ => []
    | .ok q =>
      p.postsOf sampler float source pair hour ++
        postsOver sampler float source pair later (q.landReady hour q.pending).1

variable {start : Int} {m : Nat} {posts : List (Post F)} {writes : List (DayWrite F)} {landed : List Int}
  {shown : Int → List (FillRow F)}

/-- However far its hours get, and that is all of them where the run goes on. -/
theorem hours_kept (sampler : Sampler Sample Bytes) (float : Decimal → F) (source : Source F Bytes) (pair : String)
    (k : Nat) (kept : Kept start m posts writes landed shown p) :
    ∃ j q landed' shown', j ≤ k ∧
      Kept start (m + j) (posts ++ p.postsOver sampler float source pair (upFrom (start + m) k))
        (writes ++ (p.hours sampler float source pair (upFrom (start + m) k)).1) landed' shown' q ∧
      ∀ r, (p.hours sampler float source pair (upFrom (start + m) k)).2 = .ok r → r = q ∧ j = k := by
  induction k generalizing m posts writes landed shown p with
  | zero =>
    refine ⟨0, p, landed, shown, Nat.le_refl 0, by simpa [upFrom, Progress.postsOver, Progress.hours] using kept, ?_⟩
    intro r ended
    injection ended with same
    exact ⟨same.symm, rfl⟩
  | succ k ih =>
    simp only [upFrom, Progress.hours, Progress.postsOver]
    cases ran : p.hour sampler float source pair (start + m) with
    | error e =>
      refine ⟨0, p, landed, shown, Nat.zero_le _, by simpa using kept, ?_⟩
      intro r ended
      cases ended
    | ok q =>
      obtain ⟨rows, e, stepped⟩ := hour_stepped kept.still ran
      have after := kept.step stepped
      have soon : start + m < start + ((m + 1 : Nat) : Int) := by omega
      obtain ⟨landed', ready⟩ := Kept.landReady soon q.pending after
      obtain ⟨j, last, landed'', shown'', le, all, ended⟩ := ih ready
      have next : start + ((m + 1 : Nat) : Int) = start + m + 1 := by omega
      have reached : m + 1 + j = m + (j + 1) := by omega
      rw [next, reached, List.append_assoc, List.append_assoc] at all
      rw [next] at ended
      exact ⟨j + 1, last, landed'', shown'', by omega, all, fun r same =>
        ⟨(ended r same).1, by rw [(ended r same).2]⟩⟩

end

end Panel
