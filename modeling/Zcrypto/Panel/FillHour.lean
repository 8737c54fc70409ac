import Zcrypto.Members
import Zcrypto.Panel.FillOrder

/- What the seconds of an hour do to its orders: what an order has come to stays as it is, and every order
   that is carried in or posted is either still carried or has given one row. -/
namespace Panel
open OrderBook (Decimal)

section
variable {F : Type}

/- An order goes on. -/

/-- An order later on: what was set is as it was, and what is set since was set at instants of a kind. -/
structure Since (P : Int → Prop) (p o : Order F) : Prop where
  post : o.toPost = p.toPost
  filled : ∀ t, p.filledAt = some t → o.filledAt = some t
  unfilled : p.filledAt = none → ∀ t, o.filledAt = some t → P t
  cancelled : ∀ t, p.cancelledAt = some t → o.cancelledAt = some t
  uncancelled : p.cancelledAt = none → ∀ t, o.cancelledAt = some t → P t
  mids : ∀ name v, p.mids name = some v → o.mids name = some v

variable {P : Int → Prop} {p o q : Order F}

theorem Since.refl (o : Order F) : Since P o o where
  post := rfl
  filled := fun _ held => held
  unfilled := fun absent t held => by rw [absent] at held; cases held
  cancelled := fun _ held => held
  uncancelled := fun absent t held => by rw [absent] at held; cases held
  mids := fun _ _ held => held

/-- What was not set and then is was set in one part or in the other. -/
theorem set_since {x y z : Option Int} (kept : ∀ t, y = some t → z = some t)
    (first : x = none → ∀ t, y = some t → P t) (second : y = none → ∀ t, z = some t → P t)
    (absent : x = none) (t : Int) (set : z = some t) : P t := by
  cases middle : y with
  | none => exact second middle t set
  | some u =>
    have same := kept u middle
    rw [set] at same
    injection same with same
    rw [same]
    exact first absent u middle

theorem Since.trans (first : Since P p o) (second : Since P o q) : Since P p q where
  post := second.post.trans first.post
  filled := fun t held => second.filled t (first.filled t held)
  unfilled := set_since second.filled first.unfilled second.unfilled
  cancelled := fun t held => second.cancelled t (first.cancelled t held)
  uncancelled := set_since second.cancelled first.uncancelled second.uncancelled
  mids := fun name v held => second.mids name v (first.mids name v held)

instance : Std.Refl (Since (F := F) P) := ⟨Since.refl⟩
instance : IsTrans (Order F) (Since P) := ⟨fun _ _ _ => Since.trans⟩

theorem since_key (p o : Order F) (since : Since P p o) : o.toPost = p.toPost := since.post

/- What one step does to one order. -/

theorem since_print [Zero F] [Add F] [Sub F] [Max F] [LE F] [DecidableLE F] (o : Order F)
    {trade : Print F} (instant : P trade.ts) : Since P o (applyTrade o trade) := by
  by_cases opened : o.isOpen = true
  · by_cases meeting : meets o trade = true
    · obtain ⟨unfilled, _⟩ := isOpen_iff.mp opened
      rw [applyTrade_met opened meeting]
      refine ⟨rfl, ?_, ?_, fun _ held => held, ?_, fun _ _ held => held⟩
      · intro t held
        rw [unfilled] at held
        cases held
      · intro _ t set
        simp only [unfilled] at set
        split at set
        · injection set with same
          exact same ▸ instant
        · cases set
      · intro absent t set
        rw [absent] at set
        cases set
    · rw [applyTrade_apart (by simpa using meeting)]
      exact Since.refl o
  · rw [applyTrade_closed (by simpa using opened)]
    exact Since.refl o

theorem since_boundary [Min F] (float : Decimal → F) (book : Book) (tick : Decimal) (o : Order F) {ts : Int}
    (instant : P ts) : Since P o (tickCancel float book ts tick o) := by
  by_cases opened : o.isOpen = true
  · obtain ⟨_, uncancelled⟩ := isOpen_iff.mp opened
    have filled := tickCancel_filled float book ts tick o
    refine ⟨tickCancel_post float book ts tick o, fun t held => filled.trans held, ?_, ?_, ?_, ?_⟩
    · intro absent t set
      rw [filled, absent] at set
      cases set
    · intro t held
      rw [uncancelled] at held
      cases held
    · intro _ t set
      unfold tickCancel at set
      rw [opened] at set
      simp only [Bool.not_true, Bool.false_eq_true, if_false, Option.ite_none_right_eq_some,
        Option.some.injEq] at set
      exact set.2 ▸ instant
    · intro name v held
      rw [tickCancel_mids]
      exact held
  · rw [tickCancel_closed (by simpa using opened)]
    exact Since.refl o

/-- A mid that was unread. -/
theorem since_read {name : Mid} (mid : F) (unread : o.mids name = none) :
    Since P o { o with mids := Function.update o.mids name (some mid) } := by
  refine ⟨rfl, fun _ held => held, ?_, fun _ held => held, ?_, ?_⟩
  · intro absent t set
    rw [absent] at set
    cases set
  · intro absent t set
    rw [absent] at set
    cases set
  · intro other v held
    by_cases same : other = name
    · rw [same, unread] at held
      cases held
    · simp only [Function.update_of_ne same]
      exact held

/- What is waited for. -/

def Awaited.key (a : Awaited) : Nat × Mid := (a.order, a.name)

def Mid.ofFill : Mid → Bool
  | .fillPlus60 | .fillPlus900 => true
  | .postPlus900 | .postPlus3600 => false

/-- What a mid may be waited for: an order that is there, has not read it, and is filled where the mid
    comes after a fill. -/
def Waited (orders : List (Order F)) (a : Awaited) : Prop :=
  ∃ o, orders[a.order]? = some o ∧ o.mids a.name = none ∧ (a.name.ofFill = true → o.filledAt.isSome)

/-- Each mid is waited for once. -/
structure Waits (orders : List (Order F)) (pending : List Awaited) : Prop where
  distinct : (pending.map Awaited.key).Nodup
  waited : ∀ a ∈ pending, Waited orders a

theorem push_perm (a : Awaited) (pending : List Awaited) : (push a pending).Perm (a :: pending) := by
  induction pending with
  | nil => exact List.Perm.refl _
  | cons b rest ih =>
    unfold push
    split
    · exact (ih.cons b).trans (List.Perm.swap a b rest)
    · exact List.Perm.refl _

theorem pushAll_perm (pending awaited : List Awaited) :
    (pushAll pending awaited).Perm (pending ++ awaited) := by
  unfold pushAll
  induction awaited generalizing pending with
  | nil => simp
  | cons a awaited ih =>
    rw [List.foldl_cons]
    exact (ih _).trans (((push_perm a pending).append_right awaited).trans List.perm_middle.symm)

theorem Waits.pushAll {orders : List (Order F)} {pending awaited : List Awaited} (waits : Waits orders pending)
    (distinct : (awaited.map Awaited.key).Nodup) (waited : ∀ a ∈ awaited, Waited orders a)
    (apart : ∀ a ∈ pending, ∀ b ∈ awaited, a.key ≠ b.key) : Waits orders (pushAll pending awaited) := by
  have perm := pushAll_perm pending awaited
  constructor
  · rw [(perm.map Awaited.key).nodup_iff, List.map_append, List.nodup_append]
    refine ⟨waits.distinct, distinct, ?_⟩
    intro x first y second
    obtain ⟨a, in_pending, rfl⟩ := List.mem_map.mp first
    obtain ⟨b, in_awaited, rfl⟩ := List.mem_map.mp second
    exact apart a in_pending b in_awaited
  · intro a mem
    rcases List.mem_append.mp (perm.mem_iff.mp mem) with held | new
    · exact waits.waited a held
    · exact waited a new

/-- Orders that keep their mids and their fills are waited for as before. -/
theorem Waits.map {orders : List (Order F)} {pending : List Awaited} (waits : Waits orders pending)
    {f : Order F → Order F} (mids : ∀ o, (f o).mids = o.mids)
    (filled : ∀ o, o.filledAt.isSome → (f o).filledAt.isSome) : Waits (orders.map f) pending := by
  refine ⟨waits.distinct, ?_⟩
  intro a mem
  obtain ⟨o, there, unread, fill⟩ := waits.waited a mem
  exact ⟨f o, by rw [List.getElem?_map, there]; rfl, by rw [mids]; exact unread,
    fun of_fill => filled o (fill of_fill)⟩

/- What is waited for of one order. -/

/-- Of one order, and each of another name. -/
def Own (i : Nat) (awaited : List Awaited) : Prop :=
  (∀ a ∈ awaited, a.order = i) ∧ (awaited.map Awaited.name).Nodup

theorem mem_awaits {i : Nat} {o : Order F} {names : List (Mid × Int)} {begun : Int} {a : Awaited}
    (mem : a ∈ awaits i o names begun) :
    a.order = i ∧ a.name ∈ names.map Prod.fst ∧ o.mids a.name = none := by
  unfold awaits at mem
  obtain ⟨⟨name, offset⟩, named, made⟩ := List.mem_filterMap.mp mem
  simp only [Option.ite_none_right_eq_some, Option.some.injEq, Option.isNone_iff_eq_none] at made
  obtain ⟨unread, rfl⟩ := made
  exact ⟨rfl, List.mem_map_of_mem named, unread⟩

theorem awaits_names (i : Nat) (o : Order F) (names : List (Mid × Int)) (begun : Int) :
    ((awaits i o names begun).map Awaited.name).Sublist (names.map Prod.fst) := by
  unfold awaits
  induction names with
  | nil => simp
  | cons item names ih =>
    obtain ⟨name, offset⟩ := item
    rw [List.filterMap_cons]
    split
    · exact ih.cons _
    · rename_i made
      simp only [Option.ite_none_right_eq_some, Option.some.injEq] at made
      rw [List.map_cons, List.map_cons, ← made.2]
      exact ih.cons_cons _

theorem awaits_own (i : Nat) (o : Order F) {names : List (Mid × Int)} (begun : Int)
    (distinct : (names.map Prod.fst).Nodup) : Own i (awaits i o names begun) :=
  ⟨fun _ mem => (mem_awaits mem).1, distinct.sublist (awaits_names i o names begun)⟩

theorem mem_awaitsFill {i : Nat} {o : Order F} {a : Awaited} (mem : a ∈ awaitsFill i o) :
    a.order = i ∧ a.name.ofFill = true ∧ o.mids a.name = none ∧ o.filledAt.isSome := by
  unfold awaitsFill at mem
  split at mem
  · rename_i t filled
    obtain ⟨order, name, unread⟩ := mem_awaits mem
    have of_fill : ∀ name ∈ fillMids.map Prod.fst, Mid.ofFill name = true := by decide
    exact ⟨order, of_fill _ name, unread, by rw [filled]; rfl⟩
  · cases mem

theorem awaitsFill_own (i : Nat) (o : Order F) : Own i (awaitsFill i o) := by
  unfold awaitsFill
  split
  · exact awaits_own i o _ (by decide)
  · exact ⟨by simp, by simp⟩

theorem mem_awaitsPost {i : Nat} {o : Order F} {begun : Int} {a : Awaited}
    (mem : a ∈ awaits i o postMids begun) :
    a.order = i ∧ a.name.ofFill = false ∧ o.mids a.name = none := by
  obtain ⟨order, name, unread⟩ := mem_awaits mem
  have of_post : ∀ name ∈ postMids.map Prod.fst, Mid.ofFill name = false := by decide
  exact ⟨order, of_post _ name, unread⟩

theorem awaitsPost_own (i : Nat) (o : Order F) (begun : Int) : Own i (awaits i o postMids begun) :=
  awaits_own i o begun (by decide)

/-- What each order waits for, over all of them. -/
theorem keys_flatMap {orders : List (Order F)} {k : Nat} {f : Order F × Nat → List Awaited}
    (own : ∀ o i, Own i (f (o, i))) : (((orders.zipIdx k).flatMap f).map Awaited.key).Nodup := by
  induction orders generalizing k with
  | nil => simp
  | cons o orders ih =>
    obtain ⟨order, names⟩ := own o k
    rw [List.zipIdx_cons, List.flatMap_cons, List.map_append, List.nodup_append]
    refine ⟨?_, ih, ?_⟩
    · have of_names : ((f (o, k)).map Awaited.key).map Prod.snd = (f (o, k)).map Awaited.name := by
        rw [List.map_map]
        rfl
      rw [← of_names] at names
      exact names.of_map
    · intro x first y second same
      obtain ⟨a, in_first, rfl⟩ := List.mem_map.mp first
      obtain ⟨b, in_second, rfl⟩ := List.mem_map.mp second
      obtain ⟨⟨p, j⟩, place, of_place⟩ := List.mem_flatMap.mp in_second
      have later := List.le_snd_of_mem_zipIdx place
      have of_k := order a in_first
      have of_j := (own p j).1 b of_place
      have orders_same : a.order = b.order := congrArg Prod.fst same
      simp only at later
      omega

/- What has become of the orders of an hour. -/

/-- Each order that was carried has gone on, and so have those posted since: it is carried still, or it has
    given its one row. -/
structure Filed (float : Decimal → F) (P : Int → Prop) (h : Hour F) (posts : List (Post F)) (s : Hour F) : Prop where
  posted : s.orders.map Order.toPost = h.orders.map Order.toPost ++ posts
  given : ∃ given, s.rows = h.rows ++ given.map (FillRow.ofOrder float) ∧
    Members.Onward (Since P) Order.toPost h.carried posts (given ++ s.carried)

variable {float : Decimal → F} {h s next : Hour F} {posts more : List (Post F)}

/-- The same orders and rows. -/
theorem filed_same (orders : s.orders = h.orders) (rows : s.rows = h.rows) : Filed float P h [] s := by
  refine ⟨by simp [orders], [], by simp [rows], Members.of_perm ?_⟩
  unfold Hour.carried
  rw [orders, List.nil_append]

theorem Filed.trans (first : Filed float P h posts s) (second : Filed float P s more next) :
    Filed float P h (posts ++ more) next := by
  obtain ⟨posted, given, rows, onward⟩ := first
  obtain ⟨posted', later, rows', onward'⟩ := second
  refine ⟨by rw [posted', posted, List.append_assoc], given ++ later,
    by rw [rows', rows, List.map_append, List.append_assoc], ?_⟩
  have both := Members.trans since_key onward (Members.beside given onward')
  rwa [List.append_assoc]

theorem filed_map {f : Order F → Order F} (orders : s.orders = h.orders.map f) (rows : s.rows = h.rows)
    (mids : ∀ o, (f o).mids = o.mids) (since : ∀ o, Since P o (f o)) : Filed float P h [] s := by
  have posted : s.orders.map Order.toPost = h.orders.map Order.toPost ++ [] := by
    rw [orders, List.map_map, List.append_nil]
    exact List.map_congr_left fun o _ => (since o).post
  refine ⟨posted, [], by simp [rows], Members.of_forall₂ ?_⟩
  have carried : s.carried = h.carried.map f := by
    unfold Hour.carried
    rw [orders, List.filter_map]
    congr 1
    apply List.filter_congr
    intro o _
    simp [Order.isCarried, mids]
  rw [List.nil_append, carried, List.forall₂_map_right_iff]
  exact List.forall₂_same.mpr fun o _ => since o

theorem split_at {α : Type} {l : List α} {i : Nat} {x : α} (there : l[i]? = some x) :
    ∃ before after, l = before ++ x :: after ∧ before.length = i := by
  obtain ⟨inside, rfl⟩ := List.getElem?_eq_some_iff.mp there
  exact ⟨l.take i, l.drop (i + 1), by simp, by simp; omega⟩

theorem set_split {α : Type} (before after : List α) (x y : α) :
    (before ++ x :: after).set before.length y = before ++ y :: after := by
  simp

/-- One mid that was waited for is read: its order goes on, and with its last mid it gives its row. -/
theorem readMid_filed (mid : F) {a : Awaited} {rest : List Awaited} (waits : Waits h.orders (a :: rest)) :
    Waits (h.readMid float mid a).orders rest ∧ Filed float P h [] (h.readMid float mid a) := by
  obtain ⟨o, there, unread, _⟩ := waits.waited a List.mem_cons_self
  obtain ⟨before, after, orders, index⟩ := split_at there
  have distinct := List.nodup_cons.mp waits.distinct
  set read : Order F := { o with mids := Function.update o.mids a.name (some mid) } with of_read
  have set_orders : h.orders.set a.order read = before ++ read :: after := by
    rw [orders, ← index, set_split]
  have after_read : h.readMid float mid a = { h with
      orders := before ++ read :: after
      rows := if a.name = lastMid then h.rows ++ [FillRow.ofOrder float read] else h.rows } := by
    unfold Hour.readMid
    rw [there]
    simp only [← of_read, set_orders]
  have goes : Since P o read := since_read mid unread
  constructor
  · refine ⟨distinct.2, ?_⟩
    intro b mem
    obtain ⟨p, place, unread_b, fill⟩ := waits.waited b (List.mem_cons_of_mem _ mem)
    rw [after_read]
    by_cases same : b.order = a.order
    · have other : b.name ≠ a.name := by
        intro names
        have keys : b.key = a.key := Prod.ext same names
        exact distinct.1 (keys ▸ List.mem_map_of_mem mem)
      rw [same, there] at place
      injection place with place
      subst place
      refine ⟨read, ?_, ?_, fill⟩
      · rw [same, ← index]
        simp
      · simp only [of_read, Function.update_of_ne other]
        exact unread_b
    · refine ⟨p, ?_, unread_b, fill⟩
      rw [← set_orders, List.getElem?_set_ne (Ne.symm same)]
      exact place
  · rw [after_read]
    refine ⟨by simp [orders, of_read], ?_⟩
    unfold Hour.carried
    simp only [orders, List.filter_append]
    by_cases last : a.name = lastMid
    · have unset : o.isCarried = true := by
        unfold Order.isCarried
        rw [← last, unread]
        rfl
      have set_ : read.isCarried = false := by simp [Order.isCarried, of_read, last]
      refine ⟨[read], by simp [last], ?_⟩
      rw [List.filter_cons_of_pos unset, List.filter_cons_of_neg (by simp [set_])]
      refine ⟨_ ++ read :: _, [], ?_, List.rel_append (List.forall₂_refl _) (.cons goes (List.forall₂_refl _)),
        List.Perm.nil⟩
      rw [List.append_nil, List.singleton_append]
      exact List.perm_middle.symm
    · have kept : read.isCarried = o.isCarried := by
        simp only [Order.isCarried, of_read, Function.update_of_ne (Ne.symm last)]
      refine ⟨[], by simp [last], Members.of_forall₂ ?_⟩
      rw [List.nil_append]
      refine List.rel_append (List.forall₂_refl _) ?_
      by_cases unset : o.isCarried = true
      · rw [List.filter_cons_of_pos unset, List.filter_cons_of_pos (kept.trans unset)]
        exact .cons goes (List.forall₂_refl _)
      · rw [List.filter_cons_of_neg unset, List.filter_cons_of_neg (by rw [kept]; exact unset)]
        exact List.forall₂_refl _

/- The steps of a second. -/

/-- What the hour waits for is what its orders can be waited for. -/
def Hour.Sound (h : Hour F) : Prop := Waits h.orders h.pending

theorem readMid_others (mid : F) (h : Hour F) (a : Awaited) :
    (h.readMid float mid a).pending = h.pending ∧ (h.readMid float mid a).counts = h.counts := by
  unfold Hour.readMid
  split <;> exact ⟨rfl, rfl⟩

theorem readMids_filed (mid : F) {due rest : List Awaited} (waits : Waits h.orders (due ++ rest)) :
    Waits (due.foldl (Hour.readMid float mid) h).orders rest ∧
      Filed float P h [] (due.foldl (Hour.readMid float mid) h) ∧
      (due.foldl (Hour.readMid float mid) h).pending = h.pending ∧
      (due.foldl (Hour.readMid float mid) h).counts = h.counts := by
  induction due generalizing h with
  | nil => exact ⟨waits, filed_same rfl rfl, rfl, rfl⟩
  | cons a due ih =>
    obtain ⟨still, filed⟩ := readMid_filed (P := P) mid waits
    obtain ⟨waits, later, pending, counts⟩ := ih still
    obtain ⟨pending', counts'⟩ := readMid_others mid h a
    exact ⟨waits, filed.trans later, pending.trans pending', counts.trans counts'⟩

theorem readDue_filed [NatCast F] [Add F] [Div F] (boundary : Int) (sound : h.Sound) :
    (h.readDue float boundary).Sound ∧ Filed float P h [] (h.readDue float boundary) ∧
      (h.readDue float boundary).counts = h.counts := by
  unfold Hour.readDue
  split
  · exact ⟨sound, filed_same rfl rfl, rfl⟩
  · rename_i mid _
    have waits : Waits h.orders
        (h.pending.takeWhile (·.due ≤ boundary) ++ h.pending.dropWhile (·.due ≤ boundary)) := by
      rw [List.takeWhile_append_dropWhile]
      exact sound
    obtain ⟨waits, filed, pending, counts⟩ := readMids_filed (P := P) mid
      (h := { h with pending := h.pending.dropWhile (·.due ≤ boundary) }) waits
    have waiting : Filed float P h [] { h with pending := h.pending.dropWhile (·.due ≤ boundary) } :=
      filed_same rfl rfl
    refine ⟨?_, waiting.trans filed, counts⟩
    unfold Hour.Sound
    rw [pending]
    exact waits

section
variable [Zero F] [Add F] [Sub F] [Max F] [LE F] [DecidableLE F]

theorem print_sound (trade : Print F) (sound : h.Sound) : (h.print trade).Sound := by
  have moved : Waits (h.orders.map (applyTrade · trade)) h.pending := by
    apply sound.map
    · exact fun o => applyTrade_mids o trade
    · intro o filled
      rw [applyTrade_closed]
      · exact filled
      · obtain ⟨t, filled⟩ := Option.isSome_iff_exists.mp filled
        exact filled_closed filled
  have item : ∀ a ∈ (h.orders.zipIdx.flatMap fun entry =>
      if entry.1.isOpen then awaitsFill entry.2 (applyTrade entry.1 trade) else []),
      a.name.ofFill = true ∧ ∃ o, h.orders[a.order]? = some o ∧ o.isOpen = true ∧
        o.mids a.name = none ∧ (applyTrade o trade).filledAt.isSome := by
    intro a mem
    obtain ⟨⟨o, i⟩, place, mem⟩ := List.mem_flatMap.mp mem
    by_cases opened : o.isOpen = true
    · simp only [opened, if_true] at mem
      obtain ⟨order, fill, unread, filled⟩ := mem_awaitsFill mem
      rw [applyTrade_mids] at unread
      refine ⟨fill, o, ?_, opened, unread, filled⟩
      rw [order]
      exact List.mk_mem_zipIdx_iff_getElem?.mp place
    · simp [opened] at mem
  apply moved.pushAll
  · apply keys_flatMap
    intro o i
    simp only
    split
    · exact awaitsFill_own i _
    · exact ⟨by simp, by simp⟩
  · intro a mem
    obtain ⟨_, o, there, _, unread, filled⟩ := item a mem
    refine ⟨applyTrade o trade, ?_, ?_, fun _ => filled⟩
    · rw [List.getElem?_map, there]
      rfl
    · rw [applyTrade_mids]
      exact unread
  · -- what was waited for after a fill is of an order that was filled before
    intro a held b new same
    obtain ⟨fill, o, there, opened, _, _⟩ := item b new
    obtain ⟨p, place, _, filled⟩ := sound.waited a held
    have orders : a.order = b.order := congrArg Prod.fst same
    have names : a.name = b.name := congrArg Prod.snd same
    rw [orders, there] at place
    injection place with place
    subst place
    obtain ⟨unfilled, _⟩ := isOpen_iff.mp opened
    have held_filled := filled (by rw [names]; exact fill)
    rw [unfilled] at held_filled
    cases held_filled

theorem print_filed {trade : Print F} (instant : P trade.ts) : Filed float P h [] (h.print trade) :=
  filed_map (f := (applyTrade · trade)) rfl rfl (fun o => applyTrade_mids o trade)
    fun o => since_print o instant

theorem prints_filed {trades : List (Print F)} (instants : ∀ t ∈ trades, P t.ts) (sound : h.Sound) :
    (trades.foldl Hour.print h).Sound ∧ Filed float P h [] (trades.foldl Hour.print h) ∧
      (trades.foldl Hour.print h).counts = h.counts := by
  induction trades generalizing h with
  | nil => exact ⟨sound, filed_same rfl rfl, rfl⟩
  | cons trade trades ih =>
    obtain ⟨first, rest⟩ := List.forall_mem_cons.mp instants
    obtain ⟨sound', filed, counts⟩ := ih rest (print_sound trade sound)
    exact ⟨sound', (print_filed first).trans filed, counts⟩

end

/- Posts. -/

/-- The orders that were posted or skipped. -/
def Counts.total (c : Counts) : Nat := c.posts + c.skippedNoQuote + c.skippedStale

section
variable [NatCast F] [Add F] [Sub F] [Mul F] [Div F] [DecidableEq F]

/-- One of the orders at the touch. -/
theorem touch_posts {ts : Int} {sides : List (OrderSide × Level)} {made : OrderSide × Level → Nat → Except String (Post F)}
    (stamped : ∀ side size p, made side size = .ok p → p.ts = ts) {posts : List (List (Post F))}
    (read : sides.mapM (fun side => sizeRungs.mapM (made side)) = .ok posts) :
    posts.flatten.length = sides.length * sizeRungs.length ∧ ∀ p ∈ posts.flatten, p.ts = ts := by
  rw [Fallible.mapM_ok] at read
  induction read with
  | nil => simp
  | cons here _ ih =>
    have rungs := Fallible.mapM_ok.mp here
    rw [List.flatten_cons, List.length_append, ← rungs.length_eq, ih.1, List.length_cons]
    refine ⟨by rw [Nat.add_mul, Nat.one_mul, Nat.add_comm], ?_⟩
    intro p mem
    rcases List.mem_append.mp mem with first | later
    · obtain ⟨size, _, made_p⟩ := Fallible.partner_of rungs first
      exact stamped _ size p made_p
    · exact ih.2 p later

theorem postOrders_ok {book : Book} {ts : Int} {pair : String} {stale : Option Int}
    (read : postOrders float book ts pair stale = .ok posts) :
    (posts = [] ∨ posts.length = ordersPerPost) ∧ ∀ p ∈ posts, p.ts = ts := by
  unfold postOrders at read
  split at read
  · obtain ⟨spread, _, read⟩ := Fallible.bind_ok.mp read
    obtain ⟨notionals, _, read⟩ := Fallible.bind_ok.mp read
    obtain ⟨made, of_sides, read⟩ := Fallible.bind_ok.mp read
    injection read with same
    subst same
    obtain ⟨length, stamped⟩ := touch_posts (fun side size p made_p => by
      obtain ⟨_, _, made_p⟩ := Fallible.bind_ok.mp made_p
      injection made_p with same
      rw [← same]) of_sides
    exact ⟨Or.inr length, stamped⟩
  · injection read with same
    subst same
    exact ⟨Or.inl rfl, by simp⟩

theorem postAt_ok {book : Book} {boundary : Int} {pair : String} {lastMsgTs : Option Int} {counts after : Counts}
    (read : postAt float book boundary pair lastMsgTs counts = .ok (posts, after)) :
    (∀ p ∈ posts, p.ts = boundary) ∧ after.posts = counts.posts + posts.length ∧
      after.total = counts.total + ordersPerPost := by
  unfold postAt at read
  split at read
  · injection read with same
    injection same with no_posts counted
    subst no_posts counted
    refine ⟨by simp, by simp, ?_⟩
    simp only [Counts.total]
    omega
  · obtain ⟨made, orders, read⟩ := Fallible.bind_ok.mp read
    obtain ⟨length, stamped⟩ := postOrders_ok orders
    split at read
    · rename_i empty
      injection read with same
      injection same with made_same counted
      subst made_same counted
      have nothing : made = [] := List.isEmpty_iff.mp empty
      subst nothing
      refine ⟨by simp, by simp, ?_⟩
      simp only [Counts.total]
      omega
    · rename_i filled
      injection read with same
      injection same with made_same counted
      subst made_same counted
      have four : made.length = ordersPerPost := by
        rcases length with nothing | four
        · rw [nothing] at filled
          exact absurd rfl filled
        · exact four
      refine ⟨stamped, by rw [four], ?_⟩
      simp only [Counts.total]
      omega

end

theorem Waits.append {orders others : List (Order F)} {pending : List Awaited} (waits : Waits orders pending) :
    Waits (orders ++ others) pending := by
  refine ⟨waits.distinct, ?_⟩
  intro a mem
  obtain ⟨o, there, unread, fill⟩ := waits.waited a mem
  refine ⟨o, ?_, unread, fill⟩
  rw [List.getElem?_append_left (List.getElem?_eq_some_iff.mp there).1]
  exact there

theorem posted_carried [Zero F] (posts : List (Post F)) :
    (posts.map Post.order).filter Order.isCarried = posts.map Post.order := by
  rw [List.filter_eq_self]
  intro o mem
  obtain ⟨p, _, rfl⟩ := List.mem_map.mp mem
  rfl

theorem posted_keys [Zero F] (posts : List (Post F)) : (posts.map Post.order).map Order.toPost = posts := by
  rw [List.map_map]
  exact List.map_id posts

variable [Zero F] [NatCast F] [Add F] [Sub F] [Mul F] [Div F] [Max F] [Min F] [LE F] [DecidableLE F]
  [DecidableEq F] {pair : String}

/-- The posts of a boundary. -/
theorem post_filed {boundary : Int} (sound : h.Sound) (stepped : h.post float pair boundary = .ok next) :
    next.Sound ∧ ∃ posts, Filed float P h posts next ∧ (∀ p ∈ posts, p.ts = boundary) ∧
      next.counts.posts = h.counts.posts + posts.length ∧
      next.counts.total = h.counts.total + ordersPerPost := by
  unfold Hour.post at stepped
  obtain ⟨⟨posts, counts⟩, posted, stepped⟩ := Fallible.bind_ok.mp stepped
  injection stepped with same
  subst same
  obtain ⟨stamped, counted, total⟩ := postAt_ok posted
  have item : ∀ a ∈ ((posts.map Post.order).zipIdx h.orders.length).flatMap (fun entry =>
      awaits entry.2 entry.1 postMids entry.1.ts), a.name.ofFill = false ∧ h.orders.length ≤ a.order ∧
        ∃ o, (posts.map Post.order)[a.order - h.orders.length]? = some o ∧ o.mids a.name = none := by
    intro a mem
    obtain ⟨⟨o, i⟩, place, mem⟩ := List.mem_flatMap.mp mem
    obtain ⟨order, of_post, unread⟩ := mem_awaitsPost mem
    obtain ⟨above, there⟩ := List.mk_mem_zipIdx_iff_le_and_getElem?_sub.mp place
    rw [order]
    exact ⟨of_post, above, o, there, unread⟩
  refine ⟨?_, posts, ?_, stamped, counted, total⟩
  · apply Waits.pushAll (Waits.append sound)
    · exact keys_flatMap fun o i => awaitsPost_own i o _
    · intro a mem
      obtain ⟨of_post, above, o, there, unread⟩ := item a mem
      refine ⟨o, ?_, unread, fun of_fill => ?_⟩
      · rw [List.getElem?_append_right above]
        exact there
      · rw [of_post] at of_fill
        cases of_fill
    · intro a held b new keys
      obtain ⟨_, above, _⟩ := item b new
      obtain ⟨o, there, _⟩ := sound.waited a held
      have inside := (List.getElem?_eq_some_iff.mp there).1
      have orders : a.order = b.order := congrArg Prod.fst keys
      omega
  · refine ⟨by rw [List.map_append, posted_keys], [], by simp, ?_⟩
    have joined : Members.Onward (Since P) Order.toPost h.carried ((posts.map Post.order).map Order.toPost)
        (h.carried ++ posts.map Post.order) := Members.of_joined (posts.map Post.order)
    rw [posted_keys] at joined
    unfold Hour.carried at joined ⊢
    rw [List.nil_append, List.filter_append, posted_carried]
    exact joined

/- A second, and many. -/

/-- What an hour has gone through: its posts, at some of the grid's seconds. -/
structure Went (float : Decimal → F) (P : Int → Prop) (h : Hour F) (posts : List (Post F)) (grid : Nat)
    (next : Hour F) : Prop where
  sound : next.Sound
  filed : Filed float P h posts next
  counted : next.counts.posts = h.counts.posts + posts.length
  total : next.counts.total = h.counts.total + ordersPerPost * grid

theorem Went.trans {grid grid' : Nat} (first : Went float P h posts grid s)
    (second : Went float P s more grid' next) : Went float P h (posts ++ more) (grid + grid') next where
  sound := second.sound
  filed := first.filed.trans second.filed
  counted := by rw [second.counted, first.counted, List.length_append, Nat.add_assoc]
  total := by rw [second.total, first.total, Nat.mul_add, Nat.add_assoc]

/-- A step that posts nothing. -/
theorem went_unposted (sound : next.Sound) (filed : Filed float P h [] next) (counts : next.counts = h.counts) :
    Went float P h [] 0 next :=
  ⟨sound, filed, by rw [counts]; rfl, by rw [counts]; rfl⟩

theorem ingest_others {m : Message} (read : h.ingest m = .ok next) :
    next.orders = h.orders ∧ next.pending = h.pending ∧ next.rows = h.rows ∧ next.counts = h.counts := by
  obtain ⟨book, _, same⟩ := Fallible.bind_ok.mp read
  injection same with same
  subst same
  exact ⟨rfl, rfl, rfl, rfl⟩

theorem ingests_others {messages : List Message} (read : messages.foldlM Hour.ingest h = .ok next) :
    next.orders = h.orders ∧ next.pending = h.pending ∧ next.rows = h.rows ∧ next.counts = h.counts := by
  induction messages generalizing h with
  | nil =>
    injection read with same
    rw [same]
    exact ⟨rfl, rfl, rfl, rfl⟩
  | cons m messages ih =>
    rw [List.foldlM_cons] at read
    obtain ⟨mid, first, rest⟩ := Fallible.bind_ok.mp read
    obtain ⟨orders, pending, rows, counts⟩ := ih rest
    obtain ⟨orders', pending', rows', counts'⟩ := ingest_others first
    exact ⟨orders.trans orders', pending.trans pending', rows.trans rows', counts.trans counts'⟩

theorem ingests_went {messages : List Message} (sound : h.Sound)
    (read : messages.foldlM Hour.ingest h = .ok next) : Went float P h [] 0 next := by
  obtain ⟨orders, pending, rows, counts⟩ := ingests_others read
  refine went_unposted ?_ (filed_same orders rows) counts
  unfold Hour.Sound
  rw [orders, pending]
  exact sound

/-- The clock of every order at a boundary. -/
theorem boundary_went {boundary : Int} (instant : P boundary) (sound : h.Sound) :
    Went float P h [] 0 { h with orders := h.orders.map (tickCancel float h.book boundary h.tick) } := by
  have mids := tickCancel_mids float h.book boundary h.tick
  refine went_unposted ?_ (filed_map rfl rfl mids fun o => since_boundary float h.book h.tick o instant) rfl
  apply sound.map mids
  intro o filled
  rw [tickCancel_filled]
  exact filled

theorem second_went {boundary : Int} {onGrid : Bool} {messages : List Message} {prints : List (Print F)}
    (instant : P boundary) (instants : ∀ t ∈ prints, P t.ts) (sound : h.Sound)
    (stepped : h.second float pair boundary onGrid messages prints = .ok next) :
    ∃ posts, Went float P h posts (if onGrid then 1 else 0) next ∧ ∀ p ∈ posts, p.ts = boundary := by
  unfold Hour.second at stepped
  obtain ⟨read, ingested, stepped⟩ := Fallible.bind_ok.mp stepped
  have went_read : Went float P h [] 0 read := ingests_went sound ingested
  set ticked : Hour F := if onGrid then { read with tick := pairTick read.book } else read with of_ticked
  have went_ticked : Went float P read [] 0 ticked := by
    cases onGrid
    · exact went_unposted went_read.sound (filed_same rfl rfl) rfl
    · exact went_unposted went_read.sound (filed_same rfl rfl) rfl
  obtain ⟨sound_printed, filed_printed, counts_printed⟩ :=
    prints_filed instants went_ticked.sound
  have went_printed := went_unposted sound_printed filed_printed counts_printed
  have went_clock : Went float P (prints.foldl Hour.print ticked) [] 0 _ := boundary_went instant sound_printed
  obtain ⟨sound_due, filed_due, counts_due⟩ :=
    readDue_filed (P := P) boundary went_clock.sound
  have went_due := went_unposted sound_due filed_due counts_due
  have before := (((went_read.trans went_ticked).trans went_printed).trans went_clock).trans went_due
  cases onGrid with
  | false =>
    injection stepped with same
    subst same
    exact ⟨[], before, by simp⟩
  | true =>
    obtain ⟨sound_post, posts, filed_post, stamped, counted, total⟩ :=
      post_filed (P := P) sound_due stepped
    have went_post : Went float P _ posts 1 next :=
      ⟨sound_post, filed_post, counted, by rw [total, Nat.mul_one]⟩
    exact ⟨posts, before.trans went_post, stamped⟩

def gridSeconds (ks : List Nat) : Nat := ks.countP (· % gridS = 0)

theorem seconds_went {hour : Int} {ks : List Nat} {messages messages' : List Message}
    {prints prints' : List (Print F)} (instants : ∀ k ∈ ks, P (boundaryOf hour k))
    (times : ∀ t ∈ prints, P t.ts) (sound : h.Sound)
    (ran : Hour.seconds float pair hour ks h messages prints = .ok (next, messages', prints')) :
    (∃ posts, Went float P h posts (gridSeconds ks) next ∧
      ∀ p ∈ posts, ∃ k ∈ ks, p.ts = boundaryOf hour k) ∧ ∀ t ∈ prints', P t.ts := by
  induction ks generalizing h messages prints with
  | nil =>
    injection ran with same
    injection same with same rest
    injection rest with _ left
    subst same left
    exact ⟨⟨[], went_unposted sound (filed_same rfl rfl) rfl, by simp⟩, times⟩
  | cons k ks ih =>
    obtain ⟨first, later⟩ := List.forall_mem_cons.mp instants
    unfold Hour.seconds at ran
    obtain ⟨mid, stepped, ran⟩ := Fallible.bind_ok.mp ran
    have taken : ∀ t ∈ prints.takeWhile (·.ts ≤ boundaryOf hour k), P t.ts := fun t mem =>
      times t ((List.takeWhile_sublist _).subset mem)
    obtain ⟨posts, went, stamped⟩ := second_went first taken sound stepped
    have left : ∀ t ∈ prints.dropWhile (·.ts ≤ boundaryOf hour k), P t.ts := fun t mem =>
      times t ((List.dropWhile_sublist _).subset mem)
    obtain ⟨⟨more, went', stamped'⟩, rest⟩ := ih later left went.sound ran
    refine ⟨⟨posts ++ more, ?_, ?_⟩, rest⟩
    · have both := went.trans went'
      have grid : (if decide (k % gridS = 0) = true then 1 else 0) + gridSeconds ks = gridSeconds (k :: ks) := by
        unfold gridSeconds
        rw [List.countP_cons, Nat.add_comm]
      rwa [grid] at both
    · intro p mem
      rcases List.mem_append.mp mem with here | there
      · exact ⟨k, List.mem_cons_self, stamped p here⟩
      · obtain ⟨j, of_ks, same⟩ := stamped' p there
        exact ⟨j, List.mem_cons_of_mem _ of_ks, same⟩

/-- The prints after the last boundary. -/
theorem applied_filed {prints : List (Print F)} (times : ∀ t ∈ prints, P t.ts) (h : Hour F) :
    Filed float P h [] { h with
      orders := prints.foldl (fun orders trade => orders.map (applyTrade · trade)) h.orders } := by
  induction prints generalizing h with
  | nil => exact filed_same rfl rfl
  | cons trade prints ih =>
    obtain ⟨first, later⟩ := List.forall_mem_cons.mp times
    have one : Filed float P h [] { h with orders := h.orders.map (applyTrade · trade) } :=
      filed_map (f := (applyTrade · trade)) rfl rfl (fun o => applyTrade_mids o trade)
        fun o => since_print o first
    exact one.trans (ih later { h with orders := h.orders.map (applyTrade · trade) })

theorem rest_filed {messages : List Message} {prints : List (Print F)} (times : ∀ t ∈ prints, P t.ts)
    (ran : h.rest messages prints = .ok next) : Filed float P h [] next ∧ next.counts = h.counts := by
  unfold Hour.rest at ran
  obtain ⟨read, ingested, ran⟩ := Fallible.bind_ok.mp ran
  injection ran with same
  subst same
  obtain ⟨orders, pending, rows, counts⟩ := ingests_others ingested
  exact ⟨(filed_same orders rows).trans (applied_filed times read), counts⟩

omit [DecidableEq F] [NatCast F] [Zero F] [Add F] [Sub F] [Mul F] [Div F] [Max F] [Min F] [LE F] [DecidableLE F] in
theorem start_sound (book : Book) (lastMsgTs : Option Int) (carried : List (Order F)) :
    (Hour.start book lastMsgTs carried).Sound := by
  have nothing : Waits carried [] := ⟨List.nodup_nil, by simp⟩
  apply nothing.pushAll
  · apply keys_flatMap
    intro o i
    obtain ⟨posts, post_names⟩ := awaitsPost_own i o o.ts
    obtain ⟨fills, fill_names⟩ := awaitsFill_own i o
    refine ⟨?_, ?_⟩
    · intro a mem
      rcases List.mem_append.mp mem with post | fill
      · exact posts a post
      · exact fills a fill
    · rw [List.map_append, List.nodup_append]
      refine ⟨post_names, fill_names, ?_⟩
      intro x first y second same
      obtain ⟨a, post, rfl⟩ := List.mem_map.mp first
      obtain ⟨b, fill, rfl⟩ := List.mem_map.mp second
      have of_post := (mem_awaitsPost post).2.1
      have of_fill := (mem_awaitsFill fill).2.1
      rw [same, of_fill] at of_post
      cases of_post
  · intro a mem
    obtain ⟨⟨o, i⟩, place, mem⟩ := List.mem_flatMap.mp mem
    have there := List.mk_mem_zipIdx_iff_getElem?.mp place
    rcases List.mem_append.mp mem with post | fill
    · obtain ⟨order, of_post, unread⟩ := mem_awaitsPost post
      refine ⟨o, by rw [order]; exact there, unread, fun of_fill => ?_⟩
      rw [of_post] at of_fill
      cases of_fill
    · obtain ⟨order, _, unread, filled⟩ := mem_awaitsFill fill
      exact ⟨o, by rw [order]; exact there, unread, fun _ => filled⟩
  · simp

end

end Panel
