import Mathlib.Data.List.Induction
import Zcrypto.Capture.HourOracle
import Zcrypto.Capture.Merging

/- No hour is finalized, nor a later one opened, before it has ended: what a writer may do is bounded
   by the hour the oracle confirmed, and that by the true time wherever one stream at most runs ahead. -/
namespace Segments
open Effects Effects.Prog

/-- An instant at which an hour starts. -/
def Aligned (hour : Int) : Prop := hour % hourMicros = 0

theorem aligned_hourStart (ts : Int) : Aligned (hourStart ts) := by
  unfold Aligned hourStart hourMicros
  omega

theorem hourStart_le (ts : Int) : hourStart ts ≤ ts := by
  unfold hourStart hourMicros
  omega

theorem hourStart_mono {a b : Int} (le : a ≤ b) : hourStart a ≤ hourStart b := by
  unfold hourStart hourMicros
  omega

theorem aligned_next {a b : Int} (one : Aligned a) (two : Aligned b) (less : a < b) :
    a + hourMicros ≤ b := by
  unfold Aligned hourMicros at *
  omega

/-- Whether an hour's rows have been merged or published. -/
def HourFiles.finalized (f : HourFiles) : Bool := f.merging.isSome || f.final.isSome

/-- A writer that has opened no hour past a limit, and finalized none that is not before it. -/
structure Within (limit : Int) (t : Tape) : Prop where
  current : ∀ h, t.mem.currentHour = some h → Aligned h ∧ h ≤ limit
  held : ∀ e ∈ t.mem.held, Aligned e.1
  parts : ∀ h, (t.disk.files h).parts ≠ [] → Aligned h
  done : ∀ h, (t.disk.files h).finalized = true → Aligned h ∧ h < limit

section
variable {limit : Int} {w : World} {t : Tape} {hour : Int} {f : HourFiles}

theorem Within.later {next : Int} (within : Within limit t) (le : limit ≤ next) : Within next t := by
  refine ⟨?_, within.held, within.parts, ?_⟩
  · intro h same
    obtain ⟨aligned, before⟩ := within.current h same
    exact ⟨aligned, by omega⟩
  · intro h done
    obtain ⟨aligned, before⟩ := within.done h done
    exact ⟨aligned, by omega⟩

theorem Within.asked {n : Nat} (within : Within limit t) : Within limit { t with asked := n } :=
  ⟨within.current, within.held, within.parts, within.done⟩

theorem Within.traced {trace : List Event} (within : Within limit t) :
    Within limit { t with trace := trace } :=
  ⟨within.current, within.held, within.parts, within.done⟩

theorem Within.mkdir (within : Within limit t) :
    Within limit { t with disk := t.disk.mkdir hour } := by
  have same : (t.disk.mkdir hour).files = t.disk.files := by
    unfold Disk.mkdir
    split <;> rfl
  refine ⟨within.current, within.held, ?_, ?_⟩
  · intro h
    rw [same]
    exact within.parts h
  · intro h
    rw [same]
    exact within.done h

/-- An hour's files become others. -/
theorem Within.put (within : Within limit t) (parts : f.parts ≠ [] → Aligned hour)
    (done : f.finalized = true → Aligned hour ∧ hour < limit) :
    Within limit { t with disk := t.disk.put hour f } := by
  refine ⟨within.current, within.held, ?_, ?_⟩
  · intro h
    unfold Disk.put
    simp only [Function.update_apply]
    split
    · rename_i same
      rw [same]
      exact parts
    · exact within.parts h
  · intro h
    unfold Disk.put
    simp only [Function.update_apply]
    split
    · rename_i same
      rw [same]
      exact done
    · exact within.done h

/-- Whatever happens to the files of an hour before the limit. -/
theorem Within.put_before (within : Within limit t) (aligned : Aligned hour) (before : hour < limit) :
    Within limit { t with disk := t.disk.put hour f } :=
  within.put (fun _ => aligned) fun _ => ⟨aligned, before⟩

abbrev Bound {α : Type} (w : World) (limit : Int) (m : Seg α) : Prop := Keeps w (Within limit) m

theorem bound_fileOp : Bound w limit fileOp := keeps_fileOp fun _ _ _ within => within.asked

theorem bound_utcnow : Bound w limit utcnow := fun _ within => within.asked

theorem bound_setMem {f : Mem → Mem} (current : ∀ m, (f m).currentHour = m.currentHour)
    (held : ∀ m, (f m).held = m.held) : Bound w limit (setMem f) := by
  apply keeps_modify
  intro t within
  refine ⟨?_, ?_, within.parts, within.done⟩
  · intro h same
    exact within.current h (by rw [← current]; exact same)
  · intro e mem
    exact within.held e (by rw [← held]; exact mem)

theorem bound_replaceDurably {g : Tape → Tape} (renamed : ∀ t, Within limit t → Within limit (g t)) :
    Bound w limit (replaceDurably g) := by
  unfold replaceDurably
  apply keeps_bind bound_fileOp
  intro _
  apply keeps_bind bound_fileOp
  intro _
  exact keeps_bind (keeps_modify renamed) fun _ => bound_fileOp

/-- Whatever is merged of an hour before the limit. -/
theorem within_outlasts (aligned : Aligned hour) (before : hour < limit) :
    Outlasts hour (Within limit) := by
  refine ⟨fun _ _ _ within => within.asked, ?_, ?_⟩
  · exact fun t f within _ _ => within.put_before aligned before
  · exact fun t file within => (within.put_before aligned before).traced

theorem bound_mergeHour (aligned : Aligned hour) (before : hour < limit) :
    Bound w limit (mergeHour hour) :=
  (within_outlasts aligned before).mergeHour

theorem bound_sweep {before : Int} (le : before ≤ limit) : Bound w limit (sweep before) := by
  unfold sweep
  apply keeps_gets_bind
  intro t within
  apply keeps_forEach_mem _ t within
  intro hour mem
  simp only [Disk.hoursWith, List.mem_filter, List.mem_insertionSort, decide_eq_true_eq] at mem
  obtain ⟨⟨-, parts⟩, less⟩ := mem
  exact bound_mergeHour (within.parts hour parts) (by omega)

/- The open hour. -/

theorem Within.landPart {rows : List Row} (within : Within limit t) (aligned : Aligned hour)
    (done : f.finalized = true → Aligned hour ∧ hour < limit) :
    Within limit (t.landPart hour rows f) := by
  have put : Within limit
      { t with disk := t.disk.put hour { f with parts := f.parts ++ [⟨nextSeq f.parts, rows⟩] } } :=
    within.put (fun _ => aligned) done
  exact put.traced

theorem bound_writePart (aligned : Aligned hour) (rows : List Row) (marker : Marker) :
    Bound w limit (writePart rows hour marker) := by
  unfold writePart
  apply keeps_attempt _ (keeps_pure _)
  apply keeps_bind bound_fileOp
  intro _
  apply keeps_bind
  · exact keeps_modify fun t within => within.mkdir
  intro _
  apply keeps_bind bound_fileOp
  intro _
  apply keeps_bind _ fun _ => keeps_pure _
  apply bound_replaceDurably
  intro t within
  cases marker with
  | part => exact within.landPart aligned (within.done hour)
  | held => exact within.put (within.parts hour) (within.done hour)

theorem bound_diskKeys (files : List File) : Bound w limit (diskKeys files) := by
  unfold diskKeys
  apply keeps_ite (fun _ => keeps_pure _)
  intro _
  apply keeps_attempt (keeps_bind bound_fileOp fun _ => keeps_pure _)
  apply keeps_bind _ fun _ => keeps_pure _
  apply keeps_collect
  intro file
  exact keeps_attempt (keeps_bind bound_fileOp fun _ => keeps_pure _) (keeps_pure _)

theorem bound_flushBuffer : Bound w limit flushBuffer := by
  unfold flushBuffer
  apply keeps_gets_bind
  intro t within
  apply keeps_ite (fun _ => keeps_pure _) _ t within
  intro _
  cases opened : t.mem.currentHour with
  | none => exact fun t within => within
  | some hour =>
    show Bound w limit (writePart t.mem.buffer hour .part >>= _)
    apply keeps_bind (bound_writePart (within.current hour opened).1 _ _)
    intro _
    exact bound_setMem (fun _ => rfl) fun _ => rfl

theorem bound_finalizeHour (aligned : Aligned hour) (before : hour < limit) :
    Bound w limit (finalizeHour hour) :=
  keeps_bind bound_flushBuffer fun _ => bound_mergeHour aligned before

theorem bound_redeemHeld (aligned : Aligned hour) : Bound w limit (redeemHeld hour) := by
  unfold redeemHeld
  apply keeps_bind (keeps_gets _)
  intro f
  apply keeps_forEach
  intro file
  apply keeps_attempt _ (keeps_pure _)
  apply keeps_bind bound_fileOp
  intro _
  exact keeps_modify fun t within => within.landPart aligned (within.done hour)

theorem bound_openHour (aligned : Aligned hour) (le : hour ≤ limit) :
    Bound w limit (openHour hour) := by
  have seeds (keys : List String) : Bound w limit (setMem fun m => { m with seen := keys }) :=
    bound_setMem (fun _ => rfl) fun _ => rfl
  unfold openHour
  apply keeps_bind
  · apply keeps_modify
    intro t within
    refine ⟨?_, within.held, within.parts, within.done⟩
    intro h same
    obtain rfl : hour = h := by simpa using same
    exact ⟨aligned, le⟩
  intro _
  apply keeps_bind (bound_redeemHeld aligned)
  intro _
  apply keeps_bind (seeds [])
  intro _
  apply keeps_bind (keeps_env _)
  intro dedup
  apply keeps_ite _ fun _ => keeps_pure _
  intro _
  apply keeps_bind (keeps_gets _)
  intro f
  exact keeps_bind (bound_diskKeys _) seeds

theorem bound_enterHour (aligned : Aligned hour) (le : hour ≤ limit) :
    Bound w limit (enterHour hour) := by
  unfold enterHour
  apply keeps_gets_bind
  intro t within
  cases opened : t.mem.currentHour with
  | none => exact keeps_bind (bound_sweep le) (fun _ => bound_openHour aligned le) t within
  | some current =>
    apply keeps_ite _ (fun _ => keeps_pure _) t within
    intro less
    apply keeps_bind
    · exact bound_finalizeHour (within.current current opened).1 (by omega)
    · exact fun _ => bound_openHour aligned le

/- Rows. -/

theorem bound_anchor (ts : Int) : Bound w limit (anchor ts) := by
  unfold anchor
  apply keeps_bind (keeps_gets _)
  intro m
  apply keeps_ite _ fun _ => keeps_pure _
  intro _
  apply keeps_bind bound_utcnow
  intro now
  exact bound_setMem (fun _ => rfl) fun _ => rfl

theorem bound_store (event : Row) : Bound w limit (store event) := by
  unfold store
  apply keeps_bind (bound_anchor _)
  intro _
  apply keeps_bind
  · exact bound_setMem (fun _ => rfl) fun _ => rfl
  intro _
  apply keeps_bind (keeps_gets _)
  intro m
  apply keeps_bind (keeps_env _)
  intro flushRows
  exact keeps_when bound_flushBuffer

theorem bound_admitRow (event : Row) : Bound w limit (admitRow event) := by
  unfold admitRow
  apply keeps_bind (keeps_gets _)
  intro m
  apply keeps_bind (keeps_env _)
  intro dedup
  apply keeps_ite _ fun _ => bound_store event
  intro _
  apply keeps_ite (fun _ => keeps_pure _)
  intro _
  exact keeps_bind (bound_setMem (fun _ => rfl) fun _ => rfl) fun _ => bound_store event

theorem bound_heldKeys (hour : Int) : Bound w limit (heldKeys hour) := by
  unfold heldKeys
  apply keeps_bind (keeps_gets _)
  intro m
  cases m.heldSeen.lookup hour with
  | some keys => exact keeps_pure keys
  | none =>
    apply keeps_bind (keeps_gets _)
    intro f
    apply keeps_bind (bound_diskKeys _)
    intro keys
    exact keeps_bind (bound_setMem (fun _ => rfl) fun _ => rfl) fun _ => keeps_pure _

theorem mem_assign {α : Type} {xs : List (Int × α)} {a : α} {e : Int × α}
    (mem : e ∈ assign xs hour a) : e.1 = hour ∨ ∃ old ∈ xs, old.1 = e.1 := by
  unfold assign at mem
  split at mem
  · obtain ⟨old, inside, rfl⟩ := List.mem_map.mp mem
    split
    · exact .inl rfl
    · exact .inr ⟨old, inside, rfl⟩
  · simp only [List.mem_append, List.mem_singleton] at mem
    rcases mem with inside | rfl
    · exact .inr ⟨e, inside, rfl⟩
    · exact .inl rfl

theorem bound_assign (rows : Mem → List Row) (aligned : Aligned hour) :
    Bound w limit (setMem fun m => { m with held := assign m.held hour (rows m) }) := by
  apply keeps_modify
  intro t within
  refine ⟨within.current, ?_, within.parts, within.done⟩
  intro e mem
  rcases mem_assign mem with same | ⟨old, inside, same⟩
  · rw [same]
    exact aligned
  · rw [← same]
    exact within.held old inside

theorem bound_park (aligned : Aligned hour) (event : Row) : Bound w limit (park hour event) := by
  unfold park
  apply keeps_bind
  · exact bound_assign _ aligned
  intro _
  apply keeps_bind (bound_anchor _)
  intro _
  apply keeps_bind (keeps_gets _)
  intro m
  apply keeps_bind (keeps_env _)
  intro flushRows
  apply keeps_when
  apply keeps_bind (bound_writePart aligned _ _)
  intro _
  exact bound_assign (fun _ => []) aligned

theorem bound_hold (aligned : Aligned hour) (event : Row) : Bound w limit (hold hour event) := by
  unfold hold
  apply keeps_bind (keeps_env _)
  intro dedup
  apply keeps_ite _ fun _ => bound_park aligned event
  intro _
  apply keeps_bind (bound_heldKeys hour)
  intro keys
  apply keeps_ite (fun _ => keeps_pure _)
  intro _
  exact keeps_bind (bound_setMem (fun _ => rfl) fun _ => rfl) fun _ => bound_park aligned event

theorem bound_drain (aligned : Aligned hour) (le : hour ≤ limit) :
    Bound w limit (drain hour) := by
  unfold drain
  apply keeps_bind (keeps_gets _)
  intro m
  apply keeps_bind
  · apply keeps_modify
    intro t within
    refine ⟨within.current, ?_, within.parts, within.done⟩
    intro e mem
    exact within.held e (List.mem_filter.mp mem).1
  intro _
  apply keeps_bind (bound_enterHour aligned le)
  intro _
  exact keeps_forEach bound_admitRow

/-- What the oracle confirms in a call is not past the limit. -/
def Limited (w : World) (limit : Int) : Prop := ∀ n c, w.confirmed n = some c → c ≤ limit

theorem bound_corroborate (limited : Limited w limit) (aligned : Aligned hour) (event : Row) :
    Bound w limit (corroborate hour event) := by
  intro t within
  have reached {n : Nat} {h : Int} (yes : (w.confirmed n).any (h ≤ ·) = true) : h ≤ limit := by
    obtain ⟨c, same, le⟩ := (Option.any_eq_true ..).mp yes
    have := limited n c same
    simp only [decide_eq_true_eq] at le
    omega
  unfold corroborate
  rw [wp_bind]
  show wp w _ _ { t with asked := t.asked + 1 }
  apply keeps_gets_bind _ _ within.asked
  intro t' within'
  apply keeps_bind _ _ t' within'
  · apply keeps_forEach_mem
    intro h mem
    simp only [List.mem_insertionSort, List.mem_filter, decide_eq_true_eq, List.mem_map,
      Bool.decide_and, Bool.and_eq_true] at mem
    obtain ⟨⟨e, inside, rfl⟩, -, yes⟩ := mem
    exact bound_drain (within'.held e inside) (reached yes)
  · intro _
    apply keeps_ite
    · intro yes
      exact keeps_bind (bound_enterHour aligned (reached yes)) fun _ => bound_admitRow event
    · exact fun _ => bound_hold aligned event

theorem bound_append (limited : Limited w limit) (oracle : w.oracle = true) (event : Row) :
    Bound w limit (append event) := by
  unfold append
  apply keeps_bind bound_utcnow
  intro now
  apply keeps_bind (keeps_gets _)
  intro m
  apply keeps_ite
  · intro _
    apply bound_setMem
    all_goals
      intro m
      unfold Mem.refuse
      split <;> rfl
  intro _
  apply keeps_bind
  · exact bound_setMem (fun _ => rfl) fun _ => rfl
  intro _
  apply keeps_ite (fun _ => keeps_pure _)
  intro _ t within
  rw [wp_bind, wp_env, oracle]
  exact bound_corroborate limited (aligned_hourStart _) event t within

theorem bound_close : Bound w limit close := by
  unfold close
  apply keeps_bind bound_flushBuffer
  intro _
  apply keeps_gets_bind
  intro t within
  apply keeps_bind _ _ t within
  · apply keeps_forEach_mem
    intro e mem
    apply keeps_when
    exact keeps_bind (bound_writePart (within.held e mem) _ _) fun _ => keeps_pure _
  · intro _
    apply keeps_modify
    intro t within
    exact ⟨within.current, by simp, within.parts, within.done⟩

/- Construction. -/

theorem bound_recover : Bound w limit recover := by
  unfold recover
  apply keeps_gets_bind
  intro t within
  apply keeps_bind _ _ t within
  · apply keeps_forEach_mem
    intro hour mem
    simp only [Disk.hoursWith, List.mem_filter, List.mem_insertionSort] at mem
    obtain ⟨aligned, before⟩ := within.done hour (by simp [HourFiles.finalized, mem.2])
    exact keeps_attempt (within_outlasts aligned before).recoverHour (keeps_pure _)
  intro _
  apply keeps_bind (keeps_gets _)
  intro segments
  apply keeps_bind
  · apply keeps_collect
    intro hour
    exact keeps_bind bound_utcnow fun _ => keeps_pure _
  intro closed
  exact bound_setMem (fun _ => rfl) fun _ => rfl

theorem bound_construct : Bound w limit construct := by
  unfold construct
  apply keeps_bind bound_utcnow
  intro now
  apply keeps_bind _ fun _ => bound_recover
  apply keeps_modify
  intro t within
  refine ⟨?_, ?_, within.parts, within.done⟩
  · simp [Mem.fresh]
  · simp [Mem.fresh]

end

/- The oracle. -/

section
variable {S : Type}

/-- Where one stream at most has a stamp past an instant, one stamp at most is past it. -/
theorem few_past {p : S} {now : Int} {l : List (S × Int)} (nodup : (l.map Prod.fst).Nodup)
    (others : ∀ e ∈ l, e.1 ≠ p → e.2 ≤ now) : (l.map Prod.snd).countP (now < ·) ≤ 1 := by
  induction l with
  | nil => simp
  | cons first rest ih =>
    rw [List.map_cons, List.nodup_cons] at nodup
    have fewer := ih nodup.2 fun e mem => others e (List.mem_cons_of_mem first mem)
    rw [List.map_cons, List.countP_cons]
    by_cases past : now < first.2
    · have poisoned : first.1 = p := by
        by_contra other
        have := others first List.mem_cons_self other
        omega
      have none : (rest.map Prod.snd).countP (now < ·) = 0 := by
        rw [List.countP_eq_zero]
        intro ts mem
        obtain ⟨e, inside, rfl⟩ := List.mem_map.mp mem
        have different : e.1 ≠ p := by
          intro same
          exact nodup.1 (List.mem_map.mpr ⟨e, inside, same.trans poisoned.symm⟩)
        have := others e (List.mem_cons_of_mem first inside) different
        simp only [decide_eq_true_eq]
        omega
      simp [none, past]
    · simpa [past] using fewer

/-- The second witness is not past an instant that one witness at most is past. -/
theorem second_le {l : List Int} {now t : Int} (few : l.countP (now < ·) ≤ 1)
    (second : (l.insertionSort (· ≥ ·))[1]? = some t) : t ≤ now := by
  have sorted := List.pairwise_insertionSort (· ≥ ·) l
  rw [← (List.perm_insertionSort (· ≥ ·) l).countP_eq] at few
  generalize l.insertionSort (· ≥ ·) = witnesses at *
  match witnesses with
  | [] => simp at second
  | [_] => simp at second
  | first :: t' :: rest =>
    obtain rfl : t' = t := by simpa using second
    have descending : first ≥ t' := (List.pairwise_cons.mp sorted).1 t' List.mem_cons_self
    by_contra past
    have both : now < first ∧ now < t' := by omega
    simp [both.1, both.2] at few

theorem confirm_witnessed (o : HourOracle S) (now : Int) :
    (o.confirm now).witnessed = o.witnessed := by
  unfold HourOracle.confirm
  split
  · split <;> rfl
  · rfl

/-- What is confirmed stays, or the hour of the second witness, a later one, is. -/
theorem confirm_cases (o : HourOracle S) (now : Int) :
    (o.confirm now).confirmed = o.confirmed ∨
    ∃ t, (o.witnesses now)[1]? = some t ∧ (o.confirm now).confirmed = some (hourStart t) ∧
      ∀ c, o.confirmed = some c → c < hourStart t := by
  unfold HourOracle.confirm
  cases second : (o.witnesses now)[hourQuorum - 1]? with
  | none => exact .inl rfl
  | some t =>
    simp only
    split
    · rename_i later
      refine .inr ⟨t, second, rfl, ?_⟩
      intro c same
      simpa [same] using later
    · exact .inl rfl

theorem mem_witnesses {o : HourOracle S} {now t : Int} (mem : t ∈ o.witnesses now) :
    (∃ e ∈ o.witnessed, e.2 = t) ∨ t = now - clockWitnessMargin := by
  unfold HourOracle.witnesses at mem
  rw [List.mem_insertionSort, List.mem_append, List.mem_map, List.mem_singleton] at mem
  exact mem

/-- Every stamp, and the hour that is confirmed, is within the window of a clock reading. -/
structure Vouched (o : HourOracle S) (readings : List Int) : Prop where
  stamps : ∀ e ∈ o.witnessed, ∃ r ∈ readings, e.2 ≤ r + maxTsAhead
  confirmed : ∀ c, o.confirmed = some c → ∃ r ∈ readings, c ≤ r + maxTsAhead

theorem Vouched.more {o : HourOracle S} {readings : List Int} (h : Vouched o readings) (r : Int) :
    Vouched o (r :: readings) := by
  constructor
  · intro e mem
    obtain ⟨r', inside, le⟩ := h.stamps e mem
    exact ⟨r', List.mem_cons_of_mem r inside, le⟩
  · intro c same
    obtain ⟨r', inside, le⟩ := h.confirmed c same
    exact ⟨r', List.mem_cons_of_mem r inside, le⟩

theorem Vouched.confirm {o : HourOracle S} {readings : List Int} (h : Vouched o readings)
    (now : Int) : Vouched (o.confirm now) (now :: readings) := by
  constructor
  · rw [confirm_witnessed]
    exact (h.more now).stamps
  · intro c same
    rcases confirm_cases o now with stays | ⟨t, second, moved, -⟩
    · rw [stays] at same
      exact (h.more now).confirmed c same
    · rw [moved] at same
      obtain rfl : hourStart t = c := by simpa using same
      have le := hourStart_le t
      rcases mem_witnesses (List.mem_of_getElem? second) with ⟨e, inside, rfl⟩ | rfl
      · obtain ⟨r, there, within⟩ := (h.more now).stamps e inside
        exact ⟨r, there, by omega⟩
      · refine ⟨now, List.mem_cons_self, ?_⟩
        unfold clockWitnessMargin maxTsAhead at *
        omega

/-- No stamp of another stream is past an instant, nor an hour confirmed that it is not in. -/
structure Truthful (p : S) (now : Int) (o : HourOracle S) : Prop where
  nodup : (o.witnessed.map Prod.fst).Nodup
  others : ∀ e ∈ o.witnessed, e.1 ≠ p → e.2 ≤ now
  confirmed : ∀ c, o.confirmed = some c → c ≤ hourStart now

theorem Truthful.later {p : S} {now next : Int} {o : HourOracle S} (h : Truthful p now o)
    (le : now ≤ next) : Truthful p next o := by
  refine ⟨h.nodup, ?_, ?_⟩
  · intro e mem other
    exact (h.others e mem other).trans le
  · intro c same
    exact (h.confirmed c same).trans (hourStart_mono le)

/-- One poisoned witness and an honest one confirm no hour before it begins. -/
theorem Truthful.confirm {p : S} {now reading : Int} {o : HourOracle S} (h : Truthful p now o)
    (clock : reading ≤ now) : Truthful p now (o.confirm reading) := by
  refine ⟨?_, ?_, ?_⟩
  · rw [confirm_witnessed]
    exact h.nodup
  · rw [confirm_witnessed]
    exact h.others
  · intro c same
    rcases confirm_cases o reading with stays | ⟨t, second, moved, -⟩
    · rw [stays] at same
      exact h.confirmed c same
    · rw [moved] at same
      obtain rfl : hourStart t = c := by simpa using same
      apply hourStart_mono
      apply second_le _ second
      have few := few_past h.nodup h.others
      have handicapped : ¬now < reading - clockWitnessMargin := by
        unfold clockWitnessMargin maxTsAhead
        omega
      simpa [List.countP_append, handicapped] using few

/-- An honest oracle, and writers that are within the hour. -/
structure Sane (p : S) (now : Int) (f : Fleet S) : Prop where
  oracle : Truthful p now f.oracle
  tapes : ∀ s, Within (hourStart now) (f.tapes s)

theorem sane_blank {p : S} {now : Int} : Sane p now (Fleet.blank : Fleet S) := by
  refine ⟨⟨by simp [Fleet.blank, HourOracle.fresh], by simp [Fleet.blank, HourOracle.fresh],
    by simp [Fleet.blank, HourOracle.fresh]⟩, ?_⟩
  intro s
  refine ⟨?_, ?_, ?_, ?_⟩ <;>
    simp [Fleet.blank, System.blank, Mem.fresh, HourFiles.blank, HourFiles.finalized]

theorem Sane.later {p : S} {now next : Int} {f : Fleet S} (h : Sane p now f) (le : now ≤ next) : Sane p next f :=
  ⟨h.oracle.later le, fun s => (h.tapes s).later (hourStart_mono le)⟩

variable [DecidableEq S]

theorem mem_newest {stream : S} {ts : Int} {l : List (S × Int)} {e : S × Int}
    (mem : e ∈ HourOracle.newest stream ts l) : e = (stream, ts) ∨ e ∈ l := by
  induction l with
  | nil => exact .inl (by simpa [HourOracle.newest] using mem)
  | cons first rest ih =>
    obtain ⟨other, prev⟩ := first
    unfold HourOracle.newest at mem
    split at mem
    · rename_i same
      rcases List.mem_cons.mp mem with rfl | inside
      · split
        · exact .inl (by rw [same])
        · exact .inr List.mem_cons_self
      · exact .inr (List.mem_cons_of_mem _ inside)
    · rcases List.mem_cons.mp mem with rfl | inside
      · exact .inr List.mem_cons_self
      · rcases ih inside with same | inside
        · exact .inl same
        · exact .inr (List.mem_cons_of_mem _ inside)

/-- A stream stands in the list once. -/
theorem nodup_newest {stream : S} {ts : Int} {l : List (S × Int)}
    (nodup : (l.map Prod.fst).Nodup) :
    ((HourOracle.newest stream ts l).map Prod.fst).Nodup := by
  induction l with
  | nil => simp [HourOracle.newest]
  | cons first rest ih =>
    obtain ⟨other, prev⟩ := first
    rw [List.map_cons, List.nodup_cons] at nodup
    unfold HourOracle.newest
    split
    · exact List.nodup_cons.mpr nodup
    · rename_i different
      rw [List.map_cons, List.nodup_cons]
      refine ⟨?_, ih nodup.2⟩
      intro mem
      obtain ⟨e, inside, same⟩ := List.mem_map.mp mem
      rcases mem_newest inside with rfl | old
      · exact different same.symm
      · exact nodup.1 (List.mem_map.mpr ⟨e, old, same⟩)

theorem Vouched.observe {o : HourOracle S} {readings : List Int} (h : Vouched o readings)
    (stream : S) (ts now : Int) : Vouched (o.observe stream ts now) (now :: readings) := by
  refine ⟨?_, (h.more now).confirmed⟩
  intro e mem
  rcases mem_newest mem with rfl | old
  · exact ⟨now, List.mem_cons_self, min_le_right _ _⟩
  · exact (h.more now).stamps e old

theorem Truthful.observe {p : S} {now : Int} {o : HourOracle S} (h : Truthful p now o)
    {stream : S} {ts : Int} (reading : Int) (honest : stream ≠ p → ts ≤ now) :
    Truthful p now (o.observe stream ts reading) := by
  refine ⟨nodup_newest h.nodup, ?_, h.confirmed⟩
  intro e mem other
  rcases mem_newest mem with rfl | old
  · exact (min_le_left _ _).trans (honest other)
  · exact h.others e old other

/- The process. -/

/-- A moment in which the clock does not lead, and a row of another stream is not stamped ahead. -/
def Moment.Honest (p : S) (m : Moment S) : Prop :=
  match m.happening with
  | .append stream _ observedAt confirmedAt event =>
    observedAt ≤ m.time ∧ confirmedAt ≤ m.time ∧ (stream ≠ p → event.ts ≤ m.time)
  | _ => True

/-- A run in which time goes on and every moment is honest. -/
structure Honest (p : S) (moments : List (Moment S)) : Prop where
  ordered : moments.Pairwise fun m m' => m.time ≤ m'.time
  each : ∀ m ∈ moments, m.Honest p

theorem call_oracle {α : Type} (f : Fleet S) (stream : S) (out : Outcome α × Tape) :
    (f.call stream out).oracle = f.oracle := by
  rcases out with ⟨_ | _ | _, t⟩ <;> rfl

theorem call_tapes {α : Type} (f : Fleet S) (stream : S) (out : Outcome α × Tape) :
    (f.call stream out).tapes = Function.update f.tapes stream out.2 := by
  rcases out with ⟨_ | _ | _, t⟩ <;> rfl

theorem call_readings {α : Type} (f : Fleet S) (stream : S) (out : Outcome α × Tape) :
    (f.call stream out).readings = f.readings := by
  rcases out with ⟨_ | _ | _, t⟩ <;> rfl

section
variable {p : S} {now : Int} {f : Fleet S}

/-- A writer's call that keeps its tape within the hour. -/
theorem Sane.call {α : Type} {m : Seg α} {stream : S} {w : World} (h : Sane p now f)
    (bound : Limited (f.sharedWorld w) (hourStart now) →
      Bound (f.sharedWorld w) (hourStart now) m) :
    Sane p now (f.call stream (m (f.sharedWorld w) (f.tapes stream))) := by
  constructor
  · rw [call_oracle]
    exact h.oracle
  · intro s
    rw [call_tapes, Function.update_apply]
    split
    · exact (bound fun n c => h.oracle.confirmed c).final (h.tapes stream)
    · exact h.tapes s

theorem Sane.happen {m : Moment S} (h : Sane p m.time f) (honest : m.Honest p) :
    Sane p m.time (f.happen m.happening) := by
  obtain ⟨time, happening⟩ := m
  cases happening with
  | begins => exact ⟨sane_blank.oracle, h.tapes⟩
  | construct stream w => exact h.call fun _ => bound_construct
  | close stream w =>
    unfold Fleet.happen
    simp only
    split
    · exact h.call fun _ => bound_close
    · exact h
  | append stream w observedAt confirmedAt event =>
    obtain ⟨observed, confirmed, stamped⟩ := honest
    have vouched : Sane p time (f.vouch stream event.ts observedAt confirmedAt) :=
      ⟨(h.oracle.observe observedAt stamped).confirm confirmed, h.tapes⟩
    unfold Fleet.happen
    simp only
    split
    · split
      · exact vouched.call fun limited => bound_append limited rfl event
      · exact h.call fun limited => bound_append limited rfl event
    · exact h

theorem run_concat (moments : List (Moment S)) (m : Moment S) :
    Fleet.run (moments ++ [m]) = (Fleet.run moments).step m := by
  simp [Fleet.run]

/-- At every instant that a run has not passed. -/
theorem run_sane {moments : List (Moment S)} (honest : Honest p moments)
    (past : ∀ m ∈ moments, m.time ≤ now) : Sane p now (Fleet.run moments) := by
  induction moments using List.reverseRecOn generalizing now with
  | nil => exact sane_blank
  | append_singleton moments m ih =>
    rw [run_concat]
    have ordered := List.pairwise_append.mp honest.ordered
    have before : Sane p m.time (Fleet.run moments) := by
      apply ih
      · exact ⟨ordered.1, fun m' mem => honest.each m' (by simp [mem])⟩
      · exact fun m' mem => ordered.2.2 m' mem m (by simp)
    have after := before.happen (honest.each m (by simp))
    have stepped : Sane p m.time ((Fleet.run moments).step m) := ⟨after.oracle, after.tapes⟩
    exact stepped.later (past m (by simp))

end

theorem step_oracle (f : Fleet S) (m : Moment S) :
    (∃ stream ts observedAt confirmedAt,
      (f.step m).oracle = (f.oracle.observe stream ts observedAt).confirm confirmedAt ∧
      (f.step m).readings = confirmedAt :: observedAt :: f.readings) ∨
    (m.happening = .begins ∧ (f.step m).oracle = HourOracle.fresh) ∨
    ((f.step m).oracle = f.oracle ∧ (f.step m).readings = f.readings) := by
  obtain ⟨time, happening⟩ := m
  unfold Fleet.step
  cases happening with
  | begins => exact .inr (.inl ⟨rfl, rfl⟩)
  | construct stream w => exact .inr (.inr ⟨call_oracle _ _ _, call_readings _ _ _⟩)
  | close stream w =>
    refine .inr (.inr ?_)
    unfold Fleet.happen
    simp only
    split
    · exact ⟨call_oracle _ _ _, call_readings _ _ _⟩
    · exact ⟨rfl, rfl⟩
  | append stream w observedAt confirmedAt event =>
    unfold Fleet.happen
    simp only
    split
    · split
      · exact .inl ⟨stream, event.ts, observedAt, confirmedAt, call_oracle _ _ _,
          call_readings _ _ _⟩
      · exact .inr (.inr ⟨call_oracle _ _ _, call_readings _ _ _⟩)
    · exact .inr (.inr ⟨rfl, rfl⟩)

theorem run_vouched (moments : List (Moment S)) :
    Vouched (Fleet.run moments).oracle (Fleet.run moments).readings := by
  induction moments using List.reverseRecOn with
  | nil => exact ⟨by simp [Fleet.run, Fleet.blank, HourOracle.fresh],
      by simp [Fleet.run, Fleet.blank, HourOracle.fresh]⟩
  | append_singleton moments m ih =>
    rw [run_concat]
    rcases step_oracle (Fleet.run moments) m with
      ⟨stream, ts, observedAt, confirmedAt, oracle, readings⟩ | ⟨-, oracle⟩ | ⟨oracle, readings⟩
    · rw [oracle, readings]
      exact (ih.observe stream ts observedAt).confirm confirmedAt
    · rw [oracle]
      exact ⟨by simp [HourOracle.fresh], by simp [HourOracle.fresh]⟩
    · rw [oracle, readings]
      exact ih

/-- As long as the process lives, a confirmed hour stays confirmed. -/
theorem confirmed_rises {moments more : List (Moment S)} {c : Int}
    (lives : ∀ m ∈ more, m.happening ≠ .begins)
    (confirmed : (Fleet.run moments).oracle.confirmed = some c) :
    ∃ c', (Fleet.run (moments ++ more)).oracle.confirmed = some c' ∧ c ≤ c' := by
  induction more using List.reverseRecOn with
  | nil => exact ⟨c, by simpa using confirmed, le_refl c⟩
  | append_singleton more m ih =>
    obtain ⟨c', same, le⟩ := ih fun m' mem => lives m' (by simp [mem])
    rw [← List.append_assoc, run_concat]
    rcases step_oracle (Fleet.run (moments ++ more)) m with
      ⟨stream, ts, observedAt, confirmedAt, oracle, -⟩ | ⟨begins, -⟩ | ⟨oracle, -⟩
    · rw [oracle]
      rcases confirm_cases ((Fleet.run (moments ++ more)).oracle.observe stream ts observedAt)
        confirmedAt with stays | ⟨t, -, moved, later⟩
      · exact ⟨c', stays.trans same, le⟩
      · exact ⟨hourStart t, moved, le.trans (later c' same).le⟩
    · exact absurd begins (lives m (by simp))
    · exact ⟨c', by rw [oracle, same], le⟩

theorem run_passed {p : S} {moments : List (Moment S)} (honest : Honest p moments) :
    ∀ m ∈ moments, m.time ≤ (Fleet.run moments).time := by
  induction moments using List.reverseRecOn with
  | nil => simp
  | append_singleton moments m ih =>
    intro m' mem
    rw [run_concat]
    rcases List.mem_append.mp mem with old | new
    · exact (List.pairwise_append.mp honest.ordered).2.2 m' old m (by simp)
    · rw [List.mem_singleton.mp new]
      rfl

/-- The hour that is confirmed never falls while a process lives, nor is it further ahead than the
    window of every clock reading. Where the clock does not lead and one stream at most is stamped
    ahead, an hour that was finalized has ended, and one that was opened has begun. -/
theorem no_early_hour (moments : List (Moment S)) :
    (∀ more : List (Moment S), (∀ m ∈ more, m.happening ≠ .begins) →
      ∀ c, (Fleet.run moments).oracle.confirmed = some c →
        ∃ c', (Fleet.run (moments ++ more)).oracle.confirmed = some c' ∧ c ≤ c') ∧
    (∀ c, (Fleet.run moments).oracle.confirmed = some c →
      ∃ r ∈ (Fleet.run moments).readings, c ≤ r + maxTsAhead) ∧
    ∀ p, Honest p moments → ∀ s h,
      ((((Fleet.run moments).tapes s).disk.files h).finalized = true →
        h + hourMicros ≤ (Fleet.run moments).time) ∧
      (((Fleet.run moments).tapes s).mem.currentHour = some h →
        Aligned h ∧ h ≤ (Fleet.run moments).time) := by
  refine ⟨?_, (run_vouched moments).confirmed, ?_⟩
  · intro more lives c confirmed
    exact confirmed_rises lives confirmed
  · intro p honest s h
    have within := (run_sane honest (run_passed honest)).tapes s
    have start := hourStart_le (Fleet.run moments).time
    constructor
    · intro done
      obtain ⟨aligned, before⟩ := within.done h done
      exact (aligned_next aligned (aligned_hourStart _) before).trans start
    · intro opened
      obtain ⟨aligned, le⟩ := within.current h opened
      exact ⟨aligned, le.trans start⟩

end

/-- A host on which nothing fails, whose clock is right. -/
def calm (now : Int) : World := ⟨2, false, true, fun _ => .ok, fun _ => now, fun _ => none⟩

def arrival (stream : Bool) (now ts : Int) : Moment Bool :=
  ⟨now, .append stream (calm now) now now ⟨ts, "", ""⟩⟩

/-- Two streams cross a boundary, one of them stamped a minute ahead of it. -/
def rotation : List (Moment Bool) :=
  [⟨3590000000, .construct false (calm 3590000000)⟩,
   ⟨3590000000, .construct true (calm 3590000000)⟩,
   arrival false 3591000000 3590500000,
   arrival true 3592000000 3660000000,
   arrival false 3593000000 3592500000,
   arrival false 3601000000 3600500000]

theorem no_early_hour_rotation :
    (((Fleet.run rotation).tapes false).disk.files 0).finalized = true ∧
      0 + hourMicros ≤ (Fleet.run rotation).time := by
  have honest : Honest true rotation := by
    refine ⟨by decide, ?_⟩
    intro m mem
    simp only [rotation, List.mem_cons, List.not_mem_nil, or_false] at mem
    rcases mem with rfl | rfl | rfl | rfl | rfl | rfl <;> simp [Moment.Honest, arrival]
  have done : (((Fleet.run rotation).tapes false).disk.files 0).finalized = true := by
    decide +kernel
  exact ⟨done, ((no_early_hour rotation).2.2 true honest false 0).1 done⟩

end Segments
