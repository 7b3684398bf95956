import Tepleton.Gov.EndBlocker

/-!
# The agenda of governance

What the two queues are for, without deposits, texts and accounts: every proposal has an item, with its
status and the blocks in which its two periods began, and waits in a queue until it is due.  Items are
pushed when they are new and taken from the front, so both queues are in the order of time
(`Orderly`); a front that is not due yet means that nothing behind it is (`not_due_of_front`).
-/

namespace Tepleton.Gov

/-- What the agenda knows of a proposal. -/
structure Item where
  status : VoteStatus
  submitBlock : ℤ
  votingStartBlock : ℤ

/-- The items, the two queues, and the proposals that have votes. -/
@[ext]
structure Agenda where
  items : ℤ → Option Item
  inactive : List ℤ
  active : List ℤ
  voted : Set ℤ

namespace Agenda

/-- The agenda with another item for one proposal. -/
def setItem (a : Agenda) (id : ℤ) (item : Option Item) : Agenda :=
  { a with items := Function.update a.items id item }

/-- A new item. -/
inductive Submitted (height : ℤ) : Agenda → Agenda → Prop
  | intro {a : Agenda} {id : ℤ} (item : Item) (hfresh : a.items id = none)
      (hstatus : item.status = .depositPeriod) (hsubmit : item.submitBlock = height) :
      Submitted height a { a.setItem id (some item) with inactive := a.inactive ++ [id] }

/-- What can happen to the items there are. -/
inductive Step (height : ℤ) : Agenda → Agenda → Prop
  | activate {a : Agenda} {id : ℤ} {item : Item} (hitem : a.items id = some item)
      (hstatus : item.status = .depositPeriod) :
      Step height a
        { a.setItem id (some ⟨.votingPeriod, item.submitBlock, height⟩) with active := a.active ++ [id] }
  | vote {a : Agenda} {id : ℤ} {item : Item} (hitem : a.items id = some item)
      (hstatus : item.status = .votingPeriod) : Step height a { a with voted := insert id a.voted }
  | drop {a : Agenda} {front : ℤ} {rest : List ℤ} {item : Item} (hqueue : a.inactive = front :: rest)
      (hitem : a.items front = some item) (hstatus : item.status = .depositPeriod) :
      Step height a { a.setItem front none with inactive := rest }
  | skip {a : Agenda} {front : ℤ} {rest : List ℤ} {item : Item} (hqueue : a.inactive = front :: rest)
      (hitem : a.items front = some item) (hstatus : item.status ≠ .depositPeriod) :
      Step height a { a with inactive := rest }
  | decide {a : Agenda} {front : ℤ} {rest : List ℤ} {item : Item} (passes : Bool)
      (hqueue : a.active = front :: rest) (hitem : a.items front = some item) :
      Step height a
        { a.setItem front (some { item with status := if passes then .passed else .rejected }) with
          active := rest, voted := a.voted \ {front} }

/-- The block in which a proposal was submitted. -/
def submitted (a : Agenda) (id : ℤ) : ℤ := (a.items id).elim 0 Item.submitBlock

/-- The block in which the voting on a proposal began. -/
def started (a : Agenda) (id : ℤ) : ℤ := (a.items id).elim 0 Item.votingStartBlock

/-- A queue in the order of time, up to the present.  Times are `int64`. -/
structure Lined (height : ℤ) (time : ℤ → ℤ) (ids : List ℤ) : Prop where
  nodup : ids.Nodup
  sorted : ids.Pairwise fun id id' => time id ≤ time id'
  past (id : ℤ) (h : id ∈ ids) : time id ≤ height
  low (id : ℤ) (h : id ∈ ids) : -2 ^ 63 ≤ time id

/-- Both queues are in order and hold what they should, and only proposals in their voting period have
votes.  The inactive queue may hold more. -/
structure Orderly (height : ℤ) (a : Agenda) : Prop where
  inactive : Lined height a.submitted a.inactive
  active : Lined height a.started a.active
  inactive_named (id : ℤ) (h : id ∈ a.inactive) : ∃ item, a.items id = some item
  active_voting (id : ℤ) (h : id ∈ a.active) :
    ∃ item, a.items id = some item ∧ item.status = .votingPeriod
  deposit_queued (id : ℤ) (item : Item) (h : a.items id = some item)
    (hstatus : item.status = .depositPeriod) : id ∈ a.inactive
  voting_queued (id : ℤ) (item : Item) (h : a.items id = some item)
    (hstatus : item.status = .votingPeriod) : id ∈ a.active
  voted_voting (id : ℤ) (h : id ∈ a.voted) :
    ∃ item, a.items id = some item ∧ item.status = .votingPeriod

/-! ### Queues -/

namespace Lined

variable {height : ℤ} {time time' : ℤ → ℤ} {ids : List ℤ} {id : ℤ}

theorem later {height' : ℤ} (h : Lined height time ids) (hle : height ≤ height') :
    Lined height' time ids :=
  { h with past := fun id hid => (h.past id hid).trans hle }

theorem congr (h : Lined height time ids) (hsame : ∀ id ∈ ids, time' id = time id) :
    Lined height time' ids where
  nodup := h.nodup
  sorted := h.sorted.imp_of_mem fun hid hid' hle => by rwa [hsame _ hid, hsame _ hid']
  past id hid := (hsame id hid).trans_le (h.past id hid)
  low id hid := (h.low id hid).trans_eq (hsame id hid).symm

theorem push (h : Lined height time ids) (hlow : -2 ^ 63 ≤ height) (hnew : id ∉ ids)
    (hnow : time id = height) :
    Lined height time (ids ++ [id]) where
  nodup := by
    rw [List.nodup_append]
    refine ⟨h.nodup, List.nodup_singleton id, ?_⟩
    rintro other hother _ hlast rfl
    exact hnew (List.mem_singleton.mp hlast ▸ hother)
  sorted := by
    rw [List.pairwise_append]
    refine ⟨h.sorted, List.pairwise_singleton _ _, ?_⟩
    intro other hother last hlast
    rw [List.mem_singleton.mp hlast, hnow]
    exact h.past other hother
  past other hother := by
    rcases List.mem_append.mp hother with hother | hother
    · exact h.past other hother
    · rw [List.mem_singleton.mp hother, hnow]
  low other hother := by
    rcases List.mem_append.mp hother with hother | hother
    · exact h.low other hother
    · rw [List.mem_singleton.mp hother, hnow]
      exact hlow

variable {front : ℤ} {rest : List ℤ}

theorem pop (h : Lined height time (front :: rest)) : Lined height time rest where
  nodup := h.nodup.of_cons
  sorted := h.sorted.of_cons
  past id hid := h.past id (List.mem_cons_of_mem front hid)
  low id hid := h.low id (List.mem_cons_of_mem front hid)

theorem front_notMem (h : Lined height time (front :: rest)) :
    front ∉ rest := (List.nodup_cons.mp h.nodup).1

theorem front_le (h : Lined height time (front :: rest)) (hid : id ∈ front :: rest) : time front ≤
    time id := by
  rcases List.mem_cons.mp hid with rfl | hid
  · exact le_rfl
  · exact (List.pairwise_cons.mp h.sorted).1 id hid

end Lined

variable {height : ℤ} {a a' : Agenda} {id : ℤ} {item : Item}

theorem submitted_of_item (h : a.items id = some item) : a.submitted id = item.submitBlock := by
  rw [submitted, h, Option.elim_some]

theorem started_of_item (h : a.items id = some item) : a.started id = item.votingStartBlock := by
  rw [started, h, Option.elim_some]

variable {id other front : ℤ} {rest : List ℤ} {period : ℤ}

@[simp] theorem setItem_items_self (a : Agenda) (id : ℤ) (item : Option Item) :
    (a.setItem id item).items id = item := Function.update_self ..

theorem setItem_items_of_ne (a : Agenda) (item : Option Item) (hne : other ≠ id) :
    (a.setItem id item).items other = a.items other := Function.update_of_ne hne ..

theorem Orderly.later {height' : ℤ} (h : a.Orderly height) (hle : height ≤ height') :
    a.Orderly height' :=
  { h with inactive := h.inactive.later hle, active := h.active.later hle }

/-! ## One step -/

theorem submitted_setItem_of_ne (a : Agenda) (item : Option Item) (hne : other ≠ id) :
    (a.setItem id item).submitted other = a.submitted other := by
  rw [submitted, setItem_items_of_ne a item hne, submitted]

theorem started_setItem_of_ne (a : Agenda) (item : Option Item) (hne : other ≠ id) :
    (a.setItem id item).started other = a.started other := by
  rw [started, setItem_items_of_ne a item hne, started]

/-- Where a proposal with this item waits, and whether it may have votes. -/
def Placed (a : Agenda) (id : ℤ) : Option Item → Prop
  | none => id ∉ a.inactive ∧ id ∉ a.active ∧ id ∉ a.voted
  | some item => (item.status = .depositPeriod → id ∈ a.inactive) ∧
      (id ∈ a.active ↔ item.status = .votingPeriod) ∧ (id ∈ a.voted → item.status = .votingPeriod)

theorem Orderly.placed (h : a.Orderly height) (id : ℤ) : a.Placed id (a.items id) := by
  have hvoting := h.active_voting id
  have hvoted := h.voted_voting id
  cases hitem : a.items id with
  | none =>
    have hnamed := h.inactive_named id
    simp only [hitem, reduceCtorEq, false_and, exists_false, imp_false] at hnamed hvoting hvoted
    exact ⟨hnamed, hvoting, hvoted⟩
  | some item =>
    simp only [hitem, Option.some.injEq, exists_eq_left'] at hvoting hvoted
    exact ⟨h.deposit_queued id item hitem, ⟨hvoting, h.voting_queued id item hitem⟩, hvoted⟩

theorem Orderly.of_placed (hinactive : Lined height a.submitted a.inactive)
    (hactive : Lined height a.started a.active) (h : ∀ id, a.Placed id (a.items id)) :
    a.Orderly height := by
  have hsome : ∀ id item, a.items id = some item → a.Placed id (some item) := by
    intro id item hitem
    exact hitem ▸ h id
  have hnone : ∀ id, a.items id = none → a.Placed id none := by
    intro id hitem
    exact hitem ▸ h id
  refine
    { inactive := hinactive
      active := hactive
      inactive_named := ?_
      active_voting := ?_
      deposit_queued := fun id item hitem => (hsome id item hitem).1
      voting_queued := fun id item hitem => (hsome id item hitem).2.1.mpr
      voted_voting := ?_ }
  · intro id hmem
    cases hitem : a.items id with
    | none => exact absurd hmem (hnone id hitem).1
    | some item => exact ⟨item, rfl⟩
  · intro id hmem
    cases hitem : a.items id with
    | none => exact absurd hmem (hnone id hitem).2.1
    | some item => exact ⟨item, rfl, (hsome id item hitem).2.1.mp hmem⟩
  · intro id hmem
    cases hitem : a.items id with
    | none => exact absurd hmem (hnone id hitem).2.2
    | some item => exact ⟨item, rfl, (hsome id item hitem).2.2 hmem⟩

theorem Placed.congr {item : Option Item} (h : a.Placed id item)
    (hinactive : id ∈ a'.inactive ↔ id ∈ a.inactive) (hactive : id ∈ a'.active ↔ id ∈ a.active)
    (hvoted : id ∈ a'.voted ↔ id ∈ a.voted) : a'.Placed id item := by
  cases item <;> simpa only [Placed, hinactive, hactive, hvoted] using h

/-- Where one item changes, only the place of that proposal is in question. -/
theorem Orderly.change {new : Option Item} (h : a.Orderly height)
    (hitems : a'.items = (a.setItem id new).items)
    (hinactive : Lined height a'.submitted a'.inactive)
    (hactive : Lined height a'.started a'.active) (hself : a'.Placed id new)
    (hothers : ∀ other, other ≠ id → (other ∈ a'.inactive ↔ other ∈ a.inactive) ∧
      (other ∈ a'.active ↔ other ∈ a.active) ∧ (other ∈ a'.voted ↔ other ∈ a.voted)) :
    a'.Orderly height := by
  refine .of_placed hinactive hactive fun other => ?_
  rw [hitems]
  by_cases hne : other = id
  · subst hne
    rwa [setItem_items_self]
  · obtain ⟨hinactive', hactive', hvoted'⟩ := hothers other hne
    rw [setItem_items_of_ne a new hne]
    exact (h.placed other).congr hinactive' hactive' hvoted'

theorem Orderly.submit (h : a.Orderly height) (hlow : -2 ^ 63 ≤ height)
    (hstep : Submitted height a a') : a'.Orderly height := by
  obtain @⟨id, item, hfresh, hstatus, hsubmit⟩ := hstep
  have hplaced := h.placed id
  rw [hfresh] at hplaced
  obtain ⟨hinactive, hactive, hvoted⟩ := hplaced
  refine h.change rfl (Lined.push (h.inactive.congr ?_) hlow hinactive ?_) (h.active.congr ?_) ?_ ?_
  · exact fun other hother => submitted_setItem_of_ne a _ (ne_of_mem_of_not_mem hother hinactive)
  · exact (submitted_of_item (setItem_items_self a id (some item))).trans hsubmit
  · exact fun other hother => started_setItem_of_ne a _ (ne_of_mem_of_not_mem hother hactive)
  · simp [Placed, setItem, hstatus, hactive, hvoted]
  · intro other hne
    simp [setItem, hne]

/-- A proposal in its deposit period is not in the active queue, and nobody has voted on it. -/
theorem Orderly.deposit (h : a.Orderly height) (hitem : a.items id = some item)
    (hstatus : item.status = .depositPeriod) : id ∉ a.active ∧ id ∉ a.voted := by
  have hplaced := h.placed id
  rw [hitem] at hplaced
  simpa [Placed, hstatus] using hplaced.2

/-- A proposal leaves the inactive queue for the active one, in which it is new. -/
theorem Orderly.activate (h : a.Orderly height) (hlow : -2 ^ 63 ≤ height)
    (hitem : a.items id = some item) (hstatus : item.status = .depositPeriod) :
    { a.setItem id (some ⟨.votingPeriod, item.submitBlock, height⟩) with
      active := a.active ++ [id] : Agenda }.Orderly height := by
  obtain ⟨hactive, -⟩ := h.deposit hitem hstatus
  have hself := setItem_items_self a id (some ⟨.votingPeriod, item.submitBlock, height⟩)
  refine h.change rfl (h.inactive.congr ?_) (Lined.push (h.active.congr ?_) hlow hactive ?_) ?_ ?_
  · intro other _
    by_cases hother : other = id
    · subst hother
      exact (submitted_of_item hself).trans (submitted_of_item hitem).symm
    · exact submitted_setItem_of_ne a _ hother
  · exact fun other hother => started_setItem_of_ne a _ (ne_of_mem_of_not_mem hother hactive)
  · exact started_of_item hself
  · simp [Placed]
  · intro other hne
    simp [setItem, hne]

/-- A proposal is dropped: it was in the inactive queue only, and nobody has voted on it. -/
theorem Orderly.drop (h : a.Orderly height) (hqueue : a.inactive = front :: rest)
    (hitem : a.items front = some item) (hstatus : item.status = .depositPeriod) :
    { a.setItem front none with inactive := rest : Agenda }.Orderly height := by
  obtain ⟨hactive, hvoted⟩ := h.deposit hitem hstatus
  have hinactive := h.inactive
  rw [hqueue] at hinactive
  have hrest := hinactive.front_notMem
  refine h.change rfl (hinactive.pop.congr ?_) (h.active.congr ?_) ⟨hrest, hactive, hvoted⟩ ?_
  · exact fun other hother => submitted_setItem_of_ne a _ (ne_of_mem_of_not_mem hother hrest)
  · exact fun other hother => started_setItem_of_ne a _ (ne_of_mem_of_not_mem hother hactive)
  · intro other hne
    simp [setItem, hqueue, hne]

theorem Orderly.skip (h : a.Orderly height) (hqueue : a.inactive = front :: rest)
    (hitem : a.items front = some item) (hstatus : item.status ≠ .depositPeriod) :
    { a with inactive := rest : Agenda }.Orderly height := by
  have hinactive := h.inactive
  rw [hqueue] at hinactive
  have hsame : a.items = (a.setItem front (some item)).items := by
    rw [setItem, ← hitem, Function.update_eq_self]
  have hplaced := h.placed front
  rw [hitem] at hplaced
  refine h.change hsame hinactive.pop h.active ?_ ?_
  · exact ⟨fun hdeposit => absurd hdeposit hstatus, hplaced.2⟩
  · intro other hne
    simp [hqueue, hne]

/-- A proposal is decided: it leaves the active queue, and its votes are gone. -/
theorem Orderly.decide (passes : Bool) (h : a.Orderly height) (hqueue : a.active = front :: rest)
    (hitem : a.items front = some item) :
    { a.setItem front (some { item with status := if passes then .passed else .rejected }) with
      active := rest, voted := a.voted \ {front} : Agenda }.Orderly height := by
  have hactive := h.active
  rw [hqueue] at hactive
  have hrest := hactive.front_notMem
  have hself := setItem_items_self a front
    (some { item with status := if passes then .passed else .rejected })
  refine h.change rfl (h.inactive.congr ?_) (hactive.pop.congr ?_) ?_ ?_
  · intro other _
    by_cases hother : other = front
    · subst hother
      exact (submitted_of_item hself).trans (submitted_of_item hitem).symm
    · exact submitted_setItem_of_ne a _ hother
  · exact fun other hother => started_setItem_of_ne a _ (ne_of_mem_of_not_mem hother hrest)
  · cases passes <;> simp [Placed, hrest]
  · intro other hne
    simp [setItem, hqueue, hne]

theorem Orderly.step (h : a.Orderly height) (hlow : -2 ^ 63 ≤ height) (hstep : Step height a a') :
    a'.Orderly height := by
  cases hstep with
  | activate hitem hstatus => exact h.activate hlow hitem hstatus
  | vote hitem hstatus =>
    refine { h with voted_voting := ?_ }
    rintro other (rfl | hmem)
    · exact ⟨_, hitem, hstatus⟩
    · exact h.voted_voting other hmem
  | drop hqueue hitem hstatus => exact h.drop hqueue hitem hstatus
  | skip hqueue hitem hstatus => exact h.skip hqueue hitem hstatus
  | decide passes hqueue hitem => exact h.decide passes hqueue hitem

/-! ## Deadlines -/

theorem Step.named (hstep : Step height a a') (hitem : a'.items id = some item) :
    ∃ old, a.items id = some old := by
  have hset : ∀ {other : ℤ} {old : Item} {new : Option Item}, a.items other = some old →
      (a.setItem other new).items id = some item → ∃ old, a.items id = some old := by
    intro other old new hold hnew
    by_cases hid : id = other
    · exact ⟨old, hid ▸ hold⟩
    · exact ⟨item, by rwa [setItem_items_of_ne a new hid] at hnew⟩
  cases hstep with
  | activate hold => exact hset hold hitem
  | vote => exact ⟨item, hitem⟩
  | drop _ hold => exact hset hold hitem
  | skip => exact ⟨item, hitem⟩
  | decide passes _ hold => exact hset hold hitem

theorem Step.deposit_item (hstep : Step height a a') (hitem : a'.items id = some item)
    (hstatus : item.status = .depositPeriod) : a.items id = some item := by
  have hset : ∀ {other : ℤ} {new : Option Item}, (a.setItem other new).items id = some item →
      (∀ i, new = some i → i.status ≠ .depositPeriod) → a.items id = some item := by
    intro other new hnew hne
    by_cases hid : id = other
    · subst hid
      rw [setItem_items_self] at hnew
      exact absurd hstatus (hne item hnew)
    · rwa [setItem_items_of_ne a new hid] at hnew
  cases hstep with
  | activate => exact hset hitem (by rintro i ⟨⟩ ⟨⟩)
  | vote => exact hitem
  | drop => exact hset hitem (by rintro i ⟨⟩)
  | skip => exact hitem
  | decide passes => exact hset hitem (by cases passes <;> simp)

/-- The deposit periods of all proposals end after this block. -/
def DepositsPending (height period : ℤ) (a : Agenda) : Prop :=
  ∀ id item, a.items id = some item → item.status = .depositPeriod →
    height < item.submitBlock + period

/-- The voting periods of all proposals end after this block. -/
def VotesPending (height period : ℤ) (a : Agenda) : Prop :=
  ∀ id item, a.items id = some item → item.status = .votingPeriod →
    height < item.votingStartBlock + period

theorem DepositsPending.step (h : a.DepositsPending height period) (hstep : Step height a a') :
    a'.DepositsPending height period :=
  fun id item hitem hstatus => h id item (hstep.deposit_item hitem hstatus) hstatus

theorem Orderly.depositsPending (h : a.Orderly height)
    (hfront : ∀ front ∈ a.inactive.head?, height < a.submitted front + period) :
    a.DepositsPending height period := by
  intro id item hitem hstatus
  have hmem := h.deposit_queued id item hitem hstatus
  cases hqueue : a.inactive with
  | nil =>
    rw [hqueue] at hmem
    cases hmem
  | cons front rest =>
    have hline := h.inactive
    rw [hqueue] at hline hmem hfront
    have hle := hline.front_le hmem
    have hlt := hfront front rfl
    rw [submitted_of_item hitem] at hle
    omega

theorem Orderly.votesPending (h : a.Orderly height)
    (hfront : ∀ front ∈ a.active.head?, height < a.started front + period) :
    a.VotesPending height period := by
  intro id item hitem hstatus
  have hmem := h.voting_queued id item hitem hstatus
  cases hqueue : a.active with
  | nil =>
    rw [hqueue] at hmem
    cases hmem
  | cons front rest =>
    have hline := h.active
    rw [hqueue] at hline hmem hfront
    have hle := hline.front_le hmem
    have hlt := hfront front rfl
    rw [started_of_item hitem] at hle
    omega

/-! ## Status -/

/-- The ways in which the status of a proposal can change; there is none before it is submitted and
after it is dropped. -/
inductive StatusStep : Option VoteStatus → Option VoteStatus → Prop
  | submitted : StatusStep none (some .depositPeriod)
  | dropped : StatusStep (some .depositPeriod) none
  | activated : StatusStep (some .depositPeriod) (some .votingPeriod)
  | passed : StatusStep (some .votingPeriod) (some .passed)
  | rejected : StatusStep (some .votingPeriod) (some .rejected)

/-- The status of a proposal. -/
def status (a : Agenda) (id : ℤ) : Option VoteStatus := (a.items id).map Item.status

/-- Every proposal goes its way from one agenda to the other. -/
def Advances (a a' : Agenda) : Prop :=
  ∀ id, Relation.ReflTransGen StatusStep (a.status id) (a'.status id)

theorem Advances.trans {a'' : Agenda} (h : Advances a a') (h' : Advances a' a'') : Advances a a'' :=
  fun id => (h id).trans (h' id)

theorem status_of_item (h : a.items id = some item) : a.status id = some item.status := by
  rw [status, h, Option.map_some]

theorem advances_setItem {old : Option VoteStatus} {new : Option Item} (hold : a.status id = old)
    (h : StatusStep old (new.map Item.status)) : Advances a (a.setItem id new) := by
  intro other
  by_cases hother : other = id
  · subst hother
    rw [hold, status, setItem_items_self]
    exact .single h
  · rw [status, status, setItem_items_of_ne a new hother]

theorem Submitted.advances (hstep : Submitted height a a') : Advances a a' := by
  obtain @⟨id, item, hfresh, hstatus, -⟩ := hstep
  have hnone : a.status id = none := by rw [status, hfresh, Option.map_none]
  have hset : Advances a (a.setItem id (some item)) := by
    refine advances_setItem hnone ?_
    rw [Option.map_some, hstatus]
    exact .submitted
  exact hset

theorem Step.advances (h : a.Orderly height) (hstep : Step height a a') : Advances a a' := by
  cases hstep with
  | @activate id item hitem hdeposit =>
    have hold := status_of_item hitem
    rw [hdeposit] at hold
    have hset : Advances a (a.setItem id (some ⟨.votingPeriod, item.submitBlock, height⟩)) :=
      advances_setItem hold .activated
    exact hset
  | vote => exact fun _ => .refl
  | @drop front rest item hqueue hitem hdeposit =>
    have hold := status_of_item hitem
    rw [hdeposit] at hold
    have hset : Advances a (a.setItem front none) := advances_setItem hold .dropped
    exact hset
  | skip => exact fun _ => .refl
  | @decide front rest item passes hqueue hitem =>
    obtain ⟨item', hitem', hvoting⟩ := h.active_voting front (hqueue ▸ List.mem_cons_self)
    rw [hitem] at hitem'
    cases hitem'
    have hold := status_of_item hitem
    rw [hvoting] at hold
    have hset : Advances a (a.setItem front
        (some { item with status := if passes then .passed else .rejected })) := by
      refine advances_setItem hold ?_
      cases passes with
      | false => exact .rejected
      | true => exact .passed
    exact hset

/-! ## Many steps -/

/-- A sequence of steps in one block. -/
abbrev Steps (height : ℤ) : Agenda → Agenda → Prop := Relation.ReflTransGen (Step height)

theorem Orderly.steps (h : a.Orderly height) (hlow : -2 ^ 63 ≤ height) (hsteps : Steps height a a') :
    a'.Orderly height ∧ Advances a a' := by
  induction hsteps with
  | refl => exact ⟨h, fun _ => .refl⟩
  | tail _ hstep ih => exact ⟨ih.1.step hlow hstep, ih.2.trans (hstep.advances ih.1)⟩

theorem DepositsPending.steps (h : a.DepositsPending height period) (hsteps : Steps height a a') :
    a'.DepositsPending height period := by
  induction hsteps with
  | refl => exact h
  | tail _ hstep ih => exact ih.step hstep

theorem Steps.named (hsteps : Steps height a a') (hitem : a'.items id = some item) :
    ∃ old, a.items id = some old := by
  induction hsteps generalizing item with
  | refl => exact ⟨item, hitem⟩
  | tail _ hstep ih =>
    obtain ⟨old, hold⟩ := hstep.named hitem
    exact ih hold

end Agenda

end Tepleton.Gov
