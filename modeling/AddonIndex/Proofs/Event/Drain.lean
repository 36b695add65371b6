import AddonIndex.Proofs.Event.Delivery
import Mathlib.Data.List.Induction

/-!
# A channel among threads

Any number of threads submit events and close the channel, while one more thread delivers. A call of close takes
several steps: the first call claims the delivering thread, puts the end mark into the queue, and then waits until
delivery has stopped; a later call finds nothing to claim. The steps of all threads may follow one another in any
order. When the effective call returns, what stood in the queue before its end mark has been delivered, and nothing
else ever will be.
-/

namespace AddonIndex

/-- What one thread does in one step. Only the steps that submit and those that begin a call of close tell which thread
it is; the end mark and the return belong to the call that claimed the delivering thread. -/
inductive ChannelStep (ι : Type)
  | submit (thread : ι) (event : Event)
  | beginClose (thread : ι)
  | mark
  | deliver
  | endClose
deriving DecidableEq, Repr

/-- How far the effective call of close has come. -/
inductive Closing
  | notBegun
  | claimed
  | marked
  | returned
deriving DecidableEq, Repr

/-- A channel with the state of the effective call of close. -/
structure SharedChannel where
  channel : EventChannel := {}
  closing : Closing := .notBegun
deriving DecidableEq, Repr

namespace SharedChannel

variable {ι : Type}

/-- The channel after a step, if the step can be taken. The effective call waits for the end of delivery. -/
def step? (shared : SharedChannel) : ChannelStep ι → Option SharedChannel
  | .submit _ event => some { shared with channel := shared.channel.submit event }
  | .beginClose _ =>
      if shared.channel.isOpen then
        some { channel := { shared.channel with isOpen := false }, closing := .claimed }
      else some shared
  | .mark =>
      if shared.closing = .claimed then
        some { channel := shared.channel.enqueue .endMark, closing := .marked }
      else none
  | .deliver => some { shared with channel := shared.channel.deliverNext }
  | .endClose =>
      if shared.closing = .marked ∧ shared.channel.listening = false then
        some { shared with closing := .returned }
      else none

/-- The channel after steps in the given order, if they can be taken. -/
def run? (shared : SharedChannel) (steps : List (ChannelStep ι)) : Option SharedChannel :=
  steps.foldlM step? shared

/-- The events that are submitted in some steps, each with its thread. -/
def submissions : List (ChannelStep ι) → List (ι × Event)
  | [] => []
  | .submit thread event :: rest => (thread, event) :: submissions rest
  | _ :: rest => submissions rest

/-- The events that are submitted in some steps, in order. -/
def submitted (steps : List (ChannelStep ι)) : List Event := (submissions steps).map Prod.snd

theorem submissions_append (first second : List (ChannelStep ι)) :
    submissions (first ++ second) = submissions first ++ submissions second := by
  induction first with
  | nil => rfl
  | cons step rest ih => cases step <;> simp [submissions, ih]

theorem submitted_append (first second : List (ChannelStep ι)) :
    submitted (first ++ second) = submitted first ++ submitted second := by
  simp [submitted, submissions_append]

theorem run?_append (shared : SharedChannel) (first second : List (ChannelStep ι)) :
    shared.run? (first ++ second) = (shared.run? first).bind fun middle => middle.run? second := by
  simp [run?, List.foldlM_append]

end SharedChannel

/-! ## What will be delivered -/

namespace EventChannel

variable {channel : EventChannel} {events : List Event}

/-- Whether a channel takes everything that is submitted, and has taken the given events so far. -/
structure Taking (events : List Event) (channel : EventChannel) : Prop where
  listening : channel.listening = true
  noEnd : Queued.endMark ∉ channel.queue
  reported : channel.reported = events

theorem Taking.submit (taking : Taking events channel) (event : Event) :
    Taking (events ++ [event]) (channel.submit event) := by
  rcases channel with ⟨queue, delivered, _, isOpen⟩
  rcases taking with ⟨⟨⟩, noEnd, rfl⟩
  constructor
  · rfl
  · simpa [EventChannel.submit, enqueue] using noEnd
  · simp [EventChannel.submit, enqueue, EventChannel.reported, Queued.event?]

theorem Taking.deliverNext (taking : Taking events channel) : Taking events channel.deliverNext := by
  rcases channel with ⟨queue, delivered, _, isOpen⟩
  rcases taking with ⟨⟨⟩, noEnd, reported⟩
  rcases queue with _ | ⟨_ | _, rest⟩
  · exact ⟨rfl, noEnd, reported⟩
  · exact ⟨rfl, fun member => noEnd (List.mem_cons_of_mem _ member), (reported_deliverNext _).trans reported⟩
  · exact absurd List.mem_cons_self noEnd

/-- Whether exactly the given events will have been delivered when delivery stops, whatever else is submitted. -/
inductive Draining (events : List Event) : EventChannel → Prop
  | waiting {front back : List Queued} {delivered : List Event} (isOpen : Bool) (noEnd : Queued.endMark ∉ front)
      (due : delivered ++ front.filterMap Queued.event? = events) :
      Draining events { queue := front ++ .endMark :: back, delivered, listening := true, isOpen }
  | stopped (queue : List Queued) (isOpen : Bool) :
      Draining events { queue, delivered := events, listening := false, isOpen }

/-- An end mark fixes what will be delivered. -/
theorem Taking.enqueue_endMark (taking : Taking events channel) : Draining events (channel.enqueue .endMark) := by
  rcases channel with ⟨queue, delivered, _, isOpen⟩
  rcases taking with ⟨⟨⟩, noEnd, reported⟩
  exact .waiting isOpen noEnd reported

/-- What is submitted after the end mark is not delivered. -/
theorem Draining.submit (draining : Draining events channel) (event : Event) :
    Draining events (channel.submit event) := by
  cases draining with
  | @waiting front back delivered isOpen noEnd due =>
      have later : EventChannel.submit { queue := front ++ .endMark :: back, delivered, listening := true, isOpen }
          event = { queue := front ++ .endMark :: (back ++ [.event event]), delivered, listening := true, isOpen } := by
        simp [EventChannel.submit, enqueue]
      rw [later]
      exact .waiting isOpen noEnd due
  | stopped queue isOpen => exact .stopped queue isOpen

/-- Delivery goes on to the end mark and stops there. -/
theorem Draining.deliverNext (draining : Draining events channel) : Draining events channel.deliverNext := by
  cases draining with
  | @waiting front back delivered isOpen noEnd due =>
      rcases front with _ | ⟨item, front⟩
      · rw [List.filterMap_nil, List.append_nil] at due
        cases due
        exact .stopped back isOpen
      · cases item with
        | endMark => exact absurd List.mem_cons_self noEnd
        | event event =>
            apply Draining.waiting isOpen
            · exact fun member => noEnd (List.mem_cons_of_mem _ member)
            · rw [← due]
              simp [Queued.event?]
  | stopped queue isOpen =>
      rcases queue with _ | ⟨_ | _, rest⟩
      · exact .stopped _ isOpen
      · exact .stopped _ isOpen
      · exact .stopped _ isOpen

theorem Draining.delivered (draining : Draining events channel) (stopped : channel.listening = false) :
    channel.delivered = events := by
  cases draining with
  | waiting => cases stopped
  | stopped => rfl

/-- How many items are to be taken from the queue before delivery stops. -/
def remaining (channel : EventChannel) : Nat :=
  if channel.listening then channel.queue.idxOf .endMark + 1 else 0

theorem listening_eq_false_iff : channel.listening = false ↔ channel.remaining = 0 := by
  unfold remaining
  cases channel.listening <;> simp

theorem Draining.remaining_le (draining : Draining events channel) : channel.remaining ≤ channel.queue.length := by
  cases draining with
  | @waiting front back delivered isOpen noEnd due => simp [remaining, List.idxOf_append, noEnd]
  | stopped queue isOpen => exact Nat.zero_le _

theorem Draining.remaining_submit (draining : Draining events channel) (event : Event) :
    (channel.submit event).remaining = channel.remaining := by
  cases draining with
  | @waiting front back delivered isOpen noEnd due =>
      simp [EventChannel.submit, enqueue, remaining, List.idxOf_append, noEnd]
  | stopped queue isOpen => rfl

theorem Draining.remaining_deliverNext (draining : Draining events channel) :
    channel.deliverNext.remaining = channel.remaining - 1 := by
  cases draining with
  | @waiting front back delivered isOpen noEnd due =>
      rcases front with _ | ⟨_ | _, front⟩
      · simp [EventChannel.deliverNext, remaining]
      · rename_i event
        have differs : (Queued.event event == .endMark) = false := rfl
        rw [remaining, remaining, List.cons_append, List.idxOf_cons, differs]
        rfl
      · exact absurd List.mem_cons_self noEnd
  | stopped queue isOpen => rcases queue with _ | ⟨_ | _, rest⟩ <;> rfl

end EventChannel

/-! ## What the steps of all threads lead to -/

namespace SharedChannel

open EventChannel

variable {ι : Type} {steps : List (ChannelStep ι)} {shared next : SharedChannel} {last : ChannelStep ι}

/-- Whether a channel is what some steps lead to: until there is an end mark it takes all that is submitted, and from
then on what was submitted before is to be delivered. -/
inductive Follows (steps : List (ChannelStep ι)) : SharedChannel → Prop
  | taking {channel : EventChannel} {closing : Closing} (unmarked : .mark ∉ steps)
      (isOpen : channel.isOpen = true ∧ closing = .notBegun ∨ channel.isOpen = false ∧ closing = .claimed)
      (taking : Taking (submitted steps) channel) : Follows steps { channel, closing }
  | draining {early late : List (ChannelStep ι)} {channel : EventChannel} {closing : Closing}
      (split : steps = early ++ .mark :: late) (unmarked : .mark ∉ early ++ late) (isOpen : channel.isOpen = false)
      (closes : closing = .marked ∨ closing = .returned ∧ channel.listening = false)
      (draining : Draining (submitted early) channel) : Follows steps { channel, closing }

theorem follows_nil : Follows ([] : List (ChannelStep ι)) {} :=
  .taking List.not_mem_nil (.inl ⟨rfl, rfl⟩) ⟨rfl, List.not_mem_nil, rfl⟩

theorem isOpen_enqueue (channel : EventChannel) (item : Queued) : (channel.enqueue item).isOpen = channel.isOpen := by
  unfold enqueue
  split <;> rfl

theorem isOpen_deliverNext (channel : EventChannel) : channel.deliverNext.isOpen = channel.isOpen := by
  unfold EventChannel.deliverNext
  split
  · rfl
  · split <;> rfl
  · split <;> rfl

theorem listening_submit (channel : EventChannel) (event : Event) :
    (channel.submit event).listening = channel.listening := by
  unfold EventChannel.submit enqueue
  split <;> rfl

theorem not_mem_snoc {steps : List (ChannelStep ι)} {last : ChannelStep ι} (unmarked : .mark ∉ steps)
    (other : last ≠ .mark) : .mark ∉ steps ++ [last] := by
  intro member
  rcases List.mem_append.1 member with earlier | atEnd
  · exact unmarked earlier
  · exact other (List.mem_singleton.1 atEnd).symm

theorem submitted_snoc_of_ne (steps : List (ChannelStep ι)) {last : ChannelStep ι}
    (quiet : ∀ thread event, last ≠ .submit thread event) : submitted (steps ++ [last]) = submitted steps := by
  rw [submitted_append]
  cases last with
  | submit thread event => exact absurd rfl (quiet thread event)
  | _ => exact List.append_nil _

/-- One more step before the end mark. -/
theorem follows_of_taking {channel : EventChannel} {closing : Closing} (unmarked : .mark ∉ steps)
    (isOpen : channel.isOpen = true ∧ closing = .notBegun ∨ channel.isOpen = false ∧ closing = .claimed)
    (taking : Taking (submitted steps) channel) (taken : step? { channel, closing } last = some next) :
    Follows (steps ++ [last]) next := by
  have stillUnmarked : last ≠ .mark → .mark ∉ steps ++ [last] := not_mem_snoc unmarked
  have stillSubmitted := @submitted_snoc_of_ne ι steps last
  cases last with
  | submit thread event =>
      cases taken
      apply Follows.taking (stillUnmarked nofun)
      · rwa [EventChannel.submit, isOpen_enqueue]
      · rw [submitted_append]
        exact taking.submit event
  | beginClose thread =>
      simp only [step?] at taken
      split at taken
      · cases taken
        apply Follows.taking (stillUnmarked nofun)
        · exact .inr ⟨rfl, rfl⟩
        · rw [stillSubmitted nofun]
          exact ⟨taking.listening, taking.noEnd, taking.reported⟩
      · cases taken
        apply Follows.taking (stillUnmarked nofun) isOpen
        rwa [stillSubmitted nofun]
  | mark =>
      simp only [step?] at taken
      split at taken
      · rename_i claimed
        cases taken
        rcases isOpen with ⟨-, notBegun⟩ | ⟨isClosed, -⟩
        · cases notBegun.symm.trans claimed
        · apply Follows.draining rfl
          · rwa [List.append_nil]
          · rwa [isOpen_enqueue]
          · exact .inl rfl
          · exact taking.enqueue_endMark
      · cases taken
  | deliver =>
      cases taken
      apply Follows.taking (stillUnmarked nofun)
      · rwa [isOpen_deliverNext]
      · rw [stillSubmitted nofun]
        exact taking.deliverNext
  | endClose =>
      simp only [step?] at taken
      split at taken
      · rename_i waiting
        rcases isOpen with ⟨-, rfl⟩ | ⟨-, rfl⟩
        · cases waiting.1
        · cases waiting.1
      · cases taken

/-- One more step after the end mark. -/
theorem follows_of_draining {early late : List (ChannelStep ι)} {channel : EventChannel} {closing : Closing}
    (unmarked : .mark ∉ early ++ late) (isOpen : channel.isOpen = false)
    (closes : closing = .marked ∨ closing = .returned ∧ channel.listening = false)
    (draining : Draining (submitted early) channel) (taken : step? { channel, closing } last = some next) :
    Follows (early ++ .mark :: late ++ [last]) next := by
  have split : early ++ .mark :: late ++ [last] = early ++ .mark :: (late ++ [last]) := by simp
  have stillUnmarked : last ≠ .mark → .mark ∉ early ++ (late ++ [last]) := by
    rw [← List.append_assoc]
    exact not_mem_snoc unmarked
  cases last with
  | submit thread event =>
      cases taken
      apply Follows.draining split (stillUnmarked nofun)
      · rwa [EventChannel.submit, isOpen_enqueue]
      · rwa [listening_submit]
      · exact draining.submit event
  | beginClose thread =>
      simp only [step?, isOpen] at taken
      cases taken
      exact .draining split (stillUnmarked nofun) isOpen closes draining
  | mark =>
      simp only [step?] at taken
      split at taken
      · rename_i claimed
        rcases closes with rfl | ⟨rfl, -⟩
        · cases claimed
        · cases claimed
      · cases taken
  | deliver =>
      cases taken
      apply Follows.draining split (stillUnmarked nofun)
      · rwa [isOpen_deliverNext]
      · rcases closes with isMarked | ⟨isReturned, stopped⟩
        · exact .inl isMarked
        · right
          refine ⟨isReturned, ?_⟩
          rw [listening_eq_false_iff] at stopped ⊢
          rw [draining.remaining_deliverNext, stopped]
      · exact draining.deliverNext
  | endClose =>
      simp only [step?] at taken
      split at taken
      · rename_i waiting
        cases taken
        exact .draining split (stillUnmarked nofun) isOpen (.inr ⟨rfl, waiting.2⟩) draining
      · cases taken

theorem Follows.step (follows : Follows steps shared) (taken : shared.step? last = some next) :
    Follows (steps ++ [last]) next := by
  cases follows with
  | taking unmarked isOpen taking => exact follows_of_taking unmarked isOpen taking taken
  | draining split unmarked isOpen closes draining =>
      rw [split]
      exact follows_of_draining unmarked isOpen closes draining taken

/-- Whatever steps are taken, the channel is what they lead to. -/
theorem follows_of_run? (ran : run? {} steps = some shared) : Follows steps shared := by
  induction steps using List.reverseRecOn generalizing shared with
  | nil =>
      cases ran
      exact follows_nil
  | append_singleton earlier last ih =>
      rw [run?_append, Option.bind_eq_some_iff] at ran
      rcases ran with ⟨before, ranEarlier, taken⟩
      have single : before.step? last = some shared := by simpa [run?] using taken
      exact (ih ranEarlier).step single

/-! ## Calls of close -/

theorem run?_cons (shared : SharedChannel) (first : ChannelStep ι) (rest : List (ChannelStep ι)) :
    shared.run? (first :: rest) = (shared.step? first).bind fun middle => middle.run? rest :=
  List.foldlM_cons

/-- What every step keeps is kept by all of them together. -/
theorem holds_of_run? {holds : SharedChannel → Prop}
    (keeps : ∀ (before : SharedChannel) (step : ChannelStep ι) after, before.step? step = some after →
      holds before → holds after) (ran : shared.run? steps = some next) (begins : holds shared) : holds next := by
  induction steps generalizing shared with
  | nil =>
      cases ran
      exact begins
  | cons first rest ih =>
      rw [run?_cons, Option.bind_eq_some_iff] at ran
      rcases ran with ⟨middle, taken, ranRest⟩
      exact ih ranRest (keeps shared first middle taken begins)

/-- Nothing opens a channel again. -/
theorem isOpen_of_step? (taken : shared.step? last = some next) (isClosed : shared.channel.isOpen = false) :
    next.channel.isOpen = false := by
  cases last with
  | submit thread event =>
      cases taken
      rwa [EventChannel.submit, isOpen_enqueue]
  | beginClose thread =>
      simp only [step?, isClosed] at taken
      cases taken
      exact isClosed
  | mark =>
      simp only [step?] at taken
      split at taken
      · cases taken
        rwa [isOpen_enqueue]
      · cases taken
  | deliver =>
      cases taken
      rwa [isOpen_deliverNext]
  | endClose =>
      simp only [step?] at taken
      split at taken
      · cases taken
        exact isClosed
      · cases taken

theorem isOpen_of_beginClose {thread : ι} (taken : shared.step? (.beginClose thread) = some next) :
    next.channel.isOpen = false := by
  simp only [step?] at taken
  split at taken
  · cases taken
    rfl
  · rename_i isClosed
    cases taken
    exact Bool.eq_false_iff.2 isClosed

theorem step?_beginClose_of_closed (isClosed : shared.channel.isOpen = false) (thread : ι) :
    shared.step? (.beginClose thread) = some shared := by
  simp [step?, isClosed]

/-- Every call of close but the first finds nothing to do. -/
theorem step?_beginClose_of_begun {other : ι} (ran : run? shared steps = some next)
    (begun : .beginClose other ∈ steps) (thread : ι) : next.step? (.beginClose thread) = some next := by
  rcases List.append_of_mem begun with ⟨front, back, rfl⟩
  rw [run?_append, Option.bind_eq_some_iff] at ran
  rcases ran with ⟨before, -, ran⟩
  rw [run?_cons, Option.bind_eq_some_iff] at ran
  rcases ran with ⟨claimed, taken, ran⟩
  apply step?_beginClose_of_closed
  exact holds_of_run? (fun _ _ _ => isOpen_of_step?) ran (isOpen_of_beginClose taken)

/-! ## The end of delivery -/

/-- How many of some steps deliver. -/
def deliveries (steps : List (ChannelStep ι)) : Nat :=
  steps.countP fun step =>
    match step with
    | .deliver => true
    | _ => false

/-- After the end mark each delivery brings the end nearer, and nothing else moves it. -/
theorem remaining_of_step? {events : List Event} (draining : Draining events shared.channel)
    (isOpen : shared.channel.isOpen = false) (unclaimed : shared.closing ≠ .claimed)
    (taken : shared.step? last = some next) :
    Draining events next.channel ∧ next.closing ≠ .claimed ∧
      next.channel.remaining = shared.channel.remaining - deliveries [last] := by
  cases last with
  | submit thread event =>
      cases taken
      exact ⟨draining.submit event, unclaimed, draining.remaining_submit event⟩
  | beginClose thread =>
      rw [step?_beginClose_of_closed isOpen] at taken
      cases taken
      exact ⟨draining, unclaimed, rfl⟩
  | mark => simp [step?, unclaimed] at taken
  | deliver =>
      cases taken
      exact ⟨draining.deliverNext, unclaimed, draining.remaining_deliverNext⟩
  | endClose =>
      simp only [step?] at taken
      split at taken
      · cases taken
        exact ⟨draining, nofun, rfl⟩
      · cases taken

theorem remaining_of_run? {events : List Event} (draining : Draining events shared.channel)
    (isOpen : shared.channel.isOpen = false) (unclaimed : shared.closing ≠ .claimed)
    (ran : shared.run? steps = some next) :
    next.channel.remaining = shared.channel.remaining - deliveries steps := by
  induction steps generalizing shared with
  | nil =>
      cases ran
      rfl
  | cons first rest ih =>
      rw [run?_cons, Option.bind_eq_some_iff] at ran
      rcases ran with ⟨middle, taken, ranRest⟩
      rcases remaining_of_step? draining isOpen unclaimed taken with ⟨stillDraining, stillUnclaimed, nearer⟩
      rw [ih stillDraining (isOpen_of_step? taken isOpen) stillUnclaimed ranRest, nearer, Nat.sub_sub]
      congr 1
      exact (@List.countP_append _ _ [first] rest).symm

/-- Once its end mark is in the queue the effective call of close returns after as many deliveries as there are items in
the queue, whatever else is done meanwhile. -/
theorem endClose_of_deliveries {later : List (ChannelStep ι)} (ran : run? {} steps = some shared)
    (marked : shared.closing = .marked) (ranLater : shared.run? later = some next)
    (enough : shared.channel.queue.length ≤ deliveries later) :
    next.closing = .returned ∨ (next.step? (.endClose : ChannelStep ι)).isSome := by
  have ranWhole : run? {} (steps ++ later) = some next := by
    rw [run?_append, ran]
    exact ranLater
  cases follows_of_run? ran with
  | taking unmarked isOpen taking =>
      rcases isOpen with ⟨-, notBegun⟩ | ⟨-, claimed⟩
      · cases notBegun.symm.trans marked
      · cases claimed.symm.trans marked
  | @draining early late channel closing split unmarked isOpen closes draining =>
  have unclaimed : closing ≠ .claimed := fun claimed => nomatch claimed.symm.trans marked
  have stopped : next.channel.listening = false := by
    rw [listening_eq_false_iff, remaining_of_run? draining isOpen unclaimed ranLater]
    exact Nat.sub_eq_zero_of_le (Nat.le_trans draining.remaining_le enough)
  cases follows_of_run? ranWhole with
  | taking stillUnmarked _ _ =>
      rw [split] at stillUnmarked
      exact absurd (List.mem_append_left _ (List.mem_append_right _ List.mem_cons_self)) stillUnmarked
  | draining _ _ _ closes _ =>
      rcases closes with isMarked | ⟨isReturned, -⟩
      · right
        simpa [step?, isMarked] using stopped
      · exact .inl isReturned

/-! ## The whole course -/

/-- What any order of steps has led to. Once the effective call of close has returned, now or earlier, the events that
were submitted before its end mark have been delivered, and no others: each once and in the order of the queue, so those
of each thread in its own order. Every other call of close changes nothing, and the effective one does return: it needs
as many more deliveries as there are items in the queue. -/
structure Drains [DecidableEq ι] (steps : List (ChannelStep ι)) (shared : SharedChannel) : Prop where
  delivered : shared.closing = .returned → ∃ early late, steps = early ++ .mark :: late ∧ .mark ∉ early ++ late ∧
    shared.channel.delivered = (submissions early).map Prod.snd ∧
    ∀ thread, (submissions early).filter (·.1 = thread) <+: (submissions steps).filter (·.1 = thread)
  closedOnce : ∀ first thread second other, steps = first ++ .beginClose thread :: second → .beginClose other ∈ first →
    ∃ here, run? {} first = some here ∧ here.step? (.beginClose thread) = some here
  returns : shared.closing = .marked → ∀ later next, shared.run? later = some next →
    shared.channel.queue.length ≤ deliveries (later : List (ChannelStep ι)) →
      next.closing = .returned ∨ (next.step? (.endClose : ChannelStep ι)).isSome

theorem drains_of_ran [DecidableEq ι] (ran : run? {} steps = some shared) : Drains steps shared where
  delivered returned := by
    cases follows_of_run? ran with
    | taking unmarked isOpen taking =>
        rcases isOpen with ⟨-, notBegun⟩ | ⟨-, claimed⟩
        · cases notBegun.symm.trans returned
        · cases claimed.symm.trans returned
    | @draining early late channel closing split unmarked isOpen closes draining =>
        rcases closes with marked | ⟨-, stopped⟩
        · cases marked.symm.trans returned
        refine ⟨early, late, split, unmarked, draining.delivered stopped, ?_⟩
        intro thread
        rw [split, submissions_append, List.filter_append]
        exact List.prefix_append _ _
  closedOnce first thread second other split begun := by
    rw [split, run?_append, Option.bind_eq_some_iff] at ran
    rcases ran with ⟨here, ranFirst, -⟩
    exact ⟨here, ranFirst, step?_beginClose_of_begun ranFirst begun thread⟩
  returns marked later next ranLater enough := endClose_of_deliveries ran marked ranLater enough

/-! ## Closing at once -/

/-- Deliveries without other steps. -/
theorem run?_deliver (channel : EventChannel) (closing : Closing) (count : Nat) :
    run? { channel, closing } (List.replicate count (.deliver : ChannelStep ι)) =
      some { channel := channel.deliver count, closing } := by
  induction count generalizing channel with
  | zero => rfl
  | succ count ih =>
      rw [List.replicate_succ, run?_cons]
      exact ih channel.deliverNext

/-- A channel that is closed at once is one whose closing nobody else disturbs. -/
theorem run?_close {channel : EventChannel} (live : channel.Live) (thread : ι) :
    run? { channel, closing := .notBegun }
        ([.beginClose thread, .mark] ++ List.replicate (channel.queue.length + 1) .deliver ++ [.endClose]) =
      some { channel := channel.close, closing := .returned } := by
  have stopped : channel.close.listening = false := by rw [close_eq live]
  rcases channel with ⟨queue, delivered, _, _⟩
  rcases live with ⟨⟨⟩, ⟨⟩, -⟩
  have closes : EventChannel.close { queue, delivered, listening := true, isOpen := true } =
      EventChannel.deliver (queue.length + 1)
        { queue := queue ++ [.endMark], delivered, listening := true, isOpen := false } := by
    simp [EventChannel.close, enqueue]
  have begins : run? { channel := { queue, delivered, listening := true, isOpen := true }, closing := .notBegun }
      [(.beginClose thread : ChannelStep ι), .mark] =
        some { channel := { queue := queue ++ [.endMark], delivered, listening := true, isOpen := false }
               closing := .marked } := rfl
  rw [closes] at stopped ⊢
  rw [run?_append, run?_append, begins, Option.bind_some, run?_deliver, Option.bind_some]
  simp [run?, step?, stopped]

/-! ## An example -/

/-- Two threads submit events and close the channel; the second one closes it in vain, and an event of the first one
comes too late. -/
def twoThreads : List (ChannelStep Nat) :=
  [.submit 0 .finished, .beginClose 0, .submit 1 (.addonStarted ⟨0, "mods/@A"⟩), .deliver, .beginClose 1, .mark,
    .submit 0 (.addonFinished ⟨0, "mods/@A"⟩), .deliver, .deliver, .endClose]

theorem drains_twoThreads :
    ∃ shared, run? {} twoThreads = some shared ∧ shared.closing = .returned ∧
      shared.channel.delivered = [.finished, .addonStarted ⟨0, "mods/@A"⟩] ∧ Drains twoThreads shared := by
  refine ⟨_, rfl, rfl, rfl, drains_of_ran rfl⟩

end SharedChannel

end AddonIndex
