import AddonIndex.Event.Channel

/-!
# What the observer is told

What was submitted is delivered or stands in the queue. Delivery moves it from
one to the other and keeps the order. As long as the channel is live each
submitted event is added at the end, and closing a live channel delivers all.
-/

namespace AddonIndex

/-- The event that stands in the queue, if it is one. -/
def Queued.event? : Queued → Option Event
  | .event item => some item
  | .endMark => none

namespace EventChannel

/-- The events that were delivered and those that stand in the queue, in order. -/
def reported (channel : EventChannel) : List Event :=
  channel.delivered ++ channel.queue.filterMap Queued.event?

/-- Whether events are still taken and will be delivered. -/
structure Live (channel : EventChannel) : Prop where
  listening : channel.listening = true
  isOpen : channel.isOpen = true
  noEnd : Queued.endMark ∉ channel.queue

instance (channel : EventChannel) : Decidable channel.Live :=
  decidable_of_iff (channel.listening = true ∧ channel.isOpen = true ∧ Queued.endMark ∉ channel.queue)
    ⟨fun ⟨listening, isOpen, noEnd⟩ => ⟨listening, isOpen, noEnd⟩,
      fun ⟨listening, isOpen, noEnd⟩ => ⟨listening, isOpen, noEnd⟩⟩

theorem live_new : Live {} where
  listening := rfl
  isOpen := rfl
  noEnd := List.not_mem_nil

variable {channel : EventChannel}

theorem Live.submit (live : channel.Live) (event : Event) : (channel.submit event).Live := by
  obtain ⟨listening, isOpen, noEnd⟩ := live
  unfold EventChannel.submit enqueue
  rw [if_pos listening]
  refine ⟨listening, isOpen, fun member => ?_⟩
  rcases List.mem_append.1 member with before | last
  · exact noEnd before
  · cases List.mem_singleton.1 last

theorem reported_submit (live : channel.Live) (event : Event) :
    (channel.submit event).reported = channel.reported ++ [event] := by
  unfold EventChannel.submit enqueue
  rw [if_pos live.listening]
  simp [reported, Queued.event?]

@[simp]
theorem reported_deliverNext (channel : EventChannel) :
    channel.deliverNext.reported = channel.reported := by
  obtain ⟨queue, delivered, listening, isOpen⟩ := channel
  unfold deliverNext
  cases queue with
  | nil => rfl
  | cons item rest =>
      cases item <;> cases listening <;> simp [reported, Queued.event?, List.filterMap_cons]

theorem Live.deliverNext (live : channel.Live) : channel.deliverNext.Live := by
  obtain ⟨queue, delivered, listening, isOpen⟩ := channel
  obtain ⟨rfl, rfl, noEnd⟩ := live
  unfold EventChannel.deliverNext
  cases queue with
  | nil => exact ⟨rfl, rfl, noEnd⟩
  | cons item rest =>
      cases item with
      | event event => exact ⟨rfl, rfl, fun member => noEnd (List.mem_cons_of_mem _ member)⟩
      | endMark => exact absurd List.mem_cons_self noEnd

/-- Delivering a queue that ends with an end mark delivers all events before it. -/
theorem deliver_endMark (events : List Queued) (noEnd : Queued.endMark ∉ events)
    (delivered : List Event) (isOpen : Bool) :
    deliver (events ++ [Queued.endMark]).length
        { queue := events ++ [.endMark], delivered, listening := true, isOpen } =
      { queue := [], delivered := delivered ++ events.filterMap Queued.event?
        listening := false, isOpen } := by
  induction events generalizing delivered with
  | nil => simp [deliver, EventChannel.deliverNext]
  | cons item rest ih =>
      cases item with
      | endMark => exact absurd List.mem_cons_self noEnd
      | event event =>
          have later := ih (fun member => noEnd (List.mem_cons_of_mem _ member))
            (delivered ++ [event])
          simpa [deliver, EventChannel.deliverNext, Queued.event?] using later

/-- Closing a live channel delivers everything. -/
theorem close_eq (live : channel.Live) :
    channel.close =
      { queue := [], delivered := channel.reported, listening := false, isOpen := false } := by
  obtain ⟨queue, delivered, listening, isOpen⟩ := channel
  obtain ⟨rfl, rfl, noEnd⟩ := live
  simp only [close, if_true, enqueue]
  exact deliver_endMark queue noEnd delivered false

end EventChannel

end AddonIndex
