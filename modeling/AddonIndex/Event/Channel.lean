import AddonIndex.Event.Event

/-!
# Delivery of events

Events are put into a queue and delivered to the observer one at a time, in the
order of the queue. Closing the channel puts an end mark into the queue; when the
observer reaches it, delivery stops for good, and what comes later is lost.
-/

namespace AddonIndex

/-- What stands in the queue. -/
inductive Queued
  | event (event : Event)
  | endMark
deriving DecidableEq, Inhabited, Repr

/-- The queue, what was delivered so far, and whether the observer still listens
and the channel is still open. -/
structure EventChannel where
  queue : List Queued := []
  delivered : List Event := []
  listening : Bool := true
  isOpen : Bool := true
deriving DecidableEq, Inhabited, Repr

namespace EventChannel

/-- Put something into the queue. Nothing is queued once delivery has stopped. -/
def enqueue (channel : EventChannel) (item : Queued) : EventChannel :=
  if channel.listening then { channel with queue := channel.queue ++ [item] } else channel

/-- Submit an event. -/
def submit (channel : EventChannel) (event : Event) : EventChannel :=
  channel.enqueue (.event event)

/-- Deliver the first event of the queue, or stop at the end mark. -/
def deliverNext (channel : EventChannel) : EventChannel :=
  match channel.queue with
  | [] => channel
  | .event event :: rest =>
      if channel.listening then
        { channel with queue := rest, delivered := channel.delivered ++ [event] }
      else channel
  | .endMark :: rest =>
      if channel.listening then { channel with queue := rest, listening := false } else channel

/-- Deliver what is in the queue, at most the given number of items. -/
def deliver : (count : Nat) → EventChannel → EventChannel
  | 0, channel => channel
  | count + 1, channel => deliver count channel.deliverNext

/-- Close the channel: everything queued before is delivered first. Closing it
again does nothing. -/
def close (channel : EventChannel) : EventChannel :=
  if channel.isOpen then
    let marked := { channel.enqueue .endMark with isOpen := false }
    marked.deliver marked.queue.length
  else channel

end EventChannel

end AddonIndex
