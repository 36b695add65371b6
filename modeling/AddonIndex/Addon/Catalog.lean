import AddonIndex.Addon.Handle

/-!
# The catalog of published addons

The list of the addons that the latest run published, and the announcements of
its changes. A run replaces the whole list, then announces the number of addons
in the new one. A subscriber reads the announcements made after it subscribed,
in order; one that is more than sixteen behind loses the oldest ones and is told
how many.
-/

namespace AddonIndex

/-- The published addons and all announcements so far: the number of addons in
each published list. -/
structure Catalog where
  addons : List Addon := []
  announced : List Nat := []
deriving Inhabited, Repr

/-- A reader of announcements: the number of the next one to read. -/
structure Subscriber where
  next : Nat
deriving DecidableEq, Inhabited, Repr

/-- What a subscriber receives. -/
inductive Received
  | nothing
  | published (count : Nat)
  | lagged (lost : Nat)
deriving DecidableEq, Inhabited, Repr

namespace Catalog

/-- How many announcements are kept for subscribers that are behind. -/
def capacity : Nat := 16

/-- Replace the list of published addons. -/
def replace (catalog : Catalog) (addons : List Addon) : Catalog :=
  { catalog with addons }

/-- Announce a list of the given length. -/
def announce (catalog : Catalog) (count : Nat) : Catalog :=
  { catalog with announced := catalog.announced ++ [count] }

/-- Replace the list and announce the change. -/
def publish (catalog : Catalog) (addons : List Addon) : Catalog :=
  (catalog.replace addons).announce addons.length

/-- The first published addon of a name. -/
def find? (catalog : Catalog) (name : Text) : Option Addon :=
  catalog.addons.find? fun addon => addon.name == name

/-- A new subscriber, who reads the announcements made from now on. -/
def subscribe (catalog : Catalog) : Subscriber := ⟨catalog.announced.length⟩

/-- What a subscriber receives next, and the subscriber after it. -/
def receive (catalog : Catalog) (subscriber : Subscriber) : Received × Subscriber :=
  let oldest := catalog.announced.length - capacity
  if subscriber.next < oldest then (.lagged (oldest - subscriber.next), ⟨oldest⟩)
  else
    match catalog.announced[subscriber.next]? with
    | some count => (.published count, ⟨subscriber.next + 1⟩)
    | none => (.nothing, subscriber)

end Catalog

end AddonIndex
