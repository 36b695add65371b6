import AddonIndex.Path

/-!
# Balancing work by size

Items are dealt out to a fixed number of buckets, the largest item first, each
to the first of the buckets with the smallest total so far. Items of equal size
are taken in the reverse of their given order.
-/

namespace AddonIndex

/-- A file with its size in bytes. -/
structure SizedFile where
  path : Path
  size : Nat
deriving DecidableEq, Inhabited, Repr

/-- The largest total that is kept; larger ones stay at it. -/
def maxTotal : Nat := Nat.pow 2 64 - 1

/-- The items placed in a bucket so far, in order, and the total of their sizes. -/
structure Bucket (α : Type) where
  items : List α := []
  total : Nat := 0
deriving Inhabited, Repr

namespace Bucket

variable {α : Type}

/-- A bucket with one more item. -/
def add (bucket : Bucket α) (item : α) (size : Nat) : Bucket α :=
  { items := bucket.items ++ [item], total := min maxTotal (bucket.total + size) }

/-- Whether no bucket of a list has a smaller total. -/
def isLightest (bucket : Bucket α) (others : List (Bucket α)) : Bool :=
  others.all fun other => bucket.total ≤ other.total

/-- Put an item into the first of the lightest buckets. -/
def place (item : α) (size : Nat) : List (Bucket α) → List (Bucket α)
  | [] => []
  | bucket :: others =>
      if bucket.isLightest others then bucket.add item size :: others
      else bucket :: place item size others

end Bucket

variable {α : Type}

/-- The items from the largest to the smallest; of equal ones the last comes first. -/
def largestFirst (size : α → Nat) (items : List α) : List α :=
  (items.mergeSort fun a b => size a ≤ size b).reverse

/-- Deal items out to buckets. There is at least one bucket. -/
def balance (size : α → Nat) (buckets : Nat) (items : List α) : List (List α) :=
  let empty : List (Bucket α) := List.replicate (max buckets 1) {}
  let filled := (largestFirst size items).foldl
    (fun buckets item => Bucket.place item (size item) buckets) empty
  filled.map Bucket.items

/-- The total size of files. -/
def totalSize : List SizedFile → Nat
  | [] => 0
  | file :: rest => file.size + totalSize rest

end AddonIndex
