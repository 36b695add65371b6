import AddonIndex.Proofs.FileTree.Relisting
import Mathlib.Data.List.Perm.Basic

/-!
# Actions in any order

Actions on files that write at places of their own, and see nothing of what the others write, can be done in any
order: each gives the same answer, and the files are the same in the end. They may share a way: a directory that one
of them makes on it is there for the others, and it does not matter which of them makes it.
-/

namespace AddonIndex

namespace FileTree

variable {ι ρ : Type} {act : ι → FileTree → FileTree × ρ} {tree first second : FileTree} {items others rest : List ι}
  {item one other : ι} {place : Location}

/-- No place is below two names in one directory. -/
theorem eq_of_isPrefix_concat {front : Location} {name otherName : Text} (isBelow : front ++ [name] <+: place)
    (isBelowOther : front ++ [otherName] <+: place) : name = otherName := by
  have length : (front ++ [name]).length = (front ++ [otherName]).length := by simp
  have same := (List.prefix_of_prefix_length_le isBelow isBelowOther length.le).eq_of_length length
  simpa using same

/-- Actions one after another, with what each of them answers. -/
def doEach (act : ι → FileTree → FileTree × ρ) : List ι → FileTree → FileTree × List (ι × ρ)
  | [], tree => (tree, [])
  | item :: rest, tree =>
      let (next, answer) := act item tree
      let (last, answers) := doEach act rest next
      (last, (item, answer) :: answers)

theorem doEach_cons (act : ι → FileTree → FileTree × ρ) (item : ι) (rest : List ι) (tree : FileTree) :
    doEach act (item :: rest) tree = ((doEach act rest (act item tree).1).1,
      (item, (act item tree).2) :: (doEach act rest (act item tree).1).2) :=
  rfl

/-- Whether an action answers the same in two trees and leaves alike what is alike in them. -/
structure Repeats (action : FileTree → FileTree × ρ) (first second : FileTree) : Prop where
  answer : (action second).2 = (action first).2
  entryAt? : ∀ place, second.entryAt? place = first.entryAt? place →
    (action second).1.entryAt? place = (action first).1.entryAt? place

/-- Whether actions do not depend on each other in trees that are ready for them. Each has places of its own; besides
them it makes at most directories on the way, where nothing is. -/
structure Independent (act : ι → FileTree → FileTree × ρ) (own : ι → Location → Prop) (way : Location → Prop)
    (ready : List ι → FileTree → Prop) : Prop where
  distinct : ∀ {items tree}, ready items tree → tree.Distinct
  perm : ∀ {items others tree}, ready items tree → items.Perm others → ready others tree
  relist : ∀ {items first second}, ready items first → first.SameEntries second → ready items second
  step : ∀ {item rest tree}, ready (item :: rest) tree → ready rest (act item tree).1
  bounds : ∀ {item rest tree}, ready (item :: rest) tree → (Realm.mk tree (own item) way).Bounds (act item tree).1
  apart : ∀ {one other rest tree}, ready (one :: other :: rest) tree → ∀ place, own one place → ¬ own other place
  offWay : ∀ {item rest tree}, ready (item :: rest) tree → ∀ place, own item place → ¬ way place
  /-- No action sees what another one has done. -/
  repeats : ∀ {one other rest tree}, ready (one :: other :: rest) tree → Repeats (act other) tree (act one tree).1
  same : ∀ {item rest first second}, ready (item :: rest) first → first.SameEntries second →
    Repeats (act item) first second

namespace Independent

variable {own : ι → Location → Prop} {way : Location → Prop} {ready : List ι → FileTree → Prop}

/-- An action makes the same of trees that hold the same entries. -/
theorem sameEntries (independent : Independent act own way ready) (isReady : ready (item :: rest) first)
    (same : first.SameEntries second) : (act item first).1.SameEntries (act item second).1 where
  distinct := independent.distinct (independent.step isReady)
  distinct_right := independent.distinct (independent.step (independent.relist isReady same))
  workingDirectory := by
    have left := (independent.bounds isReady).workingDirectory
    have right := (independent.bounds (independent.relist isReady same)).workingDirectory
    rw [left, right]
    exact same.workingDirectory
  entryAt? place := (independent.same isReady same).entryAt? place (same.entryAt? place)

/-- Two actions come to the same in either order. -/
theorem swap (independent : Independent act own way ready) (isReady : ready (one :: other :: rest) tree) :
    (act other (act one tree).1).1.SameEntries (act one (act other tree).1).1 := by
  have otherReady := independent.perm isReady (.swap other one rest)
  have ofOne := independent.bounds isReady
  have ofOther := independent.bounds otherReady
  have otherLast := independent.bounds (independent.step isReady)
  have oneLast := independent.bounds (independent.step otherReady)
  have oneAgain := independent.repeats otherReady
  have otherAgain := independent.repeats isReady
  refine ⟨independent.distinct (independent.step (independent.step isReady)),
    independent.distinct (independent.step (independent.step otherReady)), ?_, fun place => ?_⟩
  · calc (act one (act other tree).1).1.workingDirectory
      _ = (act other tree).1.workingDirectory := oneLast.workingDirectory
      _ = tree.workingDirectory := ofOther.workingDirectory
      _ = (act one tree).1.workingDirectory := ofOne.workingDirectory.symm
      _ = (act other (act one tree).1).1.workingDirectory := otherLast.workingDirectory.symm
  -- Either the place is as one action found it, and then the other action decides, or both left a directory there.
  rcases ofOther.entryAt? place with untouched | isOwn | ⟨onWay, missing, made⟩
  · rw [oneAgain.entryAt? place untouched]
    rcases ofOne.entryAt? place with unchanged | isOwn | ⟨onWay, missing, made⟩
    · rw [otherAgain.entryAt? place unchanged, unchanged]
      exact untouched.symm
    · rcases otherLast.entryAt? place with kept | isOther | ⟨onWay, -⟩
      · exact kept.symm
      · exact absurd isOther (independent.apart isReady place isOwn)
      · exact absurd onWay (independent.offWay isReady place isOwn)
    · rcases otherLast.entryAt? place with kept | isOther | ⟨-, absent, -⟩
      · exact kept.symm
      · exact absurd onWay (independent.offWay otherReady place isOther)
      · rw [made] at absent
        cases absent
  · have unchanged : (act one tree).1.entryAt? place = tree.entryAt? place := by
      rcases ofOne.entryAt? place with unchanged | isOne | ⟨onWay, -⟩
      · exact unchanged
      · exact absurd isOwn (independent.apart isReady place isOne)
      · exact absurd onWay (independent.offWay otherReady place isOwn)
    rw [otherAgain.entryAt? place unchanged]
    rcases oneLast.entryAt? place with kept | isOne | ⟨onWay, -⟩
    · exact kept
    · exact absurd isOwn (independent.apart isReady place isOne)
    · exact absurd onWay (independent.offWay otherReady place isOwn)
  · have kept : (act one (act other tree).1).1.entryAt? place = some .directory := by
      rcases oneLast.entryAt? place with kept | isOne | ⟨-, -, again⟩
      · exact kept.trans made
      · exact absurd onWay (independent.offWay isReady place isOne)
      · exact again
    rw [kept]
    rcases ofOne.entryAt? place with unchanged | isOne | ⟨-, -, there⟩
    · exact ((otherAgain.entryAt? place unchanged).trans made).symm
    · exact absurd onWay (independent.offWay isReady place isOne)
    · rcases otherLast.entryAt? place with same | isOther | ⟨-, -, again⟩
      · exact (same.trans there).symm
      · exact absurd onWay (independent.offWay otherReady place isOther)
      · exact again.symm

/-- Actions one after another make the same of trees that hold the same entries. -/
theorem doEach_sameEntries (independent : Independent act own way ready) (isReady : ready items first)
    (same : first.SameEntries second) :
    (doEach act items first).1.SameEntries (doEach act items second).1 ∧
      (doEach act items second).2 = (doEach act items first).2 := by
  induction items generalizing first second with
  | nil => exact ⟨same, rfl⟩
  | cons item rest ih =>
      rcases ih (independent.step isReady) (independent.sameEntries isReady same) with ⟨trees, answers⟩
      refine ⟨trees, ?_⟩
      rw [doEach_cons, doEach_cons, answers, (independent.same isReady same).answer]

/-- The order in which actions are done does not matter. -/
theorem doEach_perm (independent : Independent act own way ready) (perm : items.Perm others)
    (isReady : ready items first) (same : first.SameEntries second) :
    (doEach act items first).1.SameEntries (doEach act others second).1 ∧
      (doEach act items first).2.Perm (doEach act others second).2 := by
  induction perm generalizing first second with
  | nil => exact ⟨same, .refl _⟩
  | cons item _ ih =>
      rcases ih (independent.step isReady) (independent.sameEntries isReady same) with ⟨trees, answers⟩
      refine ⟨trees, ?_⟩
      rw [doEach_cons, doEach_cons, (independent.same isReady same).answer]
      exact answers.cons _
  | swap other one rest =>
      have swapped := independent.perm isReady (.swap other one rest)
      have otherSame := independent.sameEntries swapped same
      have bothSame := independent.sameEntries (independent.step swapped) otherSame
      rcases independent.doEach_sameEntries (independent.step (independent.step isReady))
        ((independent.swap isReady).trans bothSame) with ⟨trees, answers⟩
      refine ⟨trees, ?_⟩
      have ofOther : (act other second).2 = (act other (act one first).1).2 :=
        (independent.same swapped same).answer.trans (independent.repeats isReady).answer.symm
      have ofOne : (act one (act other second).1).2 = (act one first).2 :=
        (independent.same (independent.step swapped) otherSame).answer.trans (independent.repeats swapped).answer
      rw [doEach_cons, doEach_cons, doEach_cons, doEach_cons, answers, ofOther, ofOne]
      exact .swap _ _ _
  | trans left right ihLeft ihRight =>
      rcases ihLeft isReady (.refl (independent.distinct isReady)) with ⟨toMiddle, answersMiddle⟩
      rcases ihRight (independent.perm isReady left) same with ⟨toLast, answersLast⟩
      exact ⟨toMiddle.trans toLast, answersMiddle.trans answersLast⟩

/-- When all actions are done, none is left to be ready for. -/
theorem ready_doEach (independent : Independent act own way ready) (isReady : ready items tree) :
    ready [] (doEach act items tree).1 := by
  induction items generalizing tree with
  | nil => exact isReady
  | cons item rest ih => exact ih (independent.step isReady)

end Independent

end FileTree

end AddonIndex
