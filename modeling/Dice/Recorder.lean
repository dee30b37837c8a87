import Dice.Toss

/-!
# Recorders

A recorder keeps tosses in the order in which they arrive, until it is
drained. It stands at the end of an evaluation: every node hands its toss over
when it is done, so the tosses of a tree arrive with those of the members
before that of the node around them.

Draining gives all tosses that were kept, oldest first, and leaves a recorder
that holds nothing. In between, a recorder can be asked how many tosses it
holds; that takes nothing away.

Main statement: `toList_appendAll`, tosses handed over in any number of steps
are kept one behind the other, after those that were there before.
-/

namespace Dice

/-- The tosses recorded so far, oldest first. Evaluations hand their tosses over
one by one. -/
structure Recorder where
  tosses : Array Toss

namespace Recorder

/-- The recorder that holds nothing. -/
def empty : Recorder := ⟨#[]⟩

/-- Keeps one more toss. -/
def append (recorder : Recorder) (toss : Toss) : Recorder := ⟨recorder.tosses.push toss⟩

/-- Keeps tosses in their order. -/
def appendAll (recorder : Recorder) (tosses : List Toss) : Recorder :=
  tosses.foldl append recorder

/-- How many tosses are kept. -/
def size (recorder : Recorder) : Nat := recorder.tosses.size

/-- Whether nothing is kept. -/
def isEmpty (recorder : Recorder) : Bool := recorder.tosses.isEmpty

/-- The tosses, and the recorder without them. Nothing is handed out twice. -/
def drain (recorder : Recorder) : List Toss × Recorder := (recorder.tosses.toList, empty)

/-- Tosses that arrive one after the other are kept in that order, after the
earlier ones. -/
theorem toList_appendAll (recorder : Recorder) (tosses : List Toss) :
    (recorder.appendAll tosses).tosses.toList = recorder.tosses.toList ++ tosses := by
  induction tosses generalizing recorder with
  | nil => simp [appendAll]
  | cons toss rest ih =>
    have h := ih (recorder.append toss)
    simp only [appendAll, List.foldl_cons] at h ⊢
    rw [h]
    simp [append]

end Recorder

end Dice
