import Std.Data.HashSet

namespace LatticeSurgery

/-! Breadth-first search along directed links. A trail is a way from the start of
the search, with its latest stop first. The order of the links decides between
trails of the same length. -/

structure Trail (α : Type) where
  stop : α
  before : List α
deriving DecidableEq, Repr

namespace Trail

variable {α : Type}

def start (source : α) : Trail α := ⟨source, []⟩

def extend (trail : Trail α) (next : α) : Trail α := ⟨next, trail.stop :: trail.before⟩

def stops (trail : Trail α) : List α := (trail.stop :: trail.before).reverse

@[simp] theorem stops_start (source : α) : (start source).stops = [source] := rfl

@[simp] theorem stops_extend (trail : Trail α) (next : α) :
    (trail.extend next).stops = trail.stops ++ [next] := by
  simp [stops, extend]

end Trail

namespace Search

variable {α : Type} [DecidableEq α] [Hashable α]

/-- Take trails from the queue and extend them to stops that have not been seen yet.
One unit of `fuel` is spent for every trail taken, and the latest trail found comes
first. -/
def explore (links : α → List α) : (fuel : Nat) → (queue found : List (Trail α)) →
    (seen : Std.HashSet α) → List (Trail α)
  | 0, _, found, _ => found
  | _, [], found, _ => found
  | fuel + 1, trail :: queue, found, seen =>
      let fresh := (links trail.stop).filter fun next => !seen.contains next
      let reached := fresh.map trail.extend
      explore links fuel (queue ++ reached) (reached.reverse ++ found) (seen.insertMany fresh)

/-- The trails from `source` to every stop that it reaches, where `count` is at
least the number of such stops. -/
def trails (links : α → List α) (count : Nat) (source : α) : List (Trail α) :=
  explore links count [Trail.start source] [Trail.start source] {source}

def pathTo? (found : List (Trail α)) (target : α) : Option (List α) :=
  (found.find? fun trail => trail.stop = target).map Trail.stops

end Search

end LatticeSurgery
