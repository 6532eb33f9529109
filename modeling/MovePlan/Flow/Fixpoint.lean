set_option autoImplicit false

/-!
# Iteration to a fixed point

A table holds a value for each key of a list. A sweep recomputes every value in turn from the table as
it then stands; sweeps are repeated until one changes nothing.
-/
namespace MovePlan

abbrev ValueTable (κ α : Type) := List (κ × α)

namespace ValueTable
variable {κ α : Type} [DecidableEq κ]

def fill (keys : List κ) (v : κ → α) : ValueTable κ α := keys.map fun k => (k, v k)

/-- The value under a key, or `default` if the key is not listed. -/
def at? (default : α) : ValueTable κ α → κ → α
  | [], _ => default
  | e :: es, k => if e.1 = k then e.2 else at? default es k

def set : ValueTable κ α → κ → α → ValueTable κ α
  | [], _, _ => []
  | e :: es, k, v => if e.1 = k then (k, v) :: es else e :: set es k v

def sweep (default : α) (update : (κ → α) → κ → α) (order : List κ) (t : ValueTable κ α) :
    ValueTable κ α :=
  order.foldl (fun t k => t.set k (update (t.at? default) k)) t

/-- Sweeps until nothing changes, at most `rounds` times. -/
def settle [DecidableEq α] (default : α) (update : (κ → α) → κ → α) (order : List κ) :
    Nat → ValueTable κ α → ValueTable κ α
  | 0, t => t
  | rounds + 1, t =>
    let next := t.sweep default update order
    if next = t then t else settle default update order rounds next

end ValueTable
end MovePlan
