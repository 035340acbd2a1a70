/-!
# Sorted maps

An association list with text keys in increasing order, each key once.
-/

namespace ServiceFlow

abbrev Sorted (β : Type) := List (String × β)

namespace Sorted

variable {β : Type}

def insert (key : String) (value : β) : Sorted β → Sorted β
  | [] => [(key, value)]
  | (k, v) :: rest =>
    if key = k then (key, value) :: rest
    else if key < k then (key, value) :: (k, v) :: rest
    else (k, v) :: insert key value rest

/-- Insert all entries in order, a later entry of a key replacing an earlier one. -/
def insertAll (m : Sorted β) (entries : List (String × β)) : Sorted β :=
  entries.foldl (fun acc entry => insert entry.1 entry.2 acc) m

def ofEntries (entries : List (String × β)) : Sorted β := insertAll [] entries

end Sorted

end ServiceFlow
