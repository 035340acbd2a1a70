/-!
# Ordered maps

An association list with text keys. A key put again keeps its place and takes the new value.
-/

namespace ServiceFlow

abbrev Ordered (β : Type) := List (String × β)

namespace Ordered

variable {β : Type}

def get? (key : String) : Ordered β → Option β
  | [] => none
  | (k, v) :: rest => if k = key then some v else get? key rest

def put (key : String) (value : β) : Ordered β → Ordered β
  | [] => [(key, value)]
  | (k, v) :: rest => if k = key then (k, value) :: rest else (k, v) :: put key value rest

def putAll (m entries : Ordered β) : Ordered β :=
  entries.foldl (fun acc entry => put entry.1 entry.2 acc) m

def ofEntries (entries : List (String × β)) : Ordered β := putAll [] entries

end Ordered

end ServiceFlow
