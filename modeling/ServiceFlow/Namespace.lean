import ServiceFlow.Service.Resource

/-!
# Namespaces

Names and data sources shared by everything that is compiled for one interface. A name is given out
once; a data source is made at the first use of a reference.
-/

namespace ServiceFlow

structure DataSource where
  name : String
  kind : Backend
  resource : Resource
deriving DecidableEq, Repr

/-- Names given out so far, the next number to try after each base, and the data sources by the
reference they were made for. -/
structure Namespace where
  allocated : List String
  counters : Ordered Nat
  sources : Ordered DataSource

namespace Namespace

def empty : Namespace := ⟨[], [], []⟩

def isSafe (c : Char) : Bool := c.isAlphanum || c = '_'

def sanitize (name : String) : String :=
  if name.isEmpty then "unnamed"
  else String.ofList (name.toList.map fun c => if isSafe c then c else '_')

def numbered (base : String) (n : Nat) : String := base ++ "_" ++ toString n

/-- The first number from `n` on whose name is free. With more tries than names given out, one is
found. -/
def freeNumber (allocated : List String) (base : String) : Nat → Nat → Nat
  | 0, n => n
  | fuel + 1, n =>
    if numbered base n ∈ allocated then freeNumber allocated base fuel (n + 1) else n

/-- Give out a name: the base, or the base with a number once it is taken. -/
def uniqueName (ns : Namespace) (name : String) : String × Namespace :=
  let base := sanitize name
  if base ∈ ns.allocated then
    let start := (Ordered.get? base ns.counters).getD 0
    let n := freeNumber ns.allocated base (ns.allocated.length + 1) start
    let candidate := numbered base n
    (candidate, { ns with
      allocated := candidate :: ns.allocated
      counters := Ordered.put base (n + 1) ns.counters })
  else
    (base, { ns with allocated := base :: ns.allocated })

def dataSource (ns : Namespace) (reference : String) (resource : Resource) :
    DataSource × Namespace :=
  match Ordered.get? reference ns.sources with
  | some source => (source, ns)
  | none =>
    let (name, ns) := ns.uniqueName (reference ++ "_" ++ resource.kind.name)
    let source : DataSource := ⟨name, resource.kind, resource⟩
    (source, { ns with sources := ns.sources ++ [(reference, source)] })

def dataSources (ns : Namespace) : List DataSource := ns.sources.map (·.2)

end Namespace

def DataSource.toJson (source : DataSource) : Json :=
  .object [("name", .string source.name), ("kind", .string source.kind.name),
    ("resource", source.resource.toJson)]

end ServiceFlow
