import QueryPlanning.Config

/-!
# Cluster membership

The workers of the cluster, as the planner sees them: a set of host names, a set of IP addresses and
a number of nodes, which can be larger than either when workers share a host. The sets are kept as
ascending lists without repetitions, so equal sets are equal lists.
-/

namespace QueryPlanning

structure Cluster where
  hostnames : List String := []
  ipAddresses : List String := []
  /-- Before anything is known, one local node is assumed. -/
  size : Nat := 1
  deriving DecidableEq, Repr

namespace Cluster

/-- Puts a name into its place in an ascending list, once. -/
def insertName (name : String) : List String → List String
  | [] => [name]
  | n :: rest =>
    match compare name n with
    | .lt => name :: n :: rest
    | .eq => n :: rest
    | .gt => n :: insertName name rest

/-- The names in ascending order, each once. -/
def nameSet (names : List String) : List String :=
  names.foldr insertName []

/-- What the cluster's state service publishes. -/
structure Update where
  hostnames : List String := []
  ipAddresses : List String := []
  size : Nat
  deriving DecidableEq, Repr

def ofUpdate (u : Update) : Cluster :=
  ⟨nameSet u.hostnames, nameSet u.ipAddresses, u.size⟩

/-- Whether the host of an address belongs to the cluster, by name or by number. -/
def contains (c : Cluster) (a : Address) : Bool :=
  c.ipAddresses.contains a.host || c.hostnames.contains a.host

namespace Update

/-- The membership that a configuration lists, if it names any host. -/
def ofConfig? (c : Config) : Option Update :=
  if c.hostnames.isEmpty && c.ipAddresses.isEmpty then none
  else
    let listed := max c.hostnames.length c.ipAddresses.length
    some ⟨c.hostnames, c.ipAddresses, if 0 < c.nodes then c.nodes else listed⟩

open Json

def read (j : Json) : Read Update := do
  let members ← readMembers j
  return {
    hostnames := ← members.withDefault "hostnames" [] (readList readText)
    ipAddresses := ← members.withDefault "ip_addresses" [] (readList readText)
    size := ← members.required "num_nodes" readNat }

def toJson (u : Update) : Json :=
  .object [("hostnames", .array (u.hostnames.map .text)),
    ("ip_addresses", .array (u.ipAddresses.map .text)), ("num_nodes", .nat u.size)]

end Update

end Cluster

end QueryPlanning
