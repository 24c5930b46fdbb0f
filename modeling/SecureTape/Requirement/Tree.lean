import SecureTape.Requirement.Tally

/-!
# Requirement trees

Requirements follow the nesting of loops, branches, threads and calls. A node has counts of its
own and groups of children: the members of a group are needed one after the other, alternatively,
or one after the other a number of times. A node may have several parents, and a recursive call
makes it its own descendant.

Aggregates are kept until something below them changes. While an aggregate is computed, a node
that is met again on the way down counts nothing and is reported as a hit; the node that was met
makes all its counts unbounded, and aggregates with open hits are not kept.
-/

namespace SecureTape

abbrev NodeId := Nat

/-- How the members of a group count together. -/
inductive Combinator where
  /-- One after the other. -/
  | sum
  /-- One of them, or all at the same time. -/
  | max
  | times (n : Count)
  deriving Repr, DecidableEq, Inhabited

/-- The tally of a group from those of its members. -/
def Combinator.combine (c : Combinator) (parts : List Tally) : Tally :=
  match c with
  | .sum => parts.foldl Tally.sum .empty
  | .max => parts.foldl Tally.max .empty
  | .times n => (parts.foldl Tally.sum .empty).scale n

structure RequirementGroup where
  combinator : Combinator
  members : List NodeId
  deriving Repr, DecidableEq, Inhabited

structure RequirementNode where
  name : String
  own : Tally := .empty
  groups : List RequirementGroup := []
  parents : List NodeId := []
  /-- The aggregate, if nothing below changed since it was computed. -/
  kept : Option Tally := none
  deriving Repr, DecidableEq, Inhabited

structure RequirementTree where
  nodes : Array RequirementNode := #[]
  deriving Repr, DecidableEq, Inhabited

namespace RequirementTree

def empty : RequirementTree := {}

def size (t : RequirementTree) : Nat := t.nodes.size

def node (t : RequirementTree) (id : NodeId) : RequirementNode :=
  t.nodes.getD id default

def modifyNode (t : RequirementTree) (id : NodeId) (f : RequirementNode → RequirementNode) :
    RequirementTree :=
  { t with nodes := t.nodes.modify id f }

def addNode (t : RequirementTree) (name : String) : NodeId × RequirementTree :=
  (t.size, { t with nodes := t.nodes.push { name } })

/-! ## Changes drop the aggregates above them -/

/-- The nodes `seen` and everything above `frontier`, which was seen last. -/
def ancestorsFrom (t : RequirementTree) : Nat → List NodeId → List NodeId → List NodeId
  | 0, seen, _ => seen
  | fuel + 1, seen, frontier =>
    let next := ((frontier.flatMap fun id => (t.node id).parents).filter (· ∉ seen)).eraseDups
    if next.isEmpty then seen else t.ancestorsFrom fuel (seen ++ next) next

def ancestors (t : RequirementTree) (id : NodeId) : List NodeId :=
  t.ancestorsFrom t.size [id] [id]

/-- Drop the aggregates of a node and of everything above it. -/
def invalidate (t : RequirementTree) (id : NodeId) : RequirementTree :=
  (t.ancestors id).foldl (fun t a => t.modifyNode a ({ · with kept := none })) t

def addParent (t : RequirementTree) (id parent : NodeId) : RequirementTree :=
  t.modifyNode id fun n => { n with parents := n.parents ++ [parent] }

/-- A new group of children. The answer is the number of the group. -/
def addGroup (t : RequirementTree) (parent : NodeId) (combinator : Combinator)
    (members : List NodeId) : Nat × RequirementTree :=
  let t := members.foldl (fun t m => t.addParent m parent) t
  let index := (t.node parent).groups.length
  let t := t.modifyNode parent fun n => { n with groups := n.groups ++ [⟨combinator, members⟩] }
  (index, t.invalidate parent)

def extendGroup (t : RequirementTree) (parent : NodeId) (group : Nat) (member : NodeId) :
    RequirementTree :=
  let t := t.addParent member parent
  let t := t.modifyNode parent fun n =>
    { n with groups := n.groups.modify group fun g => { g with members := g.members ++ [member] } }
  t.invalidate parent

def addScope (t : RequirementTree) (parent : NodeId) (name : String) (combinator : Combinator) :
    NodeId × RequirementTree :=
  let (id, t) := t.addNode name
  (id, (t.addGroup parent combinator [id]).2)

def increment (t : RequirementTree) (id : NodeId) (r : Resource) (n : Count) : RequirementTree :=
  (t.modifyNode id fun node => { node with own := node.own.increment r n }).invalidate id

def addUsage (t : RequirementTree) (id : NodeId) (usage : Tally) : RequirementTree :=
  if usage.isEmpty then t
  else (t.modifyNode id fun node => { node with own := node.own.sum usage }).invalidate id

/-! ## Aggregates -/

/-- The aggregate of a node from its own counts and what its groups answered, and the hits that
stay open. A node that was hit makes its counts unbounded. -/
def settle (id : NodeId) (own : Tally) (parts : List (Tally × List NodeId)) :
    Tally × List NodeId :=
  let total := parts.foldl (fun acc part => acc.sum part.1) own
  let hits := parts.flatMap (·.2)
  (if id ∈ hits then total.unbound else total, hits.filter (· ≠ id))

/-- The aggregate of a node while the nodes `active` are being computed, and the hits on them. -/
def aggregateFrom : Nat → List NodeId → NodeId → StateM RequirementTree (Tally × List NodeId)
  | 0, _, _ => pure (.empty, [])
  | fuel + 1, active, id => do
    let node := (← get).node id
    match node.kept with
    | some kept => return (kept, [])
    | none =>
      if id ∈ active then
        return (.empty, [id])
      let parts ← node.groups.mapM fun group => do
        let answers ← group.members.mapM (aggregateFrom fuel (id :: active))
        return (group.combinator.combine (answers.map (·.1)), answers.flatMap (·.2))
      let (result, pending) := settle id node.own parts
      if pending.isEmpty then
        modify fun t => t.modifyNode id ({ · with kept := some result })
      return (result, pending)

/-- The aggregate of a node. A path down the tree meets each node at most once before it stops,
so it is never longer than the number of nodes. -/
def aggregate (t : RequirementTree) (id : NodeId) : Tally × RequirementTree :=
  let ((result, _), t) := (aggregateFrom (t.size + 1) [] id).run t
  (result, t)

/-! ## Walks -/

/-- The nodes `seen` and those below `stack`, each where it is met first. -/
def preorderFrom (t : RequirementTree) : Nat → List NodeId → List NodeId → List NodeId
  | 0, seen, _ => seen
  | _, seen, [] => seen
  | fuel + 1, seen, id :: stack =>
    if id ∈ seen then t.preorderFrom fuel seen stack
    else
      let members := (t.node id).groups.flatMap (·.members)
      t.preorderFrom fuel (seen ++ [id]) (members ++ stack)

/-- The nodes below some roots, a node before its children and each child with all below it before
the next. A walk follows every edge once. -/
def preorder (t : RequirementTree) (roots : List NodeId) : List NodeId :=
  let edges := (t.nodes.toList.flatMap fun n => n.groups.flatMap (·.members)).length
  t.preorderFrom (roots.length + edges) [] roots

end RequirementTree

end SecureTape
