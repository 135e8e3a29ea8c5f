import DancingLinks.Word

/-! # Rings of links

Circular doubly linked lists whose nodes are the indices of one array. A node that is unlinked
keeps its own two links, so relinking it puts it back where it was.
-/
namespace DancingLinks

structure Link where
  prev : Nat
  next : Nat
deriving DecidableEq

/-- The link of a node that is a ring by itself. -/
def Link.alone (node : Nat) : Link := ⟨node, node⟩

/-- The link of node `i` is at index `i`. -/
abbrev Links := Array Link

namespace Links

def link (links : Links) (node : Nat) : Except Fault Link :=
  if h : node < links.size then .ok links[node] else .error (.outOfBounds node)

def put (links : Links) (node : Nat) (l : Link) : Except Fault Links :=
  if h : node < links.size then .ok (links.set node l h) else .error (.outOfBounds node)

theorem link_of_lt {links : Links} {node : Nat} (h : node < links.size) :
    links.link node = .ok links[node] := dif_pos h

theorem put_of_lt {links : Links} {node : Nat} (l : Link) (h : node < links.size) :
    links.put node l = .ok (links.set node l h) := dif_pos h

def setPrev (links : Links) (node prev : Nat) : Except Fault Links := do
  let l ← links.link node
  put links node ⟨prev, l.next⟩

def setNext (links : Links) (node next : Nat) : Except Fault Links := do
  let l ← links.link node
  put links node ⟨l.prev, next⟩

def addNode (links : Links) : Links := links.push (Link.alone links.size)

def unlink (links : Links) (target : Nat) : Except Fault Links := do
  let l ← links.link target
  let links ← setNext links l.prev l.next
  setPrev links l.next l.prev

/-- Puts `target` back between the neighbours it still names. -/
def relink (links : Links) (target : Nat) : Except Fault Links := do
  let l ← links.link target
  let links ← setNext links l.prev target
  setPrev links l.next target

/-- Whether one of the neighbours that `target` names does not name it back. -/
def isUnlinked (links : Links) (target : Nat) : Except Fault Bool := do
  let l ← links.link target
  let before ← link links l.prev
  if before.next = target then
    let behind ← link links l.next
    return behind.prev ≠ target
  else
    return true

/-- Makes `target` the last node of the ring of `head`. -/
def insertBefore (links : Links) (head target : Nat) : Except Fault Links := do
  let tail := (← links.link head).prev
  let links ← put links target ⟨tail, head⟩
  let links ← setNext links tail target
  setPrev links head target

/-- The nodes met from `cursor` on, stepping by `step`, until `head` is met. -/
def walk (links : Links) (step : Link → Nat) (head : Nat) : Nat → Nat → Except Fault (List Nat)
  | 0, _ => .error .endlessWalk
  | fuel + 1, cursor =>
    if cursor = head then .ok []
    else do
      let l ← links.link cursor
      let rest ← walk links step head fuel (step l)
      return cursor :: rest

/-- The other nodes of the ring of `head`, from the one after it to the one before it. A ring has
no more nodes than there are links, so the walk never stops short of its start. -/
def forward (links : Links) (head : Nat) : Except Fault (List Nat) := do
  let l ← links.link head
  walk links Link.next head links.size l.next

def backward (links : Links) (head : Nat) : Except Fault (List Nat) := do
  let l ← links.link head
  walk links Link.prev head links.size l.prev

end Links

end DancingLinks
