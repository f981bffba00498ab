/-
`memory/Allocator.c`: allocators, each with one natural parent and perhaps others that adopted it.
An allocator that is freed goes over to a parent that adopted it if there is one; if not, it is
marked, and the same is done with its children, those of one depth after those of the depth before.
What is still below it in the end is released with it.

An allocator is named by a number, the root by 0. The list from `firstChild` along `nextSibling` is
the list of children, and an allocator without adoptions has two empty lists of them. Not here: the
memory that the allocators hold and its accounting, the canaries, and the `onFree` jobs, which run
between the marking and the release and do not touch the tree.
-/
import Hyperboria.Er

namespace Hyperboria.Allocator

structure Adoptions where
  parents : List Nat
  children : List Nat
deriving DecidableEq, Repr

/-- `struct Allocator_pvt`. -/
structure Node where
  parent : Option Nat
  children : List Nat
  isFreeing : Bool
  adoptions : Adoptions
deriving DecidableEq, Repr

/-- All allocators that there are or were: their numbers are those below `next`. -/
structure State where
  node : Nat → Node
  next : Nat
  /-- Whose memory was released, in this order. -/
  released : List Nat

namespace State

/-- The allocator is there: it was made, and not released. -/
def Live (s : State) (a : Nat) : Prop := a < s.next ∧ a ∉ s.released

instance (s : State) (a : Nat) : Decidable (s.Live a) := inferInstanceAs (Decidable (_ ∧ _))

def update (s : State) (a : Nat) (f : Node → Node) : State :=
  { s with node := Function.update s.node a (f (s.node a)) }

@[simp] theorem update_node (s : State) (a : Nat) (f : Node → Node) (b : Nat) :
    (s.update a f).node b = if b = a then f (s.node b) else s.node b := by
  by_cases h : b = a
  · subst h
    simp [update]
  · simp [update, h]

end State

open Er (assertTrue)

/-- `Identity_check`, which the memory of a released allocator does not pass. -/
def identityCheck (s : State) (a : Nat) : Er Unit := assertTrue (decide (s.Live a)) "Identity_check"

/-- `Allocator_new`: the root is its own parent. -/
def new : State where
  node a := ⟨if a = 0 then some 0 else none, [], false, ⟨[], []⟩⟩
  next := 1
  released := []

/-! ## Natural parents and adoptions -/

def disconnect (context : Nat) (s : State) : Er State :=
  match (s.node context).parent with
  | none => .abort "context->parent"
  | some parent => do
    assertTrue ((s.node parent).children.contains context || parent == context)
      "context->parent->firstChild == context || context->parent == context"
    let s := s.update parent fun n => { n with children := n.children.erase context }
    return s.update context fun n => { n with parent := none }

def connect (parent child : Nat) (s : State) : Er State := do
  assertTrue (s.node child).parent.isNone "child->parent == NULL"
  assertTrue (parent != child) "parent != child"
  assertTrue (!(s.node parent).children.contains child) "child != c"
  let s := s.update parent fun n => { n with children := child :: n.children }
  return s.update child fun n => { n with parent := some parent }

/-- `disconnectAdopted`: one adoption less. -/
def disconnectAdopted (parent child : Nat) (s : State) : Er State := do
  assertTrue (!(s.node parent).adoptions.children.isEmpty) "parent->adoptions->children"
  assertTrue (!(s.node child).adoptions.parents.isEmpty) "child->adoptions->parents"
  assertTrue ((s.node parent).adoptions.children.contains child)
    "disconnectAllocator(child, &parent->adoptions->children)"
  assertTrue ((s.node child).adoptions.parents.contains parent)
    "disconnectAllocator(parent, &child->adoptions->parents)"
  let s := s.update parent fun n =>
    { n with adoptions := { n.adoptions with children := n.adoptions.children.erase child } }
  return s.update child fun n =>
    { n with adoptions := { n.adoptions with parents := n.adoptions.parents.erase parent } }

/-- The loop of `pivotChildrenToAdoptedParents0` over `context->adoptions->children`. Each turn takes
out the first cell of the list, and `c->next` is then still what comes after it. -/
def dropAdoptions (context : Nat) : List Nat → State → Er State
  | [], s => return s
  | c :: rest, s => do
    assertTrue (!(s.node c).isFreeing) "!c->alloc->pub.isFreeing"
    let s ← disconnectAdopted context c s
    dropAdoptions context rest s

/-! ## Siblings -/

/-- What comes after `a` in a list. -/
def after (a : Nat) : List Nat → Option Nat
  | [] => none
  | b :: rest => if b = a then rest.head? else after a rest

/-- `context->nextSibling`. -/
def nextSibling (s : State) (context : Nat) : Option Nat :=
  match (s.node context).parent with
  | none => none
  | some parent => after context (s.node parent).children

/-- `while (child) { nextChild = child->nextSibling; …; child = nextChild; }`, where `store` is the
state that the turns go on from. -/
def siblings {α : Type} (store : α → State) (turn : Nat → α → Er α) : Nat → Option Nat → α → Er α
  | _, none, x => .ret x
  | 0, some _, _ => .spin
  | fuel + 1, some child, x => do
    let nextChild := nextSibling (store x) child
    let x ← turn child x
    siblings store turn fuel nextChild x

/-! ## Freeing -/

/-- `pivotChildrenToAdoptedParents0` where `depth == maxDepth`. -/
def pivotOrMark (context : Nat) (s : State) : Er (Nat × State) :=
  if (s.node context).isFreeing then .ret (0, s)
  else
    match (s.node context).adoptions.parents with
    | parent :: _ => do
      assertTrue (!(s.node parent).isFreeing) "!context->adoptions->parents->alloc->pub.isFreeing"
      let s ← disconnect context s
      let s ← connect parent context s
      let s ← disconnectAdopted parent context s
      return (0, s)
    | [] => do
      let s ← dropAdoptions context (s.node context).adoptions.children s
      assertTrue (!(s.node context).isFreeing) "!context->pub.isFreeing"
      return (1, s.update context fun n => { n with isFreeing := true })

/-- `pivotChildrenToAdoptedParents0`, with what is missing to `maxDepth`. -/
def pivotChildrenToAdoptedParents0 (fuel : Nat) : Nat → Nat → State → Er (Nat × State)
  | 0, context, s => pivotOrMark context s
  | n + 1, context, s =>
    siblings Prod.snd
      (fun child x => do
        assertTrue (child != context) "child != context"
        let y ← pivotChildrenToAdoptedParents0 fuel n child x.2
        return (x.1 + y.1, y.2))
      fuel (s.node context).children.head? (0, s)

/-- The text of the `Assert_failure` in `pivotChildrenToAdoptedParents`. -/
def tooDeep : String := "Didn't free all allocators in 10000 deep iterations"

/-- The loop of `pivotChildrenToAdoptedParents`, from the turn `i`, with the turns that are left. -/
def pivotFrom (fuel context : Nat) : Nat → Nat → State → Er (Bool × State)
  | 0, _, _ => .abort tooDeep
  | turns + 1, i, s => do
    let (out, s) ← pivotChildrenToAdoptedParents0 fuel i context s
    if out = 0 then return (i != 0, s) else pivotFrom fuel context turns (i + 1) s

/-- `pivotChildrenToAdoptedParents`: no if the allocator itself has another parent now. -/
def pivotChildrenToAdoptedParents (fuel context : Nat) (s : State) : Er (Bool × State) :=
  pivotFrom fuel context 10000 0 s

/-- `freeAllocator` where `isTop`. -/
def leaveParent (context : Nat) (s : State) : Er State :=
  match (s.node context).parent with
  | none => .abort "context->parent"
  | some parent => if (s.node parent).isFreeing then .ret s else disconnect context s

def freeAllocator : Nat → Nat → State → Er State
  | 0, _, _ => .spin
  | fuel + 1, context, s => do
    assertTrue (s.node context).isFreeing "context->pub.isFreeing"
    let s ← leaveParent context s
    let s ← siblings id (freeAllocator fuel) fuel (s.node context).children.head? s
    return { s with released := s.released ++ [context] }

/-- `Allocator__free`. -/
def free (fuel context : Nat) (s : State) : Er State := do
  identityCheck s context
  if (s.node context).isFreeing then return s
  else
    let (freeing, s) ← pivotChildrenToAdoptedParents fuel context s
    if freeing then freeAllocator fuel context s else return s

/-! ## The other calls -/

/-- `Allocator__child`. -/
def child (parent : Nat) (s : State) : Er (Nat × State) := do
  identityCheck s parent
  let made := s.next
  let s := { s.update made fun _ => ⟨none, [], (s.node parent).isFreeing, ⟨[], []⟩⟩ with next := s.next + 1 }
  let s ← connect parent made s
  return (made, s)

/-- `isAncestorOf`, for a `maybeParent` that is not `NULL`. The loop over the parents that adopted does
not go on to the next of them: if the first is no descendant, it never ends. -/
def isAncestorOf (s : State) (maybeParent : Nat) : Nat → Option Nat → Er Bool
  | 0, _ => .spin
  | _ + 1, none => .ret false
  | fuel + 1, some maybeChild =>
    if maybeParent = maybeChild then .ret true
    else if (s.node maybeChild).parent = some maybeChild then .ret false
    else do
      if ← isAncestorOf s maybeParent fuel (s.node maybeChild).parent then return true
      else
        match (s.node maybeChild).adoptions.parents with
        | [] => return false
        | adopter :: _ => if ← isAncestorOf s maybeParent fuel (some adopter) then return true else .spin

/-- `Allocator__disown`. -/
def disown (fuel parent child : Nat) (s : State) : Er State := do
  identityCheck s parent
  identityCheck s child
  if (s.node parent).isFreeing || (s.node child).isFreeing then return s
  else if (s.node child).parent = some parent then free fuel child s
  else if ← isAncestorOf s child fuel (some parent) then return s
  else disconnectAdopted parent child s

/-- `Allocator__adopt`. -/
def adopt (fuel parent child : Nat) (s : State) : Er State := do
  identityCheck s parent
  identityCheck s child
  if (s.node parent).isFreeing then return s
  else
    assertTrue (!(s.node child).isFreeing) "!child->pub.isFreeing"
    if ← isAncestorOf s child fuel (some parent) then return s
    else
      let s := s.update parent fun n =>
        { n with adoptions := { n.adoptions with children := child :: n.adoptions.children } }
      return s.update child fun n =>
        { n with adoptions := { n.adoptions with parents := parent :: n.adoptions.parents } }

/-- The calls that change who owns whom. -/
inductive Op where
  | child (parent : Nat)
  | adopt (parent child : Nat)
  | disown (parent child : Nat)
  | free (context : Nat)
deriving DecidableEq, Repr

def step (fuel : Nat) (s : State) : Op → Er State
  | .child parent => do
    let (_, s) ← child parent s
    return s
  | .adopt parent child => adopt fuel parent child s
  | .disown parent child => disown fuel parent child s
  | .free context => free fuel context s

end Hyperboria.Allocator
