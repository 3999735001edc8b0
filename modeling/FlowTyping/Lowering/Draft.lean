import FlowTyping.Graph.Basic

/-!
Draft blocks, whose exits are still being decided, and their compaction: empty
blocks that only forward are removed, except where nothing but such blocks forms a
cycle.
-/

namespace FlowTyping

inductive Exits where
  | openEnd
  | goto (target : BlockId)
  | branch (condition : NodeId) (thenSuccessor elseSuccessor : BlockId)
  | raise (successor : Option BlockId) (handlers : List (String × BlockId)) (terminal : Bool)
  | special (kind : SpecialKind) (successor : Option BlockId)
  deriving DecidableEq, Repr, Inhabited

namespace Exits

/-- Connects a free exit to a target. An exit that is taken stays as it is. -/
def link (target : BlockId) : Exits → Exits
  | openEnd => goto target
  | raise none handlers false => raise (some target) handlers false
  | special kind none => special kind (some target)
  | taken => taken

/-- Leads an exit that was never connected to the end of the unit. -/
def finish (exit : BlockId) : Exits → Exits
  | openEnd => goto exit
  | raise none handlers false => raise (some exit) handlers false
  | taken => taken

/-- The kind of the block with these exits, its targets renamed. -/
def toKind (rename : BlockId → BlockId) (exit : BlockId) : Exits → BlockKind
  | openEnd => .regular (rename exit)
  | goto target => .regular (rename target)
  | branch condition thenSuccessor elseSuccessor =>
      .conditional condition (rename thenSuccessor) (rename elseSuccessor)
  | raise successor handlers _ =>
      .exceptional (successor.map rename) (handlers.map fun h => (h.1, rename h.2))
  | special kind successor => .special kind (successor.map rename)

end Exits

structure Draft where
  nodes : List NodeId
  exits : Exits
  deriving DecidableEq, Repr, Inhabited

namespace Draft

/-- The target of an empty block that only forwards. -/
def forward? (d : Draft) : Option BlockId :=
  match d.exits with
  | .goto target => if d.nodes.isEmpty then some target else none
  | _ => none

end Draft

namespace Compaction

def forwardOf (drafts : Array Draft) (at_ : BlockId) : Option BlockId :=
  drafts[at_]?.bind Draft.forward?

/-- The blocks of the chain of removable blocks from `at_`, if it runs into itself.
The blocks met so far are given, last one first. -/
def cycleFrom (drafts : Array Draft) (removable : Array Bool) :
    Nat → List BlockId → BlockId → Option (List BlockId)
  | 0, _, _ => none
  | fuel + 1, path, at_ =>
      if removable.getD at_ false = false then none
      else if at_ ∈ path then some path
      else
        match forwardOf drafts at_ with
        | some next => cycleFrom drafts removable fuel (at_ :: path) next
        | none => none

/-- Keeps the blocks of a chain that runs into itself. -/
def keepCycle (drafts : Array Draft) (removable : Array Bool) (start : BlockId) : Array Bool :=
  match cycleFrom drafts removable (drafts.size + 1) [] start with
  | some path => path.foldl (fun flags block => flags.setIfInBounds block false) removable
  | none => removable

/-- For each block whether it is removed. -/
def removableBlocks (drafts : Array Draft) : Array Bool :=
  (List.range drafts.size).foldl (keepCycle drafts) (drafts.map fun d => d.forward?.isSome)

/-- The block that a chain of removed blocks leads to. -/
def destination (drafts : Array Draft) (removable : Array Bool) : Nat → BlockId → BlockId
  | 0, at_ => at_
  | fuel + 1, at_ =>
      if removable.getD at_ false then
        match forwardOf drafts at_ with
        | some next => destination drafts removable fuel next
        | none => at_
      else at_

end Compaction

/-- For each draft whether it is kept, and the final id of the block that it is or
leads to. Kept blocks are numbered in order. -/
def compactIds (drafts : Array Draft) : Array (Bool × BlockId) :=
  let removable := Compaction.removableBlocks drafts
  let numbers := (List.range drafts.size).foldl
    (fun (acc : Array BlockId × BlockId) i =>
      (acc.1.push acc.2, if removable.getD i false then acc.2 else acc.2 + 1)) (#[], 0)
  (Array.range drafts.size).map fun i =>
    (!removable.getD i false,
      numbers.1.getD (Compaction.destination drafts removable (drafts.size + 1) i) 0)

end FlowTyping
