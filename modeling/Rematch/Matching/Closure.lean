import Rematch.Automaton.Analysis
import Rematch.Threads.Dispatch

/-!
Closures: what a thread does without consuming input. Alternatives are explored depth first in
priority order; an instruction with more than one incoming edge is entered once only. Every wait
and every match becomes an event. A match ends the closure, since all that would follow has lower
priority.

A capture that a backreference may read opens a scope: what is entered inside it does not count as
entered outside, because the captures differ.
-/

namespace Rematch

structure Exploration where
  scope : Scope
  /-- The events so far, the last one first. -/
  events : List Event := []
  /-- The number of outbox records that compiled code would have written. -/
  records : Nat := 0
  accepted : Bool := false

namespace Exploration

/-- Notes that an instruction is entered; `none` if it was entered before. -/
def enter? (state : Exploration) (pc : Nat) : Option Exploration :=
  if state.scope.visited.testBit pc then none
  else
    some { state with scope := { state.scope with visited := state.scope.visited ||| 1 <<< pc } }

def wait (state : Exploration) (entry count : Nat) : Exploration :=
  { state with
    events := .wait entry count state.scope.captures state.scope.visitId :: state.events }

def accept (state : Exploration) : Exploration :=
  { state with
    events := .accept state.scope.captures state.scope.visitId :: state.events
    accepted := true }

def record (state : Exploration) (count : Nat) : Exploration :=
  { state with records := state.records + count }

def openScope (state : Exploration) (slot : Nat) (value : Int) (isReferenced : Bool) :
    Exploration :=
  let scope := { state.scope with captures := state.scope.captures.setIfInBounds slot value }
  { state with
    scope := if isReferenced then
      { scope with visitId := scope.lastVisitId + 1, lastVisitId := scope.lastVisitId + 1 }
    else scope }

/-- Takes back what `openScope` did in the state before, unless a match was found. -/
def closeScope (state before : Exploration) (slot : Nat) (isReferenced : Bool) : Exploration :=
  if state.accepted then state
  else
    let value := before.scope.captures.getD slot 0
    let scope := { state.scope with captures := state.scope.captures.setIfInBounds slot value }
    { state with
      scope := if isReferenced then
        { scope with visited := before.scope.visited, visitId := before.scope.visitId }
      else scope }

end Exploration

/-- The outbox records that an extension takes in compiled code. A category is always left to the
host; of a backreference only spans that are neither unset nor empty are. -/
def Extension.records (ext : Extension) (captures : Captures) : Nat :=
  match ext.kind with
  | .backreference =>
    match captures[2 * ext.arg]?, captures[2 * ext.arg + 1]? with
    | some first, some last => if 0 ≤ first ∧ first < last then 1 else 0
    | _, _ => 0
  | _ => 1

namespace Analysis

variable (analysis : Analysis)

def span (pc : Nat) : List Nat :=
  if 0 < analysis.run.getD pc 0 then analysis.runInsts pc else [pc]

def spanMatches (analysis : Analysis) (text : Text) : Nat → List Nat → Bool
  | _, [] => true
  | offset, pc :: rest =>
    (text[offset]?).any (analysis.inst pc).accepts && analysis.spanMatches text (offset + 1) rest

def exploreBytes (sched : Scheduler) (pc : Nat) (state : Exploration) :
    Exploration :=
  let span := analysis.span pc
  if analysis.spanMatches sched.text sched.offset span then
    (state.wait (analysis.exit (analysis.inst (span.getLastD pc)).out) span.length).record 1
  else state

def exploreExtensions (analysis : Analysis) (sched : Scheduler)
    (visit : Nat → Exploration → Exploration) : List Extension → Exploration → Exploration
  | [], state => state
  | ext :: rest, state =>
    if state.accepted then state
    else
      let captures := state.scope.captures
      let out := analysis.exit ext.out
      let state := state.record (ext.records captures)
      exploreExtensions analysis sched visit rest <|
        match ext.evaluate? sched.text sched.offset captures with
        | none => state
        | some 0 => visit out state
        | some (count + 1) => state.wait out (count + 1)

def exploreInst (sched : Scheduler)
    (visit : Nat → Exploration → Exploration) (pc : Nat) (state : Exploration) : Exploration :=
  let inst := analysis.inst pc
  let out := analysis.exit inst.out
  match inst.op with
  | .alt | .altMatch => visit (analysis.exit inst.out1) (visit out state)
  | .byteRange => analysis.exploreBytes sched pc state
  | .capture =>
    if inst.arg < sched.slots then
      let isReferenced := analysis.backrefGroups.contains (inst.arg / 2)
      let inside := state.openScope inst.arg sched.offset isReferenced
      (visit out inside).closeScope state inst.arg isReferenced
    else visit out state
  | .emptyWidth =>
    if Condition.satisfied inst.arg sched.holding then visit out state else state
  | .nop => visit out state
  | .accept => if sched.mayMatch then state.accept.record 1 else state
  | .fail | .unknown _ => state

/-- Explores everything from an instruction on, along paths of at most `depth` instructions. -/
def explore (analysis : Analysis) (sched : Scheduler) :
    Nat → Nat → Exploration → Exploration
  | 0, _, state => state
  | depth + 1, pc, state =>
    if state.accepted then state
    else
      match if analysis.isShared pc then state.enter? pc else some state with
      | none => state
      | some state =>
        match analysis.extensionsAt? pc with
        | some exts =>
          analysis.exploreExtensions sched (explore analysis sched depth) exts state
        | none => analysis.exploreInst sched (explore analysis sched depth) pc state

/-- Explores the closure of an instruction. Every cycle holds a shared instruction, so that a path
can enter only those before the first shared one twice. -/
def closure (sched : Scheduler) (pc : Nat) : Exploration :=
  analysis.explore sched (2 * analysis.size + 1) pc { scope := sched.scope }

def interpreter : Runner := fun sched entry =>
  if entry < analysis.size then
    let state := analysis.closure sched entry
    { events := state.events.reverse, scope := state.scope }
  else { events := [], scope := sched.scope }

end Analysis

end Rematch
