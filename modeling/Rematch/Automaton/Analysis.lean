import Rematch.Automaton.Basic

/-!
Analysis of an automaton with an overlay. It resolves nops, finds what is reachable from the start,
counts the edges into each instruction, and fuses chains of byte ranges that can only be entered at
their head into runs. `Analysis.blocks` are the instructions that execution enters directly; those
with more than one incoming edge are entered once per offset only.
-/

namespace Rematch

def maxRun : Nat := 64

/-- An automaton together with the extensions that start in it. -/
structure Graph where
  automaton : Automaton
  overlay : Overlay

namespace Graph

def size (graph : Graph) : Nat := graph.automaton.size

variable (graph : Graph)

/-- The instruction at an index; beyond the last one everything fails. -/
def inst (pc : Nat) : Inst := graph.automaton.insts.getD pc {}

def extensionsAt? (pc : Nat) : Option (List Extension) :=
  graph.overlay.find? pc

def isByteRange (pc : Nat) : Bool :=
  (graph.inst pc).op = .byteRange && (graph.extensionsAt? pc).isNone

/-- Skips nops for at most `steps` instructions; a nop that leads to itself is kept. -/
def followFrom (graph : Graph) : Nat → Nat → Nat
  | 0, pc => pc
  | steps + 1, pc =>
    let inst := graph.inst pc
    if inst.op = .nop ∧ inst.out.toNat ≠ pc then followFrom graph steps inst.out.toNat else pc

def follow (pc : Nat) : Nat := graph.followFrom graph.size pc

def exit (out : Int) : Nat := graph.follow out.toNat

/-- The instructions that come directly after `pc`, nops skipped, in priority order. -/
def successors (pc : Nat) : List Nat :=
  match graph.extensionsAt? pc with
  | some exts => exts.map fun ext => graph.exit ext.out
  | none =>
    let inst := graph.inst pc
    match inst.op with
    | .alt | .altMatch => [graph.exit inst.out, graph.exit inst.out1]
    | .byteRange | .capture | .emptyWidth | .nop => [graph.exit inst.out]
    | _ => []

/-- The targets of the extensions at `pc`. Threads that come from different offsets can meet there,
so each counts as one more incoming edge. -/
def extensionTargets (pc : Nat) : List Nat :=
  ((graph.extensionsAt? pc).getD []).map fun ext => graph.exit ext.out

def start (graph : Graph) : Nat := graph.exit graph.automaton.start

def mark : List Nat → List Nat × Array Bool → List Nat × Array Bool
  | [], state => state
  | target :: rest, (work, marked) =>
    if marked.getD target true then mark rest (work, marked)
    else mark rest (target :: work, marked.setIfInBounds target true)

/-- Marks everything reachable from the work list; every step takes one instruction off it, and no
instruction comes onto it twice. -/
def markReachable (graph : Graph) : Nat → List Nat × Array Bool → Array Bool
  | 0, (_, marked) => marked
  | _ + 1, ([], marked) => marked
  | steps + 1, (pc :: work, marked) =>
    markReachable graph steps (mark (graph.successors pc) (work, marked))

def reachable : Array Bool :=
  graph.markReachable (graph.size + 1)
    (mark [graph.start] ([], Array.replicate graph.size false))

/-- The first fault of the overlay: extensions at anything but a byte range, of an unknown kind, or
that lead outside the automaton. -/
def overlayFault? : Option AutomatonError :=
  graph.overlay.findSome? fun (pc, exts) =>
    if (graph.automaton.inst? pc).any (·.op = .byteRange) then
      (exts.find? fun ext => !(ext.kind.isKnown && graph.automaton.inside ext.out)).map
        (.badExtension pc)
    else some (.misplacedExtension pc)

def validate (graph : Graph) : Except AutomatonError Unit :=
  match graph.automaton.validate, graph.overlayFault? with
  | .error fault, _ => .error fault
  | .ok (), some fault => .error fault
  | .ok (), none => .ok ()

end Graph

structure Analysis extends Graph where
  start : Nat
  reachable : Array Bool
  /-- Incoming edges; the start and the targets of extensions have one more. -/
  indegree : Array Nat
  /-- The length of the run at each run head, and zero elsewhere. -/
  run : Array Nat
  /-- The members of runs that are not heads. -/
  absorbed : Array Bool
  /-- The reachable instructions that are entered directly, ascending. -/
  blocks : List Nat
  backrefGroups : List Nat
  hasCategories : Bool
  extensions : Nat

namespace Graph

def marked (marks : Array Bool) : List Nat :=
  (List.range marks.size).filter fun pc => marks.getD pc false

variable (graph : Graph)

def edgeTargets (sources : List Nat) : List Nat :=
  sources.flatMap fun pc => graph.successors pc ++ graph.extensionTargets pc

def indegrees (sources : List Nat) : Array Nat :=
  (graph.start :: graph.edgeTargets sources).foldl
    (fun counts target => counts.modify target (· + 1)) (Array.replicate graph.size 0)

def predecessors (sources : List Nat) : Array (Option Nat) :=
  sources.foldl (fun known pc =>
    (graph.successors pc).foldl (fun known target => known.setIfInBounds target (some pc)) known)
    (Array.replicate graph.size none)

/-- Whether `pc` continues the run of its predecessor: both are byte ranges, and there is no other
way to enter it. -/
def joins (indegree : Array Nat) (before : Array (Option Nat)) (pc : Nat) : Bool :=
  pc != graph.start && indegree.getD pc 0 = 1 && graph.isByteRange pc &&
    (before.getD pc none).any graph.isByteRange

def chain (graph : Graph) (joins : Nat → Bool) : Nat → Nat → List Nat
  | 0, pc => [pc]
  | steps + 1, pc =>
    let next := graph.exit (graph.inst pc).out
    pc :: if joins next then chain graph joins steps next else []

def pieces (size : Nat) : Nat → List Nat → List (List Nat)
  | 0, _ => []
  | _ + 1, [] => []
  | count + 1, list => list.take size :: pieces size count (list.drop size)

/-- The runs of the given instructions: every chain from an instruction that continues no run,
cut into pieces. -/
def runs (joins : Nat → Bool) (sources : List Nat) : List (List Nat) :=
  (sources.filter fun pc => graph.isByteRange pc && !joins pc).flatMap fun head =>
    let whole := graph.chain joins graph.size head
    pieces maxRun whole.length whole

def referencedGroups (sources : List Nat) : List Nat :=
  let named := sources.flatMap fun pc =>
    ((graph.extensionsAt? pc).getD []).filterMap fun ext =>
      if ext.kind = .backreference then some ext.arg else none
  (List.range 256).filter named.contains

def summary : Analysis :=
  let reachable := graph.reachable
  let sources := marked reachable
  let indegree := graph.indegrees sources
  let before := graph.predecessors sources
  let runs := graph.runs (graph.joins indegree before) sources
  let absorbed := (runs.flatMap List.tail).foldl (fun marks pc => marks.setIfInBounds pc true)
    (Array.replicate graph.size false)
  let exts := sources.flatMap fun pc => (graph.extensionsAt? pc).getD []
  { toGraph := graph
    start := graph.start
    reachable
    indegree
    run := runs.foldl (fun lengths run => lengths.setIfInBounds (run.headD 0) run.length)
      (Array.replicate graph.size 0)
    absorbed
    blocks := sources.filter fun pc => !absorbed.getD pc false
    backrefGroups := graph.referencedGroups sources
    hasCategories := exts.any fun ext => ext.kind = .category || ext.kind = .notCategory
    extensions := exts.length }

def analyze : Except AutomatonError Analysis :=
  graph.validate.map fun _ => graph.summary

end Graph

namespace Analysis

def runFrom (analysis : Analysis) : Nat → Nat → List Nat
  | 0, _ => []
  | count + 1, pc => pc :: runFrom analysis count (analysis.exit (analysis.inst pc).out)

variable (analysis : Analysis)

def runInsts (pc : Nat) : List Nat :=
  analysis.runFrom (analysis.run.getD pc 0) pc

def runOut (pc : Nat) : Nat :=
  analysis.exit (analysis.inst ((analysis.runInsts pc).getLastD pc)).out

/-- Whether entering `pc` is limited to once per offset. -/
def isShared (pc : Nat) : Bool := 1 < analysis.indegree.getD pc 0

def hasBackrefs : Bool := !analysis.backrefGroups.isEmpty

def maxBackrefGroup : Int :=
  match analysis.backrefGroups.getLast? with
  | some group => group
  | none => -1

def renderBlock (pc : Nat) : String :=
  let index := Digits.padLeft ' ' 4 (toString pc)
  let edges := analysis.indegree.getD pc 0
  let length := analysis.run.getD pc 0
  let run := if length > 0 then s!" run={length}" else ""
  let exts := String.join (((analysis.extensionsAt? pc).getD []).map fun ext => s!" [{ext.render}]")
  s!"{index}. indeg={edges}{run}{exts}\n"

def render : String :=
  let groups := " ".intercalate (analysis.backrefGroups.map fun group => s!"{group}:true")
  let count := analysis.blocks.length
  s!"start {analysis.start}, {count} blocks, {analysis.extensions} extensions\n" ++
    String.join (analysis.blocks.map analysis.renderBlock) ++
    if analysis.hasBackrefs then s!"backref groups: map[{groups}]\n" else ""

end Analysis

end Rematch
