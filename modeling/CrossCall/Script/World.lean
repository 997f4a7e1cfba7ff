import CrossCall.Call
import CrossCall.Concurrent.Program
import CrossCall.Event
import CrossCall.Script.Target
import CrossCall.Worker
import CrossCall.Worker.Spec

/-!
All that the threads of one script share: the signals, calls and workers, the state behind the
callables, what queues keep, the slots a script names things by, and the log and events that the
script is judged by.
-/

namespace CrossCall.Script

/-- A gate is closed until it is opened for ever. -/
structure Gate where
  isOpen : Bool := false
  /-- How many passes were begun. -/
  entered : Nat := 0
  /-- Who stands before the gate. -/
  waiting : List ThreadId := []
  deriving Inhabited

/-- What the slots of a script stand for. -/
structure Slots where
  objects : List (String × Nat) := []
  callables : List (String × Callable) := []
  delegates : List (String × Delegate) := []
  queues : List (String × Queue) := []
  signals : List (String × Nat) := []
  calls : List (String × Nat) := []
  deriving Inhabited

/-- The handles in the slots. -/
def Slots.handles (s : Slots) : List Handle :=
  s.callables.flatMap (·.2.target.handles) ++ s.delegates.flatMap (handlesOfDelegate ·.2) ++
    s.queues.flatMap (·.2.handles)

/-- What the threads of one step count together. -/
structure Tally where
  done : Nat := 0
  /-- Answers that count as good. -/
  good : Nat := 0
  sum : Int64 := 0
  errors : List (String × Nat) := []
  /-- The runs that have begun, by number. -/
  runs : List Nat := []
  deriving Inhabited

structure World extends Store where
  signals : List Signal := []
  calls : Array (Call Value) := #[]
  workers : List (Worker Item) := []
  shelves : List (List Item) := []
  /-- The threads a handing-off queue has started since the last join. Of those that ended, whether
  they ended without a panic. -/
  lines : List (List (ThreadId × Option Bool)) := []
  gates : List (String × Gate) := []
  /-- At the end every gate is open, also those that nobody has come to. -/
  gatesOpen : Bool := false
  nextClosure : UInt64 := 1
  nextQueue : Nat := 0
  slots : Slots := {}
  /-- The handles outside the slots, under the numbers of what holds them: items that wait or run,
  calls on threads of their own, and what has just left a slot. -/
  kept : List (Nat × List Handle) := []
  nextKept : Nat := 0
  /-- The answers of calls started on threads of their own. -/
  started : List (Option Value) := []
  tally : Tally := {}
  log : Array (String × Value) := #[]
  events : Array Event := #[]
  answers : Array Value := #[]
  deriving Inhabited

/-- A slot or a number now stands for something else. -/
def assign {κ α : Type} [DecidableEq κ] (name : κ) (value : α) (slots : List (κ × α)) :
    List (κ × α) :=
  (name, value) :: slots.filter fun s => s.1 ≠ name

namespace World

def signalPart (i : Nat) : Part World Signal where
  get? w := w.signals[i]?
  put w s := { w with signals := w.signals.set i s }

def callPart (i : Nat) : Part World (Call Value) where
  get? w := w.calls[i]?
  put w c := { w with calls := w.calls.setIfInBounds i c }

def workerPart (i : Nat) : Part World (Worker Item) where
  get? w := w.workers[i]?
  put w x := { w with workers := w.workers.set i x }

def gate (w : World) (name : String) : Gate :=
  let g := (w.gates.lookup name).getD {}
  { g with isOpen := g.isOpen || w.gatesOpen }

def setGate (w : World) (name : String) (gate : Gate) : World :=
  { w with gates := assign name gate w.gates }

/-- Whose log a thread writes to. -/
def label (w : World) (t : ThreadId) : String :=
  (w.workers.find? (·.thread = t)).elim "caller" Worker.name

def report (w : World) (e : Event) : World := { w with events := w.events.push e }

def append (w : World) (t : ThreadId) (entry : Value) : World :=
  { w with log := w.log.push (w.label t, entry) }

/-- A handing-off queue has started a thread. -/
def addToLine (w : World) (line : Nat) (t : ThreadId) : World :=
  { w with lines := w.lines.modify line (· ++ [(t, none)]) }

/-- A thread of a handing-off queue ends. -/
def endInLine (w : World) (line : Nat) (t : ThreadId) (returned : Bool) : World :=
  { w with lines := w.lines.modify line (·.map fun x =>
    if x.1 = t then (t, some returned) else x) }

def endedInLine (w : World) (line : Nat) (t : ThreadId) : Bool :=
  (w.lines[line]?.getD []).any fun x => x.1 = t && x.2.isSome

def shelve (w : World) (shelf : Nat) (item : Item) : World :=
  { w with shelves := w.shelves.modify shelf (· ++ [item]) }

/-- The entries of each log in their order, under the names of the logs. -/
def logs (w : World) : Value :=
  let names := (w.log.toList.map (·.1)).eraseDups
  .ofFields (names.map fun n =>
    (n, .list (w.log.toList.filterMap fun e => if e.1 = n then some e.2 else none)))

def clearLog (w : World) : World := { w with log := #[] }

end World

/-- A program of one of the script's threads. -/
abbrev Action := Program World

namespace Action

def onSignal {ρ : Type} (i : Nat) (r : Routine Signal ρ) : Action ρ :=
  .run (r.on (World.signalPart i))

def onCall {ρ : Type} (i : Nat) (r : Routine (Call Value) ρ) : Action ρ :=
  .run (r.on (World.callPart i))

def onWorker {ρ : Type} (i : Nat) (r : Routine (Worker Item) ρ) : Action ρ :=
  .run (r.on (World.workerPart i))

/-- One atomic step on the worker. -/
def modifyWorker (i : Nat) (f : Worker Item → Worker Item) : Action Unit :=
  onWorker i (.atomic fun _ w => ((), f w))

def report (e : Event) : Action Unit := .modify (·.report e)

/-- Appends an entry to the log of the thread that runs. -/
def log (entry : Value) : Action Unit :=
  .run (.atomic fun m w => ((), w.append m.self entry))

def update {ρ : Type} (f : World → ρ × World) : Action ρ := .run (.atomic fun _ w => f w)

end Action
end CrossCall.Script
