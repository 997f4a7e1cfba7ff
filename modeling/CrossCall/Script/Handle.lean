import CrossCall.Script.World

/-!
Handles: what slots, items and calls keep alive, and how it is let go of. Handles are dropped one by
one. Whoever drops the last handle of a worker exits it there and then, and goes on only after that;
with the last handle of a parked queue go the items on its shelf, and the handles that these hold.
-/

namespace CrossCall.Script

/-- What dropping a handle comes to. -/
inductive Loss where
  /-- There was none left to drop. -/
  | nothing
  /-- Nothing else is to be done about it. -/
  | done
  /-- It was the last handle of a worker. -/
  | lastOf (worker : Nat)
  deriving DecidableEq, Inhabited

namespace World

def holds (w : World) (h : Handle) : Bool :=
  w.slots.handles.contains h || w.kept.any (·.2.contains h)

/-- Keeps handles under the next number. -/
def keep (w : World) (handles : List Handle) : Nat × World :=
  (w.nextKept,
    { w with kept := (w.nextKept, handles) :: w.kept, nextKept := w.nextKept + 1 })

def keptUnder (w : World) (n : Nat) : List Handle := (w.kept.lookup n).getD []

/-- What is kept under `n` is parted: some of it stays, the rest gets a number of its own. -/
def divide (w : World) (n : Nat) (stays goes : List Handle) : Nat × World :=
  { w with kept := assign n stays w.kept }.keep goes

/-- Drops the items of a shelf. What they held is now held under `n`, before anything else. -/
def clearShelf (w : World) (shelf n : Nat) : World :=
  let numbers := (w.shelves[shelf]?.getD []).map Item.number
  let handles := numbers.flatMap w.keptUnder ++ w.keptUnder n
  { w with
    shelves := w.shelves.set shelf []
    kept := assign n handles (w.kept.filter fun k => !numbers.contains k.1) }

/-- Drops the first of the handles that are kept under `n`. -/
def dropNext (w : World) (n : Nat) : Loss × World :=
  match w.keptUnder n with
  | [] => (.nothing, { w with kept := w.kept.filter (·.1 ≠ n) })
  | h :: rest =>
    let w := { w with kept := assign n rest w.kept }
    if w.holds h then (.done, w)
    else
      match h with
      | .worker i => (.lastOf i, w)
      | .shelf s => (.done, w.clearShelf s n)

/-- Closes worker `i`, and joins it unless this is its own thread. -/
def exit (i : Nat) : Routine World Unit :=
  (Worker.close.on (workerPart i)).andThen fun wasOpen =>
  (Routine.atomic fun m w =>
    let worker := w.workers[i]?
    (worker.any (·.thread = m.self),
      if wasOpen then w.report (.closed (worker.elim "" Worker.name)) else w)).andThen fun own =>
  if own then .skip () else Worker.join.on (workerPart i)

/-- Drops all handles that are kept under `n`, and the number with them. -/
def letGo (n : Nat) : Routine World Unit :=
  .repeating <| (Routine.atomic fun _ w => w.dropNext n).andThen fun
    | .nothing => .skip false
    | .done => .skip true
    | .lastOf i => (exit i).andThen fun _ => .skip true

end World

namespace Action

def exitWorker (i : Nat) : Action Unit := .run (World.exit i)

def keep (handles : List Handle) : Action Nat := update (·.keep handles)

def letGo (n : Nat) : Action Unit := .run (World.letGo n)

/-- Runs a program that needs what is kept under `n`. That is let go of at the end, however the
program ends. -/
def consume {α : Type} (n : Nat) (body : Action α) : Action (Except Payload α) := do
  let result ← body.attempt
  letGo n
  return result

/-- Changes what the slots stand for, and lets go of what they no longer hold. -/
def rearrange (f : World → World) : Action Unit := do
  letGo (← update fun w =>
    let after := f w
    after.keep (after.slots.handles.foldl List.erase w.slots.handles))

end Action
end CrossCall.Script
