/-!
What a state can come to. A state goes on by moves, and a move may be impossible; every choice that
the state leaves open is part of the move. So what holds in all reachable states holds however the
threads behind the moves take turns.
-/

namespace CrossCall

universe u v

/-- The states that moves lead to from the ones at the start. -/
inductive Reachable {S : Type u} {M : Type v} (move : S → M → Option S) (start : S → Prop) :
    S → Prop where
  | start {s : S} : start s → Reachable move start s
  | move {s t : S} (m : M) : Reachable move start s → move s m = some t → Reachable move start t

/-- Where a list of moves leads, if each of them is possible in its turn. -/
def afterMoves {S : Type u} {M : Type v} (move : S → M → Option S) : S → List M → Option S
  | s, [] => some s
  | s, m :: rest => (move s m).bind fun t => afterMoves move t rest

end CrossCall
