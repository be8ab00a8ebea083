import ResponseModels.Model.Selected

/-! Compiling a document: ask for its operations, then take up requests, the oldest first,
until none is left. -/
namespace ResponseModels

open GraphQL

namespace Build

/-- Take up the given requests in order. -/
def processAll (task : Task) : List Request → Build Unit
  | [] => return ()
  | request :: rest => do
    process task request
    processAll task rest

/-- Take up all requests that wait, then those that came in meanwhile, and so on for at most
the given number of rounds. -/
def drain (task : Task) : Nat → Build Unit
  | 0 => return ()
  | rounds + 1 => do
    match (← get).pending with
    | [] => return ()
    | pending =>
      modify ({ · with pending := [] })
      processAll task pending
      drain task rounds

def requestOperations (task : Task) : List Operation → Build Unit
  | [] => return ()
  | operation :: rest => do
    requestOperation task operation
    requestOperations task rest

/-- Compile operations. Each round goes one level of fields deeper, and no level of fields is
deeper than the selections that are reached are many. Only where nodes share a place can a node
come up again at a deeper level, together with other nodes than before; there is a round for every
set of nodes. -/
def compile (task : Task) (operations : List Operation) : Build Graph := do
  requestOperations task operations
  drain task (Nat.pow 2 task.document.reachedCount)
  return (← get).graph

end Build

/-- Compile operations of a document, drawing on names that are shared with other documents. -/
def compileOperations (task : Task) (names : Names) (operations : List Operation) :
    Except ModelError Graph × Names :=
  let (outcome, session) := (Build.compile task operations).run (Session.initial names)
  (outcome, session.names)

/-- Compile a whole document. -/
def compile (task : Task) (names : Names) : Except ModelError Graph × Names :=
  compileOperations task names task.document.operations

/-- Compile the operation of the given name only. -/
def compileOperation (task : Task) (names : Names) (name : String) :
    Except ModelError Graph × Names :=
  match task.document.operation? name with
  | some operation => compileOperations task names [operation]
  | none => (.error (.unknownOperation name), names)

end ResponseModels
