import RatkiniaServer.Lib.Transition
import Mathlib.Logic.Function.Basic

/-!
# `DynamicActor`

The mailbox of an actor: two vectors of messages, of which `PushMessage` appends to the one at
`pushIndex_` and `Run` drains the other. `Run` is executed by one thread at a time; any number of
threads push, the one in `Run` included. A step is a critical section of `pushMutex_`, or what `Run`
does between two of its accesses to the vectors. A message that has been moved out of a vector leaves
a null pointer.
-/

namespace RatkiniaServer

universe u

/-- A message passed to a handler. -/
inductive Delivery (M : Type u)
  | handler (typeIndex : UInt32) (message : M)
  | onUnknownMessageReceived (message : M)

/-- The message passed. -/
def Delivery.message {M : Type u} : Delivery M → M
  | .handler _ message => message
  | .onUnknownMessageReceived message => message

/-- Where the thread in `Run` is, if there is one: before the test, before `pushMutex_` is locked,
before the loop, in the loop at the element `i` of the vector `index`, which had `size` elements when
the loop began, before the vector is cleared, or in `Tick`. -/
inductive RunPc
  | idle
  | entered
  | swapping
  | beforeLoop
  | looping (index : Fin 2) (i size : Nat)
  | clearing
  | tick

/-- A `DynamicActor`; the handlers that are registered do not change. -/
structure DynamicActor (M : Type u) where
  messageHandlers : UInt32 → Bool
  typeIndex : M → UInt32
  pushIndex : Fin 2
  messageQueue : Fin 2 → List (Option M)
  pc : RunPc
  /-- History: the messages pushed, in the order in which `pushMutex_` was locked. -/
  pushed : List M
  /-- History: the messages passed to handlers. -/
  delivered : List (Delivery M)
  /-- History: how many messages had been pushed when the `Run` that goes on swapped the vectors. -/
  pushedBeforeSwap : Option Nat

namespace DynamicActor

variable {M : Type u}

/-- A new actor. -/
def init (messageHandlers : UInt32 → Bool) (typeIndex : M → UInt32) : DynamicActor M :=
  ⟨messageHandlers, typeIndex, 0, fun _ => [], .idle, [], [], none⟩

/-- `PushMessage`; a null pointer is refused. -/
def pushMessage (a : DynamicActor M) : Option M → DynamicActor M
  | none => a
  | some message =>
    { a with
      messageQueue := Function.update a.messageQueue a.pushIndex
        (a.messageQueue a.pushIndex ++ [some message])
      pushed := a.pushed ++ [message] }

/-- Where the loop passes a message. -/
def deliver (a : DynamicActor M) (message : M) : Delivery M :=
  if a.messageHandlers (a.typeIndex message) then .handler (a.typeIndex message) message
  else .onUnknownMessageReceived message

/-- The next step of `Run`; `none` is the dereference of a null pointer, or of an element that is not
there. -/
def run (a : DynamicActor M) : Option (DynamicActor M) :=
  match a.pc with
  | .idle => some { a with pc := .entered, pushedBeforeSwap := none }
  | .entered =>
    if (a.messageQueue (1 - a.pushIndex)).isEmpty then some { a with pc := .swapping }
    else some { a with pc := .beforeLoop }
  | .swapping =>
    some { a with
      pc := .beforeLoop
      pushIndex := 1 - a.pushIndex
      pushedBeforeSwap := some a.pushed.length }
  | .beforeLoop =>
    let index := 1 - a.pushIndex
    some { a with pc := .looping index 0 (a.messageQueue index).length }
  | .looping index i size =>
    if i = size then some { a with pc := .clearing }
    else
      match (a.messageQueue index)[i]? with
      | some (some message) =>
        some { a with
          pc := .looping index (i + 1) size
          messageQueue := Function.update a.messageQueue index ((a.messageQueue index).set i none)
          delivered := a.delivered ++ [a.deliver message] }
      | _ => none
  | .clearing =>
    some { a with
      pc := .tick
      messageQueue := Function.update a.messageQueue (1 - a.pushIndex) [] }
  | .tick => some { a with pc := .idle }

/-- A push of any thread, or a step of `Run`. -/
inductive Action (M : Type u)
  | pushMessage (message : Option M)
  | run

/-- A step. -/
def step (a : DynamicActor M) : Action M → Option (DynamicActor M)
  | .pushMessage message => some (a.pushMessage message)
  | .run => a.run

/-- The unprocessed rest of the vector that `Run` drains. -/
def rest (a : DynamicActor M) : List (Option M) :=
  match a.pc with
  | .looping index i _ => (a.messageQueue index).drop i
  | .clearing => []
  | _ => a.messageQueue (1 - a.pushIndex)

/-- What holds at a step of `Run`. -/
def Local (a : DynamicActor M) : Prop :=
  match a.pc with
  | .idle => a.messageQueue (1 - a.pushIndex) = []
  | .entered | .swapping => a.messageQueue (1 - a.pushIndex) = []
  | .beforeLoop =>
    a.pushedBeforeSwap = some (a.delivered.length + (a.messageQueue (1 - a.pushIndex)).length)
  | .looping index i size => index = 1 - a.pushIndex ∧ size = (a.messageQueue index).length ∧
      i ≤ size ∧ a.pushedBeforeSwap = some (a.delivered.length + (size - i))
  | .clearing => a.pushedBeforeSwap = some a.delivered.length
  | .tick => a.messageQueue (1 - a.pushIndex) = [] ∧ a.pushedBeforeSwap = some a.delivered.length

/-- The steps that are left before `Tick`. -/
def stepsLeft (a : DynamicActor M) : Nat :=
  match a.pc with
  | .idle => (a.messageQueue a.pushIndex).length + 6
  | .entered => (a.messageQueue a.pushIndex).length + 5
  | .swapping => (a.messageQueue a.pushIndex).length + 4
  | .beforeLoop => (a.messageQueue (1 - a.pushIndex)).length + 3
  | .looping _ i size => size - i + 2
  | .clearing => 1
  | .tick => 0

end DynamicActor

end RatkiniaServer
