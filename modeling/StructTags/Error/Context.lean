import StructTags.Error.Basic

/-!
# Context for errors

A result that failed can be given context: a new internal error with a message of its own, whose
causes are the whole chain of the error so far.

* `context`: the message is at hand;
* `withContext`: the message is computed, and only if there is an error to attach it to;
* `Context.attachAll`: a sequence of such steps that counts the messages computed;
* `chain_internal_chain`: the new message stands in front of the old chain.
-/

namespace StructTags

variable {α : Type}

/-! ## 1. One step -/

/-- Puts a message in front of an error. -/
def context (message : String) : Except Error α → Except Error α
  | .ok a => .ok a
  | .error e => .error (.internal message e.chain)

/-- Puts a message in front of an error; the message is computed in that case only. -/
def withContext {m : Type → Type} [Monad m] (message : m String) :
    Except Error α → m (Except Error α)
  | .ok a => pure (.ok a)
  | .error e => do return .error (.internal (← message) e.chain)

@[simp] theorem context_ok (message : String) (a : α) :
    context message (.ok a) = .ok a := rfl

@[simp] theorem context_error (message : String) (e : Error) :
    context message (.error e : Except Error α) = .error (.internal message e.chain) := rfl

/-- The new message stands in front of the old chain. -/
theorem chain_internal_chain (message : String) (e : Error) :
    (Error.internal message e.chain).chain = message :: e.chain := rfl

/-! ## 2. Many steps -/

/-- A message to attach: at hand, or computed when it is needed. -/
inductive Context where
  | ready (message : String)
  | deferred (message : String)
  deriving DecidableEq, Repr

namespace Context

/-- The message to attach. -/
def message : Context → String
  | ready message => message
  | deferred message => message

/-- Attaches one message and counts it if it had to be computed. -/
def attach (c : Context) (result : Except Error α) : StateM Nat (Except Error α) :=
  match c with
  | ready message => pure (context message result)
  | deferred message => withContext (do modify (· + 1); pure message) result

/-- Attaches messages one after the other. -/
def attachAll (cs : List Context) (result : Except Error α) : StateM Nat (Except Error α) :=
  cs.foldlM (fun result c => c.attach result) result

end Context

end StructTags
