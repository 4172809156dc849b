import Mathlib.Logic.Function.Basic
import StructTags.Error.Context

/-!
# The chain of an error

An error with context is linked to the error that it was made of, which may be linked to a cause of
its own, and so on. This file follows these links, and says what becomes of them when messages are
attached.

* `Cause`, `LinkedError`: errors that are linked, each to the one that caused it; what is said along
  the links is the error with its list of causes (`LinkedError.flat_bijective`);
* `Attachment`: a message to attach in a program, at hand or computed by the program;
* `Attachment.attachAll_error`, `Attachment.attachAll_ok`: attaching messages one after the other
  computes each of them once, from the first to the last, and none where there is no error;
* **`Context.attachAll_chain`**: the error in the end has the last message, and in front of the old
  chain stand the other messages, the newest first.
-/

namespace StructTags

variable {α : Type}

/-! ## 1. Links -/

/-- An error as another one refers to it: what it says, and the error that caused it, if any. -/
inductive Cause where
  | mk (message : String) (cause : Option Cause)

namespace Cause

/-- What the errors along the links say, the nearest first. -/
def messages : Cause → List String
  | mk message none => [message]
  | mk message (some cause) => message :: cause.messages

/-- What is said along links that may be missing. -/
def texts (cause : Option Cause) : List String := (cause.map messages).getD []

/-- The links along which these messages are said. -/
def ofTexts : List String → Option Cause
  | [] => none
  | message :: rest => some (mk message (ofTexts rest))

theorem messages_mk (message : String) (cause : Option Cause) :
    (mk message cause).messages = message :: texts cause := by
  cases cause <;> rfl

@[simp] theorem texts_ofTexts (ms : List String) : texts (ofTexts ms) = ms := by
  induction ms with
  | nil => rfl
  | cons message rest ih =>
    show (mk message (ofTexts rest)).messages = message :: rest
    rw [messages_mk, ih]

theorem ofTexts_messages : ∀ c : Cause, ofTexts c.messages = some c
  | mk _ none => rfl
  | mk message (some cause) => by
    show some (mk message (ofTexts cause.messages)) = _
    rw [ofTexts_messages cause]

@[simp] theorem ofTexts_texts (cause : Option Cause) : ofTexts (texts cause) = cause := by
  cases cause with
  | none => rfl
  | some cause => exact ofTexts_messages cause

end Cause

/-- An error that is linked to the error that caused it, if any. An error of another kind, put under
    a message, is like an internal one: what it says and its cause are all that is kept of it. -/
inductive LinkedError where
  | fileSystem (code : ErrorCode) (message : String) (path : Option String) (cause : Option Cause)
  | internal (message : String) (cause : Option Cause)

namespace LinkedError

/-- What the error says. -/
def message : LinkedError → String
  | fileSystem _ message _ _ => message
  | internal message _ => message

/-- The error that caused it. -/
def cause? : LinkedError → Option Cause
  | fileSystem _ _ _ cause => cause
  | internal _ cause => cause

/-- What its cause says, and the cause of that, and so on. -/
def sources (e : LinkedError) : List String := Cause.texts e.cause?

/-- Puts a message in front of an error, which becomes the cause. -/
def context (message : String) (e : LinkedError) : LinkedError :=
  internal message (some (.mk e.message e.cause?))

/-- Puts messages in front of an error, one after the other. -/
def under (e : LinkedError) (ms : List String) : LinkedError :=
  ms.foldl (fun e message => e.context message) e

/-- The error with all that is said along its links. -/
def flat : LinkedError → Error
  | fileSystem code message path cause => .fileSystem code message path (Cause.texts cause)
  | internal message cause => .internal message (Cause.texts cause)

/-- The error whose links say what is listed. -/
def ofFlat : Error → LinkedError
  | .fileSystem code message path causes => fileSystem code message path (Cause.ofTexts causes)
  | .internal message causes => internal message (Cause.ofTexts causes)

/-- Nothing is lost or made up when the links are read off: they can be told from the list. -/
theorem flat_bijective : Function.Bijective flat := by
  rw [Function.bijective_iff_has_inverse]
  refine ⟨ofFlat, fun e => ?_, fun e => ?_⟩
  · cases e <;> simp only [flat, ofFlat, Cause.ofTexts_texts]
  · cases e <;> simp only [flat, ofFlat, Cause.texts_ofTexts]

theorem flat_chain (e : LinkedError) : e.flat.chain = e.message :: e.sources := by
  cases e <;> rfl

theorem sources_context (message : String) (e : LinkedError) :
    (e.context message).sources = e.message :: e.sources :=
  Cause.messages_mk e.message e.cause?

theorem flat_context (message : String) (e : LinkedError) :
    (e.context message).flat = .internal message e.flat.chain := by
  rw [flat_chain, ← sources_context message e]
  rfl

end LinkedError

/-! ## 2. Messages over an error -/

namespace Error

/-- Puts messages in front of an error, one after the other. -/
def under (e : Error) (ms : List String) : Error :=
  ms.foldl (fun e message => .internal message e.chain) e

/-- Each message is said once, the newest first, and then the old chain. -/
theorem chain_under (ms : List String) (e : Error) :
    (e.under ms).chain = ms.reverse ++ e.chain := by
  induction ms generalizing e with
  | nil => rfl
  | cons message rest ih =>
    calc ((Error.internal message e.chain).under rest).chain
        = rest.reverse ++ (Error.internal message e.chain).chain := ih _
      _ = (message :: rest).reverse ++ e.chain := by
        rw [chain_internal_chain, List.reverse_cons, List.append_assoc, List.singleton_append]

end Error

namespace LinkedError

/-- It makes no difference when the links are read off. -/
theorem flat_under (ms : List String) (e : LinkedError) : (e.under ms).flat = e.flat.under ms := by
  induction ms generalizing e with
  | nil => rfl
  | cons message rest ih =>
    calc ((e.context message).under rest).flat
        = (e.context message).flat.under rest := ih _
      _ = (Error.internal message e.flat.chain).under rest := by rw [flat_context]

/-- The last message is that of the error, which is linked to the error under the others. -/
theorem under_concat (ms : List String) (message : String) (e : LinkedError) :
    e.under (ms ++ [message]) = (e.under ms).context message := by
  simp only [under, List.foldl_append, List.foldl_cons, List.foldl_nil]

/-- Behind the last message the others are said, the newest first, and then the old chain. -/
theorem sources_under_concat (ms : List String) (message : String) (e : LinkedError) :
    (e.under (ms ++ [message])).sources = ms.reverse ++ e.message :: e.sources := by
  rw [under_concat, sources_context, ← flat_chain, flat_under, Error.chain_under, flat_chain]

end LinkedError

/-! ## 3. Messages computed by a program -/

/-- A message to attach in a program: at hand, or computed when it is needed. -/
inductive Attachment (m : Type → Type) where
  | ready (message : String)
  | deferred (compute : m String)

namespace Attachment

variable {m : Type → Type} [Monad m]

/-- The program that yields the message. -/
def message : Attachment m → m String
  | ready message => pure message
  | deferred compute => compute

/-- Attaches one message. -/
def attach (a : Attachment m) (result : Except Error α) : m (Except Error α) :=
  match a with
  | ready message => pure (context message result)
  | deferred compute => withContext compute result

/-- Attaches messages one after the other. -/
def attachAll (as : List (Attachment m)) (result : Except Error α) : m (Except Error α) :=
  as.foldlM (fun result a => a.attach result) result

variable [LawfulMonad m]

/-- One message is computed, once, and stands in front of the old chain. -/
theorem attach_error (a : Attachment m) (e : Error) :
    a.attach (.error e : Except Error α)
      = do return .error (.internal (← a.message) e.chain) := by
  cases a with
  | ready message => simp only [attach, Attachment.message, context_error, pure_bind]
  | deferred compute => rfl

/-- The program computes each message once, from the first to the last, and does nothing else. -/
theorem attachAll_error (as : List (Attachment m)) (e : Error) :
    attachAll as (.error e : Except Error α)
      = do return .error (e.under (← as.mapM Attachment.message)) := by
  induction as generalizing e with
  | nil => simp only [attachAll, List.foldlM_nil, List.mapM_nil, pure_bind, Error.under,
      List.foldl_nil]
  | cons a rest ih =>
    simp only [attachAll] at ih
    simp only [attachAll, List.foldlM_cons, attach_error, List.mapM_cons, bind_assoc, pure_bind,
      ih, Error.under, List.foldl_cons]

omit [LawfulMonad m] in
theorem attach_ok (a : Attachment m) (value : α) : a.attach (.ok value) = pure (.ok value) := by
  cases a <;> rfl

/-- Where there is no error the program does nothing. -/
theorem attachAll_ok (as : List (Attachment m)) (value : α) :
    attachAll as (.ok value) = pure (.ok value) := by
  induction as with
  | nil => rfl
  | cons a rest ih =>
    simp only [attachAll] at ih
    simp only [attachAll, List.foldlM_cons, attach_ok, pure_bind, ih]

end Attachment

/-! ## 4. Counting the computations -/

namespace Context

/-- The message is computed when it is needed. -/
def isDeferred : Context → Bool
  | ready _ => false
  | deferred _ => true

/-- The message in a program that counts the computations. -/
def counted : Context → Attachment (StateM Nat)
  | ready message => .ready message
  | deferred message => .deferred do modify (· + 1); pure message

theorem attachAll_counted (cs : List Context) (result : Except Error α) :
    attachAll cs result = Attachment.attachAll (cs.map counted) result := by
  have hattach (c : Context) (result : Except Error α) :
      c.attach result = c.counted.attach result := by cases c <;> rfl
  simp only [attachAll, Attachment.attachAll, List.foldlM_map, hattach]

/-- The program counts the messages that have to be computed. -/
theorem run_mapM_counted (cs : List Context) (calls : Nat) :
    ((cs.map counted).mapM Attachment.message).run calls
      = (cs.map message, calls + cs.countP isDeferred) := by
  induction cs generalizing calls with
  | nil => rfl
  | cons c rest ih =>
    have hone : c.counted.message.run calls = (c.message, calls + [c].countP isDeferred) := by
      cases c <;> rfl
    rw [List.map_cons, List.mapM_cons, StateT.run_bind, hone]
    simp only [StateT.run_bind, ih]
    show (c.message :: rest.map message, calls + [c].countP isDeferred + rest.countP isDeferred) = _
    rw [Nat.add_assoc, ← List.countP_append]
    rfl

/-- Messages are put in front of an error, and each of those that have to be computed is computed
    once. -/
theorem run_attachAll_error (cs : List Context) (e : Error) (calls : Nat) :
    (attachAll cs (.error e : Except Error α)).run calls
      = (.error (e.under (cs.map message)), calls + cs.countP isDeferred) := by
  rw [attachAll_counted, Attachment.attachAll_error, StateT.run_bind, run_mapM_counted]
  rfl

theorem run_attachAll_ok (cs : List Context) (value : α) (calls : Nat) :
    (attachAll cs (.ok value)).run calls = (.ok value, calls) := by
  rw [attachAll_counted, Attachment.attachAll_ok]
  rfl

/-- The message, at hand. -/
def prepared (c : Context) : Context := ready c.message

/-- With all messages at hand the result is the same, and nothing is computed. -/
theorem run_attachAll_prepared (cs : List Context) (result : Except Error α) (calls : Nat) :
    (attachAll (cs.map prepared) result).run calls
      = (((attachAll cs result).run calls).1, calls) := by
  cases result with
  | ok value => rw [run_attachAll_ok, run_attachAll_ok]
  | error e =>
    have hnone : (cs.map prepared).countP isDeferred = 0 := by
      simp only [List.countP_map, List.countP_eq_zero, Function.comp_apply, prepared, isDeferred,
        Bool.false_eq_true, not_false_eq_true, implies_true]
    have hsame : (cs.map prepared).map message = cs.map message := by
      simp only [List.map_map]
      rfl
    rw [run_attachAll_error, run_attachAll_error, hnone, hsame]
    rfl

/-- Messages attached to an error one after the other are said along its links, the last one by the
    error itself, which is internal, and the others in front of all that was said before, the newest
    first. Those that have to be computed are computed once each; with all of them at hand the error
    is the same. A value stays as it is, and nothing is computed for it. The same is so of messages
    that a program computes, whatever it does besides. -/
theorem attachAll_chain {α : Type} :
    Function.Bijective LinkedError.flat ∧
    (∀ (cs : List Context) (last : Context) (e : LinkedError) (calls : Nat),
      ∃ outer : LinkedError,
        (attachAll (cs ++ [last]) (.error e.flat : Except Error α)).run calls
          = (.error outer.flat, calls + (cs ++ [last]).countP isDeferred) ∧
        outer = e.under ((cs ++ [last]).map message) ∧
        outer.flat.isFileSystem = false ∧ outer.flat.message = last.message ∧
        outer.flat.code.text = "E9000" ∧ outer.flat.path? = none ∧
        outer.sources = (cs.map message).reverse ++ e.message :: e.sources) ∧
    (∀ (cs : List Context) (result : Except Error α) (calls : Nat),
      (attachAll (cs.map prepared) result).run calls
        = (((attachAll cs result).run calls).1, calls)) ∧
    (∀ (cs : List Context) (value : α) (calls : Nat),
      (attachAll cs (.ok value)).run calls = (.ok value, calls)) ∧
    ∀ (m : Type → Type) [Monad m] [LawfulMonad m] (as : List (Attachment m)),
      (∀ e : LinkedError, Attachment.attachAll as (.error e.flat : Except Error α)
        = do return .error (e.under (← as.mapM Attachment.message)).flat) ∧
      ∀ value : α, Attachment.attachAll as (.ok value) = pure (.ok value) := by
  refine ⟨LinkedError.flat_bijective, fun cs last e calls => ?_, run_attachAll_prepared,
    run_attachAll_ok, ?_⟩
  · have hrun : (attachAll (cs ++ [last]) (.error e.flat : Except Error α)).run calls = _ :=
      run_attachAll_error (cs ++ [last]) e.flat calls
    have hcode : ErrorCode.internal.text = "E9000" := by decide
    rw [← LinkedError.flat_under] at hrun
    refine ⟨_, hrun, rfl, ?_⟩
    rw [List.map_append, List.map_singleton, LinkedError.sources_under_concat,
      LinkedError.under_concat]
    exact ⟨rfl, rfl, hcode, rfl, rfl⟩
  · intro m _ _ as
    refine ⟨fun e => ?_, Attachment.attachAll_ok as⟩
    simp only [Attachment.attachAll_error, LinkedError.flat_under]

end Context

end StructTags
