import GraphQL.Json.Codec

/-!
Request contexts: named JSON values that the resolvers of a request share, and a deadline, which
may pass while the request is executed.
-/

set_option autoImplicit false

namespace GraphQL

open Json

/-- How it stands with a deadline at the moment at which it is looked at. -/
inductive Deadline where
  | passed
  | ahead
  deriving DecidableEq, Repr

/-- What a request shows of its context at one moment. -/
@[ext]
structure Context where
  entries : Entries Value
  deadline : Option Deadline
  deriving Repr

namespace Context

def new : Context := ⟨[], none⟩

def isExpired (c : Context) : Bool := c.deadline = some .passed

def isEmpty (c : Context) : Bool := c.entries.isEmpty

variable {α : Type}

/-- The entry under `key`. -/
def get (codec : Codec α) (key : String) (c : Context) : Except String (Option α) :=
  match Entries.get? key c.entries with
  | some value => (codec.decode value).map some
  | none => .ok none

/-- Stores a value and answers the entry that it replaces. The entry is replaced also when it
cannot be read. -/
def insert (codec : Codec α) (key : String) (value : α) (c : Context) :
    Except String (Option α) × Context :=
  match codec.encode value with
  | .ok v => (c.get codec key, { c with entries := Entries.insert key v c.entries })
  | .error e => (.error e, c)

/-- Changes the entry under `key`, or `default` if there is none. -/
def upsert (codec : Codec α) (key : String) (update : α → α) (default : α) (c : Context) :
    Except String Unit × Context :=
  match c.get codec key with
  | .ok current =>
    match codec.encode (update (current.getD default)) with
    | .ok v => (.ok (), { c with entries := Entries.insert key v c.entries })
    | .error e => (.error e, c)
  | .error e => (.error e, c)

end Context

end GraphQL
