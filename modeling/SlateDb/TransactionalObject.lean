import SlateDb.Lib.Transition

/-!
# Transactional objects over a sequenced store

A `SimpleTransactionalObject` is a client's cached copy of an object stored
as a series of versions with increasing ids. An update creates the version
after the client's own, if it is absent, and then checks it against the
durable boundary below which garbage collectors fence and delete old
versions; a created version at or below the boundary makes the update fail
with `ObjectVersionExists`. A read of the latest version is checked against
the boundary the same way and retried when it falls at or below it. Collectors
advance the boundary to an id below the latest version and delete versions at
or below it.

Every store call is atomic; the operations are not. A client between the two
calls of an update or of a read is in a `ClientOp` other than `idle`, and any
event of another client or of a collector may come in between. The log records
every write that created a version, with the id it was based on and whether
its check accepted it.

`update_rejected_after_read`: a client reads a version whose update is still
between its write and its check, and builds a successful update on it; a
collector then advances the boundary to that version, and its own update fails.
The successful updates then create versions `1`, `2` and `4`, the last one
based on version `3`, which no successful update created.
-/

namespace SlateDb

variable {T : Type}

inductive TransactionalObjectError where
  | objectVersionExists
  | invalidObjectState
  deriving DecidableEq, Repr

/-- The version files present in the store, by id, and the durable boundary;
a missing boundary file reads as `0`. -/
structure SequencedStore (T : Type) where
  versions : List (Nat × T)
  boundary : Nat

namespace SequencedStore

variable (st : SequencedStore T)

def present (id : Nat) : Bool := st.versions.any (·.1 == id)

/-- `write_unchecked`: creates the version after `currentId`, or the initial
version `1`, if no version with that id is present. -/
def writeUnchecked (currentId : Option Nat) (newValue : T) :
    Except TransactionalObjectError (Nat × SequencedStore T) :=
  let id := (currentId.map (· + 1)).getD 1
  if st.present id then .error .objectVersionExists
  else .ok (id, { st with versions := st.versions ++ [(id, newValue)] })

/-- `check`: the id must lie above the durable boundary. -/
def check (id : Nat) : Except TransactionalObjectError Unit :=
  if id ≤ st.boundary then .error .objectVersionExists else .ok ()

/-- `try_read_latest_unchecked`: the version with the largest id present. -/
def tryReadLatestUnchecked : Option (Nat × T) :=
  st.versions.foldl (fun latest v =>
    match latest with
    | some l => if l.1 < v.1 then some v else some l
    | none => some v) none

/-- `advance`: the boundary becomes at least `boundary`. -/
def advance (boundary : Nat) : SequencedStore T :=
  { st with boundary := max st.boundary boundary }

def deleteUnchecked (id : Nat) : SequencedStore T :=
  { st with versions := st.versions.filter (·.1 != id) }

/-- `delete`: only a version at or below the boundary may be deleted. -/
def delete (id : Nat) : Except TransactionalObjectError (SequencedStore T) :=
  match st.check id with
  | .ok () => .error .invalidObjectState
  | .error _ => .ok (st.deleteUnchecked id)

end SequencedStore

/-- The store call a client waits to make next within an operation. -/
inductive ClientOp (T : Type) where
  | idle
  /-- A write created `createdId`, based on `dirtyId`, and awaits its check. -/
  | checkingWrite (dirtyId : Option Nat) (createdId : Nat) (value : T)
  /-- The read of the latest version returned `id` and awaits its check. -/
  | checkingRead (id : Nat) (value : T)

/-- A client's `SimpleTransactionalObject`: its version id and object, once it
has them, and the operation it is in. -/
structure Client (T : Type) where
  object : Option (Nat × T)
  op : ClientOp T

structure WriteOutcome where
  dirtyId : Option Nat
  createdId : Nat
  accepted : Bool
  deriving DecidableEq, Repr

structure TxnObjState (T : Type) where
  store : SequencedStore T
  clients : Nat → Client T
  log : List WriteOutcome

inductive TxnObjEvent (T : Type) where
  /-- The write of `SimpleTransactionalObject::init`, which expects no version. -/
  | init (client : Nat) (value : T)
  /-- The write of an update of the client's object to `value`. -/
  | update (client : Nat) (value : T)
  /-- The boundary check that ends a write. -/
  | finishWrite (client : Nat)
  /-- The unchecked read of a refresh. -/
  | refresh (client : Nat)
  /-- The boundary check that ends the read, or sends it round again. -/
  | finishRead (client : Nat)
  | advance (boundary : Nat)
  | delete (id : Nat)

namespace TxnObjState

variable (s : TxnObjState T)

def initial : TxnObjState T := ⟨⟨[], 0⟩, fun _ => ⟨none, .idle⟩, []⟩

def setClient (c : Nat) (client : Client T) : TxnObjState T :=
  { s with clients := fun c' => if c' = c then client else s.clients c' }

/-- The write of an update or an init: a present version fails the call at
once; otherwise the created version awaits its check. -/
def write (c : Nat) (dirtyId : Option Nat) (value : T) : TxnObjState T :=
  match s.store.writeUnchecked dirtyId value with
  | .error _ => s
  | .ok (id, store) =>
    { s.setClient c { s.clients c with op := .checkingWrite dirtyId id value } with store := store }

def step : TxnObjEvent T → Option (TxnObjState T)
  | .init c value =>
    match (s.clients c).op with
    | .idle => some (s.write c none value)
    | _ => none
  | .update c value =>
    match (s.clients c).op, (s.clients c).object with
    | .idle, some (id, _) => some (s.write c (some id) value)
    | _, _ => none
  | .finishWrite c =>
    match (s.clients c).op with
    | .checkingWrite dirtyId id value =>
      match s.store.check id with
      | .ok () =>
        some { s.setClient c ⟨some (id, value), .idle⟩ with
          log := s.log ++ [⟨dirtyId, id, true⟩] }
      | .error _ =>
        some { s.setClient c { s.clients c with op := .idle } with
          log := s.log ++ [⟨dirtyId, id, false⟩] }
    | _ => none
  | .refresh c =>
    match (s.clients c).op with
    | .idle =>
      match s.store.tryReadLatestUnchecked with
      | some (id, value) => some (s.setClient c { s.clients c with op := .checkingRead id value })
      | none => some s
    | _ => none
  | .finishRead c =>
    match (s.clients c).op with
    | .checkingRead id value =>
      match s.store.check id with
      | .ok () => some (s.setClient c ⟨some (id, value), .idle⟩)
      -- a version behind the boundary sends the read round again
      | .error _ => some (s.setClient c { s.clients c with op := .idle })
    | _ => none
  | .advance boundary =>
    -- a collector advances the boundary only below the latest version it listed
    match s.store.tryReadLatestUnchecked with
    | some (latest, _) => if boundary < latest then some { s with store := s.store.advance boundary } else none
    | none => none
  | .delete id =>
    match s.store.delete id with
    | .ok store => some { s with store := store }
    | .error _ => some s

end TxnObjState

def TxnObjState.system : Transition.System (TxnObjState T) (TxnObjEvent T) where
  init := (· = TxnObjState.initial)
  step s e s' := s.step e = some s'

/-- Client `0` creates the object and updates it twice; client `1` reads the
second update's version before its check and updates on top of it; a
collector then advances the boundary to that version. -/
def rejectedAfterRead : List (TxnObjEvent Nat) :=
  [.init 0 10, .finishWrite 0, .update 0 11, .finishWrite 0, .update 0 12,
    .refresh 1, .finishRead 1, .update 1 13, .finishWrite 1, .advance 3, .finishWrite 0]

theorem update_rejected_after_read :
    (Transition.System.runFrom TxnObjState.step TxnObjState.initial rejectedAfterRead).map
        (·.log) =
      some [⟨none, 1, true⟩, ⟨some 1, 2, true⟩, ⟨some 3, 4, true⟩, ⟨some 2, 3, false⟩] := by
  decide

end SlateDb
