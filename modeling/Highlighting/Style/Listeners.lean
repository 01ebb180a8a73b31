import Highlighting.Style

/-!
Listeners for style changes.

A listener is a label under an id. A notification is a value, `Notice`: the runs that changed and
the listeners that were registered at that moment, in order of registration.
-/

namespace Highlighting

abbrev ListenerId := Nat

structure Listener where
  id : ListenerId
  label : String
deriving DecidableEq

/-- Runs announced to the listeners of that moment. A later notice for the same bytes replaces an
earlier one. -/
structure Notice where
  receivers : List String
  runs : List StyleRun
deriving DecidableEq

/-- What each receiver is handed, in order. -/
def Notice.deliveries (n : Notice) : List (String × List StyleRun) :=
  n.receivers.map (·, n.runs)

structure Listeners where
  /-- The id given out last; ids are never used again. -/
  lastId : ListenerId
  entries : List Listener
deriving DecidableEq

namespace Listeners

def empty : Listeners :=
  ⟨0, []⟩

def isEmpty (l : Listeners) : Bool :=
  l.entries.isEmpty

def size (l : Listeners) : Nat :=
  l.entries.length

/-- Registers a listener under a new id. -/
def subscribe (l : Listeners) (label : String) : ListenerId × Listeners :=
  (l.lastId + 1, ⟨l.lastId + 1, l.entries ++ [⟨l.lastId + 1, label⟩]⟩)

/-- Removes a listener; answers whether it was registered. -/
def unsubscribe (l : Listeners) (id : ListenerId) : Bool × Listeners :=
  (l.entries.any (·.id == id), { l with entries := l.entries.filter (·.id != id) })

/-- Announces runs. Nothing is announced for no runs. -/
def notify (l : Listeners) (runs : List StyleRun) : List Notice :=
  if runs.isEmpty then [] else [⟨l.entries.map Listener.label, runs⟩]

/-- The summary line. -/
def describe (l : Listeners) : String :=
  s!"StyleListeners \x7b next_id: {l.lastId}, listeners: {l.size} \x7d"

end Listeners

end Highlighting
