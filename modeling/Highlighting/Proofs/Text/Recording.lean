import Highlighting.Proofs.Index.Edits
import Highlighting.Text.EditLog
import Mathlib

/-!
The edit log over a run of calls.

Whoever uses a log knows what was handed in and what was answered. Kept since the last reset, this is
enough to tell the state of the log (`LogAccount.Agrees`). The batches that were taken and what is
still pending are the accepted edits, none missing, none twice and in their order, under the numbers
that follow the base; the revision and the length have gone on by as much as these edits say.

The length is what a record is checked against, and an edit that passes the check replaces no more
bytes than there are. So the log can take the length of the span away first, as it does, without
going below zero. `EditLog.recordInPlace` takes it step by step with numbers of 64 bits.
-/

namespace Highlighting

/-! ### Calls and their account -/

inductive LogCall where
  | record (e : Edit)
  | take
  | reset (revision : Revision) (size : Nat)

inductive LogAnswer where
  | recorded (revision : Revision)
  | rejected (fault : EditError)
  | taken (edits : List Edit)
  | rebased

/-- The answer to a call, and the log after it. -/
def EditLog.call (l : EditLog) : LogCall → LogAnswer × EditLog
  | .record e =>
    match l.record e with
    | .error fault => (.rejected fault, l)
    | .ok after => (.recorded after.revision, after)
  | .take => (.taken l.pending, l.drain)
  | .reset revision size => (.rebased, l.reset revision size)

/-- What the user of a log keeps of the calls since the last reset and of their answers. -/
structure LogAccount where
  /-- The revision and the length that the log was started or reset with. -/
  revision : Revision
  size : Nat
  /-- The edits that were accepted, as they were handed in. -/
  accepted : List Edit
  /-- The batches that were taken. -/
  batches : List (List Edit)

namespace LogAccount

def start (revision : Revision) (size : Nat) : LogAccount :=
  ⟨revision, size, [], []⟩

def note (a : LogAccount) : LogCall → LogAnswer → LogAccount
  | .record e, .recorded _ => { a with accepted := a.accepted ++ [e] }
  | .take, .taken edits => { a with batches := a.batches ++ [edits] }
  | .reset revision size, _ => start revision size
  | _, _ => a

end LogAccount

/-- The log after the calls, and the account of it. -/
def EditLog.run (l : EditLog) (a : LogAccount) : List LogCall → EditLog × LogAccount
  | [] => (l, a)
  | c :: rest => (l.call c).2.run (a.note c (l.call c).1) rest

/-! ### Numbers and lengths -/

/-- The edits under the numbers that follow `base`. -/
def numbered (base : Revision) (edits : List Edit) : List Edit :=
  edits.mapIdx fun i e => { e with revision := base + i + 1 }

theorem numbered_concat (base : Revision) (edits : List Edit) (e : Edit) :
    numbered base (edits ++ [e]) =
      numbered base edits ++ [{ e with revision := base + edits.length + 1 }] :=
  List.mapIdx_concat

namespace Edit

variable {e : Edit} {size : Nat}

/-- The change in length, of any size. -/
def growth (e : Edit) : Int :=
  e.text.size - e.span.length

/-- A change in length that takes no more than 64 bits is answered as it is. -/
theorem delta_eq_growth (least : -2 ^ 63 ≤ e.growth) (most : e.growth < 2 ^ 63) :
    e.delta = e.growth := by
  rw [growth] at least most
  rw [delta, growth]
  apply Int.bmod_eq_of_le <;> simp <;> omega

/-- An edit passes the check exactly if its span is upright and in the text. -/
theorem check_eq_ok_iff : e.check size = .ok () ↔ e.span.start ≤ e.span.stop ∧ e.span.stop ≤ size := by
  unfold check
  grind

end Edit

namespace EditLog

variable {l after : EditLog} {e : Edit}

theorem record_eq_ok_iff :
    l.record e = .ok after ↔ (e.span.start ≤ e.span.stop ∧ e.span.stop ≤ l.size) ∧
      after = ⟨l.revision + 1, l.size - e.span.length + e.text.size, l.pending ++ [l.stamp e]⟩ := by
  rw [← Edit.check_eq_ok_iff, record]
  cases e.check l.size with
  | error fault => simp
  | ok _ => simp [eq_comm]

theorem exists_record_eq_error_iff :
    (∃ fault, l.record e = .error fault) ↔ e.span.stop < e.span.start ∨ l.size < e.span.stop := by
  constructor
  · rintro ⟨fault, rejected⟩
    by_contra within
    rw [not_or, Nat.not_lt, Nat.not_lt] at within
    rw [record_eq_ok_iff.mpr ⟨within, rfl⟩] at rejected
    cases rejected
  · intro outside
    cases recorded : l.record e with
    | error fault => exact ⟨fault, rfl⟩
    | ok after =>
        have := (record_eq_ok_iff.mp recorded).1
        omega

/-! ### A record in steps -/

/-- Calls that change a log in memory, with numbers of 64 bits. They end without an answer if a number
would be negative or too large, and what a call has changed when it fails stays changed. -/
abbrev InPlace := ExceptT EditError (StateT EditLog Option)

/-- Fails for a span that is inverted or reaches past the text. -/
def requireBounds (e : Edit) : InPlace Unit := do
  match e.check (← get).size with
  | .error fault => throw fault
  | .ok _ => return

/-- Takes up an edit that was checked, one change after another. -/
def takeUp (e : Edit) : StateT EditLog Option Revision := do
  let revision ← Offset.add? (← get).revision 1
  modify fun l => { l with revision := revision }
  let size ← Offset.add? (← Offset.sub? (← get).size e.span.length) e.text.size
  modify fun l => { l with size := size }
  modify fun l => { l with pending := l.pending ++ [{ e with revision := revision }] }
  return revision

/-- Records an edit. -/
def recordInPlace (e : Edit) : InPlace Revision := do
  requireBounds e
  takeUp e

/-- The numbers of the log fit into 64 bits. -/
def Fits (l : EditLog) : Prop :=
  l.revision < Offset.limit ∧ l.size < Offset.limit

theorem run_requireBounds (l : EditLog) (e : Edit) :
    (requireBounds e).run.run l =
      match e.check l.size with
      | .error fault => some (.error fault, l)
      | .ok _ => some (.ok (), l) := by
  change ExceptT.run (match e.check l.size with
    | .error fault => throw fault
    | .ok _ => pure () : InPlace Unit) l = _
  split <;> rfl

theorem run_takeUp (removed : e.span.length ≤ l.size)
    (fits : Fits ⟨l.revision + 1, l.size - e.span.length + e.text.size, l.pending ++ [l.stamp e]⟩) :
    (takeUp e).run l = some (l.revision + 1,
      ⟨l.revision + 1, l.size - e.span.length + e.text.size, l.pending ++ [l.stamp e]⟩) := by
  unfold takeUp
  simp only [StateT.run_bind, StateT.run_get, StateT.run_modify, StateT.run_monadLift,
    StateT.run_pure, monadLift_self, Option.pure_def, Option.bind_eq_bind, Option.bind_some,
    Offset.add?_eq fits.1, Offset.sub?_eq removed, Offset.add?_eq fits.2]
  rfl

/-- Made in place, a record comes to the same log. A rejected one leaves the log as it was, and an
accepted one fails only if it leads past 64 bits. -/
theorem run_recordInPlace (fits : ∀ after, l.record e = .ok after → after.Fits) :
    (recordInPlace e).run.run l =
      match l.record e with
      | .error fault => some (.error fault, l)
      | .ok after => some (.ok after.revision, after) := by
  rw [recordInPlace, ExceptT.run_bind, StateT.run_bind, run_requireBounds]
  cases checked : e.check l.size with
  | error fault =>
      rw [record, checked]
      rfl
  | ok _ =>
      obtain ⟨upright, within⟩ := Edit.check_eq_ok_iff.mp checked
      have recorded := record_eq_ok_iff.mpr ⟨⟨upright, within⟩, rfl⟩
      have removed : e.span.length ≤ l.size := Nat.le_trans (Nat.sub_le _ _) within
      have taken := run_takeUp removed (fits _ recorded)
      rw [recorded]
      change ((ExceptT.lift (takeUp e) : InPlace Revision).run).run l = _
      rw [ExceptT.run_lift, StateT.run_map, taken]
      rfl

end EditLog

/-! ### The account of a run -/

namespace LogAccount

variable {a : LogAccount} {l : EditLog}

/-- The log is in the state that the account tells. -/
structure Agrees (a : LogAccount) (l : EditLog) : Prop where
  edits : a.batches.flatten ++ l.pending = numbered a.revision a.accepted
  revision : l.revision = a.revision + a.accepted.length
  size : (l.size : Int) = a.size + (a.accepted.map Edit.growth).sum

theorem agrees_start (revision : Revision) (size : Nat) :
    (start revision size).Agrees (.start revision size) where
  edits := rfl
  revision := rfl
  size := (Int.add_zero _).symm

theorem Agrees.record {e : Edit} {after : EditLog} (agrees : a.Agrees l)
    (recorded : l.record e = .ok after) :
    ({ a with accepted := a.accepted ++ [e] } : LogAccount).Agrees after := by
  obtain ⟨⟨upright, within⟩, rfl⟩ := EditLog.record_eq_ok_iff.mp recorded
  refine ⟨?edits, ?revision, ?size⟩
  case edits =>
    rw [numbered_concat, ← agrees.edits, List.append_assoc, ← agrees.revision]
    rfl
  case revision =>
    simp only [List.length_append, List.length_singleton, agrees.revision, Nat.add_assoc]
  case size =>
    have before := agrees.size
    simp only [List.map_append, List.map_singleton, List.sum_append, List.sum_singleton,
      Edit.growth, Span.length] at before ⊢
    omega

theorem Agrees.take (agrees : a.Agrees l) :
    ({ a with batches := a.batches ++ [l.pending] } : LogAccount).Agrees l.drain where
  edits := by
    rw [← agrees.edits]
    simp [EditLog.drain]
  revision := agrees.revision
  size := agrees.size

theorem Agrees.call (agrees : a.Agrees l) (c : LogCall) :
    (a.note c (l.call c).1).Agrees (l.call c).2 := by
  cases c with
  | record e =>
      rw [EditLog.call]
      cases recorded : l.record e with
      | error fault => exact agrees
      | ok after => exact agrees.record recorded
  | take => exact agrees.take
  | reset revision size => exact agrees_start revision size

theorem Agrees.run (agrees : a.Agrees l) (calls : List LogCall) :
    (l.run a calls).2.Agrees (l.run a calls).1 := by
  induction calls generalizing l a with
  | nil => exact agrees
  | cons c rest ih => exact ih (agrees.call c)

/-- As long as no change in length takes more than 64 bits, the log is as long as they add up to. -/
theorem Agrees.size_eq_sum_delta (agrees : a.Agrees l)
    (fits : ∀ e ∈ a.accepted, -2 ^ 63 ≤ e.growth ∧ e.growth < 2 ^ 63) :
    (l.size : Int) = a.size + (a.accepted.map Edit.delta).sum := by
  have same : a.accepted.map Edit.delta = a.accepted.map Edit.growth :=
    List.map_congr_left fun e he => Edit.delta_eq_growth (fits e he).1 (fits e he).2
  rw [same]
  exact agrees.size

end LogAccount

namespace EditLog

/-- After any calls, the batches that were taken since the last reset and what is pending are the
accepted edits in order, numbered on from the base without a gap. The revision is as far from the
base as there are such edits, and the length has changed by what they add and remove. A record fails
exactly for a span that is inverted or reaches past the text; then the log stays as it was, and
otherwise no number falls below zero on the way. A reset drops what is pending and starts from the
new base. -/
theorem log_keeps_account (revision : Revision) (size : Nat) (calls : List LogCall) :
    let l := ((start revision size).run (.start revision size) calls).1
    let a := ((start revision size).run (.start revision size) calls).2
    a.batches.flatten ++ l.pending = numbered a.revision a.accepted ∧
      l.revision = a.revision + a.accepted.length ∧
      (l.size : Int) = a.size + (a.accepted.map Edit.growth).sum ∧
      ((∀ e ∈ a.accepted, -2 ^ 63 ≤ e.growth ∧ e.growth < 2 ^ 63) →
        (l.size : Int) = a.size + (a.accepted.map Edit.delta).sum) ∧
      (∀ e, (∃ fault, l.record e = .error fault) ↔
        e.span.stop < e.span.start ∨ l.size < e.span.stop) ∧
      (∀ e, (∀ after, l.record e = .ok after → after.Fits) →
        (recordInPlace e).run.run l =
          match l.record e with
          | .error fault => some (.error fault, l)
          | .ok after => some (.ok after.revision, after)) ∧
      ∀ base length, l.call (.reset base length) = (.rebased, ⟨base, length, []⟩) := by
  intro l a
  have agrees : a.Agrees l := (LogAccount.agrees_start revision size).run calls
  exact ⟨agrees.edits, agrees.revision, agrees.size, agrees.size_eq_sum_delta,
    fun _ => exists_record_eq_error_iff, fun _ => run_recordInPlace, fun _ _ => rfl⟩

/-- The second edit reaches past the text and gets no number. -/
example :
    ((start 7 2).run (.start 7 2) [.record (.delete ⟨0, 1⟩), .record (.delete ⟨0, 2⟩), .take,
      .record (.delete ⟨0, 1⟩)]).1 = ⟨9, 0, [{ Edit.delete ⟨0, 1⟩ with revision := 9 }]⟩ := by
  decide

end EditLog

end Highlighting
