import Highlighting.Proofs.Highlighter.Convergence
import Highlighting.Proofs.Runs

/-!
A listener that keeps its own map of the categories.

Its owner writes every announced run over the map, in order of delivery, and moves the map through
the edits when the document changes. There are two moments at which it may move the map. A call that
follows a change first merges the results that are ready, and they were computed for the text of
before; all that the call announces after that is in offsets of the new text. A map that is moved
between the two (`mirrorInStep`) agrees with the index whenever the highlighter is idle. A map that
is moved before the call is made (`mirror`) gets the runs of such results at old offsets, and these
bytes are not announced again, so it agrees as long as no change finds a result to merge
(`mirrors_when_idle`) and need not agree otherwise (`mirror_misplaces_merged_result`).
-/

namespace Highlighting

open StyleRun

/-- The map once it was moved through the edits of a call. -/
def HighlighterCall.moveMap (c : HighlighterCall) (m : Nat → Category) : Nat → Category :=
  match c with
  | .textDidChange _ edits => edits.foldl (fun m e => e.splice.moveMap m) m
  | _ => m

namespace Highlighter

/-- The notices that were added from one moment to a later one, as long as none are collected. -/
def noticesSince (before after : Highlighter) : List Notice :=
  after.outbox.drop before.outbox.length

/-- A map once the notices that reach a label were written over it, in order. -/
def hear (label : String) (notices : List Notice) (m : Nat → Category) : Nat → Category :=
  overwrite m ((notices.filter fun n => label ∈ n.receivers).flatMap Notice.runs)

/-- The map of a listener whose owner moves it before each call. -/
def mirror (engine : ParsingEngine) (label : String) :
    Highlighter → (Nat → Category) → List HighlighterCall → Nat → Category
  | _, m, [] => m
  | h, m, c :: rest =>
    mirror engine label (h.call engine c)
      (hear label (h.noticesSince (h.call engine c)) (c.moveMap m)) rest

/-- The map of a listener whose owner moves it within each call, once the results that were ready
are merged. -/
def mirrorInStep (engine : ParsingEngine) (label : String) :
    Highlighter → (Nat → Category) → List HighlighterCall → Nat → Category
  | _, m, [] => m
  | h, m, c :: rest =>
    mirrorInStep engine label (h.call engine c)
      (hear label ((h.delivered c).noticesSince (h.call engine c))
        (c.moveMap (hear label (h.noticesSince (h.delivered c)) m))) rest

/-- No change of the text finds a result to merge. -/
def Undisturbed (engine : ParsingEngine) : Highlighter → List HighlighterCall → Prop
  | _, [] => True
  | h, c :: rest => Undisturbed engine (h.call engine c) rest ∧
    match c with
    | .textDidChange _ _ => h.collectResults.1 = 0
    | _ => True

variable {h h' h'' : Highlighter} {engine : ParsingEngine} {label : String}
  {m : Nat → Category} {spans : List Span} {o : Nat} {c : HighlighterCall}

/-- The listener that was registered first is of this label. -/
def Listens (label : String) (h : Highlighter) : Prop :=
  ⟨1, label⟩ ∈ h.listeners.entries

/-- While attached, each byte of the text is owed, or the map has what the index reads. -/
def Mirrors (m : Nat → Category) (h : Highlighter) : Prop :=
  h.attached = true → ∀ o < h.snapshot.size, h.scheduler.Owes o ∨ m o = h.index.styleAt o

/-! ### Hearing -/

@[simp]
theorem hear_nil (label : String) (m : Nat → Category) : hear label [] m = m :=
  rfl

theorem hear_append (label : String) (first second : List Notice) (m : Nat → Category) :
    hear label (first ++ second) m = hear label second (hear label first m) := by
  simp only [hear, List.filter_append, List.flatMap_append, overwrite_append]

theorem hear_notify (listens : h.Listens label) (runs : List StyleRun) :
    hear label (h.listeners.notify runs) m = overwrite m runs := by
  have receives : label ∈ h.listeners.entries.map Listener.label :=
    List.mem_map.mpr ⟨_, listens, rfl⟩
  unfold hear Listeners.notify
  cases runs with
  | nil => rfl
  | cons r rest => simp [receives]

theorem noticesSince_of_same (outbox : h'.outbox = h.outbox) : h.noticesSince h' = [] := by
  rw [noticesSince, outbox, List.drop_length]

theorem noticesSince_append {notices : List Notice} (outbox : h'.outbox = h.outbox ++ notices) :
    h.noticesSince h' = notices := by
  rw [noticesSince, outbox, List.drop_left]

theorem hear_noticesSince_trans (first : h.outbox <+: h'.outbox)
    (second : h'.outbox <+: h''.outbox) :
    hear label (h.noticesSince h'') m =
      hear label (h'.noticesSince h'') (hear label (h.noticesSince h') m) := by
  obtain ⟨early, eq⟩ := first
  obtain ⟨late, eq'⟩ := second
  rw [noticesSince_append eq.symm, noticesSince_append eq'.symm, ← hear_append]
  apply congrArg fun notices => hear label notices m
  exact noticesSince_append (by rw [← eq', ← eq, List.append_assoc])

/-! ### What keeps a map right -/

/-- From one moment to a later one, notices were only added, and written over a map that mirrors
the first moment they give one that mirrors the second. -/
structure Relayed (label : String) (h' h : Highlighter) : Prop where
  grows : h.outbox <+: h'.outbox
  listeners : h'.listeners = h.listeners
  mirrors : ∀ m, Mirrors m h → Mirrors (hear label (h.noticesSince h') m) h'

theorem Relayed.trans (second : Relayed label h'' h') (first : Relayed label h' h) :
    Relayed label h'' h where
  grows := first.grows.trans second.grows
  listeners := second.listeners.trans first.listeners
  mirrors := fun m right => by
    rw [hear_noticesSince_trans first.grows second.grows]
    exact second.mirrors _ (first.mirrors m right)

/-- Nothing was announced, and nothing that a map mirrors has changed but what is owed. -/
theorem relayed_of_owes (outbox : h'.outbox = h.outbox) (listeners : h'.listeners = h.listeners)
    (attached : h'.attached = h.attached) (snapshot : h'.snapshot = h.snapshot)
    (index : h'.index = h.index) (owes : ∀ o, h.scheduler.Owes o → h'.scheduler.Owes o) :
    Relayed label h' h where
  grows := outbox ▸ List.prefix_rfl
  listeners := listeners
  mirrors := fun m right => by
    rw [noticesSince_of_same outbox, hear_nil]
    intro attached' o inside
    rw [index]
    exact (right (attached ▸ attached') o (snapshot ▸ inside)).imp_left (owes o)

/-- The whole text is owed, or the highlighter is detached: any map will do. -/
theorem relayed_of_all_owed (grows : h.outbox <+: h'.outbox)
    (listeners : h'.listeners = h.listeners)
    (owed : h'.attached = true → ∀ o < h'.snapshot.size, h'.scheduler.Owes o) :
    Relayed label h' h :=
  ⟨grows, listeners, fun _ _ attached o inside => Or.inl (owed attached o inside)⟩

/-- A listener hears all that a patch announces, run by run. -/
theorem hear_patch (listens : h.Listens label) (nonempty : ∀ s ∈ spans, s.start < s.stop) :
    hear label (spans.flatMap fun s => h.listeners.notify (h.classify s)) m o =
      if ∃ s ∈ spans, o ∈ s then h.categoryAt o else m o := by
  rw [← overwrite_classify nonempty]
  refine congrFun ?_ o
  clear nonempty
  induction spans generalizing m with
  | nil => rfl
  | cons s rest ih =>
      rw [List.flatMap_cons, hear_append, hear_notify listens, ih, List.flatMap_cons,
        overwrite_append]

/-- What a patch writes it announces. -/
theorem Patched.relayed (patched : Patched spans h' h) (listens : h.Listens label) :
    Relayed label h' h where
  grows := ⟨_, patched.outbox.symm⟩
  listeners := patched.listeners
  mirrors := by
    intro m right attached o inside
    rw [noticesSince_append patched.outbox, hear_patch listens patched.nonempty, patched.styleAt]
    rw [patched.setting.snapshot] at inside
    by_cases written : ∃ s ∈ spans, o ∈ s
    · rw [if_pos written, if_pos written]
      exact Or.inr rfl
    · rw [if_neg written, if_neg written]
      apply (right (patched.setting.attached ▸ attached) o inside).imp_left
      exact fun owed => ((patched.owes o inside).mp owed).resolve_right written

/-! ### The parts of a call -/

theorem relayed_pump (sound : h.scheduler.Sound) (idle : h.parsePending = false)
    (listens : h.Listens label) : Relayed label h.pump h := by
  obtain ⟨spans, patched⟩ := patched_pump sound idle
  exact patched.relayed listens

theorem relayed_reconcile (sound : h.scheduler.Sound) (listens : h.Listens label) :
    Relayed label (h.reconcile engine) h := by
  by_cases attached : h.attached = true
  · obtain ⟨language, log, phase, dirty, eq, sound', owes⟩ := upToDate_eq engine h
    have brought : Relayed label (h.upToDate engine) h := by
      rw [eq]
      exact relayed_of_owes rfl rfl rfl rfl rfl owes
    rw [reconcile_eq attached]
    rw [eq] at brought ⊢
    refine Relayed.trans ?_ brought
    exact relayed_pump (sound' sound) (by simp [parsePending]) listens
  · unfold reconcile
    rw [if_neg attached]
    exact relayed_of_owes rfl rfl rfl rfl rfl fun _ => id

/-- Whoever starts over owes the whole text. -/
theorem relayed_startOver (grows : h.outbox <+: h'.outbox)
    (listeners : h'.listeners = h.listeners) (sound : h'.scheduler.Sound)
    (listens : h.Listens label) : Relayed label (h'.startOver engine) h := by
  have listens' : h'.Listens label := by
    unfold Listens
    rw [listeners]
    exact listens
  refine (relayed_reconcile (sound_queueAll sound) listens').trans
    (relayed_of_all_owed grows listeners fun attached o inside => ?_)
  have attached' : h'.attached = true := attached
  left
  unfold queueAll
  rw [if_pos attached']
  exact Scheduler.mem_dirty_invalidateAll.mpr inside

theorem relayed_setLanguage (listens : h.Listens label) (source : Option Grammar) :
    Relayed label (h.setLanguage engine source).2 h := by
  obtain ⟨language, notices, eq, -⟩ := setLanguage_eq engine h source
  rw [eq]
  exact relayed_startOver ⟨notices, rfl⟩ rfl (Scheduler.sound_reset _ _) listens

theorem relayed_restart (outbox : h'.outbox = h.outbox) (listeners : h'.listeners = h.listeners)
    (listens : h.Listens label) : Relayed label (h'.restart.startOver engine) h := by
  obtain ⟨notices, eq⟩ := restart_eq h'
  rw [eq]
  exact relayed_startOver ⟨notices, outbox ▸ rfl⟩ listeners (Scheduler.sound_reset _ _) listens

/-- The work is handed out anew for the whole text. -/
theorem relayed_requeued (grows : h.outbox <+: h'.outbox)
    (listeners : h'.listeners = h.listeners) (sound : h'.scheduler.Sound)
    (listens : h.Listens label) : Relayed label ((h'.requeue none).reconcile engine) h := by
  have listens' : h'.Listens label := by
    unfold Listens
    rw [listeners]
    exact listens
  refine (relayed_reconcile (sound_requeue sound none) listens').trans
    (relayed_of_all_owed grows listeners fun attached o inside => ?_)
  have attached' : h'.attached = true := attached
  left
  rw [requeue_of_attached attached']
  exact Scheduler.mem_dirty_invalidateAll.mpr inside

/-! ### Edits -/

/-- The map of an edited text: a byte that an edit moves has what it had, unless it is owed. -/
theorem agrees_takeEdit (ledger : h.Ledger) {e : Edit} (taken : h.takeEdit? e = some h')
    (right : ∀ o < h.log.size, h.scheduler.Owes o ∨ m o = h.index.styleAt o) :
    ∀ o < h'.log.size, h'.scheduler.Owes o ∨ e.splice.moveMap m o = h'.index.styleAt o := by
  intro o inside
  unfold Splice.moveMap
  cases moved : e.splice.preimage? o with
  | none => exact Or.inr (styleAt_takeEdit_fresh taken moved).symm
  | some p =>
      obtain ⟨before, owed | ⟨settled, kept⟩⟩ := ledger.styleAt_takeEdit taken inside moved
      · exact Or.inl owed
      · exact Or.inr (((right p before).resolve_left settled).trans kept.symm)

theorem agrees_takeEdits (ledger : h.Ledger) {edits : List Edit}
    (linedUp : (h.takeEdits edits).1 = true)
    (right : ∀ o < h.log.size, h.scheduler.Owes o ∨ m o = h.index.styleAt o) :
    ∀ o < (h.takeEdits edits).2.log.size, (h.takeEdits edits).2.scheduler.Owes o ∨
      edits.foldl (fun m e => e.splice.moveMap m) m o =
        (h.takeEdits edits).2.index.styleAt o := by
  induction edits generalizing h m with
  | nil => exact right
  | cons e rest ih =>
      obtain ⟨h', taken, eq⟩ := takeEdits_cons linedUp
      rw [eq] at linedUp ⊢
      exact ih (ledger.takeEdit taken).1 linedUp (agrees_takeEdit ledger taken right)

/-! ### The calls -/

/-- From the moment in which the results that were ready are merged to the end of a call, a map that
is moved through the edits of the call stays right, and the listener stays registered unless the
call removes it. -/
structure Heard (label : String) (c : HighlighterCall) (h' h : Highlighter) : Prop where
  mirrors : ∀ m, Mirrors m h → Mirrors (hear label (h.noticesSince h') (c.moveMap m)) h'
  listens : (∀ id, c = .unsubscribe id → id ≠ 1) → h'.Listens label

theorem Relayed.listens (relayed : Relayed label h' h) (listens : h.Listens label) :
    h'.Listens label := by
  unfold Listens
  rw [relayed.listeners]
  exact listens

theorem Relayed.heard (relayed : Relayed label h' h) (listens : h.Listens label)
    (unmoved : c.moveMap = id) : Heard label c h' h where
  mirrors := fun m right => by
    rw [unmoved]
    exact relayed.mirrors m right
  listens := fun _ => relayed.listens listens

/-- A detached highlighter has nothing to mirror. -/
theorem relayed_of_detached (outbox : h'.outbox = h.outbox) (listeners : h'.listeners = h.listeners)
    (detached : h'.attached = false) : Relayed label h' h :=
  relayed_of_all_owed (outbox ▸ List.prefix_rfl) listeners
    fun attached => absurd (detached.symm.trans attached) (by decide)

theorem relayed_refl (h : Highlighter) : Relayed label h h :=
  relayed_of_owes rfl rfl rfl rfl rfl fun _ => id

/-- Listeners come and go, and notices are collected. -/
theorem heard_listeners (unmoved : c.moveMap = id)
    (listeners : Listeners) (outbox : List Notice) (quiet : outbox.length ≤ h.outbox.length)
    (listens : (∀ id, c = .unsubscribe id → id ≠ 1) → ⟨1, label⟩ ∈ listeners.entries) :
    Heard label c { h with listeners, outbox } h where
  mirrors := fun m right => by
    rw [unmoved, noticesSince, List.drop_eq_nil_iff.mpr quiet]
    exact right
  listens := listens

theorem relayed_attach (balanced : h.Balanced) (listens : h.Listens label) :
    Relayed label (h.attach engine) h := by
  rw [attach_eq]
  split
  · exact relayed_refl h
  · exact relayed_startOver List.prefix_rfl rfl balanced.ledger.sound listens

theorem relayed_detach (h : Highlighter) : Relayed label h.detach h := by
  unfold detach
  split
  · exact relayed_of_detached rfl rfl rfl
  · exact relayed_refl h

theorem relayed_setTheme (balanced : h.Balanced) (listens : h.Listens label) (theme : Theme) :
    Relayed label (h.setTheme engine theme) h := by
  have grows : h.outbox <+: (h.withTheme theme).outbox := List.prefix_rfl
  exact relayed_requeued grows rfl balanced.ledger.sound listens

theorem relayed_setVisible (balanced : h.Balanced) (listens : h.Listens label)
    (visible : Option Span) : Relayed label (h.setVisible visible) h := by
  have named := Scheduler.sameBooks_setVisible h.scheduler
    (visible.map (·.clampTo h.snapshot.size))
  unfold setVisible
  dsimp only
  split
  · refine Relayed.trans (relayed_pump (named.sound balanced.ledger.sound)
      balanced.parsePending_eq_false listens) ?_
    exact relayed_of_owes rfl rfl rfl rfl rfl fun _ => named.owes_iff.mpr
  · rename_i detached
    exact relayed_of_detached rfl rfl (Bool.eq_false_iff.mpr detached)

theorem relayed_invalidate (balanced : h.Balanced) (listens : h.Listens label)
    (span : Option Span) : Relayed label (h.invalidate engine span) h := by
  have sound := balanced.ledger.sound
  cases span with
  | none => exact relayed_requeued List.prefix_rfl rfl sound listens
  | some s =>
      refine (relayed_reconcile (sound_requeue sound _) listens).trans
        (relayed_of_owes rfl rfl rfl rfl rfl fun o owed => ?_)
      unfold requeue
      dsimp only
      split
      · exact Scheduler.owes_request.mpr (Or.inl owed)
      · exact owed

/-- Results that are ready are announced as they are merged. -/
theorem relayed_delivered (balanced : h.Balanced) (listens : h.Listens label)
    (c : HighlighterCall) : Relayed label (h.delivered c) h := by
  have collected : Relayed label h.collectResults.2 h := by
    obtain ⟨spans, patched⟩ := balanced.ledger.patched_collectResults
    exact patched.relayed listens
  cases c with
  | textDidChange snapshot edits => exact collected
  | poll => exact collected
  | _ => exact relayed_refl h

/-- A batch of edits is followed, and so is it by the map; or everything is announced anew. -/
theorem heard_textDidChange (balanced : h.Balanced) (listens : h.collectResults.2.Listens label)
    (snapshot : Snapshot) (edits : List Edit) :
    Heard label (.textDidChange snapshot edits) (h.textDidChange engine snapshot edits)
      h.collectResults.2 := by
  obtain ⟨collected, -⟩ := balanced.collectResults
  unfold textDidChange
  dsimp only
  generalize h.collectResults.2 = d at collected listens
  obtain ⟨ledger, -⟩ := collected.ledger.takeEdits edits
  have moved : ∀ m, (d.takeEdits edits).1 = true →
      (∀ o < d.log.size, d.scheduler.Owes o ∨ m o = d.index.styleAt o) →
      ∀ o < (d.takeEdits edits).2.log.size, (d.takeEdits edits).2.scheduler.Owes o ∨
        edits.foldl (fun m e => e.splice.moveMap m) m o =
          (d.takeEdits edits).2.index.styleAt o :=
    fun m linedUp right => agrees_takeEdits collected.ledger linedUp right
  obtain ⟨log, scheduler, index, eq, -⟩ := takeEdits_eq d edits
  cases inSync : (d.takeEdits edits).1 && (d.takeEdits edits).2.agreesWith snapshot with
  | false =>
    -- The map may hold anything: a highlighter that starts over owes the whole text.
    have anew : Relayed label
        ((restart { (d.takeEdits edits).2 with snapshot }).startOver engine)
        { d with attached := false } := by
      refine relayed_restart ?_ ?_ listens
      · rw [eq]
      · rw [eq]
    rw [follow_of_astray inSync]
    exact ⟨fun m _ => anew.mirrors _ nofun, fun _ => anew.listens listens⟩
  | true =>
    obtain ⟨linedUp, agrees⟩ := Bool.and_eq_true_iff.mp inSync
    rw [follow_of_inSync linedUp agrees]
    simp only [agreesWith, Bool.and_eq_true, beq_iff_eq] at agrees
    split
    · have same : d.outbox = { (d.takeEdits edits).2 with snapshot, parseDue := true }.outbox := by
        rw [eq]
      have registered : Listens label { (d.takeEdits edits).2 with snapshot, parseDue := true } := by
        rw [eq]
        exact listens
      have relayed : Relayed label
          (reconcile engine { (d.takeEdits edits).2 with snapshot, parseDue := true })
          { (d.takeEdits edits).2 with snapshot, parseDue := true } :=
        relayed_reconcile ledger.sound registered
      refine ⟨fun m right => ?_, fun _ => relayed.listens registered⟩
      rw [noticesSince, same]
      refine relayed.mirrors _ fun attached o inside => ?_
      refine moved m linedUp (fun o inside => ?_) o (agrees.2 ▸ inside)
      refine right ?_ o (collected.size ▸ inside)
      rw [eq] at attached
      exact attached
    · rename_i detached
      rw [eq] at detached ⊢
      rw [reconcile_of_detached]
      · exact ⟨fun m _ attached => absurd attached detached, fun _ => listens⟩
      · exact Bool.eq_false_iff.mpr detached

/-- Every call is heard. -/
theorem heard_call (balanced : h.Balanced) (listens : h.Listens label) (c : HighlighterCall) :
    Heard label c (h.call engine c) (h.delivered c) := by
  have listens' := (relayed_delivered balanced listens c).listens listens
  cases c with
  | attach => exact (relayed_attach balanced listens).heard listens rfl
  | detach => exact (relayed_detach h).heard listens rfl
  | setLanguage source => exact (relayed_setLanguage listens source).heard listens rfl
  | setLanguageFrom registry name => exact (relayed_setLanguage listens _).heard listens rfl
  | setTheme theme => exact (relayed_setTheme balanced listens theme).heard listens rfl
  | setVisible visible => exact (relayed_setVisible balanced listens visible).heard listens rfl
  | textDidChange snapshot edits => exact heard_textDidChange balanced listens' snapshot edits
  | invalidate span => exact (relayed_invalidate balanced listens span).heard listens rfl
  | poll =>
      exact (relayed_reconcile balanced.collectResults.1.ledger.sound listens').heard listens' rfl
  | workerStep =>
      have stepped : Relayed label h.workerStep h :=
        relayed_of_owes rfl rfl rfl rfl rfl fun _ => id
      exact stepped.heard listens rfl
  | subscribe other =>
      exact heard_listeners rfl _ _ (Nat.le_refl _) fun _ => List.mem_append_left _ listens
  | unsubscribe id =>
      refine heard_listeners rfl _ _ (Nat.le_refl _) fun stays => List.mem_filter.mpr ⟨listens, ?_⟩
      simpa using (stays id rfl).symm
  | collect => exact heard_listeners rfl _ _ (Nat.zero_le _) fun _ => listens

/-! ### Along every run -/

/-- A map that is moved within each call is right after every run. -/
theorem mirrors_mirrorInStep (balanced : h.Balanced) (listens : h.Listens label)
    (right : Mirrors m h) {calls : List HighlighterCall}
    (stays : ∀ id, .unsubscribe id ∈ calls → id ≠ 1) :
    Mirrors (mirrorInStep engine label h m calls) (h.run engine calls) := by
  induction calls generalizing h m with
  | nil => exact right
  | cons c rest ih =>
      have delivered := (relayed_delivered balanced listens c).mirrors m right
      have heard : Heard label c (h.call engine c) (h.delivered c) := heard_call balanced listens c
      refine ih (balanced.turn c).balanced (heard.listens fun id own => ?_)
        (heard.mirrors _ delivered) fun id later => stays id (List.mem_cons_of_mem c later)
      exact stays id (own ▸ List.mem_cons_self)

/-- In a call that merges nothing for the text of before, it does not matter when the map is
moved. -/
theorem hear_call_of_quiet (balanced : h.Balanced) (listens : h.Listens label)
    (quiet : match c with
      | .textDidChange _ _ => h.collectResults.1 = 0
      | _ => True) :
    hear label (h.noticesSince (h.call engine c)) (c.moveMap m) =
      hear label ((h.delivered c).noticesSince (h.call engine c))
        (c.moveMap (hear label (h.noticesSince (h.delivered c)) m)) := by
  have delivered := relayed_delivered balanced listens c
  cases c with
  | textDidChange snapshot edits =>
      have same : (h.delivered (.textDidChange snapshot edits)).outbox = h.outbox := by
        obtain ⟨scheduler, worker, deferred, eq⟩ := collectResults_of_none_merged quiet
        change h.collectResults.2.outbox = _
        rw [eq]
      rw [noticesSince_of_same same, hear_nil]
      unfold noticesSince
      rw [same]
  | poll =>
      have reconciled : Relayed label (h.call engine .poll) (h.delivered .poll) :=
        relayed_reconcile balanced.collectResults.1.ledger.sound (delivered.listens listens)
      exact hear_noticesSince_trans delivered.grows reconciled.grows
  | _ =>
      dsimp only [Highlighter.delivered]
      rw [noticesSince_of_same (h := h) rfl, hear_nil]

/-- While no change finds a result to merge, it does not matter when the map is moved. -/
theorem mirror_eq_mirrorInStep (balanced : h.Balanced) (listens : h.Listens label)
    {calls : List HighlighterCall} (stays : ∀ id, .unsubscribe id ∈ calls → id ≠ 1)
    (undisturbed : Undisturbed engine h calls) :
    mirror engine label h m calls = mirrorInStep engine label h m calls := by
  induction calls generalizing h m with
  | nil => rfl
  | cons c rest ih =>
      obtain ⟨further, quiet⟩ := undisturbed
      have heard : Heard label c (h.call engine c) (h.delivered c) := heard_call balanced listens c
      rw [mirror, mirrorInStep, hear_call_of_quiet balanced listens quiet]
      refine ih (balanced.turn c).balanced (heard.listens fun id own => ?_)
        (fun id later => stays id (List.mem_cons_of_mem c later)) further
      exact stays id (own ▸ List.mem_cons_self)

/-- Whenever an attached highlighter is idle, a listener that was there from the start and moves its
map within the calls has the categories of all bytes. So has one that moves its map before the
calls, as long as no change of the text finds a result to merge. -/
theorem mirrors_when_idle (engine : ParsingEngine) (label : String) (snapshot : Snapshot)
    (theme : Theme) (config : HighlighterConfig) (calls : List HighlighterCall)
    (stays : ∀ id, .unsubscribe id ∈ calls → id ≠ 1) :
    let start := (make snapshot theme config).call engine (.subscribe label)
    let h := start.run engine calls
    h.attached = true → h.isIdle = true →
      (∀ o < h.snapshot.size,
        mirrorInStep engine label start (fun _ => .unclassified) calls o = h.styleAt o) ∧
      (Undisturbed engine start calls → ∀ o < h.snapshot.size,
        mirror engine label start (fun _ => .unclassified) calls o = h.styleAt o) := by
  intro start h attached idle
  have balanced : start.Balanced :=
    show ((make snapshot theme config).run engine [.subscribe label]).Balanced from
      (balanced_make snapshot theme config).run _
  have listens : start.Listens label := List.mem_singleton_self _
  have right : Mirrors (fun _ => .unclassified) start := nofun
  have inStep : ∀ o < h.snapshot.size,
      mirrorInStep engine label start (fun _ => .unclassified) calls o = h.styleAt o := by
    intro o inside
    rw [styleAt, if_neg (Nat.not_le.mpr inside)]
    exact (mirrors_mirrorInStep balanced listens right stays attached o inside).resolve_left
      (not_owes_of_isIdle idle)
  refine ⟨inStep, fun undisturbed o inside => ?_⟩
  rw [mirror_eq_mirrorInStep balanced listens stays undisturbed]
  exact inStep o inside

/-- A text is highlighted by a job, and a change in its second line by another one; no result is
ready when the text changes, so both maps are right. -/
theorem mirrors_after_insertion :
    let grammar : Grammar := ⟨"words", 14, some ⟨["word"], [[]]⟩, [100]⟩
    let edit : Edit := ⟨1, ⟨4, 4⟩, .ofString "xy"⟩
    let calls : List HighlighterCall :=
      [.setLanguage (some grammar), .attach, .poll,
        .textDidChange ⟨1, .ofString "ab\ncxyd\n"⟩ [edit], .poll]
    ∃ start h : Highlighter,
      start = (make ⟨0, .ofString "ab\ncd\n"⟩ ⟨[("word", 7)]⟩ ⟨⟨0, 0, 100, 1⟩, 2, false⟩).call
        headEngine (.subscribe "view") ∧
      h = start.run headEngine calls ∧ h.attached = true ∧ h.isIdle = true ∧
      mirror headEngine "view" start (fun _ => .unclassified) calls 1 = .styled 7 ∧
      (∀ o < h.snapshot.size,
        mirrorInStep headEngine "view" start (fun _ => .unclassified) calls o = h.styleAt o) ∧
      ∀ o < h.snapshot.size,
        mirror headEngine "view" start (fun _ => .unclassified) calls o = h.styleAt o := by
  have both := mirrors_when_idle headEngine "view" ⟨0, .ofString "ab\ncd\n"⟩ ⟨[("word", 7)]⟩
    ⟨⟨0, 0, 100, 1⟩, 2, false⟩ [.setLanguage (some ⟨"words", 14, some ⟨["word"], [[]]⟩, [100]⟩),
      .attach, .poll, .textDidChange ⟨1, .ofString "ab\ncxyd\n"⟩ [⟨1, ⟨4, 4⟩, .ofString "xy"⟩],
      .poll] (by simp)
  obtain ⟨inStep, before⟩ := both (by cbv) (by cbv)
  refine ⟨_, _, rfl, rfl, by cbv, by cbv, by cbv, inStep, before ?_⟩
  simp only [Undisturbed, and_true, true_and]
  cbv

/-! ### A result of the text before -/

/-- The edits of every change line up with the new text. -/
def InSyncRun (engine : ParsingEngine) : Highlighter → List HighlighterCall → Prop
  | _, [] => True
  | h, c :: rest => InSyncRun engine (h.call engine c) rest ∧
    match c with
    | .textDidChange snapshot edits =>
      (h.takeEdits edits).1 = true ∧ (h.takeEdits edits).2.agreesWith snapshot = true
    | _ => True

/-- An engine that captures the whole of every text. -/
def wholeEngine : ParsingEngine := fun _ _ target =>
  ⟨[⟨target.whole, 0, 0, 0⟩], []⟩

theorem faithful_wholeEngine : ParsingEngine.Faithful wholeEngine := by
  intro g theme t edits target made follows o inside _ _ p moved
  have captures : t.captures = [⟨t.snapshot.whole, 0, 0, 0⟩] := by
    cases made with
    | afresh target => rfl
    | along _ _ => rfl
  have before : p ∈ t.snapshot.whole :=
    ⟨Nat.zero_le p, Snapshot.lt_size_of_follow? follows inside moved⟩
  have within : o ∈ target.whole := ⟨Nat.zero_le o, inside⟩
  unfold SyntaxTree.categoryAt Rules.categoryAt
  rw [captures]
  simp only [wholeEngine, List.filterMap_cons, List.filterMap_nil, Stroke.covering?, before, within,
    if_true]
  cases (Rules.make g theme).captureStyle? 0 with
  | none => rfl
  | some style => rfl

/-- The text is highlighted when the result is merged for which the change came too early: the
listener has moved its map already, so the run arrives at offsets of the text before. Its last byte
is not announced again. -/
theorem mirror_misplaces_merged_result :
    let grammar : Grammar := ⟨"words", 14, some ⟨["word"], [[]]⟩, [100]⟩
    let edit : Edit := ⟨1, ⟨0, 0⟩, .ofString "b"⟩
    let calls : List HighlighterCall :=
      [.setLanguage (some grammar), .attach,
        .textDidChange ⟨1, .ofString "ba\nx\n"⟩ [edit], .poll]
    ∃ start h : Highlighter,
      start = (make ⟨0, .ofString "a\nx\n"⟩ ⟨[("word", 7)]⟩ ⟨⟨0, 0, 100, 1⟩, 2, false⟩).call
        wholeEngine (.subscribe "view") ∧
      ParsingEngine.Faithful wholeEngine ∧ HonestRun wholeEngine start calls ∧
      InSyncRun wholeEngine start calls ∧ (∀ c ∈ calls, c ≠ .detach) ∧
      h = start.run wholeEngine calls ∧ h.attached = true ∧ h.isIdle = true ∧
      4 < h.snapshot.size ∧ h.styleAt 4 = .styled 7 ∧
      mirror wholeEngine "view" start (fun _ => .unclassified) calls 4 = .unclassified := by
  refine ⟨_, _, rfl, faithful_wholeEngine, ?_, ?_, ?_, rfl, ?_, ?_, ?_, ?_, ?_⟩
  · simp only [HonestRun, Honest, snapshot_call, textAfter, true_and, and_true]
    intro _ _
    exact ⟨⟨1, .ofString "ba\nx\n"⟩, by decide +kernel, rfl⟩
  · simp only [InSyncRun, and_true, true_and]
    constructor
    · cbv
    · cbv
  · simp
  · cbv
  · cbv
  · cbv
  · cbv
  · cbv

end Highlighter

end Highlighting
