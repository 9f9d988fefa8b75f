import LcmX.ClassifierPlan

/-!
# Every occurrence is consumed once

No two replay rows of a classification share a target, and the planned entries
follow the rows of the view one by one.
-/
namespace Classifier

open IngestLedger Packed Fallible

theorem length_buildRows (h : Helpers) (salt : Bytes) (neverStored : Option (Message → Bool)) (messages : List Message)
    (start : Nat) (calls : Calls) : (buildRows h salt neverStored start calls messages).length = messages.length := by
  induction messages generalizing start calls with
  | nil => rfl
  | cons m messages ih => simp [buildRows, ih]

@[simp] theorem length_buildView (h : Helpers) (salt : Bytes) (messages : List Message)
    (neverStored : Option (Message → Bool)) : (buildView h salt messages neverStored).length = messages.length :=
  length_buildRows h salt neverStored messages 0 _

/-- The entry of a row: its own digests, and a reference to its target or to the new row. -/
structure EntryOf (row : IncomingRow) (v : RowVerdict) (entry : PlannedEntry) : Prop where
  identity : entry.identityDigest = row.identityDigest
  stamp : entry.stampDigest = row.stampDigest
  uidset : entry.uidsetDigest = row.uidsetDigest
  skipped : v.verdict = .skip → entry.ref = none
  fresh : v.verdict = .new → entry.ref = some (.newRow row.index)
  replayed : v.verdict = .replay → ∃ t, v.target = some t ∧ entry.ref = some (.bound t)

theorem entryOf_plannedEntry {row : IncomingRow} {v : RowVerdict} (h : v.verdict = .replay → ∃ t, v.target = some t) :
    EntryOf row v (Context.plannedEntry row v) := by
  constructor
  · rfl
  · rfl
  · rfl
  · intro hv
    simp [Context.plannedEntry, Context.rowRef, hv]
  · intro hv
    simp [Context.plannedEntry, Context.rowRef, hv]
  · intro hv
    obtain ⟨t, ht⟩ := h hv
    exact ⟨t, ht, by simp [Context.plannedEntry, Context.rowRef, hv, ht]⟩

/-- What a finished pass leaves in its rows and entries. -/
theorem execute_once {c : Context} (hview : Indexed c.view) {r : Pass} (h : c.execute = .ok r) :
    Once r ∧ r.plan.entries = c.view.map fun row => Context.plannedEntry row (r.rows row.index) := by
  obtain ⟨decided, hdecided, rfl⟩ := Context.execute_finish h
  obtain ⟨honce, hplan⟩ := Context.decided_once hview hdecided
  obtain ⟨hsame, -, -, hentries⟩ := Context.finish_planned (c := c) decided
  refine ⟨((Context.cuts_cutting decided).2 honce).sameCore hsame, ?_⟩
  rw [hentries, hplan, List.nil_append]
  apply List.map_congr_left
  intro row _
  exact (Context.plannedEntry_congr (hsame.core row.index) row).symm

/-- Replay rows have different targets, and each row has one planned entry, its own, in view order. -/
theorem consume_once {helpers : Helpers} {salt : Bytes} {messages : List Message}
    {neverStored : Option (Message → Bool)}
    {snapshot : Snapshot} {oracle : Oracle} {mode : UidMode} {result : Classification}
    (h : classify helpers (buildView helpers salt messages neverStored) snapshot oracle mode = .ok result) :
    (∀ (i j : Nat) (v w : RowVerdict), result.rows[i]? = some v → result.rows[j]? = some w →
      v.verdict = .replay → w.verdict = .replay →
      v.target = w.target → i = j) ∧
    result.rows.length = messages.length ∧ result.writes.entries.length = messages.length ∧
    ∀ (n : Nat) (row : IncomingRow), (buildView helpers salt messages neverStored)[n]? = some row →
      ∃ v entry, result.rows[n]? = some v ∧ result.writes.entries[n]? = some entry ∧ EntryOf row v entry := by
  obtain ⟨r, hr, hrows, -, -, hwrites⟩ := classify_pass h
  have hview := indexed_buildView helpers salt messages neverStored
  obtain ⟨honce, hentries⟩ := execute_once (c := finalContext helpers _ snapshot oracle mode) hview hr
  replace hentries : result.writes.entries = (buildView helpers salt messages neverStored).map fun row =>
      Context.plannedEntry row (r.rows row.index) := by
    rw [hwrites]
    exact hentries
  have hrow : ∀ (i : Nat) (v : RowVerdict), result.rows[i]? = some v → v = r.rows i := by
    intro i v hv
    rw [hrows, getElem?_rows] at hv
    exact hv.2
  refine ⟨?_, by simp [hrows], by simp [hentries], ?_⟩
  · intro i j v w hv hw hvr hwr heq
    rw [hrow i v hv] at hvr heq
    rw [hrow j w hw] at hwr heq
    exact honce.once i j hvr hwr heq
  · intro n row hn
    have hindex := hview n row hn
    have hlt : n < (buildView helpers salt messages neverStored).length := (List.getElem?_eq_some_iff.mp hn).1
    refine ⟨r.rows n, Context.plannedEntry row (r.rows n), ?_, ?_, ?_⟩
    · rw [hrows, getElem?_rows]
      exact ⟨hlt, rfl⟩
    · rw [hentries, List.getElem?_map, hn, Option.map_some, hindex]
    · apply entryOf_plannedEntry
      intro hv
      obtain ⟨t, -, ht⟩ := honce.claimed n hv
      exact ⟨t, ht⟩

/-! ## A small lineage -/

/-- A digest without collisions on short texts. -/
def sampleDigest (_key input : Bytes) : Bytes :=
  bigEndian 16 (input.foldl (fun acc b => (acc * 257 + b.toNat + 1) % 2 ^ 128) 0)

def sampleHelpers : Helpers where
  stripScaffolding := id
  toolCallsIdentity := fun calls => String.join (calls.map fun c => c.elim "" fun c => text c.id ++ c.body)
  stampText := fun value => value.filter (· ≠ "")
  stampText_ne_empty := by
    intro value h
    simp [Option.filter_eq_some_iff] at h
  blake2b := sampleDigest
  length_blake2b := by
    intro key input
    simp [sampleDigest]

/-- No aliases, and no generated markers. -/
def sampleOracle : Oracle := ⟨fun _ _ => [], fun _ _ => [], fun _ => false⟩

def userMessage (content : String) (stamp : Option String) : Message :=
  ⟨some "user", some content, [], none, none, none, none, [], stamp⟩

def callMessage (id : String) (stamp : Option String) : Message :=
  ⟨some "assistant", none, [some ⟨some id, "read"⟩], none, none, none, none, [], stamp⟩

def resultMessage (id content : String) (stamp : Option String) : Message :=
  ⟨some "tool", some content, [], some id, none, none, none, [], stamp⟩

/-- The stored binding of a message; its ordinal is a hundred times its id. -/
def storedBinding (occ : Int) (m : Message) (stamp observedAt : Option String) : Binding :=
  ⟨occ, some (100 * occ), some occ, sampleHelpers.identityDigest [] m, stamp, .stored, m.role, m.content, m.toolCallId,
    m.toolCalls, none, observedAt, some "session"⟩

def sampleEntry (m : Message) (occ : Int) : ViewEntry :=
  ⟨some (sampleHelpers.identityDigest [] m), sampleHelpers.stampDigest [] m.timestamp, none, some occ, false⟩

def sampleSnapshot (record : List ViewEntry) (bindings : List Binding)
    (h : (bindings.map Binding.occId).Nodup) : Snapshot where
  lineage := "lineage"
  salt := []
  stampUnreliable := false
  records := [⟨.ingest, 1, true, record⟩]
  emissions := []
  emissions_nodup := .nil
  bindings := bindings
  bindings_nodup := h
  stampObservations := []
  stampRelations := []
  uidBindings := []
  unbound := 0
  pendingDigests := []
  queryCount := 0

/-- One stored message, sent twice. -/
def sentTwice : Except ClassifierError Classification :=
  classify sampleHelpers (buildView sampleHelpers [] [userMessage "hi" none, userMessage "hi" none] none)
    (sampleSnapshot [sampleEntry (userMessage "hi" none) 1]
      [storedBinding 1 (userMessage "hi" none) none none] (by decide))
    sampleOracle .off

theorem consume_once_sentTwice :
    ∃ result, sentTwice = .ok result ∧ result.rows.map (fun v => (v.verdict, v.target)) =
      [(.replay, some (.occ 1)), (.new, none)] ∧ result.writes.entries.length = 2 := by
  obtain ⟨result, h⟩ := exists_ok (x := sentTwice) (by decide +kernel)
  exact ⟨result, h, map_of_ok (fun r => r.rows.map fun v => (v.verdict, v.target)) h (by decide +kernel),
    (consume_once h).2.2.1⟩

end Classifier
